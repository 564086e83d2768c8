import Sentential.Formula.Printer

/-!
# Clauses

A literal is a name or its negation, a clause the disjunction of a set of literals, a clause set
the conjunction of a list of clauses. So a set without clauses is true and an empty clause is
false. Under a partial valuation a clause is true only when one of its literals already is.

* `Literal.eval_toFormula`, `Clause.eval_toFormula_of_eval`, `ClauseSet.eval_toFormula_of_eval`:
  what is true as clauses is true as a formula.
-/

namespace Sentential

/-! ## Literals -/

/-- A name or its negation. -/
structure Literal where
  var : String
  negated : Bool
  deriving DecidableEq

namespace Literal

/-- By name, and the positive literal before the negated one. -/
instance : Ord Literal := ⟨compareLex (compareOn Literal.var) (compareOn Literal.negated)⟩

instance : Std.TransOrd Literal := inferInstanceAs (Std.TransCmp (compareLex _ _))

instance : Std.LawfulEqOrd Literal where
  eq_of_compare {a b} h := by
    replace h : (compare a.var b.var).then (compare a.negated b.negated) = .eq := h
    rw [Ordering.then_eq_eq, Std.LawfulEqCmp.compare_eq_iff_eq,
      Std.LawfulEqCmp.compare_eq_iff_eq] at h
    cases a; cases b
    exact Literal.mk.injEq .. ▸ h

/-- The literal of the same name with the opposite sign. -/
def negate (l : Literal) : Literal :=
  { l with negated := !l.negated }

/-- The value that the name must have for the literal to be true. -/
def polarity (l : Literal) : Bool :=
  !l.negated

/-- The value of a literal, if its name has one. -/
def value? (l : Literal) (v : Valuation) : Option Bool :=
  v[l.var]?.map (· != l.negated)

/-- A literal as a formula. -/
def toFormula (l : Literal) : Formula :=
  if l.negated then .neg (.atom l.var) else .atom l.var

/-- The text of a literal. -/
def text (l : Literal) : String :=
  if l.negated then "!" ++ l.var else l.var

theorem eval_toFormula {l : Literal} {v : Valuation} {b : Bool} (h : l.value? v = some b) :
    l.toFormula.eval v = b := by
  obtain ⟨c, hc, rfl⟩ := Option.map_eq_some_iff.1 h
  cases hn : l.negated <;> simp [toFormula, hn, Formula.eval, Valuation.value, hc]

end Literal

/-! ## Clauses -/

/-- A disjunction of literals. -/
structure Clause where
  literals : Std.ExtTreeSet Literal
  deriving DecidableEq

namespace Clause

/-- The clause of some literals; repeats vanish. -/
def ofList (ls : List Literal) : Clause :=
  ⟨.ofList ls⟩

/-- The literals by name, positive before negated. -/
def toList (c : Clause) : List Literal :=
  c.literals.toList

instance : Membership Literal Clause := ⟨fun c l => l ∈ c.literals⟩

@[simp] theorem mem_toList {c : Clause} {l : Literal} : l ∈ c.toList ↔ l ∈ c :=
  Std.ExtTreeSet.mem_toList

@[simp] theorem mem_ofList {ls : List Literal} {l : Literal} : l ∈ ofList ls ↔ l ∈ ls :=
  Std.ExtTreeSet.mem_ofList.trans List.contains_iff_mem

/-- Whether the clause has no literals. -/
def isEmpty (c : Clause) : Bool :=
  c.literals.isEmpty

/-- Whether the clause holds some literal with either sign. -/
def isTautology (c : Clause) : Bool :=
  c.toList.any fun l => c.literals.contains l.negate

/-- Whether one of the literals is true. -/
def eval (c : Clause) (v : Valuation) : Bool :=
  c.toList.any fun l => l.value? v = some true

/-- The disjunction of the literals. -/
def toFormula (c : Clause) : Formula :=
  .disjunction (c.toList.map Literal.toFormula)

/-- The text of a clause. -/
def text (c : Clause) : String :=
  "\x7b" ++ " | ".intercalate (c.toList.map Literal.text) ++ "\x7d"

/-- Clauses are ordered as their sorted lists of literals. -/
instance : Ord Clause := ⟨fun c d => compare c.toList d.toList⟩

theorem eval_toFormula_of_eval {c : Clause} {v : Valuation} (h : c.eval v) :
    c.toFormula.eval v := by
  obtain ⟨l, hl, ht⟩ := List.any_eq_true.1 h
  rw [toFormula, Formula.eval_disjunction, List.any_map]
  exact List.any_eq_true.2 ⟨l, hl, Literal.eval_toFormula (by simpa using ht)⟩

end Clause

/-! ## Clause sets -/

/-- A conjunction of clauses. -/
structure ClauseSet where
  clauses : List Clause
  deriving DecidableEq

namespace ClauseSet

/-- Whether there are no clauses. -/
def isEmpty (s : ClauseSet) : Bool :=
  s.clauses.isEmpty

/-- Whether some clause has no literals. -/
def hasEmptyClause (s : ClauseSet) : Bool :=
  s.clauses.any Clause.isEmpty

/-- The literals of all clauses, clause by clause. -/
def occurrences (s : ClauseSet) : List Literal :=
  s.clauses.flatMap Clause.toList

/-- The names in the clauses, sorted and without repeats. -/
def vars (s : ClauseSet) : List String :=
  (Std.ExtTreeSet.ofList (s.occurrences.map Literal.var)).toList

/-- Whether every clause is true. -/
def eval (s : ClauseSet) (v : Valuation) : Bool :=
  s.clauses.all (·.eval v)

/-- The conjunction of the clauses. -/
def toFormula (s : ClauseSet) : Formula :=
  .conjunction (s.clauses.map Clause.toFormula)

/-- The text of a clause set. -/
def text (s : ClauseSet) : String :=
  "\x7b" ++ ", ".intercalate (s.clauses.map Clause.text) ++ "\x7d"

theorem eval_toFormula_of_eval {s : ClauseSet} {v : Valuation} (h : s.eval v) :
    s.toFormula.eval v := by
  rw [toFormula, Formula.eval_conjunction, List.all_map]
  exact List.all_eq_true.2 fun c hc => Clause.eval_toFormula_of_eval (List.all_eq_true.1 h c hc)

end ClauseSet

end Sentential
