import Sentential.Valuation
import Std.Data.ExtTreeSet

/-!
# Formulas

Sentential formulas over named atoms, and what they mean under a valuation. A group records that
the text of a formula had brackets around a part; it means what the part means.

* `eval_congr`: two valuations that agree on a formula's atoms give it the same value.
* `mem_vars`: the variables of a formula are the names that occur in it.
* `eval_ungroup`, `eval_conjunction`, `eval_disjunction`: the meaning of the derived forms.
-/

namespace Sentential

/-- The binary connectives, tightest first. -/
inductive Connective where
  | conj
  | disj
  | imp
  | iff
  deriving DecidableEq

/-- The truth function of a connective. -/
def Connective.apply : Connective → Bool → Bool → Bool
  | conj, a, b => a && b
  | disj, a, b => a || b
  | imp, a, b => !a || b
  | iff, a, b => a == b

/-- The sign that writes a connective. -/
def Connective.symbol : Connective → String
  | conj => "&"
  | disj => "|"
  | imp => "=>"
  | iff => "<=>"

/-- A formula of sentential logic. -/
inductive Formula where
  | bottom
  | top
  | atom (name : String)
  | neg (p : Formula)
  | binary (op : Connective) (p q : Formula)
  | group (p : Formula)
  deriving DecidableEq

namespace Formula

/-- `p` and `q`. -/
@[match_pattern] abbrev conj (p q : Formula) : Formula := binary .conj p q

/-- `p` or `q`. -/
@[match_pattern] abbrev disj (p q : Formula) : Formula := binary .disj p q

/-- If `p` then `q`. -/
@[match_pattern] abbrev imp (p q : Formula) : Formula := binary .imp p q

/-- `p` if and only if `q`. -/
@[match_pattern] abbrev iff (p q : Formula) : Formula := binary .iff p q

/-! ## Meaning -/

/-- The value of a formula under a valuation; an atom without a value is false. -/
def eval : Formula → Valuation → Bool
  | bottom, _ => false
  | top, _ => true
  | atom name, v => v.value name
  | neg p, v => !p.eval v
  | binary op p q, v => op.apply (p.eval v) (q.eval v)
  | group p, v => p.eval v

/-! ## Atoms -/

/-- Combines the names of the atoms from right to left: the last atom is combined with `start`
first. -/
def foldAtoms {α : Type} (combine : String → α → α) (start : α) : Formula → α
  | bottom | top => start
  | atom name => combine name start
  | neg p | group p => p.foldAtoms combine start
  | binary _ p q => p.foldAtoms combine (q.foldAtoms combine start)

/-- The names of the atoms in reading order, each as often as it occurs. -/
def occurrences (f : Formula) : List String :=
  f.foldAtoms List.cons []

/-- The names of the atoms. -/
def atoms (f : Formula) : Std.ExtTreeSet String :=
  .ofList f.occurrences

/-- The variables: the names of the atoms, sorted and without repeats. -/
def vars (f : Formula) : List String :=
  f.atoms.toList

private theorem foldAtoms_cons (f : Formula) (start : List String) :
    f.foldAtoms List.cons start = f.occurrences ++ start := by
  induction f generalizing start with
  | bottom | top | atom => rfl
  | neg p ih | group p ih => exact ih start
  | binary op p q ihp ihq =>
    rw [occurrences, foldAtoms, foldAtoms, ihp, ihp (q.foldAtoms _ _), ihq, ihq []]
    simp

theorem occurrences_binary (op : Connective) (p q : Formula) :
    (binary op p q).occurrences = p.occurrences ++ q.occurrences :=
  foldAtoms_cons p q.occurrences

@[simp] theorem mem_vars {f : Formula} {name : String} : name ∈ f.vars ↔ name ∈ f.occurrences := by
  simp [vars, atoms, Std.ExtTreeSet.mem_toList, Std.ExtTreeSet.mem_ofList]

/-- Two valuations that agree on the atoms of a formula give it the same value. -/
theorem eval_congr {f : Formula} {v w : Valuation}
    (h : ∀ name ∈ f.occurrences, v.value name = w.value name) : f.eval v = f.eval w := by
  induction f with
  | bottom | top => rfl
  | atom name => exact h name (by simp [occurrences, foldAtoms])
  | neg p ih => simp only [eval]; rw [ih h]
  | group p ih => exact ih h
  | binary op p q ihp ihq =>
    rw [occurrences_binary] at h
    simp only [eval]
    rw [ihp fun n hn => h n (by simp [hn]), ihq fun n hn => h n (by simp [hn])]

/-! ## Shape -/

/-- The formula inside any number of outer groups. -/
def ungroup : Formula → Formula
  | group p => p.ungroup
  | f => f

@[simp] theorem eval_ungroup (f : Formula) (v : Valuation) : f.ungroup.eval v = f.eval v := by
  induction f with
  | group p ih => exact ih
  | _ => rfl

/-- The operands of an outermost `op`, all three freed of outer groups. -/
def operands? (op : Connective) (f : Formula) : Option (Formula × Formula) :=
  match f.ungroup with
  | binary op' p q => if op' = op then some (p.ungroup, q.ungroup) else none
  | _ => none

/-- The name, if the formula is an atom inside any number of groups. -/
def atomName? (f : Formula) : Option String :=
  match f.ungroup with
  | atom name => some name
  | _ => none

/-- An atom or the negation of one, without groups. -/
def isLiteral : Formula → Bool
  | atom _ | neg (atom _) => true
  | _ => false

/-- The opposite of a formula: a negation loses its sign, all else gains one. -/
def negate : Formula → Formula
  | neg p => p
  | f => neg f

/-- All of `fs` together, from the left; `top` when there are none. -/
def conjunction : List Formula → Formula
  | [] => top
  | f :: fs => fs.foldl conj f

/-- Some of `fs`, from the left; `bottom` when there are none. -/
def disjunction : List Formula → Formula
  | [] => bottom
  | f :: fs => fs.foldl disj f

private theorem eval_foldl_conj (f : Formula) (fs : List Formula) (v : Valuation) :
    (fs.foldl conj f).eval v = (f.eval v && fs.all (·.eval v)) := by
  induction fs generalizing f with
  | nil => simp
  | cons g fs ih => simp [ih, eval, Connective.apply, Bool.and_assoc]

private theorem eval_foldl_disj (f : Formula) (fs : List Formula) (v : Valuation) :
    (fs.foldl disj f).eval v = (f.eval v || fs.any (·.eval v)) := by
  induction fs generalizing f with
  | nil => simp
  | cons g fs ih => simp [ih, eval, Connective.apply, Bool.or_assoc]

@[simp] theorem eval_conjunction (fs : List Formula) (v : Valuation) :
    (conjunction fs).eval v = fs.all (·.eval v) := by
  cases fs with
  | nil => rfl
  | cons f fs => simp [conjunction, eval_foldl_conj]

@[simp] theorem eval_disjunction (fs : List Formula) (v : Valuation) :
    (disjunction fs).eval v = fs.any (·.eval v) := by
  cases fs with
  | nil => rfl
  | cons f fs => simp [disjunction, eval_foldl_disj]

end Formula

end Sentential
