import Sentential.Formula.Parser

/-!
# The grammar of formulas

From the loosest level to the tightest:

    iff   := imp ("<=>" imp)*
    imp   := or ("=>" or)*
    or    := and ("|" and)*
    and   := unary ("&" unary)*
    unary := "!" unary | atom
    atom  := IDENT | "TRUE" | "FALSE" | "(" iff ")"

A chain folds to the left and a pair of brackets is a group. No rule has an illegal token.

* `Derives`: the tokens of a level, and the tree they stand for.
* `Derives.loosen`: what a level derives, every looser level derives too.
* `Formula.marks`: the tokens of a tree, each with the brackets and negations around it.
* `Derives.kinds_eq`: a tree is derived from its own tokens only.
* `Formula.forall_mem_marks_iff`: the deepest token stands as deep as the tree is nested.
-/

namespace Sentential

/-- A level of the grammar: a chain of the operands of one connective, a formula under negations, or
an atom. -/
inductive Level where
  | chain (op : Connective)
  | unary
  | atom
  deriving DecidableEq

namespace Level

/-- The level of the operands of a connective. -/
def ofOperands : Connective → Level
  | .iff => chain .imp
  | .imp => chain .disj
  | .disj => chain .conj
  | .conj => unary

/-- The next tighter level, if there is one. -/
def next : Level → Level
  | chain op => ofOperands op
  | unary | atom => atom

/-- How tightly the tokens of a level hold together. -/
def strength : Level → Nat
  | chain op => op.strength
  | unary => 4
  | atom => 5

@[simp] theorem strength_chain (op : Connective) : (chain op).strength = op.strength := rfl

@[simp] theorem strength_unary : unary.strength = 4 := rfl

@[simp] theorem strength_atom : atom.strength = 5 := rfl

@[simp] theorem strength_ofOperands (op : Connective) :
    (ofOperands op).strength = op.strength + 1 := by
  cases op <;> rfl

theorem strength_le (l : Level) : l.strength ≤ 5 := by
  rcases l with (_ | _ | _ | _) | _ | _ <;> decide

theorem strength_next {l : Level} (h : l ≠ atom) : l.next.strength = l.strength + 1 := by
  cases l with
  | chain op => exact strength_ofOperands op
  | unary => rfl
  | atom => exact absurd rfl h

theorem strength_inj {l l' : Level} : l.strength = l'.strength ↔ l = l' := by
  rcases l with (_ | _ | _ | _) | _ | _ <;> rcases l' with (_ | _ | _ | _) | _ | _ <;> decide

end Level

theorem Connective.strength_lt_four (op : Connective) : op.strength < 4 := by
  cases op <;> decide

/-! ## Derivations -/

/-- An operand of a chain: its tokens and its tree. -/
abbrev Operand := List TokenKind × Formula

/-- The tokens of a chain whose first operand has the tokens `ts`. -/
def chainTokens (op : Connective) (ts : List TokenKind) (rest : List Operand) : List TokenKind :=
  ts ++ rest.flatMap fun operand => .connective op :: operand.1

/-- The tree of a chain whose first operand has the tree `f`. -/
def chainTree (op : Connective) (f : Formula) (rest : List Operand) : Formula :=
  rest.foldl (fun g operand => .binary op g operand.2) f

/-- The grammar: the tokens that a level derives, and the tree they stand for. -/
inductive Derives : Level → List TokenKind → Formula → Prop
  | chain {op : Connective} {ts : List TokenKind} {f : Formula} {rest : List Operand}
      (first : Derives (.ofOperands op) ts f)
      (others : ∀ operand ∈ rest, Derives (.ofOperands op) operand.1 operand.2) :
      Derives (.chain op) (chainTokens op ts rest) (chainTree op f rest)
  | neg {ts : List TokenKind} {p : Formula} (inner : Derives .unary ts p) :
      Derives .unary (.neg :: ts) (.neg p)
  | ofAtom {ts : List TokenKind} {f : Formula} (inner : Derives .atom ts f) : Derives .unary ts f
  | name (name : String) : Derives .atom [.identifier name] (.atom name)
  | top : Derives .atom [.top] .top
  | bottom : Derives .atom [.bottom] .bottom
  | group {ts : List TokenKind} {p : Formula} (inner : Derives (.chain .iff) ts p) :
      Derives .atom (.opening :: ts ++ [.closing]) (.group p)

namespace Derives

variable {op : Connective} {l : Level} {ts us : List TokenKind} {f g : Formula}

/-- A single operand is a chain. -/
theorem single (h : Derives (.ofOperands op) ts f) : Derives (.chain op) ts f := by
  have hnone : ∀ operand ∈ ([] : List Operand), Derives (.ofOperands op) operand.1 operand.2 := by
    simp
  simpa [chainTokens, chainTree] using chain h hnone

/-- A chain may go on by one operand. -/
theorem snoc (h : Derives (.chain op) ts f) (h' : Derives (.ofOperands op) us g) :
    Derives (.chain op) (ts ++ .connective op :: us) (.binary op f g) := by
  cases h with
  | @chain _ ts f rest first others =>
    have hall : ∀ operand ∈ rest ++ [(us, g)], Derives (.ofOperands op) operand.1 operand.2 := by
      intro operand hmem
      rcases List.mem_append.1 hmem with hmem | hmem
      · exact others operand hmem
      · rw [List.mem_singleton.1 hmem]
        exact h'
    simpa [chainTokens, chainTree, List.flatMap_append] using chain first hall

theorem of_next (h : Derives l.next ts f) : Derives l ts f := by
  cases l with
  | chain op => exact single h
  | unary => exact ofAtom h
  | atom => exact h

/-- What a level derives, every looser level derives too. -/
theorem loosen {l' : Level} (h : Derives l ts f) (hl : l'.strength ≤ l.strength) :
    Derives l' ts f := by
  by_cases heq : l'.strength = l.strength
  · rwa [Level.strength_inj.1 heq]
  · have hatom : l' ≠ .atom := by
      rintro rfl
      have := l.strength_le
      rw [Level.strength_atom] at hl heq
      omega
    have hnext := Level.strength_next hatom
    exact of_next (h.loosen (by omega))
termination_by 5 - l'.strength
decreasing_by
  have := l.strength_le
  omega

end Derives

/-! ## The tokens of a tree -/

namespace Formula

/-- The tokens of a tree whose groups are its only brackets. -/
def kinds : Formula → List TokenKind
  | .bottom => [.bottom]
  | .top => [.top]
  | .atom name => [.identifier name]
  | .neg p => .neg :: p.kinds
  | .binary op p q => p.kinds ++ .connective op :: q.kinds
  | .group p => .opening :: p.kinds ++ [.closing]

/-- The tokens of a tree inside `depth` brackets and negations, each with the number of brackets
that are open and of negations that are pending where it stands. -/
def marks (depth : Nat) : Formula → List (TokenKind × Nat)
  | .bottom => [(.bottom, depth)]
  | .top => [(.top, depth)]
  | .atom name => [(.identifier name, depth)]
  | .neg p => (.neg, depth) :: p.marks (depth + 1)
  | .binary op p q => p.marks depth ++ (.connective op, depth) :: q.marks depth
  | .group p => (.opening, depth) :: p.marks (depth + 1) ++ [(.closing, depth + 1)]

/-- How many groups and negations stand inside each other. -/
def nesting : Formula → Nat
  | .bottom | .top | .atom _ => 0
  | .neg p | .group p => p.nesting + 1
  | .binary _ p q => max p.nesting q.nesting

theorem map_fst_marks (depth : Nat) (f : Formula) : (f.marks depth).map Prod.fst = f.kinds := by
  induction f generalizing depth with
  | bottom | top | atom => rfl
  | neg p ih | group p ih => simp [marks, kinds, ih]
  | binary op p q ihp ihq => simp [marks, kinds, ihp, ihq]

/-- The deepest token stands as deep as the tree is nested. -/
theorem forall_mem_marks_iff {f : Formula} {depth limit : Nat} :
    (∀ mark ∈ f.marks depth, mark.2 ≤ limit) ↔ depth + f.nesting ≤ limit := by
  induction f generalizing depth with
  | bottom | top | atom => simp [marks, nesting]
  | neg p ih =>
    simp only [marks, nesting, List.forall_mem_cons, ih]
    omega
  | group p ih =>
    simp only [marks, nesting, List.cons_append, List.forall_mem_cons, List.forall_mem_append, ih,
      List.not_mem_nil, false_imp_iff, implies_true, and_true]
    omega
  | binary op p q ihp ihq =>
    simp only [marks, nesting, List.forall_mem_cons, List.forall_mem_append, ihp, ihq]
    omega

end Formula

section Chain

variable {op : Connective} {ts : List TokenKind} {f : Formula} {rest : List Operand}

theorem nesting_chainTree_le {n : Nat} : (chainTree op f rest).nesting ≤ n ↔
    f.nesting ≤ n ∧ ∀ operand ∈ rest, operand.2.nesting ≤ n := by
  induction rest generalizing f with
  | nil => simp [chainTree]
  | cons operand rest ih =>
    have hfold : chainTree op f (operand :: rest) =
        chainTree op (.binary op f operand.2) rest := rfl
    rw [hfold, ih, List.forall_mem_cons, Formula.nesting, Nat.max_le, and_assoc]

theorem kinds_chainTree (hfirst : f.kinds = ts)
    (hrest : ∀ operand ∈ rest, operand.2.kinds = operand.1) :
    (chainTree op f rest).kinds = chainTokens op ts rest := by
  induction rest generalizing f ts with
  | nil => simpa [chainTree, chainTokens] using hfirst
  | cons operand rest ih =>
    obtain ⟨hoperand, hrest⟩ := List.forall_mem_cons.1 hrest
    have hjoined : (Formula.binary op f operand.2).kinds = ts ++ .connective op :: operand.1 := by
      rw [Formula.kinds, hfirst, hoperand]
    simpa [chainTree, chainTokens] using ih hjoined hrest

end Chain

/-- A tree is derived from its own tokens only. -/
theorem Derives.kinds_eq {l : Level} {ts : List TokenKind} {f : Formula} (h : Derives l ts f) :
    f.kinds = ts := by
  induction h with
  | chain _ _ ihfirst ihrest => exact kinds_chainTree ihfirst ihrest
  | neg _ ih | group _ ih => simp [Formula.kinds, ih]
  | ofAtom _ ih => exact ih
  | name | top | bottom => rfl

/-- The names of a tree are tokens of it. -/
theorem Formula.identifier_mem_kinds {f : Formula} {name : String} (h : name ∈ f.occurrences) :
    .identifier name ∈ f.kinds := by
  induction f with
  | bottom | top => simp [occurrences, foldAtoms] at h
  | atom a =>
    obtain rfl : name = a := by simpa [occurrences, foldAtoms] using h
    exact List.mem_singleton.2 rfl
  | neg p ih => exact List.mem_cons_of_mem _ (ih h)
  | group p ih => exact List.mem_cons_of_mem _ (List.mem_append_left _ (ih h))
  | binary op p q ihp ihq =>
    rw [occurrences_binary] at h
    rcases List.mem_append.1 h with h | h
    · exact List.mem_append_left _ (ihp h)
    · exact List.mem_append_right _ (List.mem_cons_of_mem _ (ihq h))

end Sentential
