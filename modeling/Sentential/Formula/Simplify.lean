import Sentential.Formula.Basic

/-!
# Simplifying formulas

One step applies the laws of identity, domination, idempotence, complement and absorption, double
negation and the constant cases of the arrows at the root of a formula. A pass takes the step at
every node from the leaves up and drops groups. Passes repeat until one changes nothing, a limited
number of times.

* `eval_simplifyStep`, `eval_simplifyPass`, `eval_simplifyWithLimit`: the meaning is kept.
-/

namespace Sentential.Formula

/-- Whether one of two formulas is the negation of the other. -/
def complementary (p q : Formula) : Bool :=
  p = neg q || q = neg p

/-- Whether `q` is an `op` formula with `p` as an operand. -/
def absorbs (op : Connective) (p q : Formula) : Bool :=
  match q with
  | binary op' a b => op' = op && (a = p || b = p)
  | _ => false

/-- The laws of a lattice operation `op` with the given unit and zero, where `dual` is the other
operation. They serve conjunction and disjunction alike. -/
def simplifyLattice (op dual : Connective) (one zero p q : Formula) : Formula :=
  if q = one then p
  else if p = one then q
  else if p = zero ∨ q = zero then zero
  else if p = q then p
  else if complementary p q then zero
  else if absorbs dual p q then p
  else if absorbs dual q p then q
  else binary op p q

/-- An implication with a constant side is decided by it, and a formula implies itself. -/
def simplifyImp (p q : Formula) : Formula :=
  if q = top ∨ p = bottom then top
  else if p = top then q
  else if q = bottom then neg p
  else if p = q then top
  else imp p q

/-- An equivalence with a constant side is the other side or its negation. -/
def simplifyIff (p q : Formula) : Formula :=
  if p = q then top
  else if p = top then q
  else if q = top then p
  else if p = bottom then neg q
  else if q = bottom then neg p
  else if complementary p q then bottom
  else iff p q

/-- The laws at the root of a formula. -/
def simplifyStep : Formula → Formula
  | neg bottom => top
  | neg top => bottom
  | neg (neg p) => p
  | conj p q => simplifyLattice .conj .disj top bottom p q
  | disj p q => simplifyLattice .disj .conj bottom top p q
  | imp p q => simplifyImp p q
  | iff p q => simplifyIff p q
  | group p => p
  | f => f

/-- The step at every node, from the leaves up, with groups dropped. -/
def simplifyPass : Formula → Formula
  | neg p => (neg p.simplifyPass).simplifyStep
  | binary op p q => (binary op p.simplifyPass q.simplifyPass).simplifyStep
  | group p => p.simplifyPass
  | f => f

/-- Up to `n` more passes, ended early by one that changes nothing. -/
def repeatPasses : Nat → Formula → Formula
  | 0, f => f
  | n + 1, f => if f.simplifyPass = f then f else repeatPasses n f.simplifyPass

/-- Passes until one changes nothing, at most `limit` of them but at least one. -/
def simplifyWithLimit (limit : Nat) (f : Formula) : Formula :=
  repeatPasses (limit - 1) f.simplifyPass

/-- How many passes a simplification may take. -/
def passLimit : Nat := 64

/-- The simplified formula. -/
def simplify (f : Formula) : Formula :=
  f.simplifyWithLimit passLimit

/-! ## Meaning -/

private theorem eval_of_complementary {p q : Formula} (h : complementary p q) (v : Valuation) :
    q.eval v = !p.eval v := by
  simp only [complementary, Bool.or_eq_true, decide_eq_true_eq] at h
  rcases h with rfl | rfl <;> simp [eval]

private theorem eq_of_absorbs {op : Connective} {p q : Formula} (h : absorbs op p q) :
    ∃ a b, q = binary op a b ∧ (a = p ∨ b = p) := by
  cases q with
  | binary op' a b =>
    simp only [absorbs, Bool.and_eq_true, decide_eq_true_eq, Bool.or_eq_true] at h
    exact ⟨a, b, by rw [h.1], h.2⟩
  | _ => simp [absorbs] at h

/-- The two operations that the lattice laws serve, with their duals, units and zeros. -/
private def IsLattice (op dual : Connective) (one zero : Formula) : Prop :=
  op = .conj ∧ dual = .disj ∧ one = top ∧ zero = bottom ∨
    op = .disj ∧ dual = .conj ∧ one = bottom ∧ zero = top

private theorem eval_simplifyLattice {op dual : Connective} {one zero : Formula}
    (h : IsLattice op dual one zero) (p q : Formula) (v : Valuation) :
    (simplifyLattice op dual one zero p q).eval v = op.apply (p.eval v) (q.eval v) := by
  rcases h with ⟨rfl, rfl, rfl, rfl⟩ | ⟨rfl, rfl, rfl, rfl⟩
  all_goals
    unfold simplifyLattice
    split
    · next h => simp [h, eval, Connective.apply]
    split
    · next h => simp [h, eval, Connective.apply]
    split
    · next h => rcases h with rfl | rfl <;> simp [eval, Connective.apply]
    split
    · next h => simp [h, Connective.apply]
    split
    · next h => simp [eval_of_complementary h, eval, Connective.apply]
    iterate 2
      split
      · next h =>
        obtain ⟨a, b, rfl, rfl | rfl⟩ := eq_of_absorbs h <;> simp [eval, Connective.apply] <;>
          cases eval _ v <;> simp
    rfl

private theorem eval_simplifyImp (p q : Formula) (v : Valuation) :
    (simplifyImp p q).eval v = (!p.eval v || q.eval v) := by
  unfold simplifyImp
  split
  · next h => rcases h with rfl | rfl <;> simp [eval]
  split
  · next h => simp [h, eval]
  split
  · next h => simp [h, eval]
  split
  · next h => simp [h, eval]
  · rfl

private theorem eval_simplifyIff (p q : Formula) (v : Valuation) :
    (simplifyIff p q).eval v = (p.eval v == q.eval v) := by
  unfold simplifyIff
  split
  · next h => simp [h, eval]
  iterate 4 (split; · next h => simp [h, eval])
  split
  · next h => simp [eval_of_complementary h, eval]
  · rfl

theorem eval_simplifyStep (f : Formula) (v : Valuation) : f.simplifyStep.eval v = f.eval v := by
  unfold simplifyStep
  split
  · rfl
  · rfl
  · simp [eval]
  · exact eval_simplifyLattice (.inl ⟨rfl, rfl, rfl, rfl⟩) _ _ v
  · exact eval_simplifyLattice (.inr ⟨rfl, rfl, rfl, rfl⟩) _ _ v
  · exact eval_simplifyImp _ _ v
  · exact eval_simplifyIff _ _ v
  · rfl
  · rfl

theorem eval_simplifyPass (f : Formula) (v : Valuation) : f.simplifyPass.eval v = f.eval v := by
  induction f with
  | bottom | top | atom => rfl
  | neg p ih => simp only [simplifyPass, eval_simplifyStep, eval, ih]
  | binary op p q ihp ihq => simp only [simplifyPass, eval_simplifyStep, eval, ihp, ihq]
  | group p ih => exact ih

theorem eval_repeatPasses (n : Nat) (f : Formula) (v : Valuation) :
    (repeatPasses n f).eval v = f.eval v := by
  induction n generalizing f with
  | zero => rfl
  | succ n ih =>
    rw [repeatPasses]
    split
    · rfl
    · rw [ih, eval_simplifyPass]

theorem eval_simplifyWithLimit (limit : Nat) (f : Formula) (v : Valuation) :
    (f.simplifyWithLimit limit).eval v = f.eval v := by
  rw [simplifyWithLimit, eval_repeatPasses, eval_simplifyPass]

@[simp] theorem eval_simplify (f : Formula) (v : Valuation) : f.simplify.eval v = f.eval v :=
  eval_simplifyWithLimit passLimit f v

end Sentential.Formula
