import Mathlib.Logic.Function.Iterate
import Mathlib.Tactic.SplitIfs
import Sentential.Proofs.Formula.Groups

/-!
# Passes of the simplifier

A step at a binary formula has few outcomes, and all but one of them are smaller. So every pass
makes the formula smaller or leaves it as it is, and a limited run is an iteration of passes,
whether it ends early or not.

* `stepOutcome`: what a step makes of a binary formula.
* `simplifyPass_eq_or_size_lt`: a pass that changes the formula makes it smaller.
* `hasGroup_simplifyWithLimit`: a simplified formula has no groups.
* `simplifyPass_of_neg`, `simplifyPass_of_binary`: where a pass changes nothing, it changes none of
  the operands.
* `repeatPasses_eq_iterate`: the early end changes nothing.
* `iterate_eq_self_iff`: passes come back to a formula only by leaving it as it is.
* `simplify_eq_self_iff`: a formula is its own simplification when a pass leaves it as it is.
-/

namespace Sentential.Formula

/-- The number of nodes, groups included. -/
def size : Formula → Nat
  | bottom | top | atom _ => 1
  | neg p | group p => p.size + 1
  | binary _ p q => p.size + q.size + 1

theorem size_pos (f : Formula) : 0 < f.size := by
  cases f <;> simp [size]

/-! ## Steps -/

/-- The outcomes of a step at a binary formula. -/
inductive StepOutcome (op : Connective) (p q : Formula) : Formula → Prop
  | bottom : StepOutcome op p q bottom
  | top : StepOutcome op p q top
  | left : StepOutcome op p q p
  | right : StepOutcome op p q q
  | negLeft : StepOutcome op p q (neg p)
  | negRight : StepOutcome op p q (neg q)
  | same : StepOutcome op p q (binary op p q)

theorem stepOutcome (op : Connective) (p q : Formula) :
    StepOutcome op p q (binary op p q).simplifyStep := by
  cases op with
  | conj =>
    rw [simplifyStep, simplifyLattice]
    split_ifs
    exacts [.left, .right, .bottom, .left, .bottom, .left, .right, .same]
  | disj =>
    rw [simplifyStep, simplifyLattice]
    split_ifs
    exacts [.left, .right, .top, .left, .top, .left, .right, .same]
  | imp =>
    rw [simplifyStep, simplifyImp]
    split_ifs
    exacts [.top, .right, .negLeft, .top, .same]
  | iff =>
    rw [simplifyStep, simplifyIff]
    split_ifs
    exacts [.top, .right, .left, .negRight, .negLeft, .bottom, .same]

/-- A step that changes the formula makes it smaller. -/
theorem simplifyStep_eq_or_size_lt (f : Formula) :
    f.simplifyStep = f ∨ f.simplifyStep.size < f.size := by
  cases f with
  | bottom | top | atom => exact .inl rfl
  | group p => exact .inr (Nat.lt_succ_self _)
  | neg p =>
    cases p with
    | bottom | top => exact .inr (by decide)
    | neg p => exact .inr (by simp only [simplifyStep, size]; omega)
    | atom | binary | group => exact .inl rfl
  | binary op p q =>
    have hp := p.size_pos
    have hq := q.size_pos
    have houtcome := stepOutcome op p q
    generalize (binary op p q).simplifyStep = r at houtcome
    cases houtcome with
    | same => exact .inl rfl
    | _ =>
      refine .inr ?_
      simp only [size]
      omega

theorem size_simplifyStep_le (f : Formula) : f.simplifyStep.size ≤ f.size := by
  rcases f.simplifyStep_eq_or_size_lt with h | h
  · exact Nat.le_of_eq (congrArg size h)
  · exact Nat.le_of_lt h

/-- A step brings in no group. -/
theorem hasGroup_simplifyStep {f : Formula} (h : f.hasGroup = false) :
    f.simplifyStep.hasGroup = false := by
  cases f with
  | bottom | top | atom => rfl
  | group p => cases h
  | neg p =>
    cases p with
    | bottom | top => rfl
    | group p => cases h
    | neg p => exact h
    | atom | binary => exact h
  | binary op p q =>
    have hpq : p.hasGroup = false ∧ q.hasGroup = false := by
      simpa [hasGroup] using h
    have houtcome := stepOutcome op p q
    generalize (binary op p q).simplifyStep = r at houtcome
    cases houtcome with
    | bottom | top => rfl
    | left | negLeft => exact hpq.1
    | right | negRight => exact hpq.2
    | same => exact h

/-! ## Passes -/

/-- A pass that changes the formula makes it smaller. -/
theorem simplifyPass_eq_or_size_lt (f : Formula) :
    f.simplifyPass = f ∨ f.simplifyPass.size < f.size := by
  induction f with
  | bottom | top | atom => exact .inl rfl
  | group p ih =>
    refine .inr ?_
    rcases ih with ih | ih
    · rw [simplifyPass, ih, size]
      exact Nat.lt_succ_self _
    · exact Nat.lt_succ_of_lt ih
  | neg p ih =>
    rw [simplifyPass]
    rcases ih with ih | ih
    · rw [ih]
      exact simplifyStep_eq_or_size_lt _
    · exact .inr (Nat.lt_of_le_of_lt (size_simplifyStep_le _) (Nat.succ_lt_succ ih))
  | binary op p q ihp ihq =>
    have hle : (binary op p.simplifyPass q.simplifyPass).simplifyStep.size ≤
        (binary op p.simplifyPass q.simplifyPass).size := size_simplifyStep_le _
    rw [simplifyPass]
    rcases ihp with ihp | ihp <;> rcases ihq with ihq | ihq
    · rw [ihp, ihq]
      exact simplifyStep_eq_or_size_lt _
    all_goals
      refine .inr (Nat.lt_of_le_of_lt hle ?_)
      simp only [size, ihp, ihq]
      omega

theorem size_simplifyPass_le (f : Formula) : f.simplifyPass.size ≤ f.size := by
  rcases f.simplifyPass_eq_or_size_lt with h | h
  · exact Nat.le_of_eq (congrArg size h)
  · exact Nat.le_of_lt h

theorem hasGroup_simplifyPass (f : Formula) : f.simplifyPass.hasGroup = false := by
  induction f with
  | bottom | top | atom => rfl
  | neg p ih => exact hasGroup_simplifyStep ih
  | binary op p q ihp ihq => exact hasGroup_simplifyStep (by rw [hasGroup, ihp, ihq]; rfl)
  | group p ih => exact ih

/-! ## Fixpoints of a pass -/

/-- If no pass changes a negation, none changes what it negates. -/
theorem simplifyPass_of_neg {p : Formula} (h : (neg p).simplifyPass = neg p) :
    p.simplifyPass = p := by
  -- the step at the negation cannot make up for what the pass takes off the operand
  have hle := size_simplifyStep_le (neg p.simplifyPass)
  have hsize : (neg p.simplifyPass).simplifyStep.size = (neg p).size := congrArg size h
  simp only [size] at hle hsize
  exact p.simplifyPass_eq_or_size_lt.resolve_right (by omega)

/-- If no pass changes a binary formula, none changes its operands. -/
theorem simplifyPass_of_binary {op : Connective} {p q : Formula}
    (h : (binary op p q).simplifyPass = binary op p q) :
    p.simplifyPass = p ∧ q.simplifyPass = q := by
  have hle := size_simplifyStep_le (binary op p.simplifyPass q.simplifyPass)
  have hsize : (binary op p.simplifyPass q.simplifyPass).simplifyStep.size = (binary op p q).size :=
    congrArg size h
  have hp := size_simplifyPass_le p
  have hq := size_simplifyPass_le q
  simp only [size] at hle hsize
  exact ⟨p.simplifyPass_eq_or_size_lt.resolve_right (by omega),
    q.simplifyPass_eq_or_size_lt.resolve_right (by omega)⟩

/-- A pass takes off every group. -/
theorem simplifyPass_group_ne (p : Formula) : (group p).simplifyPass ≠ group p := by
  intro h
  have hgroup := hasGroup_simplifyPass (group p)
  rw [h] at hgroup
  cases hgroup

/-! ## Runs of passes -/

/-- The early end of a run changes nothing. -/
theorem repeatPasses_eq_iterate (n : Nat) (f : Formula) :
    repeatPasses n f = simplifyPass^[n] f := by
  induction n generalizing f with
  | zero => rfl
  | succ n ih =>
    rw [repeatPasses, Function.iterate_succ_apply]
    split
    · next h => rw [h, Function.iterate_fixed h]
    · exact ih _

theorem simplifyWithLimit_eq_iterate (limit : Nat) (f : Formula) :
    f.simplifyWithLimit limit = simplifyPass^[limit - 1 + 1] f := by
  rw [simplifyWithLimit, repeatPasses_eq_iterate, Function.iterate_succ_apply]

theorem simplify_eq_iterate (f : Formula) : f.simplify = simplifyPass^[passLimit] f :=
  simplifyWithLimit_eq_iterate passLimit f

theorem hasGroup_simplifyWithLimit (limit : Nat) (f : Formula) :
    (f.simplifyWithLimit limit).hasGroup = false := by
  rw [simplifyWithLimit_eq_iterate, Function.iterate_succ_apply']
  exact hasGroup_simplifyPass _

theorem hasGroup_simplify (f : Formula) : f.simplify.hasGroup = false :=
  hasGroup_simplifyWithLimit passLimit f

theorem size_iterate_le (n : Nat) (f : Formula) : (simplifyPass^[n] f).size ≤ f.size := by
  induction n generalizing f with
  | zero => exact Nat.le_refl _
  | succ n ih => exact Nat.le_trans (ih _) (size_simplifyPass_le f)

/-- Passes come back to the formula only by leaving it as it is. -/
theorem iterate_eq_self_iff {n : Nat} {f : Formula} :
    simplifyPass^[n + 1] f = f ↔ f.simplifyPass = f := by
  constructor
  · intro h
    rcases f.simplifyPass_eq_or_size_lt with hpass | hlt
    · exact hpass
    · have hle := size_iterate_le n f.simplifyPass
      rw [← Function.iterate_succ_apply, h] at hle
      exact absurd (Nat.lt_of_le_of_lt hle hlt) (Nat.lt_irrefl _)
  · exact fun h => Function.iterate_fixed h _

/-- A formula is its own simplification exactly when a pass leaves it as it is. -/
theorem simplify_eq_self_iff {f : Formula} : f.simplify = f ↔ f.simplifyPass = f := by
  rw [simplify_eq_iterate]
  exact iterate_eq_self_iff

/-- Simplifying twice comes back to the formula only if a pass leaves it as it is. -/
theorem simplify_simplify_eq_self_iff {f : Formula} :
    f.simplify.simplify = f ↔ f.simplifyPass = f := by
  rw [simplify_eq_iterate, simplify_eq_iterate, ← Function.iterate_add_apply]
  exact iterate_eq_self_iff

end Sentential.Formula
