import Sentential.Formula.NormalForm
import Sentential.Proofs.Formula.Passes

/-!
# Constants in rewritten formulas

A law whose operand is a constant removes it, so one pass is enough to leave the formula a constant
or without any. Pushing negations and distributing keep the constants that there are.

* `IsReduced`: a constant, or without constants.
* `isReduced_simplifyStep`, `isReduced_simplifyPass`, `isReduced_simplifyWithLimit`: what
  simplifying makes of any formula is reduced, however few passes there are.
* `simplifyWithLimit_pure`: neither groups nor constants are left inside a simplified formula.
* `hasConstant_nnf`, `hasConstant_cnf`: the normal forms have constants where the formula has.
-/

namespace Sentential.Formula

/-- Whether there is a constant anywhere. -/
def hasConstant : Formula → Bool
  | bottom | top => true
  | atom _ => false
  | neg p | group p => p.hasConstant
  | binary _ p q => p.hasConstant || q.hasConstant

/-- The formula is a constant or has none in it. -/
def IsReduced (f : Formula) : Prop :=
  f = top ∨ f = bottom ∨ f.hasConstant = false

variable {f p q : Formula}

/-! ## Simplification -/

theorem isReduced_top : IsReduced top := .inl rfl

theorem isReduced_bottom : IsReduced bottom := .inr (.inl rfl)

theorem IsReduced.hasConstant_eq_false (h : IsReduced f) (htop : f ≠ top) (hbottom : f ≠ bottom) :
    f.hasConstant = false :=
  (h.resolve_left htop).resolve_left hbottom

/-- A negation is reduced when it does not negate a constant. -/
theorem IsReduced.neg (h : IsReduced p) (htop : p ≠ top) (hbottom : p ≠ bottom) :
    IsReduced p.neg :=
  .inr (.inr (h.hasConstant_eq_false htop hbottom))

/-- A binary formula is reduced when neither operand is a constant. -/
theorem IsReduced.binary {op : Connective} (hp : IsReduced p) (hq : IsReduced q)
    (hne : p ≠ top ∧ p ≠ bottom ∧ q ≠ top ∧ q ≠ bottom) : IsReduced (binary op p q) := by
  obtain ⟨hptop, hpbottom, hqtop, hqbottom⟩ := hne
  refine .inr (.inr ?_)
  rw [hasConstant, hp.hasConstant_eq_false hptop hpbottom, hq.hasConstant_eq_false hqtop hqbottom,
    Bool.or_self]

theorem isReduced_simplifyImp (hp : IsReduced p) (hq : IsReduced q) :
    IsReduced (simplifyImp p q) := by
  unfold simplifyImp
  split_ifs with hzero hptop hqbottom
  · exact isReduced_top
  · exact hq
  · exact hp.neg hptop fun h => hzero (.inr h)
  · exact isReduced_top
  · rw [not_or] at hzero
    exact hp.binary hq ⟨hptop, hzero.2, hzero.1, hqbottom⟩

theorem isReduced_simplifyIff (hp : IsReduced p) (hq : IsReduced q) :
    IsReduced (simplifyIff p q) := by
  unfold simplifyIff
  split_ifs with hsame hptop hqtop hpbottom hqbottom
  · exact isReduced_top
  · exact hq
  · exact hp
  · exact hq.neg hqtop fun h => hsame (hpbottom.trans h.symm)
  · exact hp.neg hptop hpbottom
  · exact isReduced_bottom
  · exact hp.binary hq ⟨hptop, hpbottom, hqtop, hqbottom⟩

/-- The constants are the unit and the zero of a lattice operation, in one order or the other. -/
theorem isReduced_simplifyLattice {op dual : Connective} {one zero : Formula}
    (h : one = top ∧ zero = bottom ∨ one = bottom ∧ zero = top) (hp : IsReduced p)
    (hq : IsReduced q) : IsReduced (simplifyLattice op dual one zero p q) := by
  have hzero : IsReduced zero := by
    rcases h with ⟨-, rfl⟩ | ⟨-, rfl⟩
    exacts [isReduced_bottom, isReduced_top]
  unfold simplifyLattice
  split_ifs with hqone hpone hpqzero
  · exact hp
  · exact hq
  · exact hzero
  · exact hp
  · exact hzero
  · exact hp
  · exact hq
  · rw [not_or] at hpqzero
    rcases h with ⟨rfl, rfl⟩ | ⟨rfl, rfl⟩
    · exact hp.binary hq ⟨hpone, hpqzero.1, hqone, hpqzero.2⟩
    · exact hp.binary hq ⟨hpqzero.1, hpone, hpqzero.2, hqone⟩

/-- The step at a binary formula of reduced operands takes a constant operand away. -/
theorem isReduced_simplifyStep {op : Connective} (hp : IsReduced p) (hq : IsReduced q) :
    IsReduced (binary op p q).simplifyStep := by
  cases op with
  | conj => exact isReduced_simplifyLattice (.inl ⟨rfl, rfl⟩) hp hq
  | disj => exact isReduced_simplifyLattice (.inr ⟨rfl, rfl⟩) hp hq
  | imp => exact isReduced_simplifyImp hp hq
  | iff => exact isReduced_simplifyIff hp hq

theorem isReduced_simplifyStep_neg (hp : IsReduced p) : IsReduced (neg p).simplifyStep := by
  rcases hp with rfl | rfl | hp
  · exact isReduced_bottom
  · exact isReduced_top
  · refine .inr (.inr ?_)
    cases p with
    | bottom | top => cases hp
    | neg r => exact hp
    | atom | binary | group => exact hp

/-- One pass is enough to reduce a formula. -/
theorem isReduced_simplifyPass (f : Formula) : IsReduced f.simplifyPass := by
  induction f with
  | bottom => exact isReduced_bottom
  | top => exact isReduced_top
  | atom name => exact .inr (.inr rfl)
  | neg p ih => exact isReduced_simplifyStep_neg ih
  | binary op p q ihp ihq => exact isReduced_simplifyStep ihp ihq
  | group p ih => exact ih

theorem isReduced_simplifyWithLimit (limit : Nat) (f : Formula) :
    IsReduced (f.simplifyWithLimit limit) := by
  rw [simplifyWithLimit_eq_iterate, Function.iterate_succ_apply']
  exact isReduced_simplifyPass _

theorem isReduced_simplify (f : Formula) : IsReduced f.simplify :=
  isReduced_simplifyWithLimit passLimit f

/-- Whatever the limit, even if it stops the passes before a fixpoint, a simplified formula has no
groups, and it is one of the constants or has none in it. -/
theorem simplifyWithLimit_pure (limit : Nat) (f : Formula) :
    (f.simplifyWithLimit limit).hasGroup = false ∧
      (f.simplifyWithLimit limit = top ∨ f.simplifyWithLimit limit = bottom ∨
        (f.simplifyWithLimit limit).hasConstant = false) :=
  ⟨hasGroup_simplifyWithLimit limit f, isReduced_simplifyWithLimit limit f⟩

/-! ## Normal forms -/

theorem hasConstant_pushNegations (f : Formula) (sign : Bool) :
    (f.pushNegations sign).hasConstant = f.hasConstant := by
  induction f generalizing sign with
  | bottom | top | atom => cases sign <;> rfl
  | neg p ih | group p ih => cases sign <;> exact ih _
  | binary op p q ihp ihq =>
    cases op <;> cases sign <;> simp [pushNegations, hasConstant, ihp, ihq, Bool.or_comm]

theorem hasConstant_nnf (f : Formula) : f.nnf.hasConstant = f.hasConstant :=
  f.hasConstant_pushNegations true

theorem hasConstant_distributeRight (outer inner : Connective) (l r : Formula) :
    (distributeRight outer inner l r).hasConstant = (l.hasConstant || r.hasConstant) := by
  induction r with
  | binary op p q ihp ihq =>
    rw [distributeRight]
    split
    · rw [hasConstant, ihp, ihq, hasConstant]
      cases l.hasConstant <;> simp
    · rfl
  | _ => rfl

theorem hasConstant_distribute (outer inner : Connective) (l r : Formula) :
    (distribute outer inner l r).hasConstant = (l.hasConstant || r.hasConstant) := by
  induction l with
  | binary op p q ihp ihq =>
    rw [distribute]
    split
    · rw [hasConstant, ihp, ihq, hasConstant]
      cases r.hasConstant <;> simp
    · exact hasConstant_distributeRight ..
  | _ => exact hasConstant_distributeRight ..

theorem hasConstant_flatten (outer inner : Connective) (f : Formula) :
    (flatten outer inner f).hasConstant = f.hasConstant := by
  induction f with
  | binary op p q ihp ihq =>
    rw [flatten]
    split
    · rw [hasConstant, ihp, ihq, hasConstant]
    split
    · rw [hasConstant_distribute, ihp, ihq, hasConstant]
    · rfl
  | _ => rfl

theorem hasConstant_cnf (f : Formula) : f.cnf.hasConstant = f.hasConstant := by
  rw [cnf, hasConstant_flatten, hasConstant_nnf]

end Sentential.Formula
