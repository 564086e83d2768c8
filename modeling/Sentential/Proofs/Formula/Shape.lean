import Sentential.Formula.NormalForm
import Sentential.Proofs.Formula.Occurrences

/-!
# The shapes of the normal forms

Distribution keeps the shape that it is after: if both operands are chains of one operation over
chains of the other, so is the result. A normal form is left as it is when it is normalised again:
negations that stand on atoms are already where they are pushed, and an operation is distributed
only where one of its operands is built by the other one. So the shapes are exactly the fixpoints of
normalising.

* `isNnf_nnf`, `isCnf_cnf`, `isDnf_dnf`: every normal form has its shape.
* `of_isChainOf`: what holds of the parts of a chain and of what is joined, holds of the chain.
* `isLayered_distribute`: the invariant of distribution.
* `normalForms_exact`: every normal form has its shape, the meaning of the formula and its names.
* `pushNegations_of_isNnf`, `distribute_of_isChainOf`, `flatten_of_isLayered`: what is left as it is.
* `isNnf_of_isLayered`: the other normal forms are negation normal forms.
* `normalForms_fixed_iff`: which formulas are their own normal forms.
-/

namespace Sentential.Formula

/-! ## Negation normal form -/

theorem isNnf_pushNegations (f : Formula) (sign : Bool) : (f.pushNegations sign).isNnf = true := by
  induction f generalizing sign with
  | bottom | top | atom => cases sign <;> rfl
  | neg p ih | group p ih => cases sign <;> exact ih _
  | binary op p q ihp ihq => cases op <;> cases sign <;> simp [pushNegations, isNnf, ihp, ihq]

theorem isNnf_nnf (f : Formula) : f.nnf.isNnf = true :=
  f.isNnf_pushNegations true

/-! ## Chains -/

theorem isLeaf_binary (op : Connective) (p q : Formula) : (binary op p q).isLeaf = false := by
  simp [isLeaf, isLiteral]

/-- A negation is a leaf when it negates an atom. -/
theorem isLeaf_neg_iff {p : Formula} : (neg p).isLeaf = true ↔ ∃ name, p = atom name := by
  cases p <;> simp [isLeaf, isLiteral]

theorem isLeaf_group (p : Formula) : (group p).isLeaf = false := by
  simp [isLeaf, isLiteral]

theorem isChainOf_binary_self {op : Connective} {part : Formula → Bool} {p q : Formula} :
    (binary op p q).isChainOf op part = (p.isChainOf op part && q.isChainOf op part) := by
  simp [isChainOf]

theorem isChainOf_binary_of_ne {op op' : Connective} (h : op' ≠ op) {part : Formula → Bool}
    {p q : Formula} : (binary op' p q).isChainOf op part = part (binary op' p q) := by
  simp [isChainOf, h]

/-- What holds of the parts and is kept by the operation holds of a chain. -/
theorem of_isChainOf {op : Connective} {part : Formula → Bool} {P : Formula → Prop}
    (hpart : ∀ g, part g = true → P g) (hjoin : ∀ p q, P p → P q → P (binary op p q)) {f : Formula}
    (h : f.isChainOf op part = true) : P f := by
  induction f with
  | binary op' p q ihp ihq =>
    by_cases hop : op' = op
    · rw [hop, isChainOf_binary_self, Bool.and_eq_true] at h
      rw [hop]
      exact hjoin p q (ihp h.1) (ihq h.2)
    · rw [isChainOf_binary_of_ne hop] at h
      exact hpart _ h
  | _ => exact hpart _ h

/-- A chain over leaves is a leaf or built by the operation of the chain. -/
theorem eq_of_isChainOf_isLeaf {op op' : Connective} {p q : Formula}
    (h : (binary op' p q).isChainOf op isLeaf = true) : op' = op := by
  by_cases hop : op' = op
  · exact hop
  · rw [isChainOf_binary_of_ne hop, isLeaf_binary] at h
    cases h

/-- Chains of `outer` over chains of `inner` over leaves. -/
abbrev IsLayered (outer inner : Connective) (f : Formula) : Prop :=
  f.isChainOf outer (isChainOf inner isLeaf) = true

variable {outer inner : Connective}

/-- A chain of `inner` over leaves is layered. -/
theorem isLayered_of_isChainOf (hne : inner ≠ outer) {f : Formula}
    (h : f.isChainOf inner isLeaf = true) : IsLayered outer inner f := by
  cases f with
  | binary op p q =>
    obtain rfl := eq_of_isChainOf_isLeaf h
    rwa [IsLayered, isChainOf_binary_of_ne hne]
  | _ => exact h

theorem isLayered_inner (hne : inner ≠ outer) {l r : Formula}
    (hl : l.isChainOf inner isLeaf = true) (hr : r.isChainOf inner isLeaf = true) :
    IsLayered outer inner (binary inner l r) := by
  apply isLayered_of_isChainOf hne
  rw [isChainOf_binary_self, hl, hr, Bool.and_self]

theorem isLayered_distributeRight (hne : inner ≠ outer) {l r : Formula}
    (hl : l.isChainOf inner isLeaf = true) (hr : IsLayered outer inner r) :
    IsLayered outer inner (distributeRight outer inner l r) := by
  induction r with
  | binary op p q ihp ihq =>
    rw [distributeRight]
    split
    · next hop =>
      rw [hop, IsLayered, isChainOf_binary_self, Bool.and_eq_true] at hr
      rw [IsLayered, isChainOf_binary_self, ihp hr.1, ihq hr.2, Bool.and_self]
    · next hop =>
      rw [IsLayered, isChainOf_binary_of_ne hop] at hr
      exact isLayered_inner hne hl hr
  | _ => exact isLayered_inner hne hl hr

/-- Distribution keeps its operands' layers. -/
theorem isLayered_distribute (hne : inner ≠ outer) {l r : Formula} (hl : IsLayered outer inner l)
    (hr : IsLayered outer inner r) : IsLayered outer inner (distribute outer inner l r) := by
  induction l with
  | binary op p q ihp ihq =>
    rw [distribute]
    split
    · next hop =>
      rw [hop, IsLayered, isChainOf_binary_self, Bool.and_eq_true] at hl
      rw [IsLayered, isChainOf_binary_self, ihp hl.1, ihq hl.2, Bool.and_self]
    · next hop =>
      rw [IsLayered, isChainOf_binary_of_ne hop] at hl
      exact isLayered_distributeRight hne hl hr
  | _ => exact isLayered_distributeRight hne hl hr

/-! ## Conjunctive and disjunctive normal form -/

/-- One of the two operations is conjunction and the other disjunction. -/
def AreDual (outer inner : Connective) : Prop :=
  outer = .conj ∧ inner = .disj ∨ outer = .disj ∧ inner = .conj

theorem AreDual.ne (h : AreDual outer inner) : inner ≠ outer := by
  rcases h with ⟨rfl, rfl⟩ | ⟨rfl, rfl⟩ <;> decide

/-- A binary formula in negation normal form is built by one of the dual operations. -/
theorem isNnf_binary (h : AreDual outer inner) {op : Connective} {p q : Formula}
    (hf : (binary op p q).isNnf = true) :
    (op = outer ∨ op = inner) ∧ p.isNnf = true ∧ q.isNnf = true := by
  rcases h with ⟨rfl, rfl⟩ | ⟨rfl, rfl⟩ <;> cases op <;>
    simp_all [isNnf, isLeaf_binary]

theorem isLayered_flatten (h : AreDual outer inner) {f : Formula} (hf : f.isNnf = true) :
    IsLayered outer inner (flatten outer inner f) := by
  induction f with
  | binary op p q ihp ihq =>
    obtain ⟨hop, hp, hq⟩ := isNnf_binary h hf
    rw [flatten]
    split
    · rw [IsLayered, isChainOf_binary_self, ihp hp, ihq hq, Bool.and_self]
    · next houter =>
      rw [if_pos (hop.resolve_left houter)]
      exact isLayered_distribute h.ne (ihp hp) (ihq hq)
  | _ => exact hf

theorem isCnf_cnf (f : Formula) : f.cnf.isCnf = true :=
  isLayered_flatten (.inl ⟨rfl, rfl⟩) f.isNnf_nnf

theorem isDnf_dnf (f : Formula) : f.dnf.isDnf = true :=
  isLayered_flatten (.inr ⟨rfl, rfl⟩) f.isNnf_nnf

/-- The normal forms of any formula have their shapes, have its value under every valuation and
mention exactly its variables. -/
theorem normalForms_exact (f : Formula) :
    (f.nnf.isNnf = true ∧ f.cnf.isCnf = true ∧ f.dnf.isDnf = true) ∧
    (∀ v, f.nnf.eval v = f.eval v ∧ f.cnf.eval v = f.eval v ∧ f.dnf.eval v = f.eval v) ∧
    f.nnf.vars = f.vars ∧ f.cnf.vars = f.vars ∧ f.dnf.vars = f.vars :=
  ⟨⟨f.isNnf_nnf, f.isCnf_cnf, f.isDnf_dnf⟩,
    fun v => ⟨f.eval_nnf v, f.eval_cnf v, f.eval_dnf v⟩,
    vars_congr fun _ => mem_occurrences_nnf,
    vars_congr fun _ => mem_occurrences_cnf,
    vars_congr fun _ => mem_occurrences_dnf⟩

/-! ## Normal forms are left as they are -/

variable {f l r : Formula}

theorem pushNegations_of_isLeaf (h : f.isLeaf = true) : f.pushNegations true = f := by
  cases f with
  | bottom | top | atom => rfl
  | neg p =>
    obtain ⟨name, rfl⟩ := isLeaf_neg_iff.1 h
    rfl
  | binary =>
    rw [isLeaf_binary] at h
    cases h
  | group =>
    rw [isLeaf_group] at h
    cases h

/-- Pushing negations leaves a negation normal form as it is. -/
theorem pushNegations_of_isNnf (h : f.isNnf = true) : f.pushNegations true = f := by
  induction f with
  | binary op p q ihp ihq =>
    obtain ⟨hop, hp, hq⟩ := isNnf_binary (.inl ⟨rfl, rfl⟩) h
    rcases hop with rfl | rfl <;> rw [pushNegations, ihp hp, ihq hq]
  | _ => exact pushNegations_of_isLeaf h

theorem nnf_eq_self_iff : f.nnf = f ↔ f.isNnf = true :=
  ⟨fun h => h ▸ f.isNnf_nnf, pushNegations_of_isNnf⟩

theorem distributeRight_of_isChainOf (hne : inner ≠ outer) (l : Formula)
    (hr : r.isChainOf inner isLeaf = true) : distributeRight outer inner l r = binary inner l r := by
  cases r with
  | binary op p q =>
    obtain rfl := eq_of_isChainOf_isLeaf hr
    rw [distributeRight, if_neg hne]
  | _ => rfl

/-- There is nothing to distribute over in chains of the operation itself. -/
theorem distribute_of_isChainOf (hne : inner ≠ outer) (hl : l.isChainOf inner isLeaf = true)
    (hr : r.isChainOf inner isLeaf = true) : distribute outer inner l r = binary inner l r := by
  cases l with
  | binary op p q =>
    obtain rfl := eq_of_isChainOf_isLeaf hl
    rw [distribute, if_neg hne, distributeRight_of_isChainOf hne _ hr]
  | _ => exact distributeRight_of_isChainOf hne _ hr

/-- Distribution leaves a layered formula as it is. -/
theorem flatten_of_isLayered (hne : inner ≠ outer) (h : IsLayered outer inner f) :
    flatten outer inner f = f := by
  induction f with
  | binary op p q ihp ihq =>
    rw [flatten]
    split
    · next hop =>
      rw [hop, IsLayered, isChainOf_binary_self, Bool.and_eq_true] at h
      rw [ihp h.1, ihq h.2, hop]
    · next hop =>
      -- what is not built by `outer` is a chain of `inner`, and so are its operands
      rw [IsLayered, isChainOf_binary_of_ne hop] at h
      obtain rfl := eq_of_isChainOf_isLeaf h
      rw [isChainOf_binary_self, Bool.and_eq_true] at h
      rw [if_pos rfl, ihp (isLayered_of_isChainOf hne h.1), ihq (isLayered_of_isChainOf hne h.2),
        distribute_of_isChainOf hne h.1 h.2]
  | _ => rfl

theorem isNnf_of_isLeaf (h : f.isLeaf = true) : f.isNnf = true := by
  cases f with
  | binary =>
    rw [isLeaf_binary] at h
    cases h
  | _ => exact h

/-- A layered formula is built by dual operations, so it is a negation normal form too. -/
theorem isNnf_of_isLayered (hdual : AreDual outer inner) (h : IsLayered outer inner f) :
    f.isNnf = true := by
  have hjoin : ∀ op, op = outer ∨ op = inner → ∀ p q : Formula, p.isNnf = true → q.isNnf = true →
      (binary op p q).isNnf = true := by
    intro op hop p q hp hq
    rcases hdual with ⟨rfl, rfl⟩ | ⟨rfl, rfl⟩ <;> rcases hop with rfl | rfl <;>
      rw [isNnf, hp, hq, Bool.and_self]
  exact of_isChainOf (fun g => of_isChainOf (fun _ => isNnf_of_isLeaf) (hjoin inner (.inr rfl)))
    (hjoin outer (.inl rfl)) h

/-- Normalising leaves a formula as it is exactly when the formula is layered. -/
theorem flatten_nnf_eq_self_iff (hdual : AreDual outer inner) :
    flatten outer inner f.nnf = f ↔ IsLayered outer inner f := by
  constructor
  · intro h
    have hlayered := isLayered_flatten hdual f.isNnf_nnf
    rwa [h] at hlayered
  · intro h
    rw [nnf_eq_self_iff.2 (isNnf_of_isLayered hdual h), flatten_of_isLayered hdual.ne h]

theorem cnf_eq_self_iff : f.cnf = f ↔ f.isCnf = true :=
  flatten_nnf_eq_self_iff (.inl ⟨rfl, rfl⟩)

theorem dnf_eq_self_iff : f.dnf = f ↔ f.isDnf = true :=
  flatten_nnf_eq_self_iff (.inr ⟨rfl, rfl⟩)

/-- A formula is its own normal form exactly when it has the shape of that normal form. So to
normalise a second time changes nothing. -/
theorem normalForms_fixed_iff (f : Formula) :
    (f.nnf = f ↔ f.isNnf = true) ∧ (f.cnf = f ↔ f.isCnf = true) ∧ (f.dnf = f ↔ f.isDnf = true) ∧
    f.nnf.nnf = f.nnf ∧ f.cnf.cnf = f.cnf ∧ f.dnf.dnf = f.dnf :=
  ⟨nnf_eq_self_iff, cnf_eq_self_iff, dnf_eq_self_iff, nnf_eq_self_iff.2 f.isNnf_nnf,
    cnf_eq_self_iff.2 f.isCnf_cnf, dnf_eq_self_iff.2 f.isDnf_dnf⟩

end Sentential.Formula
