import Mathlib.Logic.Relation
import Sentential.Proofs.Formula.Chains

/-!
# How simplification settles

Every pass that changes a formula makes it smaller, so passes settle, but a simplification has a
limited number of them. Simplifying twice is the same as simplifying once exactly when the passes
have settled by then. How many they need is bounded by the depth of the formula and not by its
size: what settles inside a negation or a binary formula leaves work for one more pass at most.

The laws can be applied one at a time, at any node and in any order. Each application makes the
formula smaller, so no formula comes back to itself. A pass is such a sequence of applications, and
it changes nothing only where no law applies anywhere. A formula of `n` nodes settles within `n`
passes.

* `SettlesIn`: some number of passes is enough.
* `SettlesIn.neg`, `SettlesIn.binary`: one more pass is enough around operands that settle.
* `settlesIn_printedDepth`: the depth of the text bounds the passes.
* `simplify_idempotent_iff`: when simplifying twice is the same as simplifying once.
* `simplify_links_not_idempotent`: a formula whose simplification is simplified further.
* `Rewrites`, `Rewrites.size_lt`: one law applied at one node makes the formula smaller.
* `rewrites_simplifyPass`: a pass applies laws one after the other.
* `simplifyPass_eq_self_iff`: a pass changes nothing exactly where no law applies.
* `settlesIn_of_size_le`: as many passes as there are nodes are enough.
* `simplifyWithLimit_converges`: a limited simplification is an iteration of passes, and it ends in
  a fixpoint when the limit is at least the number of nodes.
-/

namespace Sentential.Formula

/-! ## Settling -/

/-- After `n` passes no pass changes the formula. -/
def SettlesIn (n : Nat) (f : Formula) : Prop :=
  (simplifyPass^[n] f).simplifyPass = simplifyPass^[n] f

section

variable {n : Nat} {f p q : Formula}

theorem settlesIn_zero_iff : SettlesIn 0 f ↔ f.simplifyPass = f := Iff.rfl

/-- The first of the passes can be taken apart. -/
theorem settlesIn_succ_iff : SettlesIn (n + 1) f ↔ SettlesIn n f.simplifyPass := Iff.rfl

theorem settlesIn_of_simplifyPass (h : f.simplifyPass = f) (n : Nat) : SettlesIn n f := by
  rw [SettlesIn, Function.iterate_fixed h, h]

theorem SettlesIn.succ (h : SettlesIn n f) : SettlesIn (n + 1) f := by
  have hfixed : simplifyPass^[n + 1] f = simplifyPass^[n] f := by
    rw [Function.iterate_succ_apply']
    exact h
  rw [SettlesIn, hfixed]
  exact h

theorem SettlesIn.mono {m : Nat} (h : SettlesIn m f) (hmn : m ≤ n) : SettlesIn n f := by
  induction hmn with
  | refl => exact h
  | step _ ih => exact ih.succ

/-! ## Negations -/

/-- A negation settles at most one pass later than its operand, and the other way round. Each half
needs the other, because a pass may take a negation off. -/
theorem settlesIn_neg_and_of_neg (n : Nat) :
    (∀ p, SettlesIn n p → SettlesIn (n + 1) (neg p)) ∧
      ∀ p, SettlesIn n (neg p) → SettlesIn (n + 1) p := by
  induction n with
  | zero =>
    refine ⟨fun p hp => ?_, fun p hp => settlesIn_of_simplifyPass (simplifyPass_of_neg hp) 1⟩
    rw [settlesIn_zero_iff] at hp
    have hpass : (neg p).simplifyPass = (neg p).simplifyStep := by rw [simplifyPass, hp]
    rw [settlesIn_succ_iff, settlesIn_zero_iff, hpass]
    cases p with
    | bottom | top => rfl
    | neg r => exact simplifyPass_of_neg hp
    | atom | binary | group => exact hpass
  | succ n ih =>
    obtain ⟨hneg, hofneg⟩ := ih
    constructor
    · intro p hp
      rw [settlesIn_succ_iff] at hp ⊢
      rw [simplifyPass]
      cases hpass : p.simplifyPass with
      | bottom | top => exact settlesIn_of_simplifyPass rfl _
      | neg r => exact hofneg r (hpass ▸ hp)
      | atom | binary | group => exact hneg _ (hpass ▸ hp)
    · intro p hp
      rw [settlesIn_succ_iff] at hp ⊢
      rw [simplifyPass] at hp
      cases hpass : p.simplifyPass with
      | bottom | top => exact settlesIn_of_simplifyPass rfl _
      | neg r =>
        rw [hpass] at hp
        exact hneg r hp
      | atom | binary | group =>
        rw [hpass] at hp
        exact hofneg _ hp

/-- The negation of what settles needs at most one more pass. -/
theorem SettlesIn.neg (h : SettlesIn n p) : SettlesIn (n + 1) p.neg :=
  (settlesIn_neg_and_of_neg n).1 p h

/-! ## Binary formulas -/

/-- What a step makes of operands that settle, if it makes anything of them. -/
theorem settlesIn_simplifyStep {op : Connective} (hp : SettlesIn n p) (hq : SettlesIn n q)
    (hsame : (binary op p q).simplifyStep = binary op p q → SettlesIn (n + 1) (binary op p q)) :
    SettlesIn (n + 1) (binary op p q).simplifyStep := by
  have houtcome := stepOutcome op p q
  generalize hr : (binary op p q).simplifyStep = r at houtcome hsame
  cases houtcome with
  | bottom | top => exact settlesIn_of_simplifyPass rfl _
  | left => exact hp.succ
  | right => exact hq.succ
  | negLeft => exact hp.neg
  | negRight => exact hq.neg
  | same => exact hsame rfl

/-- A binary formula needs at most one pass more than its operands. -/
theorem SettlesIn.binary {op : Connective} (hp : SettlesIn (n + 1) p) (hq : SettlesIn (n + 1) q) :
    SettlesIn (n + 2) (binary op p q) := by
  induction n generalizing p q with
  | zero =>
    rw [settlesIn_succ_iff] at hp hq ⊢
    refine settlesIn_simplifyStep hp hq fun hsame => ?_
    rw [settlesIn_zero_iff] at hp hq
    exact settlesIn_of_simplifyPass (by rw [simplifyPass, hp, hq, hsame]) 1
  | succ n ih =>
    rw [settlesIn_succ_iff] at hp hq ⊢
    exact settlesIn_simplifyStep hp hq fun _ => ih hp hq

end

/-! ## Depth -/

/-- However many nodes a formula has, the depth of its text bounds the passes that it needs. -/
theorem settlesIn_printedDepth (f : Formula) : SettlesIn (f.printedDepth + 1) f := by
  induction f with
  | bottom | top | atom => exact settlesIn_of_simplifyPass rfl _
  | neg p ih => exact ih.neg
  | binary op p q ihp ihq =>
    exact (ihp.mono (Nat.succ_le_succ (Nat.le_max_left _ _))).binary
      (ihq.mono (Nat.succ_le_succ (Nat.le_max_right _ _)))
  | group p ih =>
    -- the first pass does not see the group
    have hpass : SettlesIn (p.printedDepth + 1) (group p) := ih
    refine hpass.mono ?_
    rw [printedDepth]
    split <;> omega

/-- A simplification ends where another pass changes nothing when the passes settle in time. -/
theorem settlesIn_passLimit_iff {f : Formula} :
    SettlesIn passLimit f ↔ f.simplify.simplifyPass = f.simplify := by
  rw [SettlesIn, ← simplify_eq_iterate]

/-! ## Simplifying twice -/

theorem size_simplify_lt {f : Formula} (h : f.simplify ≠ f) : f.simplify.size < f.size := by
  have hpass : f.simplifyPass.size < f.size :=
    f.simplifyPass_eq_or_size_lt.resolve_left fun hpass => h (simplify_eq_self_iff.2 hpass)
  have hrest := size_iterate_le (passLimit - 1) f.simplifyPass
  rw [← Function.iterate_succ_apply] at hrest
  rw [simplify_eq_iterate]
  exact Nat.lt_of_le_of_lt hrest hpass

/-- Simplifying twice is the same as simplifying once exactly when another pass leaves the result
as it is. Otherwise the second simplification makes it smaller. The passes always suffice for a
formula whose text has fewer negations and brackets inside each other than passes are allowed,
however many nodes it has. -/
theorem simplify_idempotent_iff (f : Formula) :
    (f.simplify.simplify = f.simplify ↔ f.simplify.simplifyPass = f.simplify) ∧
    (f.simplify.simplify ≠ f.simplify → f.simplify.simplify.size < f.simplify.size) ∧
    (f.printedDepth < passLimit → f.simplify.simplify = f.simplify) := by
  refine ⟨simplify_eq_self_iff, size_simplify_lt, fun hdepth => ?_⟩
  have hsettles : SettlesIn passLimit f := f.settlesIn_printedDepth.mono hdepth
  exact simplify_eq_self_iff.2 (settlesIn_passLimit_iff.1 hsettles)

/-- The links are one more than a simplification takes off, so simplifying again takes off the last
one. -/
theorem simplify_links_not_idempotent :
    (links 64).simplify.text = "!(!!a <=> a)" ∧ (links 64).simplify.simplify = bottom ∧
      (links 64).simplify.simplify ≠ (links 64).simplify := by
  have hlinks : (links 64).simplify = cascade 1 := simplify_links 1
  rw [hlinks]
  decide

/-! ## Single applications of a law -/

open Relation (ReflTransGen TransGen)

/-- One law is applied at one node and changes it. -/
inductive Rewrites : Formula → Formula → Prop
  | step {f : Formula} (h : f.simplifyStep ≠ f) : Rewrites f f.simplifyStep
  | neg {p p' : Formula} (h : Rewrites p p') : Rewrites (neg p) (neg p')
  | left {op : Connective} {p p' q : Formula} (h : Rewrites p p') :
    Rewrites (binary op p q) (binary op p' q)
  | right {op : Connective} {p q q' : Formula} (h : Rewrites q q') :
    Rewrites (binary op p q) (binary op p q')
  | group {p p' : Formula} (h : Rewrites p p') : Rewrites (group p) (group p')

variable {f g : Formula} {n : Nat}

theorem Rewrites.size_lt (h : Rewrites f g) : g.size < f.size := by
  induction h with
  | step h => exact (simplifyStep_eq_or_size_lt _).resolve_left h
  | neg _ ih | group _ ih => exact Nat.succ_lt_succ ih
  | left _ ih =>
    simp only [size]
    omega
  | right _ ih =>
    simp only [size]
    omega

theorem size_lt_of_transGen (h : TransGen Rewrites f g) : g.size < f.size := by
  induction h with
  | single h => exact h.size_lt
  | tail _ h ih => exact Nat.lt_trans h.size_lt ih

/-- No formula is rewritten to itself. -/
theorem not_transGen_self (f : Formula) : ¬ TransGen Rewrites f f :=
  fun h => Nat.lt_irrefl _ (size_lt_of_transGen h)

theorem rewrites_simplifyStep (f : Formula) : ReflTransGen Rewrites f f.simplifyStep := by
  by_cases h : f.simplifyStep = f
  · rw [h]
  · exact .single (.step h)

/-- A pass applies laws one after the other, from the leaves up. -/
theorem rewrites_simplifyPass (f : Formula) : ReflTransGen Rewrites f f.simplifyPass := by
  induction f with
  | bottom | top | atom => exact .refl
  | neg p ih =>
    have hoperand : ReflTransGen Rewrites (neg p) (neg p.simplifyPass) :=
      ih.lift neg fun _ _ => .neg
    exact hoperand.trans (rewrites_simplifyStep _)
  | binary op p q ihp ihq =>
    have hleft : ReflTransGen Rewrites (binary op p q) (binary op p.simplifyPass q) :=
      ihp.lift (binary op · q) fun _ _ => .left
    have hright : ReflTransGen Rewrites (binary op p.simplifyPass q)
        (binary op p.simplifyPass q.simplifyPass) :=
      ihq.lift (binary op p.simplifyPass) fun _ _ => .right
    exact (hleft.trans hright).trans (rewrites_simplifyStep _)
  | group p ih => exact (rewrites_simplifyStep (group p)).trans ih

/-- Where a law applies, a pass changes something. -/
theorem Rewrites.simplifyPass_ne (h : Rewrites f g) : f.simplifyPass ≠ f := by
  induction h with
  | @step f h =>
    intro hpass
    cases f with
    | bottom | top | atom => exact h rfl
    | neg p =>
      rw [simplifyPass, simplifyPass_of_neg hpass] at hpass
      exact h hpass
    | binary op p q =>
      obtain ⟨hp, hq⟩ := simplifyPass_of_binary hpass
      rw [simplifyPass, hp, hq] at hpass
      exact h hpass
    | group p => exact simplifyPass_group_ne p hpass
  | neg _ ih => exact fun hpass => ih (simplifyPass_of_neg hpass)
  | left _ ih => exact fun hpass => ih (simplifyPass_of_binary hpass).1
  | right _ ih => exact fun hpass => ih (simplifyPass_of_binary hpass).2
  | group _ _ => exact simplifyPass_group_ne _

/-- A pass changes nothing exactly where no law applies at any node. -/
theorem simplifyPass_eq_self_iff : f.simplifyPass = f ↔ ∀ g, ¬ Rewrites f g := by
  refine ⟨fun hpass g h => h.simplifyPass_ne hpass, fun hnone => ?_⟩
  rcases f.rewrites_simplifyPass.cases_head with heq | ⟨g, h, -⟩
  · exact heq.symm
  · exact absurd h (hnone g)

/-- As many passes as there are nodes are enough. -/
theorem settlesIn_of_size_le (h : f.size ≤ n) : SettlesIn n f := by
  induction n generalizing f with
  | zero => exact absurd f.size_pos (Nat.not_lt.2 h)
  | succ n ih =>
    rcases f.simplifyPass_eq_or_size_lt with hpass | hlt
    · exact settlesIn_of_simplifyPass hpass _
    · exact settlesIn_succ_iff.2 (ih (Nat.le_of_lt_succ (Nat.lt_of_lt_of_le hlt h)))

/-- Rewriting converges. A simplification with a limit makes that many passes, and at least one;
that it may end early changes nothing. A pass that changes the formula makes it smaller, and with a
limit of at least the number of nodes the result is one that a pass leaves as it is, so that no law
applies to any of its nodes. There are no cycles: passes come back to a formula only by leaving it
as it is. A pass is a sequence of laws, and no such sequence leads from a formula back to itself. -/
theorem simplifyWithLimit_converges (f : Formula) :
    (∀ limit, f.simplifyWithLimit limit = simplifyPass^[max limit 1] f) ∧
    (f.simplifyPass ≠ f → f.simplifyPass.size < f.size) ∧
    (∀ limit, f.size ≤ limit →
      (f.simplifyWithLimit limit).simplifyPass = f.simplifyWithLimit limit ∧
        ∀ g, ¬ Rewrites (f.simplifyWithLimit limit) g) ∧
    (∀ n, simplifyPass^[n + 1] f = f → f.simplifyPass = f) ∧
    ReflTransGen Rewrites f f.simplifyPass ∧ ¬ TransGen Rewrites f f := by
  have hiterate : ∀ limit, f.simplifyWithLimit limit = simplifyPass^[max limit 1] f := by
    intro limit
    have hmax : max limit 1 = limit - 1 + 1 := by omega
    rw [simplifyWithLimit_eq_iterate, hmax]
  refine ⟨hiterate, f.simplifyPass_eq_or_size_lt.resolve_left, fun limit hlimit => ?_,
    fun n => iterate_eq_self_iff.1, f.rewrites_simplifyPass, f.not_transGen_self⟩
  have hsettles : SettlesIn (max limit 1) f :=
    settlesIn_of_size_le (Nat.le_trans hlimit (Nat.le_max_left _ _))
  rw [SettlesIn, ← hiterate] at hsettles
  exact ⟨hsettles, simplifyPass_eq_self_iff.1 hsettles⟩

end Sentential.Formula
