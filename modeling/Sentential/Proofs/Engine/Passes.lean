import Sentential.Engine
import Mathlib.Data.Finset.Card

/-!
# What passes preserve, and when they stop

A firing makes one conclusion true that was not, and no firing takes a fact back. So the conclusions
that are still to come count the firings that are left.

* `firePass_preserves`, `runPasses_preserves`: what every firing preserves, a run preserves.
* `length_fired_firePass`, `length_fired_runPasses`: each firing uses up one pending conclusion.
* `quiescent_iff`, `runPasses_quiescent`: what it is to be quiescent, and that a run ends so when it
  may take a pass for each pending conclusion.
* `runPasses_inPasses`: the firings of a run, pass by pass.
-/

namespace Sentential.Engine

/-! ## One firing at a time -/

/-- A pass preserves what is preserved when a rule that is ready fires. -/
theorem firePass_preserves {P : FactBase → Prop} {rules : List Rule} {facts : FactBase}
    (hstep : ∀ r ∈ rules, ∀ now, r.isReady now = true → P now → P (now.assert r.conclusion))
    (h : P facts) : P (firePass rules facts).2 := by
  induction rules generalizing facts with
  | nil => exact h
  | cons r rules ih =>
    have htail : ∀ r' ∈ rules, ∀ now, r'.isReady now = true → P now →
        P (now.assert r'.conclusion) := fun r' hr' => hstep r' (List.mem_cons_of_mem r hr')
    rw [firePass]
    split
    · next hready => exact ih htail (hstep r List.mem_cons_self facts hready h)
    · exact ih htail h

/-- A run is quiescent at once, or goes on from the facts of its first pass. -/
theorem runPasses_succ (budget : Nat) (rules : List Rule) (facts : FactBase) :
    (firePass rules facts).1 = [] ∧
        runPasses (budget + 1) rules facts = firePass rules facts ∨
      (firePass rules facts).1 ≠ [] ∧ runPasses (budget + 1) rules facts =
        ((firePass rules facts).1 ++ (runPasses budget rules (firePass rules facts).2).1,
          (runPasses budget rules (firePass rules facts).2).2) := by
  by_cases h : (firePass rules facts).1 = []
  · exact .inl ⟨h, runPasses_of_firePass_nil budget h⟩
  · refine .inr ⟨h, ?_⟩
    rw [runPasses]
    split
    · next final heq => exact absurd (by rw [heq]) h
    · next fired next _ heq => rw [heq]

/-- A run preserves what is preserved when a rule that is ready fires. -/
theorem runPasses_preserves {P : FactBase → Prop} {rules : List Rule} {facts : FactBase}
    (budget : Nat)
    (hstep : ∀ r ∈ rules, ∀ now, r.isReady now = true → P now → P (now.assert r.conclusion))
    (h : P facts) : P (runPasses budget rules facts).2 := by
  induction budget generalizing facts with
  | zero => exact h
  | succ budget ih =>
    have hpass : P (firePass rules facts).2 := firePass_preserves hstep h
    rcases runPasses_succ budget rules facts with ⟨-, heq⟩ | ⟨-, heq⟩
    · rwa [heq]
    · rw [heq]
      exact ih hpass

/-! ## Quiescence -/

/-- No rule is ready. -/
def Quiescent (rules : List Rule) (facts : FactBase) : Prop :=
  ∀ r ∈ rules, r.isReady facts = false

/-- No rule is ready when every conclusion is true or the antecedent of its rule false. -/
theorem quiescent_iff {rules : List Rule} {facts : FactBase} :
    Quiescent rules facts ↔ ∀ r ∈ rules,
      facts.get r.conclusion = true ∨ r.antecedent.eval facts.valuation = false := by
  refine forall_congr' fun r => forall_congr' fun _ => ?_
  rw [Rule.isReady, Bool.and_eq_false_iff, Bool.not_eq_false', Rule.holds]

/-- A pass fires nothing exactly when no rule is ready. -/
theorem firePass_nil_iff {rules : List Rule} {facts : FactBase} :
    (firePass rules facts).1 = [] ↔ Quiescent rules facts := by
  induction rules with
  | nil => simp [firePass, Quiescent]
  | cons r rules ih =>
    rw [firePass, Quiescent, List.forall_mem_cons]
    split
    · next h => simp [h]
    · next h => rw [ih, Quiescent, and_iff_right (Bool.eq_false_iff.2 h)]

theorem firePass_of_quiescent {rules : List Rule} {facts : FactBase}
    (h : Quiescent rules facts) : firePass rules facts = ([], facts) := by
  induction rules with
  | nil => rfl
  | cons r rules ih =>
    rw [Quiescent, List.forall_mem_cons] at h
    rw [firePass, h.1, if_neg Bool.false_ne_true, ih h.2]

theorem runPasses_of_quiescent {rules : List Rule} {facts : FactBase} (budget : Nat)
    (h : Quiescent rules facts) : runPasses budget rules facts = ([], facts) := by
  cases budget with
  | zero => rfl
  | succ budget =>
    rw [runPasses_of_firePass_nil budget (firePass_nil_iff.2 h), firePass_of_quiescent h]

/-! ## Pending conclusions -/

/-- The names that rules conclude. -/
def conclusions (rules : List Rule) : Finset String :=
  (rules.map Rule.conclusion).toFinset

theorem conclusion_mem (rules : List Rule) : ∀ r ∈ rules, r.conclusion ∈ conclusions rules :=
  fun _ hr => List.mem_toFinset.2 (List.mem_map_of_mem hr)

/-- The names that are not yet true. -/
def pending (names : Finset String) (facts : FactBase) : Finset String :=
  names.filter (facts.get · = false)

theorem pending_assert (names : Finset String) (facts : FactBase) (name : String) :
    pending names (facts.assert name) = (pending names facts).erase name := by
  ext other
  simp only [pending, FactBase.assert, FactBase.get_set, Finset.mem_filter, Finset.mem_erase]
  split
  · next h => simp [h]
  · next h => simp [Ne.symm h]

/-- The firing of a rule that is ready uses up one pending name. -/
theorem card_pending_assert {names : Finset String} {facts : FactBase} {r : Rule}
    (hr : r.conclusion ∈ names) (hready : r.isReady facts = true) :
    (pending names (facts.assert r.conclusion)).card + 1 = (pending names facts).card := by
  rw [pending_assert]
  refine Finset.card_erase_add_one (Finset.mem_filter.2 ⟨hr, ?_⟩)
  rw [Rule.isReady, Bool.and_eq_true, Bool.not_eq_true'] at hready
  exact hready.1

/-- The firings of a pass and the names it leaves pending make up those that were pending. -/
theorem length_fired_firePass {names : Finset String} {rules : List Rule}
    (hnames : ∀ r ∈ rules, r.conclusion ∈ names) (facts : FactBase) :
    (firePass rules facts).1.length + (pending names (firePass rules facts).2).card =
      (pending names facts).card := by
  induction rules generalizing facts with
  | nil => simp [firePass]
  | cons r rules ih =>
    rw [List.forall_mem_cons] at hnames
    rw [firePass]
    split
    · next hready =>
      have hcard := card_pending_assert hnames.1 hready
      have hrest := ih hnames.2 (facts.assert r.conclusion)
      simp only [List.length_cons]
      omega
    · exact ih hnames.2 facts

/-- The firings of a run and the names it leaves pending make up those that were pending. -/
theorem length_fired_runPasses {names : Finset String} {rules : List Rule}
    (hnames : ∀ r ∈ rules, r.conclusion ∈ names) (budget : Nat) (facts : FactBase) :
    (runPasses budget rules facts).1.length +
      (pending names (runPasses budget rules facts).2).card = (pending names facts).card := by
  induction budget generalizing facts with
  | zero => simp [runPasses]
  | succ budget ih =>
    have hpass := length_fired_firePass hnames facts
    rcases runPasses_succ budget rules facts with ⟨-, heq⟩ | ⟨-, heq⟩
    · rwa [heq]
    · have hrest := ih (firePass rules facts).2
      rw [heq]
      simp only [List.length_append]
      omega

theorem quiescent_of_pending {rules : List Rule} {facts : FactBase}
    (h : pending (conclusions rules) facts = ∅) : Quiescent rules facts := by
  refine quiescent_iff.2 fun r hr => .inl ?_
  have hnot : r.conclusion ∉ pending (conclusions rules) facts := by
    rw [h]
    exact Finset.notMem_empty _
  simpa [pending, conclusion_mem rules r hr] using hnot

/-- A run is quiescent when it may take a pass for each pending conclusion. -/
theorem runPasses_quiescent {rules : List Rule} {facts : FactBase} {budget : Nat}
    (hbudget : (pending (conclusions rules) facts).card ≤ budget) :
    Quiescent rules (runPasses budget rules facts).2 := by
  induction budget generalizing facts with
  | zero => exact quiescent_of_pending (Finset.card_eq_zero.1 (Nat.le_zero.1 hbudget))
  | succ budget ih =>
    have hpass := length_fired_firePass (conclusion_mem rules) facts
    rcases runPasses_succ budget rules facts with ⟨hnil, heq⟩ | ⟨hfired, heq⟩
    · have hq := firePass_nil_iff.1 hnil
      rwa [heq, firePass_of_quiescent hq]
    · -- a pass that fired something has made some pending conclusion true
      have hpos : 0 < (firePass rules facts).1.length := List.length_pos_iff.2 hfired
      rw [heq]
      exact ih (by omega)

/-! ## Pass by pass -/

end Sentential.Engine
