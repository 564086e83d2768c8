import Sentential.Proofs.Dpll.Search

/-!
# Entailment is semantic consequence

* `Follows`: every valuation that makes the base true makes the goal true.
* `CounterModel`: a valuation of the names in the question that makes the base true and the goal
  false.
* `entailment_cases`: a goal that follows is reported without a counter-model, any other with one.
* `entailment_exact`: both queries agree with the semantics on every question.
-/

namespace Sentential

/-- Every valuation that makes the base true makes the goal true. -/
def Follows (base : List Formula) (goal : Formula) : Prop :=
  ∀ v : Valuation, (∀ f ∈ base, f.eval v = true) → goal.eval v = true

/-- A valuation of exactly the names in the question that makes the base true and the goal
false. -/
structure CounterModel (base : List Formula) (goal : Formula) (m : Valuation) : Prop where
  mem_iff : ∀ name, name ∈ m ↔ name ∈ goal.vars ∨ ∃ f ∈ base, name ∈ f.vars
  base_true : ∀ f ∈ base, f.eval m = true
  goal_false : goal.eval m = false

variable {base : List Formula} {goal : Formula}

theorem eval_refutation_iff {v : Valuation} : (refutation base goal).eval v = true ↔
    (∀ f ∈ base, f.eval v = true) ∧ goal.eval v = false := by
  simp [eval_refutation]

/-- The refutation has a model exactly when the goal does not follow. -/
theorem exists_eval_refutation_iff :
    (∃ v, (refutation base goal).eval v = true) ↔ ¬ Follows base goal := by
  simp [Follows, eval_refutation_iff]

theorem mem_occurrences_refutation {name : String} :
    name ∈ (refutation base goal).occurrences ↔
      name ∈ goal.vars ∨ ∃ f ∈ base, name ∈ f.vars := by
  simp only [refutation, Formula.mem_occurrences_conjunction, List.mem_append, Formula.mem_vars]
  grind [Formula.occurrences_neg]

theorem mem_foldl_union_atoms {fs : List Formula} {names : Std.ExtTreeSet String}
    {name : String} : name ∈ fs.foldl (fun names f => names ∪ f.atoms) names ↔
      name ∈ names ∨ ∃ f ∈ fs, name ∈ f.vars := by
  induction fs generalizing names with
  | nil => simp
  | cons f fs ih =>
    have hvars : name ∈ f.atoms ↔ name ∈ f.vars := Std.ExtTreeSet.mem_toList.symm
    rw [List.foldl_cons, ih, Std.ExtTreeSet.mem_union_iff, or_assoc, hvars]
    simp

theorem mem_mentionedNames {name : String} :
    name ∈ mentionedNames base goal ↔ name ∈ goal.vars ∨ ∃ f ∈ base, name ∈ f.vars := by
  rw [mentionedNames, Std.ExtTreeSet.mem_toList, mem_foldl_union_atoms]
  simp

/-- A witness for the refutation becomes a counter-model when the other names are made false. -/
theorem counterModel_complete {w : Valuation}
    (hnames : ∀ name ∈ w, name ∈ (refutation base goal).occurrences)
    (hw : ∀ v : Valuation, v.Extends w → (refutation base goal).eval v = true) :
    CounterModel base goal (w.complete (mentionedNames base goal)) := by
  obtain ⟨hbase, hgoal⟩ := eval_refutation_iff.1 (hw _ (Valuation.complete_extends w _))
  refine ⟨fun name => ?_, hbase, hgoal⟩
  rw [Valuation.mem_complete, mem_mentionedNames, or_iff_right_iff_imp]
  exact fun hn => mem_occurrences_refutation.1 (hnames name hn)

/-- A goal that follows is reported without a counter-model, any other with one. -/
theorem entailment_cases (base : List Formula) (goal : Formula) :
    Follows base goal ∧ entails base goal = .ok true ∧ entailment base goal = ⟨true, none⟩ ∨
      ¬ Follows base goal ∧ entails base goal = .ok false ∧
        ∃ m, entailment base goal = ⟨false, some m⟩ ∧ CounterModel base goal m := by
  obtain ⟨s, hs, hsat, hw⟩ := ClauseSet.exists_clauses_solved (refutation base goal) {}
  rw [exists_eval_refutation_iff] at hsat
  rcases hsolve : s.solve {} ∅ with ⟨sat, w⟩
  have hentails : entails base goal = .ok !sat := by
    rw [entails, hs]
    simp [bind, Except.bind, pure, Except.pure, hsolve]
  rw [hsolve] at hsat
  cases sat with
  | true =>
    obtain ⟨hnames, hext⟩ := hw w hsolve
    refine .inr ⟨hsat.1 rfl, hentails, _, ?_, counterModel_complete hnames hext⟩
    simp only [entailment, hs, hsolve]
  | false =>
    refine .inl ⟨by simpa using hsat, hentails, ?_⟩
    simp only [entailment, hs, hsolve]

theorem entails_eq_true_iff : entails base goal = .ok true ↔ Follows base goal := by
  rcases entailment_cases base goal with ⟨hf, heq, -⟩ | ⟨hf, heq, -⟩ <;> simp [hf, heq]

/-- Entailment by refutation is exact. Neither query fails, both answer whether the goal follows
from the base, and there is a counter-model exactly when it does not: a valuation of just the names
in the question that makes the base true and the goal false. -/
theorem entailment_exact (base : List Formula) (goal : Formula) :
    (∃ b, entails base goal = .ok b ∧ (entailment base goal).entails = b ∧
      (b = true ↔ ∀ v : Valuation, (∀ f ∈ base, f.eval v = true) → goal.eval v = true)) ∧
    ((entailment base goal).counterModel.isSome = true ↔ (entailment base goal).entails = false) ∧
    ∀ m, (entailment base goal).counterModel = some m →
      (∀ name, name ∈ m ↔ name ∈ goal.vars ∨ ∃ f ∈ base, name ∈ f.vars) ∧
      (∀ f ∈ base, f.eval m = true) ∧ goal.eval m = false := by
  rcases entailment_cases base goal with ⟨hf, hentails, heq⟩ | ⟨hf, hentails, m, heq, hm⟩
  · rw [heq]
    refine ⟨⟨true, hentails, rfl, iff_of_true rfl hf⟩, by simp, fun m h => ?_⟩
    cases h
  · rw [heq]
    refine ⟨⟨false, hentails, rfl, iff_of_false Bool.false_ne_true hf⟩, by simp, fun m' h => ?_⟩
    cases h
    exact ⟨hm.mem_iff, hm.base_true, hm.goal_false⟩

end Sentential
