import Sentential.Evaluator
import Sentential.Proofs.Dpll.Search
import Sentential.Proofs.TruthTable

/-!
# The evaluator is exact

The truth table and the clauses decide the same questions. So what an evaluator answers depends
neither on its threshold nor on whether it has a solver.

* `Evaluator.Decides`: a query succeeds, and answers yes exactly when a proposition holds.
* `Evaluator.satisfiable_decides`, `Evaluator.findModel?_spec`: what the two paths have in common.
* `Evaluator.answers_exact`: every query agrees with the semantics, under all settings.
-/

namespace Sentential.Evaluator

/-- The evaluator without a solver, or with the search under the given settings. -/
def withDpll (settings : EvaluatorSettings) (solver : Option SolverSettings) : Evaluator :=
  ⟨settings, solver.map Solver.dpll⟩

/-- The query succeeds, and answers yes exactly when `p` holds. -/
def Decides (reply : Except ClauseError (Reply Bool)) (p : Prop) : Prop :=
  ∃ r, reply = .ok r ∧ (r.answer = true ↔ p)

theorem Decides.congr {reply : Except ClauseError (Reply Bool)} {p q : Prop}
    (h : Decides reply p) (hpq : p ↔ q) : Decides reply q := by
  obtain ⟨r, hr, hp⟩ := h
  exact ⟨r, hr, hp.trans hpq⟩

/-- Two queries that decide the same proposition have the same answer. -/
theorem Decides.answer_eq {reply reply' : Except ClauseError (Reply Bool)} {p : Prop}
    (h : Decides reply p) (h' : Decides reply' p) :
    reply.map Reply.answer = reply'.map Reply.answer := by
  obtain ⟨r, rfl, hr⟩ := h
  obtain ⟨r', rfl, hr'⟩ := h'
  have heq : r.answer = r'.answer := Bool.eq_iff_iff.2 (hr.trans hr'.symm)
  rw [Except.map, Except.map, heq]

variable (settings : EvaluatorSettings) (solver : Option SolverSettings) (f g : Formula)

/-- A formula is decided by its truth table or by the search. -/
theorem solverFor?_withDpll : (withDpll settings solver).solverFor? f = none ∨
    ∃ s, (withDpll settings solver).solverFor? f = some (Solver.dpll s) := by
  rw [solverFor?]
  split
  · cases solver with
    | none => exact .inl rfl
    | some s => exact .inr ⟨s, rfl⟩
  · exact .inl rfl

theorem satisfiable_decides :
    Decides ((withDpll settings solver).satisfiable f) (∃ v, f.eval v = true) := by
  rcases solverFor?_withDpll settings solver f with h | ⟨s, h⟩
  · rw [satisfiable, h]
    exact ⟨_, rfl, Formula.satisfiable_iff⟩
  · obtain ⟨clauses, hclauses, hsat, -⟩ := ClauseSet.exists_clauses_solved f s
    rw [satisfiable, h, hclauses]
    exact ⟨_, rfl, hsat⟩

/-- A model is found exactly when there is one, and it makes the formula true even where it leaves
names out. -/
theorem findModel?_spec : ∃ r, (withDpll settings solver).findModel? f = .ok r ∧
    (r.answer.isSome = true ↔ ∃ v, f.eval v = true) ∧
    ∀ m, r.answer = some m → f.eval m = true := by
  rcases solverFor?_withDpll settings solver f with h | ⟨s, h⟩
  · rw [findModel?, h]
    exact ⟨_, rfl, Formula.isSome_findValuation?_iff, fun m => Formula.eval_of_findValuation?⟩
  · obtain ⟨clauses, hclauses, hsat, hmodel⟩ := ClauseSet.exists_clauses_solved f s
    rw [findModel?, h, hclauses]
    rcases hsolve : clauses.solve s ∅ with ⟨sat, w⟩
    rw [hsolve] at hsat
    refine ⟨⟨if sat then some w else none, 1⟩, ?_, ?_, fun m hm => ?_⟩
    · simp [Solver.dpll, hsolve, bind, Except.bind, pure, Except.pure]
    · rw [← hsat]
      cases sat <;> simp
    · cases sat with
      | false => simp at hm
      | true =>
        obtain rfl : w = m := by simpa using hm
        exact (hmodel w hsolve).2 w (.refl w)

theorem contradiction_decides :
    Decides ((withDpll settings solver).contradiction f) (∀ v, f.eval v = false) := by
  obtain ⟨r, hr, hsat⟩ := satisfiable_decides settings solver f
  refine ⟨r.map (! ·), by rw [contradiction, hr]; rfl, ?_⟩
  have hnone : r.answer = false ↔ ¬ ∃ v, f.eval v = true := by
    rw [← hsat, Bool.not_eq_true]
  simpa [Reply.map] using hnone

theorem tautology_decides :
    Decides ((withDpll settings solver).tautology f) (∀ v, f.eval v = true) :=
  (contradiction_decides settings solver (.neg f)).congr <| by
    simp [Formula.eval]

theorem equivalent_decides :
    Decides ((withDpll settings solver).equivalent f g) (∀ v, f.eval v = g.eval v) :=
  (tautology_decides settings solver (.iff f g)).congr <| by
    simp [Formula.eval, Connective.apply]

/-- Every query of an evaluator succeeds and agrees with the semantics, whatever its threshold and
whether it has no solver or the search under either settings; so two evaluators never disagree. -/
theorem answers_exact :
    Decides ((withDpll settings solver).satisfiable f) (∃ v, f.eval v = true) ∧
    Decides ((withDpll settings solver).contradiction f) (∀ v, f.eval v = false) ∧
    Decides ((withDpll settings solver).tautology f) (∀ v, f.eval v = true) ∧
    Decides ((withDpll settings solver).equivalent f g) (∀ v, f.eval v = g.eval v) ∧
    (∃ r, (withDpll settings solver).findModel? f = .ok r ∧
      (r.answer.isSome = true ↔ ∃ v, f.eval v = true) ∧
      ∀ m, r.answer = some m → f.eval m = true) ∧
    ∀ settings' solver',
      ((withDpll settings solver).satisfiable f).map Reply.answer =
        ((withDpll settings' solver').satisfiable f).map Reply.answer ∧
      ((withDpll settings solver).contradiction f).map Reply.answer =
        ((withDpll settings' solver').contradiction f).map Reply.answer ∧
      ((withDpll settings solver).tautology f).map Reply.answer =
        ((withDpll settings' solver').tautology f).map Reply.answer ∧
      ((withDpll settings solver).equivalent f g).map Reply.answer =
        ((withDpll settings' solver').equivalent f g).map Reply.answer ∧
      ((withDpll settings solver).findModel? f).map (·.answer.isSome) =
        ((withDpll settings' solver').findModel? f).map (·.answer.isSome) := by
  refine ⟨satisfiable_decides settings solver f, contradiction_decides settings solver f,
    tautology_decides settings solver f, equivalent_decides settings solver f g,
    findModel?_spec settings solver f, fun settings' solver' => ⟨?_, ?_, ?_, ?_, ?_⟩⟩
  · exact (satisfiable_decides settings solver f).answer_eq
      (satisfiable_decides settings' solver' f)
  · exact (contradiction_decides settings solver f).answer_eq
      (contradiction_decides settings' solver' f)
  · exact (tautology_decides settings solver f).answer_eq (tautology_decides settings' solver' f)
  · exact (equivalent_decides settings solver f g).answer_eq
      (equivalent_decides settings' solver' f g)
  · obtain ⟨r, hr, hfound, -⟩ := findModel?_spec settings solver f
    obtain ⟨r', hr', hfound', -⟩ := findModel?_spec settings' solver' f
    have heq : r.answer.isSome = r'.answer.isSome :=
      Bool.eq_iff_iff.2 (hfound.trans hfound'.symm)
    rw [hr, hr', Except.map, Except.map, heq]

end Sentential.Evaluator
