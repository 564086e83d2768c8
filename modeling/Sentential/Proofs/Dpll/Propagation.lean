import Sentential.Dpll.Propagation
import Sentential.Proofs.Clause.Extension

/-!
# Models under propagation

Propagation only assigns what every model of the clauses has anyway, and it stops where no clause
forces anything.

* `sweep_keeps_models`, `propagate_keeps_models`: a model that extends the assignment before also
  extends the one after, and rules a conflict out.
* `propagate_settled`: without a conflict, propagation ends where every clause is true or has at
  least two open literals.
* `propagate_of_settled`: where that is so, propagation has nothing to do.
* `propagate_exact`: the models and the end of propagation in one statement.
* `eval_of_settled`: a settled assignment without live literals makes every clause true.
-/

namespace Sentential

namespace ClauseSet

/-- Every clause is true or leaves a choice: none is a conflict or a unit. -/
def Settled (cs : List Clause) (a : Valuation) : Prop :=
  ∀ c ∈ cs, c.status a = .satisfied ∨ c.status a = .unresolved

/-! ## Models -/

theorem sweep_keeps_models {cs : List Clause} {b : Branch} {v : Valuation}
    (h : v.Extends b.assignment) (hv : ∀ c ∈ cs, c.eval v = true) :
    (sweep cs b).consistent = true ∧ v.Extends (sweep cs b).branch.assignment := by
  induction cs generalizing b with
  | nil => exact ⟨rfl, h⟩
  | cons c cs ih =>
    obtain ⟨hc, hcs⟩ := List.forall_mem_cons.1 hv
    rw [sweep]
    split
    · next hs =>
      rw [Clause.eval_of_status_conflict h hs] at hc
      cases hc
    · next l hs => exact ih (Clause.extends_insert_of_status_unit h hs hc) hcs
    · exact ih h hcs
    · exact ih h hcs

theorem propagate_keeps_models {s : ClauseSet} {b : Branch} {v : Valuation}
    (h : v.Extends b.assignment) (hv : s.eval v = true) :
    (s.propagate b).consistent = true ∧ v.Extends (s.propagate b).branch.assignment := by
  fun_induction propagate s b with
  | case1 b o _ ih => exact ih (sweep_keeps_models h (eval_iff.1 hv)).2
  | case2 b o _ => exact sweep_keeps_models h (eval_iff.1 hv)

/-! ## Where propagation stops -/

theorem length_trail_le_sweep (cs : List Clause) (b : Branch) :
    b.trail.length ≤ (sweep cs b).branch.trail.length :=
  (sweep_reaches (s := ⟨cs⟩) (fun _ hc => hc) b).trail_suffix.length_le

/-- A sweep that meets no conflict and assigns nothing has changed nothing and found nothing. -/
theorem sweep_settled {cs : List Clause} {b : Branch} (hc : (sweep cs b).consistent = true)
    (ht : (sweep cs b).branch.trail.length = b.trail.length) :
    (sweep cs b).branch = b ∧ Settled cs b.assignment := by
  induction cs with
  | nil => exact ⟨rfl, by simp [Settled]⟩
  | cons c cs ih =>
    rw [sweep] at hc ht ⊢
    split at hc
    · cases hc
    · next l hs =>
      have hlt : (b.assign l).trail.length ≤ _ := length_trail_le_sweep cs (b.assign l)
      simp only [hs] at ht
      rw [ht, Branch.assign, List.length_cons] at hlt
      omega
    all_goals
      next hs =>
      simp only [hs] at ht ⊢
      obtain ⟨hsame, hrest⟩ := ih hc ht
      exact ⟨hsame, List.forall_mem_cons.2 ⟨by simp [hs], hrest⟩⟩

theorem propagate_settled {s : ClauseSet} {b : Branch} (h : (s.propagate b).consistent = true) :
    Settled s.clauses (s.propagate b).branch.assignment := by
  fun_induction propagate s b with
  | case1 b o _ ih => exact ih h
  | case2 b o hstop =>
    have ht : o.branch.trail.length = b.trail.length := by
      simpa [h] using hstop
    obtain ⟨hsame, hsettled⟩ := sweep_settled h ht
    rwa [hsame]

/-- Settled clauses force nothing. -/
theorem sweep_of_settled {cs : List Clause} {b : Branch} (h : Settled cs b.assignment) :
    sweep cs b = ⟨true, b⟩ := by
  induction cs with
  | nil => rfl
  | cons c cs ih =>
    obtain ⟨hc, hcs⟩ := List.forall_mem_cons.1 h
    rcases hc with hs | hs <;> simp only [sweep, hs, ih hcs]

theorem propagate_of_settled {s : ClauseSet} {b : Branch} (h : Settled s.clauses b.assignment) :
    s.propagate b = ⟨true, b⟩ := by
  rw [propagate, sweep_of_settled h]
  exact if_neg fun hmore => hmore.2 rfl

/-- Propagation keeps the models and ends where nothing is forced. Without a conflict the assignment
has only grown, the models that extend it, total or not, are those that extended it before, no
clause is a conflict or a unit under it, and to propagate again changes nothing. With a conflict no
extension of the assignment before is a model. -/
theorem propagate_exact (s : ClauseSet) (b : Branch) :
    let o := s.propagate b
    (o.consistent = true →
      o.branch.assignment.Extends b.assignment ∧
      (∀ v : Valuation, v.Extends b.assignment ∧ s.eval v = true ↔
        v.Extends o.branch.assignment ∧ s.eval v = true) ∧
      (∀ c ∈ s.clauses, c.status o.branch.assignment ≠ .conflict ∧
        ∀ l, c.status o.branch.assignment ≠ .unit l) ∧
      s.propagate o.branch = o) ∧
    (o.consistent = false → ∀ v : Valuation, v.Extends b.assignment → s.eval v = false) := by
  intro o
  have hgrows : o.branch.assignment.Extends b.assignment :=
    (s.propagate_reaches b).assignment_extends
  refine ⟨fun hc => ⟨hgrows, fun v => ⟨?_, ?_⟩, fun c hmem => ?_, ?_⟩, fun hc v hv => ?_⟩
  · rintro ⟨hext, hv⟩
    exact ⟨(propagate_keeps_models hext hv).2, hv⟩
  · rintro ⟨hext, hv⟩
    exact ⟨hext.trans hgrows, hv⟩
  · rcases propagate_settled hc c hmem with hs | hs <;> simp [o, hs]
  · exact (propagate_of_settled (propagate_settled hc)).trans (congrArg (Outcome.mk · _) hc.symm)
  · refine Bool.eq_false_iff.2 fun hmodel => ?_
    rw [(propagate_keeps_models hv hmodel).1] at hc
    cases hc

/-! ## Live literals -/

theorem mem_liveLiterals {s : ClauseSet} {a : Valuation} {l : Literal} :
    l ∈ s.liveLiterals a ↔ ∃ c ∈ s.clauses, c.eval a = false ∧ l ∈ c.openLiterals a := by
  simp [liveLiterals, and_assoc]

/-- Where nothing is forced and nothing is live, every clause is true. -/
theorem eval_of_settled {s : ClauseSet} {a : Valuation} (h : Settled s.clauses a)
    (hlive : s.liveLiterals a = []) : s.eval a = true := by
  refine eval_iff.2 fun c hc => ?_
  rcases h c hc with hs | hs
  · exact Clause.status_eq_satisfied_iff.1 hs
  · obtain ⟨hfalse, l, hl⟩ := Clause.exists_open_of_status_unresolved hs
    have hmem := mem_liveLiterals.2 ⟨c, hc, hfalse, hl⟩
    simp [hlive] at hmem

end ClauseSet

end Sentential
