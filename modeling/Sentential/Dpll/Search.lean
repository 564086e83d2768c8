import Sentential.Dpll.Propagation
import Sentential.Settings

/-!
# Davis-Putnam-Logemann-Loveland search

Satisfiability of a clause set under a partial assignment: reduce, split on the first open name of
a clause that is not satisfied, try true before false, and take everything back when both fail. The
search hands back one assignment, which a failed branch leaves as it found it.

* `search_restores`: a failed search hands back the assignment that it was given.
* `search_eq`: one frame of the search.
-/

namespace Sentential

namespace ClauseSet

/-- The search from an assignment, with the fact that a failure restores it. The second value is
tried on what the failed first one handed back. -/
def searchRestoring (s : ClauseSet) (settings : SolverSettings) (a : Valuation) :
    { r : Bool × Valuation // r.1 = false → r.2 = a } :=
  let o := s.reduce settings.pureLiteralElimination (.ofAssignment a)
  have hreach : Branch.Reaches s (.ofAssignment a) o.branch := s.reduce_reaches _ _
  if o.consistent then
    match hlive : s.liveLiterals o.branch.assignment with
    | [] => ⟨(true, o.branch.assignment), by simp⟩
    | l :: _ =>
      have hopen : l ∈ s.openLiterals o.branch.assignment :=
        mem_openLiterals_of_live (by simp [hlive])
      let first := s.searchRestoring settings (o.branch.assignment.insert l.var true)
      if hfirst : first.1.1 then ⟨first.1, by simp [hfirst]⟩
      else
        have hback : first.1.2.erase l.var = o.branch.assignment := by
          rw [first.2 (by simpa using hfirst)]
          exact Valuation.erase_insert_of_not_mem (mem_openLiterals.1 hopen).2 true
        let second := s.searchRestoring settings ((first.1.2.erase l.var).insert l.var false)
        if hsecond : second.1.1 then ⟨second.1, by simp [hsecond]⟩
        else
          ⟨(false, { o.branch with assignment := second.1.2.erase l.var }.undo), fun _ => by
            rw [second.2 (by simpa using hsecond), hback,
              Valuation.erase_insert_of_not_mem (mem_openLiterals.1 hopen).2 false]
            exact hreach.undo_eq⟩
  else ⟨(false, o.branch.undo), fun _ => hreach.undo_eq⟩
termination_by (s.openLiterals a).length
decreasing_by
  all_goals
    have hle : (s.openLiterals o.branch.assignment).length ≤ (s.openLiterals a).length := by
      rcases hreach.eq_or_lt with h | h
      · rw [h]; exact Nat.le_refl _
      · exact Nat.le_of_lt h
  · exact Nat.lt_of_lt_of_le (openLiterals_insert_lt hopen true) hle
  · rw [hback]
    exact Nat.lt_of_lt_of_le (openLiterals_insert_lt hopen false) hle

/-- Whether some extension of `a` makes every clause true, and the assignment at the end. -/
def search (s : ClauseSet) (settings : SolverSettings) (a : Valuation) : Bool × Valuation :=
  (s.searchRestoring settings a).1

/-- A failed search hands back the assignment that it was given. -/
theorem search_restores {s : ClauseSet} {settings : SolverSettings} {a : Valuation}
    (h : (s.search settings a).1 = false) : (s.search settings a).2 = a :=
  (s.searchRestoring settings a).2 h

/-- One frame of the search. -/
theorem search_eq (s : ClauseSet) (settings : SolverSettings) (a : Valuation) :
    s.search settings a =
      let o := s.reduce settings.pureLiteralElimination (.ofAssignment a)
      if o.consistent then
        match s.liveLiterals o.branch.assignment with
        | [] => (true, o.branch.assignment)
        | l :: _ =>
          let first := s.search settings (o.branch.assignment.insert l.var true)
          if first.1 then first
          else
            let second := s.search settings ((first.2.erase l.var).insert l.var false)
            if second.1 then second
            else (false, { o.branch with assignment := second.2.erase l.var }.undo)
      else (false, o.branch.undo) := by
  simp only [search]
  rw [searchRestoring]
  split
  · split
    · next h => simp [h]
    · next h =>
      simp only [h]
      split
      · next hfirst => exact (if_pos hfirst).symm
      · next hfirst =>
        refine Eq.trans ?_ (if_neg hfirst).symm
        split
        · next hsecond => exact (if_pos hsecond).symm
        · next hsecond => exact (if_neg hsecond).symm
  · rfl

/-- Decides a clause set under the partial assignment `initial`. With an assignment that makes
every clause true the answer is that assignment; names that it leaves out do not matter. A failure
comes with the empty assignment. -/
def solve (s : ClauseSet) (settings : SolverSettings) (initial : Valuation) : Bool × Valuation :=
  if s.hasEmptyClause then (false, ∅)
  else if s.isEmpty then (true, initial)
  else
    match s.search settings initial with
    | (true, a) => (true, a)
    | (false, _) => (false, ∅)

end ClauseSet

end Sentential
