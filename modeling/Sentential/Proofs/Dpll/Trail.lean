import Sentential.Proofs.Dpll.Budgets

/-!
# The trail of a frame

A frame of the search takes its assignments back by erasing the names of its trail. Nothing is lost
by that, since a name is put on the trail only where it had no value: whatever was assigned when the
frame started still is when the frame has failed.

* `Branch.Reaches.mem_assignment_iff`: a branch assigns its trail besides what it started with.
* `Branch.Reaches.nodup_trail`, `Branch.Reaches.not_mem_of_mem_trail`: every name on the trail is
  there once and is new.
* `Branch.Reaches.exists_pushed`: each name was new at the moment when it was put on the trail.
* `ClauseSet.search_leaves_no_trace`: what a search leaves behind, failed or not.
-/

namespace Sentential

namespace Branch

variable {s : ClauseSet} {a : Valuation} {b x : Branch} {name : String}

/-! ## Names on the trail -/

namespace Reaches

/-- A branch assigns the names on its trail besides those that it started with. -/
theorem mem_assignment_iff (h : Reaches s (.ofAssignment a) b) :
    name ∈ b.assignment ↔ name ∈ a ∨ name ∈ b.trail := by
  induction h with
  | refl => simp [ofAssignment]
  | @assign b l h hl ih =>
    rw [Branch.assign, Std.ExtTreeMap.mem_insert, Std.LawfulEqCmp.compare_eq_iff_eq, ih,
      List.mem_cons]
    grind

theorem nodup_trail (h : Reaches s (.ofAssignment a) b) : b.trail.Nodup := by
  induction h with
  | refl => exact List.nodup_nil
  | @assign b l h hl ih =>
    have hnew := (ClauseSet.mem_openLiterals.1 hl).2
    exact List.nodup_cons.2 ⟨fun hmem => hnew (h.mem_assignment_iff.2 (.inr hmem)), ih⟩

theorem not_mem_of_mem_trail (h : Reaches s (.ofAssignment a) b) (hname : name ∈ b.trail) :
    name ∉ a := by
  induction h with
  | refl => cases hname
  | @assign b l h hl ih =>
    rcases List.mem_cons.1 hname with rfl | hmem
    · have hnew := (ClauseSet.mem_openLiterals.1 hl).2
      exact fun hmem => hnew (h.mem_assignment_iff.2 (.inl hmem))
    · exact ih hmem

end Reaches

/-! ## The order of the assignments -/

theorem trail_foldl_assign (ls : List Literal) (x : Branch) :
    (ls.foldl Branch.assign x).trail = (ls.map Literal.var).reverse ++ x.trail := by
  induction ls generalizing x with
  | nil => rfl
  | cons l ls ih => simp [ih, Branch.assign]

/-- A branch has assigned literals one after the other, each where its name had no value. -/
theorem Reaches.exists_pushed (h : Reaches s x b) : ∃ ls : List Literal,
    b = ls.foldl Branch.assign x ∧
    ∀ i (hi : i < ls.length), ls[i].var ∉ ((ls.take i).foldl Branch.assign x).assignment := by
  induction h with
  | refl => exact ⟨[], rfl, fun i hi => absurd hi (Nat.not_lt_zero i)⟩
  | @assign b l h hl ih =>
    obtain ⟨ls, rfl, hnew⟩ := ih
    refine ⟨ls ++ [l], by simp, fun i hi => ?_⟩
    rcases Nat.lt_or_eq_of_le (Nat.le_of_lt_succ (by simpa using hi)) with hlt | rfl
    · rw [List.getElem_append_left hlt, List.take_append_of_le_length hlt.le]
      exact hnew i hlt
    · simpa using (ClauseSet.mem_openLiterals.1 hl).2

end Branch

namespace ClauseSet

/-- A failed search leaves no trace, and a successful one keeps what it started with; the same holds
of the search with budgets, whatever they are. In every frame the trail has each name once, and none
that was assigned when the frame started; with those the names on the trail are all that the frame
has assigned. They were put there one after the other, each when it had no value, and the name that
the frame splits on has none either. -/
theorem search_leaves_no_trace (s : ClauseSet) (settings : SolverSettings) (a : Valuation) :
    (∀ w, s.search settings a = (false, w) → w = a) ∧
    (∀ w, s.search settings a = (true, w) → w.Extends a) ∧
    (∀ sweeps rounds frames,
      (∀ w, s.searchWithin settings sweeps rounds frames a = some (false, w) → w = a) ∧
      ∀ w, s.searchWithin settings sweeps rounds frames a = some (true, w) → w.Extends a) ∧
    let b := (s.frame settings a).branch
    b.trail.Nodup ∧ (∀ name ∈ b.trail, name ∉ a) ∧
    (∀ name, name ∈ b.assignment ↔ name ∈ a ∨ name ∈ b.trail) ∧
    (∃ ls : List Literal, b.trail = (ls.map Literal.var).reverse ∧
      b = ls.foldl Branch.assign (.ofAssignment a) ∧
      ∀ i (hi : i < ls.length),
        ls[i].var ∉ ((ls.take i).foldl Branch.assign (.ofAssignment a)).assignment) ∧
    ∀ l ls, s.liveLiterals b.assignment = l :: ls → l.var ∉ b.assignment := by
  have hfailed : ∀ w, s.search settings a = (false, w) → w = a := by
    intro w hw
    have hback := search_restores (congrArg Prod.fst hw)
    rwa [hw] at hback
  have hfound : ∀ w, s.search settings a = (true, w) → w.Extends a := by
    intro w hw
    have hgrows := (search_sound (congrArg Prod.fst hw)).1.keeps
    rwa [hw] at hgrows
  have hreach := s.frame_reaches settings a
  obtain ⟨ls, hls, hnew⟩ := hreach.exists_pushed
  refine ⟨hfailed, hfound, fun sweeps rounds frames => ⟨fun w hw => hfailed w (search_of_within hw),
    fun w hw => hfound w (search_of_within hw)⟩, hreach.nodup_trail,
    fun name hname => hreach.not_mem_of_mem_trail hname, fun name => hreach.mem_assignment_iff,
    ⟨ls, ?_, hls, hnew⟩, fun l ls hlive => (mem_openLiterals.1 (mem_openLiterals_of_split hlive)).2⟩
  rw [hls, Branch.trail_foldl_assign]
  exact List.append_nil _

end ClauseSet

end Sentential
