import Sentential.Proofs.Dpll.Search
import Sentential.Proofs.TruthTable

/-!
# Budgets of the search

The search has three loops: frames that call each other, the rounds of a frame and the sweeps of a
propagation. Every assignment takes a name from those that are open in the clauses and puts it on
the trail, and a loop that goes on has assigned something. So one more pass than there are open
names at its start is enough for each loop. The loops are given budgets here, and fail when they
would exceed them, so that nothing but the budgets makes them end.

* `ClauseSet.openVars`: the names of the clauses that have no value.
* `Branch.Reaches.length_trail_add`: what a branch assigns goes from the open names to its trail.
* `propagateWithin`, `reduceWithin`, `searchWithin`: the three loops with budgets.
* `propagate_of_within`, `reduce_of_within`, `search_of_within`: a run that keeps to its budgets has
  the result of the run without.
* `exists_propagateWithin`, `exists_reduceWithin`, `exists_searchWithin`: enough budgets are not
  exceeded.
* `search_within_budgets`: the budgets of a search and of each loop in it.
-/

namespace Sentential

namespace ClauseSet

variable {s : ClauseSet} {a : Valuation} {l : Literal}

/-! ## Open names -/

/-- The names of the clauses that have no value, each once. -/
def openVars (s : ClauseSet) (a : Valuation) : List String :=
  s.vars.filter (· ∉ a)

theorem nodup_openVars (s : ClauseSet) (a : Valuation) : (s.openVars a).Nodup :=
  (Valuation.nodup_toList _).filter _

theorem mem_openVars_of_mem_openLiterals (h : l ∈ s.openLiterals a) : l.var ∈ s.openVars a := by
  obtain ⟨hocc, hnew⟩ := mem_openLiterals.1 h
  obtain ⟨c, hc, hl⟩ := List.mem_flatMap.1 hocc
  refine List.mem_filter.2 ⟨mem_vars.2 ⟨c, hc, l, Clause.mem_toList.1 hl, rfl⟩, ?_⟩
  exact decide_eq_true hnew

/-- A value for a name takes this name, and no other, from the open ones. -/
theorem openVars_insert (s : ClauseSet) (a : Valuation) (name : String) (value : Bool) :
    s.openVars (a.insert name value) = (s.openVars a).erase name := by
  rw [(nodup_openVars s a).erase_eq_filter, openVars, openVars, List.filter_filter]
  refine List.filter_congr fun other _ => ?_
  simp only [Std.ExtTreeMap.mem_insert, Std.LawfulEqCmp.compare_eq_iff_eq]
  by_cases hn : name = other
  · simp [hn]
  · simp [hn, Ne.symm hn]

theorem length_openVars_insert (h : l ∈ s.openLiterals a) (value : Bool) :
    (s.openVars (a.insert l.var value)).length + 1 = (s.openVars a).length := by
  rw [openVars_insert, List.length_erase_add_one (mem_openVars_of_mem_openLiterals h)]

end ClauseSet

/-- What a branch assigns goes from the open names to its trail. -/
theorem Branch.Reaches.length_trail_add {s : ClauseSet} {x y : Branch} (h : Reaches s x y) :
    y.trail.length + (s.openVars y.assignment).length =
      x.trail.length + (s.openVars x.assignment).length := by
  induction h with
  | refl => rfl
  | @assign b l h hl ih =>
    have hopen := ClauseSet.length_openVars_insert hl l.polarity
    simp only [Branch.assign, List.length_cons]
    omega

namespace ClauseSet

variable {s : ClauseSet} {settings : SolverSettings} {pureToo : Bool} {sweeps rounds frames : Nat}
  {a : Valuation} {b : Branch} {l : Literal} {o : Outcome} {r : Bool × Valuation}

/-! ## The loops with budgets -/

/-- Propagation within a budget of sweeps. -/
def propagateWithin (s : ClauseSet) : Nat → Branch → Option Outcome
  | 0, _ => none
  | sweeps + 1, b =>
    let o := sweep s.clauses b
    if o.consistent ∧ o.branch.trail.length ≠ b.trail.length then
      s.propagateWithin sweeps o.branch
    else some o

/-- The rounds of a frame within a budget of rounds, and of sweeps for each propagation. -/
def reduceWithin (s : ClauseSet) (pureToo : Bool) (sweeps : Nat) : Nat → Branch → Option Outcome
  | 0, _ => none
  | rounds + 1, b => do
    let o ← s.propagateWithin sweeps b
    if o.consistent ∧ pureToo ∧ s.pureLiterals o.branch.assignment ≠ [] then
      s.reduceWithin pureToo sweeps rounds (s.assignPure o.branch)
    else some o

/-- The search within a budget of frames inside each other, and of rounds for each frame and sweeps
for each propagation. -/
def searchWithin (s : ClauseSet) (settings : SolverSettings) (sweeps rounds : Nat) :
    Nat → Valuation → Option (Bool × Valuation)
  | 0, _ => none
  | frames + 1, a => do
    let o ← s.reduceWithin settings.pureLiteralElimination sweeps rounds (.ofAssignment a)
    if o.consistent then
      match s.liveLiterals o.branch.assignment with
      | [] => some (true, o.branch.assignment)
      | l :: _ =>
        let first ← s.searchWithin settings sweeps rounds frames
          (o.branch.assignment.insert l.var true)
        if first.1 then some first
        else
          let second ← s.searchWithin settings sweeps rounds frames
            ((first.2.erase l.var).insert l.var false)
          if second.1 then some second
          else some (false, { o.branch with assignment := second.2.erase l.var }.undo)
    else some (false, o.branch.undo)

/-! ## Results within the budgets -/

theorem propagate_of_within (h : s.propagateWithin sweeps b = some o) : s.propagate b = o := by
  induction sweeps generalizing b with
  | zero => cases h
  | succ sweeps ih =>
    rw [propagateWithin] at h
    rw [propagate]
    split at h
    · next hmore => exact (if_pos hmore).trans (ih h)
    · next hstop => exact (if_neg hstop).trans (Option.some.inj h)

theorem reduce_of_within (h : s.reduceWithin pureToo sweeps rounds b = some o) :
    s.reduce pureToo b = o := by
  induction rounds generalizing b with
  | zero => cases h
  | succ rounds ih =>
    obtain ⟨p, hp, h⟩ := Option.bind_eq_some_iff.1 h
    rw [reduce]
    obtain rfl := propagate_of_within hp
    split at h
    · next hmore => exact (if_pos hmore).trans (ih h)
    · next hstop => exact (if_neg hstop).trans (Option.some.inj h)

theorem search_of_within (h : s.searchWithin settings sweeps rounds frames a = some r) :
    s.search settings a = r := by
  induction frames generalizing a r with
  | zero => cases h
  | succ frames ih =>
    obtain ⟨o, ho, h⟩ := Option.bind_eq_some_iff.1 h
    obtain rfl := reduce_of_within ho
    rw [search_eq]
    split at h
    · next hc =>
      rw [if_pos hc]
      cases hlive : s.liveLiterals
          (s.reduce settings.pureLiteralElimination (.ofAssignment a)).branch.assignment with
      | nil =>
        rw [hlive] at h
        exact Option.some.inj h
      | cons l ls =>
        rw [hlive] at h
        obtain ⟨first, hfirst, h⟩ := Option.bind_eq_some_iff.1 h
        simp only [ih hfirst]
        split at h
        · next hfound => exact (if_pos hfound).trans (Option.some.inj h)
        · next hfailed =>
          obtain ⟨second, hsecond, h⟩ := Option.bind_eq_some_iff.1 h
          simp only [if_neg hfailed, ih hsecond]
          split at h
          · next hfound => exact (if_pos hfound).trans (Option.some.inj h)
          · next hfailed => exact (if_neg hfailed).trans (Option.some.inj h)
    · next hc =>
      rw [if_neg hc]
      exact Option.some.inj h

/-! ## Enough budgets -/

theorem exists_propagateWithin (h : (s.openVars b.assignment).length < sweeps) :
    ∃ o, s.propagateWithin sweeps b = some o := by
  induction sweeps generalizing b with
  | zero => cases h
  | succ sweeps ih =>
    have hreach := sweep_reaches (s := s) (fun _ hc => hc) b
    have hopen := hreach.length_trail_add
    have htrail := hreach.trail_suffix.length_le
    rw [propagateWithin]
    split
    · next hmore => exact ih (by omega)
    · exact ⟨_, rfl⟩

theorem exists_reduceWithin (pureToo : Bool) (hsweeps : (s.openVars b.assignment).length < sweeps)
    (hrounds : (s.openVars b.assignment).length < rounds) :
    ∃ o, s.reduceWithin pureToo sweeps rounds b = some o := by
  induction rounds generalizing b with
  | zero => cases hrounds
  | succ rounds ih =>
    obtain ⟨o, ho⟩ := exists_propagateWithin hsweeps
    simp only [reduceWithin, ho, Option.bind_eq_bind, Option.bind_some]
    split
    · next hmore =>
      obtain rfl := propagate_of_within ho
      have hpropagated := (s.propagate_reaches b).length_trail_add
      have htrail := (s.propagate_reaches b).trail_suffix.length_le
      have hopen := (s.assignPure_reaches (s.propagate b).branch).length_trail_add
      have hlength := s.length_trail_assignPure (s.propagate b).branch
      have hpure := List.length_pos_iff.2 hmore.2.2
      exact ih (by omega) (by omega)
    · exact ⟨_, rfl⟩

/-- A split leaves fewer names open than its frame started with. -/
theorem length_openVars_split_lt {ls : List Literal}
    (hlive : s.liveLiterals (s.frame settings a).branch.assignment = l :: ls) (value : Bool) :
    (s.openVars ((s.frame settings a).branch.assignment.insert l.var value)).length <
      (s.openVars a).length := by
  have hsplit := length_openVars_insert (mem_openLiterals_of_split hlive) value
  have hframe : _ = 0 + (s.openVars a).length := (s.frame_reaches settings a).length_trail_add
  omega

theorem exists_searchWithin (settings : SolverSettings) (hsweeps : (s.openVars a).length < sweeps)
    (hrounds : (s.openVars a).length < rounds) (hframes : (s.openVars a).length < frames) :
    ∃ r, s.searchWithin settings sweeps rounds frames a = some r := by
  induction frames generalizing a with
  | zero => cases hframes
  | succ frames ih =>
    obtain ⟨o, ho⟩ := exists_reduceWithin settings.pureLiteralElimination
      (b := .ofAssignment a) hsweeps hrounds
    obtain rfl : s.frame settings a = o := reduce_of_within ho
    simp only [searchWithin, ho, Option.bind_eq_bind, Option.bind_some]
    split
    · split
      · exact ⟨_, rfl⟩
      · next l ls hlive =>
        have hlt := length_openVars_split_lt hlive
        have hhalf (value : Bool) : ∃ r, s.searchWithin settings sweeps rounds frames
            ((s.frame settings a).branch.assignment.insert l.var value) = some r :=
          ih (lt_trans (hlt value) hsweeps) (lt_trans (hlt value) hrounds)
            (Nat.lt_of_lt_of_le (hlt value) (Nat.le_of_lt_succ hframes))
        obtain ⟨first, hfirst⟩ := hhalf true
        obtain rfl : s.half settings a l true = first := search_of_within hfirst
        rw [hfirst, Option.bind_some]
        split
        · exact ⟨_, rfl⟩
        · next hfailed =>
          -- What the failed half hands back is the branch that the frame split.
          obtain ⟨second, hsecond⟩ := hhalf false
          rw [erase_half hlive (by simpa using hfailed), hsecond, Option.bind_some]
          split
          · exact ⟨_, rfl⟩
          · exact ⟨_, rfl⟩
    · exact ⟨_, rfl⟩

/-- The budgets of a search. With `u` names of the clauses open where it starts, budgets of `u + 1`
frames inside each other, of `u + 1` rounds for every frame and of `u + 1` sweeps for every
propagation are enough for it to end, with the result of the search without budgets, and smaller
budgets may be exceeded but never change the result. The same holds of each of its loops with the
names that are open where the loop itself starts. -/
theorem search_within_budgets (s : ClauseSet) (settings : SolverSettings) (a : Valuation) :
    let u := (s.openVars a).length
    (∀ sweeps rounds frames, u + 1 ≤ sweeps → u + 1 ≤ rounds → u + 1 ≤ frames →
      s.searchWithin settings sweeps rounds frames a = some (s.search settings a)) ∧
    (∀ sweeps rounds frames r, s.searchWithin settings sweeps rounds frames a = some r →
      s.search settings a = r) ∧
    (∀ (pureToo : Bool) (b : Branch),
      let u := (s.openVars b.assignment).length
      s.propagateWithin (u + 1) b = some (s.propagate b) ∧
      s.reduceWithin pureToo (u + 1) (u + 1) b = some (s.reduce pureToo b)) := by
  refine ⟨fun sweeps rounds frames hsweeps hrounds hframes => ?_, fun _ _ _ r h =>
    search_of_within h, fun pureToo b => ⟨?_, ?_⟩⟩
  · obtain ⟨r, hr⟩ := exists_searchWithin settings hsweeps hrounds hframes
    rw [hr, search_of_within hr]
  · obtain ⟨o, ho⟩ := exists_propagateWithin (s := s) (b := b) (Nat.lt_succ_self _)
    rw [ho, propagate_of_within ho]
  · obtain ⟨o, ho⟩ := exists_reduceWithin (s := s) (b := b) pureToo (Nat.lt_succ_self _)
      (Nat.lt_succ_self _)
    rw [ho, reduce_of_within ho]

/-- Smaller budgets can be too small: a name with both signs in one clause is only assigned by a
split, and names that force each other against the order of the clauses take a sweep each. -/
example :
    let either : ClauseSet := ⟨[.ofList [⟨"a", false⟩, ⟨"a", true⟩]]⟩
    let backwards : ClauseSet := ⟨[.ofList [⟨"b", true⟩, ⟨"c", false⟩],
      .ofList [⟨"a", true⟩, ⟨"b", false⟩], .ofList [⟨"a", false⟩]]⟩
    (either.openVars ∅).length = 1 ∧ either.searchWithin ⟨false⟩ 2 2 1 ∅ = none ∧
      (backwards.openVars ∅).length = 3 ∧
      backwards.propagateWithin 3 (.ofAssignment ∅) = none := by
  decide

end ClauseSet

end Sentential
