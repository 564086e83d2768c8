import Sentential.Clause.Basic

/-!
# Branches of the search

A clause is read under a partial assignment: true, impossible, forced, or open. A branch of the
search holds the assignment and its trail, the names that the branch has assigned itself, the last
first; undoing the branch erases them again.

* `Branch.Reaches`: assignments that only ever touch open literals of the clause set.
* `Branch.Reaches.undo_eq`: undoing such assignments leads back to the start of the branch.
* `Branch.Reaches.eq_or_lt`: each of them leaves fewer literals open.
-/

namespace Sentential

/-! ## Clauses under an assignment -/

/-- What an assignment says about a clause. -/
inductive ClauseStatus where
  | satisfied
  | conflict
  | unit (l : Literal)
  | unresolved
  deriving DecidableEq

namespace Clause

/-- The literals whose names have no value. -/
def openLiterals (c : Clause) (a : Valuation) : List Literal :=
  c.toList.filter (·.var ∉ a)

/-- A clause with a true literal is satisfied. Otherwise its open literals decide: without any it
is a conflict, and a single one must be made true. -/
def status (c : Clause) (a : Valuation) : ClauseStatus :=
  if c.eval a then .satisfied
  else
    match c.openLiterals a with
    | [] => .conflict
    | [l] => .unit l
    | _ => .unresolved

theorem mem_openLiterals_of_status_unit {c : Clause} {a : Valuation} {l : Literal}
    (h : c.status a = .unit l) : l ∈ c.openLiterals a := by
  unfold status at h
  split at h
  · cases h
  · split at h
    · cases h
    · next heq => cases h; simp [heq]
    · cases h

end Clause

/-- The literals of a clause set whose names have no value, as often as they occur. -/
def ClauseSet.openLiterals (s : ClauseSet) (a : Valuation) : List Literal :=
  s.occurrences.filter (·.var ∉ a)

theorem ClauseSet.mem_openLiterals {s : ClauseSet} {a : Valuation} {l : Literal} :
    l ∈ s.openLiterals a ↔ l ∈ s.occurrences ∧ l.var ∉ a := by
  simp [openLiterals]

theorem ClauseSet.mem_openLiterals_of_clause {s : ClauseSet} {c : Clause} {a : Valuation}
    {l : Literal} (hc : c ∈ s.clauses) (hl : l ∈ c.openLiterals a) : l ∈ s.openLiterals a := by
  simp only [Clause.openLiterals, List.mem_filter] at hl
  exact List.mem_filter.2 ⟨List.mem_flatMap.2 ⟨c, hc, hl.1⟩, hl.2⟩

/-- A value for the name of an open literal leaves fewer literals open. -/
theorem ClauseSet.openLiterals_insert_lt {s : ClauseSet} {a : Valuation} {l : Literal}
    (h : l ∈ s.openLiterals a) (b : Bool) :
    (s.openLiterals (a.insert l.var b)).length < (s.openLiterals a).length := by
  have hfilter : s.openLiterals (a.insert l.var b) =
      (s.openLiterals a).filter fun m => l.var ≠ m.var := by
    simp only [openLiterals, List.filter_filter]
    congr 1
    funext m
    by_cases hm : l.var = m.var <;> simp [hm]
  rw [hfilter]
  exact List.length_filter_lt_length_iff_exists.2 ⟨l, h, by simp⟩

/-! ## Assigning and undoing -/

/-- The assignment of a branch of the search and the names that this branch has assigned. -/
structure Branch where
  assignment : Valuation
  trail : List String

namespace Branch

/-- A branch that starts from an assignment. -/
def ofAssignment (a : Valuation) : Branch :=
  ⟨a, []⟩

/-- Makes a literal true and records its name. -/
def assign (b : Branch) (l : Literal) : Branch :=
  ⟨b.assignment.insert l.var l.polarity, l.var :: b.trail⟩

/-- The assignment without the names of the trail. -/
def undo (b : Branch) : Valuation :=
  b.trail.foldl (fun a name => a.erase name) b.assignment

/-- `b` arises from `start` by making open literals of `s` true. -/
inductive Reaches (s : ClauseSet) (start : Branch) : Branch → Prop where
  | refl : Reaches s start start
  | assign {b : Branch} {l : Literal} :
    Reaches s start b → l ∈ s.openLiterals b.assignment → Reaches s start (b.assign l)

namespace Reaches

variable {s : ClauseSet} {a b c : Branch}

theorem trans (h : Reaches s a b) (h' : Reaches s b c) : Reaches s a c := by
  induction h' with
  | refl => exact h
  | assign _ hl ih => exact ih.assign hl

/-- Undoing what a branch did leads back to where it started. -/
theorem undo_eq (h : Reaches s a b) : b.undo = a.undo := by
  induction h with
  | refl => rfl
  | assign h hl ih =>
    rw [← ih, undo, undo, Branch.assign, List.foldl_cons,
      Valuation.erase_insert_of_not_mem (ClauseSet.mem_openLiterals.1 hl).2]

/-- The assignment of a branch only grows. -/
theorem assignment_extends (h : Reaches s a b) : b.assignment.Extends a.assignment := by
  induction h with
  | refl => exact .refl _
  | assign h hl ih =>
    exact (Valuation.insert_extends (ClauseSet.mem_openLiterals.1 hl).2 _).trans ih

/-- Either nothing was assigned or fewer literals are open. -/
theorem eq_or_lt (h : Reaches s a b) :
    b = a ∨ (s.openLiterals b.assignment).length < (s.openLiterals a.assignment).length := by
  induction h with
  | refl => exact .inl rfl
  | @assign b l h hl ih =>
    have hlt := ClauseSet.openLiterals_insert_lt hl l.polarity
    rcases ih with rfl | ih
    · exact .inr hlt
    · exact .inr (Nat.lt_trans hlt ih)

/-- The trail only grows. -/
theorem trail_suffix (h : Reaches s a b) : a.trail <:+ b.trail := by
  induction h with
  | refl => exact List.suffix_refl _
  | assign h hl ih => exact ih.trans (List.suffix_cons _ _)

/-- A branch whose trail has grown has fewer open literals. -/
theorem lt_of_trail_ne (h : Reaches s a b) (ht : b.trail.length ≠ a.trail.length) :
    (s.openLiterals b.assignment).length < (s.openLiterals a.assignment).length :=
  h.eq_or_lt.resolve_left fun heq => ht (by rw [heq])

/-- Open literals with different names can be made true one after the other. -/
theorem foldl_assign {ls : List Literal} (hdistinct : ls.Pairwise (·.var ≠ ·.var))
    (hopen : ∀ l ∈ ls, l ∈ s.openLiterals a.assignment) :
    Reaches s a (ls.foldl Branch.assign a) := by
  induction ls generalizing a with
  | nil => exact .refl
  | cons l ls ih =>
    obtain ⟨hl, hls⟩ := List.pairwise_cons.1 hdistinct
    refine (Reaches.refl.assign (hopen l (by simp))).trans (ih hls fun m hm => ?_)
    obtain ⟨hocc, hmem⟩ := ClauseSet.mem_openLiterals.1 (hopen m (by simp [hm]))
    refine ClauseSet.mem_openLiterals.2 ⟨hocc, ?_⟩
    simp [Branch.assign, hl m hm, hmem]

end Reaches

end Branch

end Sentential
