import Sentential.Dpll.Branch

/-!
# Forced literals

Propagation sweeps over the clauses and makes the literal of each unit clause true at once, so that
later clauses of the same sweep see it; sweeps repeat until one assigns nothing. A clause without
a way out stops it. The pure literals are those whose name occurs with one sign only in the clauses
that are not satisfied yet; they are made true together, and propagation starts again.

* `sweep_reaches`, `propagate_reaches`, `reduce_reaches`: only open literals are made true.
-/

namespace Sentential

/-- How a stage of the search ends: whether without a conflict, and in which branch. -/
structure Outcome where
  consistent : Bool
  branch : Branch

namespace ClauseSet

/-! ## Unit clauses -/

/-- One sweep over clauses. -/
def sweep : List Clause → Branch → Outcome
  | [], b => ⟨true, b⟩
  | c :: cs, b =>
    match c.status b.assignment with
    | .conflict => ⟨false, b⟩
    | .unit l => sweep cs (b.assign l)
    | .satisfied | .unresolved => sweep cs b

theorem sweep_reaches {s : ClauseSet} {cs : List Clause} (hcs : ∀ c ∈ cs, c ∈ s.clauses)
    (b : Branch) : Branch.Reaches s b (sweep cs b).branch := by
  induction cs generalizing b with
  | nil => exact .refl
  | cons c cs ih =>
    have htail : ∀ d ∈ cs, d ∈ s.clauses := fun d hd => hcs d (by simp [hd])
    rw [sweep]
    split
    · exact .refl
    · next l hl =>
      have hopen := mem_openLiterals_of_clause (hcs c (by simp))
        (Clause.mem_openLiterals_of_status_unit hl)
      exact (Branch.Reaches.refl.assign hopen).trans (ih htail _)
    · exact ih htail b
    · exact ih htail b

/-- Sweeps until one assigns nothing or meets a conflict. -/
def propagate (s : ClauseSet) (b : Branch) : Outcome :=
  let o := sweep s.clauses b
  if o.consistent ∧ o.branch.trail.length ≠ b.trail.length then propagate s o.branch else o
termination_by (s.openLiterals b.assignment).length
decreasing_by
  rename_i h
  exact (sweep_reaches (fun _ hc => hc) b).lt_of_trail_ne h.2

theorem propagate_reaches (s : ClauseSet) (b : Branch) :
    Branch.Reaches s b (s.propagate b).branch := by
  fun_induction propagate s b with
  | case1 b o h ih => exact (sweep_reaches (fun _ hc => hc) b).trans ih
  | case2 b o h => exact sweep_reaches (fun _ hc => hc) b

/-! ## Pure literals -/

/-- The open literals of the clauses that are not satisfied, clause by clause. -/
def liveLiterals (s : ClauseSet) (a : Valuation) : List Literal :=
  (s.clauses.filter fun c => !c.eval a).flatMap (·.openLiterals a)

/-- The live literals whose opposite is not live, by name. -/
def pureLiterals (s : ClauseSet) (a : Valuation) : List Literal :=
  let live := Std.ExtTreeSet.ofList (s.liveLiterals a)
  live.toList.filter (·.negate ∉ live)

theorem mem_liveLiterals_of_pure {s : ClauseSet} {a : Valuation} {l : Literal}
    (h : l ∈ s.pureLiterals a) : l ∈ s.liveLiterals a := by
  have hl := (List.mem_filter.1 h).1
  simpa [Std.ExtTreeSet.mem_toList, Std.ExtTreeSet.mem_ofList] using hl

theorem mem_openLiterals_of_live {s : ClauseSet} {a : Valuation} {l : Literal}
    (h : l ∈ s.liveLiterals a) : l ∈ s.openLiterals a := by
  obtain ⟨c, hc, hl⟩ := List.mem_flatMap.1 h
  exact mem_openLiterals_of_clause (List.mem_filter.1 hc).1 hl

/-- Pure literals have different names. -/
theorem pureLiterals_distinct (s : ClauseSet) (a : Valuation) :
    (s.pureLiterals a).Pairwise (·.var ≠ ·.var) := by
  have hsorted : (s.pureLiterals a).Pairwise (fun l m => compare l m = .lt) :=
    Std.ExtTreeSet.ordered_toList.filter _
  refine hsorted.imp_of_mem fun {l m} hl hm hlt hvar => ?_
  have hm' : m ≠ l.negate := by
    rintro rfl
    have hpure := (List.mem_filter.1 hl).2
    have hlive := (List.mem_filter.1 hm).1
    simp only [decide_not, Bool.not_eq_true', decide_eq_false_iff_not] at hpure
    exact hpure (Std.ExtTreeSet.mem_toList.1 hlive)
  have hne : l ≠ m := by
    rintro rfl
    simp at hlt
  apply hm'
  obtain ⟨x, b⟩ := l
  obtain ⟨y, c⟩ := m
  simp only at hvar
  subst hvar
  cases b <;> cases c <;> simp_all [Literal.negate]

/-- Makes the pure literals of a branch true. -/
def assignPure (s : ClauseSet) (b : Branch) : Branch :=
  (s.pureLiterals b.assignment).foldl Branch.assign b

theorem assignPure_reaches (s : ClauseSet) (b : Branch) : Branch.Reaches s b (s.assignPure b) :=
  Branch.Reaches.foldl_assign (s.pureLiterals_distinct b.assignment) fun _ hl =>
    mem_openLiterals_of_live (mem_liveLiterals_of_pure hl)

theorem length_trail_assignPure (s : ClauseSet) (b : Branch) :
    (s.assignPure b).trail.length = b.trail.length + (s.pureLiterals b.assignment).length := by
  have hfold : ∀ (ls : List Literal) (b : Branch),
      (ls.foldl Branch.assign b).trail.length = b.trail.length + ls.length := by
    intro ls
    induction ls with
    | nil => simp
    | cons l ls ih => intro b; simp [ih, Branch.assign]; omega
  exact hfold _ b

/-! ## Both together -/

/-- Propagates and, if asked to, makes pure literals true, until neither assigns anything or a
conflict is met. -/
def reduce (s : ClauseSet) (pureToo : Bool) (b : Branch) : Outcome :=
  let o := s.propagate b
  if o.consistent ∧ pureToo ∧ s.pureLiterals o.branch.assignment ≠ [] then
    reduce s pureToo (s.assignPure o.branch)
  else o
termination_by (s.openLiterals b.assignment).length
decreasing_by
  rename_i h
  have hreach : Branch.Reaches s b (s.assignPure o.branch) :=
    (s.propagate_reaches b).trans (s.assignPure_reaches _)
  have htrail : b.trail.length ≤ o.branch.trail.length :=
    (s.propagate_reaches b).trail_suffix.length_le
  have hpure := List.length_pos_iff.2 h.2.2
  have hlength := s.length_trail_assignPure o.branch
  exact hreach.lt_of_trail_ne (by omega)

theorem reduce_reaches (s : ClauseSet) (pureToo : Bool) (b : Branch) :
    Branch.Reaches s b (s.reduce pureToo b).branch := by
  fun_induction reduce s pureToo b with
  | case1 b o h ih => exact ((s.propagate_reaches b).trans (s.assignPure_reaches _)).trans ih
  | case2 b o h => exact s.propagate_reaches b

end ClauseSet

end Sentential
