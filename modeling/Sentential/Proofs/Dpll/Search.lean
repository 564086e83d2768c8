import Sentential.Dpll.Search
import Sentential.Proofs.Clause.Conversion
import Sentential.Proofs.Dpll.PureLiteral

/-!
# The search finds a model exactly when there is one

A frame of the search reduces, and then either ends or splits on an open name. Reducing never
loses the last model, both halves of a split together lose none, and a failed half hands its
assignment back unchanged.

* `search_of_conflict`, `search_of_settled`, `search_of_live`: the three ways in which a frame ends.
* `search_induction`: induction over the frames of a search.
* `search_complete`: the search succeeds where some extension makes every clause true.
* `search_sound`: the assignment of a successful search is a model that adds only names of the
  clauses.
* `solve_decides`: the solver decides satisfiability under a partial assignment.
* `exists_clauses_solved`: the clauses of a formula exist, and solving them decides the formula.
  The witness leaves open only what does not matter, for the formula as for its clauses.
-/

namespace Sentential

namespace ClauseSet

variable {s : ClauseSet} {settings : SolverSettings} {a b c : Valuation}

/-! ## Growing within the names of the clauses -/

/-- `b` keeps every assignment of `a` and adds only names of the clauses. -/
structure GrowsTo (s : ClauseSet) (a b : Valuation) : Prop where
  keeps : b.Extends a
  adds : ∀ name ∈ b, name ∈ a ∨ name ∈ s.vars

theorem GrowsTo.refl (s : ClauseSet) (a : Valuation) : s.GrowsTo a a :=
  ⟨.refl a, fun _ h => .inl h⟩

theorem GrowsTo.trans (h : s.GrowsTo a b) (h' : s.GrowsTo b c) : s.GrowsTo a c := by
  refine ⟨h'.keeps.trans h.keeps, fun name hn => ?_⟩
  rcases h'.adds name hn with hb | hs
  · exact h.adds name hb
  · exact .inr hs

theorem growsTo_insert {l : Literal} (h : l ∈ s.openLiterals a) (value : Bool) :
    s.GrowsTo a (a.insert l.var value) := by
  obtain ⟨hocc, hnew⟩ := mem_openLiterals.1 h
  obtain ⟨c, hc, hl⟩ := List.mem_flatMap.1 hocc
  refine ⟨Valuation.insert_extends hnew value, fun name hn => ?_⟩
  rcases Std.ExtTreeMap.mem_insert.1 hn with heq | hmem
  · obtain rfl := Std.LawfulEqCmp.eq_of_compare heq
    exact .inr (mem_vars.2 ⟨c, hc, l, Clause.mem_toList.1 hl, rfl⟩)
  · exact .inl hmem

theorem growsTo_of_reaches {x y : Branch} (h : Branch.Reaches s x y) :
    s.GrowsTo x.assignment y.assignment := by
  induction h with
  | refl => exact .refl s _
  | assign _ hl ih => exact ih.trans (growsTo_insert hl _)

/-! ## Reducing -/

theorem reduce_satisfiableFrom {pureToo : Bool} {b : Branch}
    (h : s.SatisfiableFrom b.assignment) : (s.reduce pureToo b).consistent = true ∧
      s.SatisfiableFrom (s.reduce pureToo b).branch.assignment := by
  fun_induction reduce s pureToo b with
  | case1 b o hpure ih =>
    obtain ⟨v, hext, hv⟩ := h
    exact ih (satisfiableFrom_assignPure ⟨v, (propagate_keeps_models hext hv).2, hv⟩)
  | case2 b o hstop =>
    obtain ⟨v, hext, hv⟩ := h
    exact ⟨(propagate_keeps_models hext hv).1, v, (propagate_keeps_models hext hv).2, hv⟩

theorem reduce_settled {pureToo : Bool} {b : Branch} (h : (s.reduce pureToo b).consistent = true) :
    Settled s.clauses (s.reduce pureToo b).branch.assignment := by
  fun_induction reduce s pureToo b with
  | case1 b o hpure ih => exact ih h
  | case2 b o hstop => exact propagate_settled h

/-! ## Frames -/

/-- What the frame of the search at `a` has reduced to before it splits. -/
def frame (s : ClauseSet) (settings : SolverSettings) (a : Valuation) : Outcome :=
  s.reduce settings.pureLiteralElimination (.ofAssignment a)

theorem frame_reaches (s : ClauseSet) (settings : SolverSettings) (a : Valuation) :
    Branch.Reaches s (.ofAssignment a) (s.frame settings a).branch :=
  s.reduce_reaches _ _

theorem growsTo_frame (s : ClauseSet) (settings : SolverSettings) (a : Valuation) :
    s.GrowsTo a (s.frame settings a).branch.assignment :=
  growsTo_of_reaches (s.frame_reaches settings a)

theorem frame_satisfiableFrom (settings : SolverSettings) (h : s.SatisfiableFrom a) :
    (s.frame settings a).consistent = true ∧
      s.SatisfiableFrom (s.frame settings a).branch.assignment :=
  reduce_satisfiableFrom (b := .ofAssignment a) h

theorem search_of_conflict (h : (s.frame settings a).consistent = false) :
    s.search settings a = (false, a) := by
  have hfail : (s.search settings a).1 = false := by
    rw [search_eq]
    exact congrArg Prod.fst (if_neg (by simpa [frame] using h))
  exact Prod.ext hfail (search_restores hfail)

theorem search_of_settled (h : (s.frame settings a).consistent = true)
    (hlive : s.liveLiterals (s.frame settings a).branch.assignment = []) :
    s.search settings a = (true, (s.frame settings a).branch.assignment) := by
  rw [frame] at h hlive ⊢
  rw [search_eq]
  simp only [h, hlive, if_true]

/-- The literal that a frame splits on has no value yet. -/
theorem mem_openLiterals_of_split {l : Literal} {ls : List Literal}
    (hlive : s.liveLiterals a = l :: ls) : l ∈ s.openLiterals a :=
  mem_openLiterals_of_live (hlive ▸ List.mem_cons_self)

/-- The search below the frame at `a` with the name of `l` assigned `value`. -/
def half (s : ClauseSet) (settings : SolverSettings) (a : Valuation) (l : Literal) (value : Bool) :
    Bool × Valuation :=
  s.search settings ((s.frame settings a).branch.assignment.insert l.var value)

/-- After a failed half the name that was split on is erased again. -/
theorem erase_half {l : Literal} {ls : List Literal} {value : Bool}
    (hlive : s.liveLiterals (s.frame settings a).branch.assignment = l :: ls)
    (h : (s.half settings a l value).1 = false) :
    (s.half settings a l value).2.erase l.var = (s.frame settings a).branch.assignment := by
  have hnew : l.var ∉ (s.frame settings a).branch.assignment :=
    (mem_openLiterals.1 (mem_openLiterals_of_split hlive)).2
  rw [half, search_restores h, Valuation.erase_insert_of_not_mem hnew]

/-- A frame that splits on `l` tries true before false; when both fail it hands `a` back. -/
theorem search_of_live {l : Literal} {ls : List Literal}
    (h : (s.frame settings a).consistent = true)
    (hlive : s.liveLiterals (s.frame settings a).branch.assignment = l :: ls) :
    s.search settings a =
      if (s.half settings a l true).1 then s.half settings a l true
      else if (s.half settings a l false).1 then s.half settings a l false
      else (false, a) := by
  have heq := search_eq s settings a
  rw [← frame] at heq
  simp only [h, hlive, if_true] at heq
  split
  · next hfirst => exact heq.trans (if_pos hfirst)
  · next hfirst =>
    have hback := erase_half hlive (by simpa using hfirst)
    rw [← half, if_neg hfirst, hback] at heq
    split
    · next hsecond => exact heq.trans (if_pos hsecond)
    · next hsecond =>
      have hfail : (s.search settings a).1 = false := by
        rw [heq]
        exact congrArg Prod.fst (if_neg hsecond)
      exact Prod.ext hfail (search_restores hfail)

theorem length_openLiterals_split_lt {l : Literal} {ls : List Literal}
    (hlive : s.liveLiterals (s.frame settings a).branch.assignment = l :: ls) (value : Bool) :
    (s.openLiterals ((s.frame settings a).branch.assignment.insert l.var value)).length <
      (s.openLiterals a).length := by
  have hlt := openLiterals_insert_lt (mem_openLiterals_of_split hlive) value
  rcases (s.frame_reaches settings a).eq_or_lt with heq | hle
  · rwa [heq] at hlt ⊢
  · exact Nat.lt_trans hlt hle

/-- Induction over the frames of a search: where a frame splits, the claim may be used of both
halves. -/
theorem search_induction (s : ClauseSet) (settings : SolverSettings) {motive : Valuation → Prop}
    (conflict : ∀ a, (s.frame settings a).consistent = false → motive a)
    (settled : ∀ a, (s.frame settings a).consistent = true →
      s.liveLiterals (s.frame settings a).branch.assignment = [] → motive a)
    (split : ∀ a l ls, (s.frame settings a).consistent = true →
      s.liveLiterals (s.frame settings a).branch.assignment = l :: ls →
      (∀ value, motive ((s.frame settings a).branch.assignment.insert l.var value)) → motive a)
    (a : Valuation) : motive a := by
  cases hc : (s.frame settings a).consistent with
  | false => exact conflict a hc
  | true =>
    cases hlive : s.liveLiterals (s.frame settings a).branch.assignment with
    | nil => exact settled a hc hlive
    | cons l ls =>
      refine split a l ls hc hlive fun value => ?_
      have := length_openLiterals_split_lt hlive value
      exact search_induction s settings conflict settled split _
termination_by (s.openLiterals a).length

/-! ## Completeness -/

/-- Assigning one name either way keeps some model. -/
theorem SatisfiableFrom.split (h : s.SatisfiableFrom a) (name : String) :
    ∃ value, s.SatisfiableFrom (a.insert name value) := by
  obtain ⟨v, hext, hv⟩ := h
  cases hname : v[name]? with
  | some value => exact ⟨value, v, Valuation.extends_insert hext hname, hv⟩
  | none =>
    -- The model leaves `name` out, so either value may be added to it.
    have hgrown := Valuation.insert_extends (Valuation.not_mem_iff.2 hname) true
    exact ⟨true, v.insert name true, hext.insert name true, eval_of_extends hgrown hv⟩

/-- The search succeeds where some extension makes every clause true. -/
theorem search_complete (settings : SolverSettings) (h : s.SatisfiableFrom a) :
    (s.search settings a).1 = true := by
  induction a using search_induction s settings with
  | conflict a hc =>
    rw [(frame_satisfiableFrom settings h).1] at hc
    cases hc
  | settled a hc hlive => rw [search_of_settled hc hlive]
  | split a l ls hc hlive ih =>
    obtain ⟨value, hsat⟩ := (frame_satisfiableFrom settings h).2.split l.var
    have hfound : (s.half settings a l value).1 = true := ih value hsat
    rw [search_of_live hc hlive]
    split
    · assumption
    · next hfirst =>
      cases value with
      | true => exact absurd hfound hfirst
      | false => rwa [if_pos hfound]

/-! ## Soundness -/

/-- The assignment of a successful search makes every clause true and has grown only within the
names of the clauses. -/
theorem search_sound (h : (s.search settings a).1 = true) :
    s.GrowsTo a (s.search settings a).2 ∧ s.eval (s.search settings a).2 = true := by
  induction a using search_induction s settings with
  | conflict a hc =>
    rw [search_of_conflict hc] at h
    cases h
  | settled a hc hlive =>
    rw [search_of_settled hc hlive]
    exact ⟨s.growsTo_frame settings a, eval_of_settled (reduce_settled hc) hlive⟩
  | split a l ls hc hlive ih =>
    have hopen := mem_openLiterals_of_split hlive
    have hhalf (value : Bool) (hv : (s.half settings a l value).1 = true) :
        s.GrowsTo a (s.half settings a l value).2 ∧
          s.eval (s.half settings a l value).2 = true := by
      obtain ⟨hgrows, heval⟩ := ih value hv
      exact ⟨(s.growsTo_frame settings a).trans ((growsTo_insert hopen value).trans hgrows), heval⟩
    rw [search_of_live hc hlive] at h ⊢
    split at h
    · next hfirst => simpa only [if_pos hfirst] using hhalf true hfirst
    · next hfirst =>
      split at h
      · next hsecond => simpa only [if_neg hfirst, if_pos hsecond] using hhalf false hsecond
      · cases h

/-! ## The solver -/

theorem not_satisfiableFrom_of_hasEmptyClause (h : s.hasEmptyClause = true) :
    ¬ s.SatisfiableFrom a := by
  rintro ⟨v, -, hv⟩
  obtain ⟨c, hc, hempty⟩ := List.any_eq_true.1 h
  obtain ⟨l, hl, -⟩ := Clause.eval_iff.1 (eval_iff.1 hv c hc)
  rw [Clause.isEmpty, Std.ExtTreeSet.isEmpty_iff] at hempty
  have hmem : l ∈ c.literals := hl
  simp [hempty] at hmem

theorem eval_of_isEmpty (h : s.isEmpty = true) (v : Valuation) : s.eval v = true := by
  simp [eval, List.isEmpty_iff.1 h]

/-- The three ways to an answer: an empty clause, no clauses at all, or the search. -/
theorem solve_cases (s : ClauseSet) (settings : SolverSettings) (initial : Valuation) :
    s.solve settings initial = (false, ∅) ∧ ¬ s.SatisfiableFrom initial ∨
      ∃ w, s.solve settings initial = (true, w) ∧ s.GrowsTo initial w ∧ s.eval w = true := by
  unfold solve
  split
  · next hempty => exact .inl ⟨rfl, not_satisfiableFrom_of_hasEmptyClause hempty⟩
  split
  · next hnone => exact .inr ⟨initial, rfl, .refl s initial, eval_of_isEmpty hnone initial⟩
  split
  · next w hsearch =>
    have hfound : (s.search settings initial).1 = true := by rw [hsearch]
    have hsound := search_sound hfound
    rw [hsearch] at hsound
    exact .inr ⟨w, rfl, hsound⟩
  · next w hsearch =>
    refine .inl ⟨rfl, fun hsat => ?_⟩
    have hfound := search_complete settings hsat
    rw [hsearch] at hfound
    cases hfound

theorem solve_fst_iff (settings : SolverSettings) :
    (s.solve settings a).1 = true ↔ s.SatisfiableFrom a := by
  rcases s.solve_cases settings a with ⟨heq, hunsat⟩ | ⟨w, heq, hgrows, hw⟩
  · simp [heq, hunsat]
  · simp only [heq, true_iff]
    exact ⟨w, hgrows.keeps, hw⟩

theorem solve_sound {w : Valuation} (h : s.solve settings a = (true, w)) :
    s.GrowsTo a w ∧ s.eval w = true := by
  rcases s.solve_cases settings a with ⟨heq, -⟩ | ⟨w', heq, hw'⟩
  · simp [h] at heq
  · obtain rfl : w = w' := by simpa [h] using heq
    exact hw'

theorem solve_of_not_satisfiableFrom (h : ¬ s.SatisfiableFrom a) :
    s.solve settings a = (false, ∅) := by
  rcases s.solve_cases settings a with ⟨heq, -⟩ | ⟨w, -, hgrows, heval⟩
  · exact heq
  · exact absurd ⟨w, hgrows.keeps, heval⟩ h

/-- The solver decides satisfiability under a partial assignment. It answers true exactly when
some extension of `initial` makes every clause true; its witness then keeps `initial`, adds only
names of the clauses, and makes every clause true however it is extended. Otherwise it answers
false with the empty assignment. The settings make no difference to the answer. -/
theorem solve_decides (s : ClauseSet) (settings : SolverSettings) (initial : Valuation) :
    ((∃ w, s.solve settings initial = (true, w)) ↔
      ∃ v : Valuation, v.Extends initial ∧ s.eval v = true) ∧
    (∀ w, s.solve settings initial = (true, w) →
      w.Extends initial ∧ (∀ name ∈ w, name ∈ initial ∨ name ∈ s.vars) ∧ s.eval w = true ∧
        ∀ v : Valuation, v.Extends w → s.eval v = true) ∧
    ((¬ ∃ v : Valuation, v.Extends initial ∧ s.eval v = true) →
      s.solve settings initial = (false, ∅)) ∧
    ∀ other : SolverSettings, (s.solve other initial).1 = (s.solve settings initial).1 := by
  refine ⟨?_, fun w hw => ?_, fun hunsat => ?_, fun other => ?_⟩
  · rw [← SatisfiableFrom, ← solve_fst_iff settings]
    constructor
    · rintro ⟨w, hw⟩
      rw [hw]
    · intro h
      exact ⟨(s.solve settings initial).2, Prod.ext h rfl⟩
  · obtain ⟨hgrows, heval⟩ := solve_sound hw
    exact ⟨hgrows.keeps, hgrows.adds, heval, fun v hv => eval_of_extends hv heval⟩
  · exact solve_of_not_satisfiableFrom hunsat
  · exact Bool.eq_iff_iff.2 ((solve_fst_iff other).trans (solve_fst_iff settings).symm)

/-! ## Deciding a formula by its clauses -/

/-- The clauses of a formula exist, can be solved exactly when the formula is true somewhere, and
their witness makes the formula true however it is extended. -/
theorem exists_clauses_solved (f : Formula) (settings : SolverSettings) :
    ∃ s, ofFormula f = .ok s ∧
      ((s.solve settings ∅).1 = true ↔ ∃ v, f.eval v = true) ∧
      ∀ w, s.solve settings ∅ = (true, w) →
        (∀ name ∈ w, name ∈ f.occurrences) ∧ ∀ v : Valuation, v.Extends w → f.eval v = true := by
  obtain ⟨s, hs, heval, hnames⟩ := exists_ofFormula_eq_ok f
  refine ⟨s, hs, ?_, fun w hw => ⟨fun name hn => ?_, fun v hv => ?_⟩⟩
  · rw [solve_fst_iff, satisfiableFrom_empty_iff]
    simp only [heval]
  · rcases (solve_sound hw).1.adds name hn with h | h
    · simp at h
    · exact hnames name h
  · rw [← heval]
    exact eval_toFormula_of_eval (eval_of_extends hv (solve_sound hw).2)

end ClauseSet

end Sentential
