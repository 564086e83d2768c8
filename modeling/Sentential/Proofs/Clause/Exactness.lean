import Sentential.Proofs.Clause.Conversion
import Sentential.Proofs.Formula.Constants

/-!
# Clause conversion is exact

A simplified formula that is no constant has none in it, so each of its conjuncts has literals.
Hence there are no clauses only for the formula that is simplified to true, and an empty clause only
for the one that is simplified to false.

* `pairwise_idxOf_eraseDups`: leaving out repeats keeps the first of equal items, in order.
* `Formula.HasDisjuncts.exists_cons`: a disjunction without constants has literals.
* `ClauseSet.ofClausal_exact`: which formulas have clauses, and what they are.
* `ClauseSet.clauses_of_hasConstant`: clauses without constants are there and are not empty.
* `ClauseSet.isEmpty_iff_of_ofFormula`, `ClauseSet.hasEmptyClause_iff_of_ofFormula`: which formulas
  have no clauses or an empty one.
* `ClauseSet.ofFormula_exact`: every formula has clauses, and what they are.
-/

namespace Sentential

/-! ## Lists without repeats -/

section FirstOccurrences

variable {α : Type} [BEq α] [LawfulBEq α]

/-- Items that are kept stand in the same order in the whole list. -/
theorem idxOf_lt_of_filter {keep : α → Bool} {x y : α} {xs : List α} (hx : keep x = true)
    (hy : keep y = true) (h : (xs.filter keep).idxOf x < (xs.filter keep).idxOf y) :
    xs.idxOf x < xs.idxOf y := by
  induction xs with
  | nil => exact h
  | cons z xs ih =>
    by_cases hz : keep z = true
    · rw [List.filter_cons_of_pos hz] at h
      simp only [List.idxOf_cons] at h ⊢
      revert h
      cases z == x <;> cases z == y <;> simp
      exact ih
    · have hne : ∀ w, keep w = true → (z == w) = false := by
        intro w hw
        rw [beq_eq_false_iff_ne]
        rintro rfl
        exact hz hw
      rw [List.filter_cons_of_neg hz] at h
      simp only [List.idxOf_cons, hne x hx, hne y hy, cond_false]
      exact Nat.succ_lt_succ (ih h)

/-- Of equal items the first is kept, and those that are kept stay in order. -/
theorem pairwise_idxOf_eraseDups :
    (xs : List α) → xs.eraseDups.Pairwise fun x y => xs.idxOf x < xs.idxOf y
  | [] => by simp
  | z :: xs => by
    have hrest := pairwise_idxOf_eraseDups (xs.filter fun y => !y == z)
    have hne : ∀ y ∈ (xs.filter fun y => !y == z).eraseDups, (z == y) = false := by
      intro y hy
      simp only [List.mem_eraseDups, List.mem_filter, Bool.not_eq_true'] at hy
      rw [BEq.comm, hy.2]
    rw [List.eraseDups_cons, List.pairwise_cons]
    constructor
    · intro y hy
      rw [List.idxOf_cons_self, List.idxOf_cons, hne y hy]
      exact Nat.succ_pos _
    · refine hrest.imp_of_mem fun {x y} hx hy h => ?_
      have hkeep : ∀ w ∈ (xs.filter fun y => !y == z).eraseDups, (!w == z) = true := by
        intro w hw
        rw [BEq.comm, hne w hw, Bool.not_false]
      simp only [List.idxOf_cons, hne x hx, hne y hy, cond_false]
      exact Nat.succ_lt_succ (idxOf_lt_of_filter (hkeep x hx) (hkeep y hy) h)
termination_by xs => xs.length
decreasing_by exact Nat.lt_succ_of_le (List.length_filter_le _ _)

theorem nodup_eraseDups (xs : List α) : xs.eraseDups.Nodup := by
  refine (pairwise_idxOf_eraseDups xs).imp ?_
  rintro x y h rfl
  exact Nat.lt_irrefl _ h

end FirstOccurrences

namespace Formula

variable {f g : Formula}

theorem conjuncts_ne_nil (h : f.hasConstant = false) : f.conjuncts ≠ [] := by
  fun_induction conjuncts f with
  | case1 p q ihp ihq =>
    rw [hasConstant, Bool.or_eq_false_iff] at h
    exact List.append_ne_nil_of_left_ne_nil (ihp h.1) _
  | case2 p ih => exact ih h
  | case3 => cases h
  | case4 f => exact List.cons_ne_nil _ _

theorem hasConstant_of_mem_conjuncts (h : f.hasConstant = false) (hg : g ∈ f.conjuncts) :
    g.hasConstant = false := by
  fun_induction conjuncts f with
  | case1 p q ihp ihq =>
    rw [hasConstant, Bool.or_eq_false_iff] at h
    exact (List.mem_append.1 hg).elim (ihp h.1) (ihq h.2)
  | case2 p ih => exact ih h hg
  | case3 => cases h
  | case4 f => rwa [List.mem_singleton.1 hg]

/-- A disjunction without constants has literals. -/
theorem HasDisjuncts.exists_cons {r : Option (List Literal)} (h : HasDisjuncts f r)
    (hf : f.hasConstant = false) : ∃ l ls, r = some (l :: ls) := by
  induction h with
  | @disj p q left right _ _ ihp ihq =>
    rw [hasConstant, Bool.or_eq_false_iff] at hf
    obtain ⟨l, ls, rfl⟩ := ihp hf.1
    obtain ⟨m, ms, rfl⟩ := ihq hf.2
    exact ⟨l, ls ++ m :: ms, rfl⟩
  | group _ ih => exact ih hf
  | bottom | top => cases hf
  | atom name => exact ⟨_, _, rfl⟩
  | neg _ => exact ⟨_, _, rfl⟩

end Formula

/-! ## Empty clause sets and empty clauses -/

theorem Clause.isEmpty_eq_false_of_mem {c : Clause} {l : Literal} (h : l ∈ c) :
    c.isEmpty = false := by
  refine Bool.eq_false_iff.2 fun hempty => ?_
  have hmem : l ∈ c.literals := h
  rw [Std.ExtTreeSet.isEmpty_iff.1 hempty] at hmem
  exact Std.ExtTreeSet.not_mem_empty hmem

namespace ClauseSet

open Formula

/-- The clause set of the empty clause alone. -/
def contradiction : ClauseSet :=
  ⟨[⟨∅⟩]⟩

theorem nodup_clauses_of_ofClausal {f : Formula} {s : ClauseSet} (h : ofClausal f = .ok s) :
    s.clauses.Nodup := by
  obtain ⟨parts, -, rfl⟩ := ofClausal_eq_ok_iff.1 h
  exact nodup_eraseDups _

/-- A formula without constants has clauses, and none of them is empty. -/
theorem clauses_of_hasConstant {f : Formula} {s : ClauseSet} (h : ofClausal f = .ok s)
    (hf : f.hasConstant = false) : s.isEmpty = false ∧ s.hasEmptyClause = false := by
  have hpart : ∀ g ∈ f.conjuncts, ∃ l ls, g.disjuncts = .ok (some (l :: ls)) := by
    intro g hg
    obtain ⟨r, hr⟩ := exists_disjuncts_of_ofClausal h hg
    obtain ⟨l, ls, rfl⟩ :=
      (hasDisjuncts_of_disjuncts hr).exists_cons (hasConstant_of_mem_conjuncts hf hg)
    exact ⟨l, ls, hr⟩
  constructor
  · obtain ⟨g, hg⟩ := List.exists_mem_of_ne_nil _ (conjuncts_ne_nil hf)
    obtain ⟨l, ls, hok⟩ := hpart g hg
    have hmem := (mem_clauses_of_ofClausal h).2 ⟨g, hg, _, hok, rfl⟩
    exact List.isEmpty_eq_false_iff.2 (List.ne_nil_of_mem hmem)
  · refine List.any_eq_false.2 fun c hc => ?_
    obtain ⟨g, hg, ls, hok, rfl⟩ := (mem_clauses_of_ofClausal h).1 hc
    obtain ⟨l, ls', hok'⟩ := hpart g hg
    obtain rfl : ls = l :: ls' := by
      rw [hok] at hok'
      exact Option.some.inj (Except.ok.inj hok')
    rw [Clause.isEmpty_eq_false_of_mem (Clause.mem_ofList.2 List.mem_cons_self)]
    exact Bool.false_ne_true

/-- A formula has clauses exactly when it is a conjunctive normal form, groups aside. They are
distinct, and where all their names are assigned they have the value of the formula. For every other
formula there is an error, and a single part of a clause that is neither a literal nor a constant is
enough for it, also where the clause is true because `top` is another of its parts. -/
theorem ofClausal_exact (f : Formula) :
    ((∃ s, ofClausal f = .ok s) ↔ f.withoutGroups.isCnf = true) ∧
    (∀ s, ofClausal f = .ok s → s.clauses.Nodup ∧
      ∀ v : Valuation, (∀ name ∈ s.vars, name ∈ v) → s.eval v = f.eval v) ∧
    ((∃ e, ofClausal f = .error e) ↔ f.withoutGroups.isCnf = false) ∧
    ∀ g ∈ f.conjuncts, ∀ h ∈ g.alternatives, h.withoutGroups.isLeaf = false →
      ∃ e, ofClausal f = .error e := by
  refine ⟨exists_ofClausal_iff, fun s hs => ⟨nodup_clauses_of_ofClausal hs, fun v hv => ?_⟩,
    exists_error_iff, fun g hg h => exists_error_of_mem_alternatives hg⟩
  rw [eval_eq_of_total hv, eval_toFormula_of_ofClausal hs]

/-- The constant makes the clause true, but what stands beside it is still no literal. -/
example : ofClausal (.disj .top (.group (.neg (.neg (.atom "a"))))) =
    .error (.negatedNonAtom (.neg (.atom "a"))) := by
  decide

theorem ofFormula_of_simplify_top {f : Formula} (h : f.simplify = top) :
    ofFormula f = .ok ⟨[]⟩ := by
  rw [ofFormula, h]
  rfl

theorem ofFormula_of_simplify_bottom {f : Formula} (h : f.simplify = bottom) :
    ofFormula f = .ok contradiction := by
  rw [ofFormula, h]
  rfl

/-- The formula is simplified to a constant, or its clauses are there and are not empty. -/
theorem ofFormula_cases {f : Formula} {s : ClauseSet} (h : ofFormula f = .ok s) :
    f.simplify = top ∧ s = ⟨[]⟩ ∨ f.simplify = bottom ∧ s = contradiction ∨
      f.simplify ≠ top ∧ f.simplify ≠ bottom ∧ s.isEmpty = false ∧ s.hasEmptyClause = false := by
  by_cases htop : f.simplify = top
  · rw [ofFormula_of_simplify_top htop] at h
    exact .inl ⟨htop, (Except.ok.inj h).symm⟩
  by_cases hbottom : f.simplify = bottom
  · rw [ofFormula_of_simplify_bottom hbottom] at h
    exact .inr (.inl ⟨hbottom, (Except.ok.inj h).symm⟩)
  · have hconstant : f.simplify.cnf.hasConstant = false := by
      rw [hasConstant_cnf]
      exact f.isReduced_simplify.hasConstant_eq_false htop hbottom
    exact .inr (.inr ⟨htop, hbottom, clauses_of_hasConstant h hconstant⟩)

theorem isEmpty_iff_of_ofFormula {f : Formula} {s : ClauseSet} (h : ofFormula f = .ok s) :
    s.isEmpty = true ↔ f.simplify = top := by
  rcases ofFormula_cases h with ⟨hf, rfl⟩ | ⟨hf, rfl⟩ | ⟨htop, -, hs, -⟩
  · simp [hf, isEmpty]
  · simp [hf, isEmpty, contradiction]
  · simp [htop, hs]

theorem hasEmptyClause_iff_of_ofFormula {f : Formula} {s : ClauseSet} (h : ofFormula f = .ok s) :
    s.hasEmptyClause = true ↔ f.simplify = bottom := by
  rcases ofFormula_cases h with ⟨hf, rfl⟩ | ⟨hf, rfl⟩ | ⟨-, hbottom, -, hs⟩
  · simp [hf, hasEmptyClause]
  · simp [hf, hasEmptyClause, contradiction, Clause.isEmpty]
  · simp [hbottom, hs]

/-- Every formula has clauses. They are distinct and mention names of the formula only. Where they
are true under a valuation, so is the formula, and where all their names are assigned they have its
value. There are none exactly when the formula is simplified to true, and there is an empty one
exactly when it is simplified to false, alone then. -/
theorem ofFormula_exact (f : Formula) : ∃ s, ofFormula f = .ok s ∧
    s.clauses.Nodup ∧ (∀ name ∈ s.vars, name ∈ f.vars) ∧
    (∀ v : Valuation, s.eval v = true → f.eval v = true) ∧
    (∀ v : Valuation, (∀ name ∈ s.vars, name ∈ v) → s.eval v = f.eval v) ∧
    (s.isEmpty = true ↔ f.simplify = top) ∧
    (s.hasEmptyClause = true ↔ f.simplify = bottom) ∧
    (f.simplify = bottom → s = contradiction) := by
  obtain ⟨s, hs, heval, hnames⟩ := exists_ofFormula_eq_ok f
  refine ⟨s, hs, nodup_clauses_of_ofClausal hs, fun name hn => Formula.mem_vars.2 (hnames name hn),
    fun v hv => ?_, fun v hv => ?_, isEmpty_iff_of_ofFormula hs, hasEmptyClause_iff_of_ofFormula hs,
    fun hbottom => ?_⟩
  · rw [← heval]
    exact eval_toFormula_of_eval hv
  · rw [eval_eq_of_total hv, heval]
  · rw [ofFormula_of_simplify_bottom hbottom] at hs
    exact (Except.ok.inj hs).symm

end ClauseSet

end Sentential
