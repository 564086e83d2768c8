import Sentential.Proofs.Clause.Clausal
import Sentential.Proofs.Clause.Extension
import Sentential.Proofs.Formula.Occurrences

/-!
# Clauses mean what the formula means

A clause set is read back as a formula to compare the two: there an unassigned name is false, while
a clause under a partial valuation needs a literal that is true already. The readings agree where
every name is assigned.

* `ClauseSet.eval_eq_of_total`: the two readings agree under a valuation of all names.
* `ClauseSet.mem_clauses_of_ofClausal`: which clauses a formula has.
* `ClauseSet.eval_toFormula_of_ofClausal`: the clauses have the value of the formula.
* `ClauseSet.exists_ofFormula_eq_ok`: every formula has clauses, with its meaning and its names.
* `ClauseSet.satisfiableFrom_empty_iff`: they can be satisfied exactly when the formula can.
-/

namespace Sentential

/-! ## Two readings of clauses -/

theorem Literal.eval_toFormula_of_mem {l : Literal} {v : Valuation} (h : l.var ∈ v) :
    l.toFormula.eval v = true ↔ l.value? v = some true := by
  obtain ⟨b, hb⟩ := Option.ne_none_iff_exists'.1 fun hnone => Literal.value?_eq_none.1 hnone h
  rw [Literal.eval_toFormula hb, hb, Option.some.injEq]

theorem Clause.eval_toFormula_iff {c : Clause} {v : Valuation} :
    c.toFormula.eval v = true ↔ ∃ l ∈ c, l.toFormula.eval v = true := by
  simp [toFormula, List.any_eq_true]

theorem Clause.eval_eq_of_total {c : Clause} {v : Valuation} (h : ∀ l ∈ c, l.var ∈ v) :
    c.eval v = c.toFormula.eval v := by
  rw [Bool.eq_iff_iff, Clause.eval_iff, Clause.eval_toFormula_iff]
  exact exists_congr fun l => and_congr_right fun hl =>
    (Literal.eval_toFormula_of_mem (h l hl)).symm

namespace ClauseSet

theorem eval_toFormula_iff {s : ClauseSet} {v : Valuation} :
    s.toFormula.eval v = true ↔ ∀ c ∈ s.clauses, c.toFormula.eval v = true := by
  simp [toFormula, List.all_eq_true]

/-- Under a valuation of all names the clauses have the value of their formula. -/
theorem eval_eq_of_total {s : ClauseSet} {v : Valuation} (h : ∀ name ∈ s.vars, name ∈ v) :
    s.eval v = s.toFormula.eval v := by
  rw [Bool.eq_iff_iff, eval_iff, eval_toFormula_iff]
  refine forall_congr' fun c => forall_congr' fun hc => ?_
  rw [Clause.eval_eq_of_total fun l hl => h _ (mem_vars.2 ⟨c, hc, l, hl, rfl⟩)]

end ClauseSet

/-! ## Conjuncts and disjuncts -/

namespace Formula

theorem all_eval_conjuncts (f : Formula) (v : Valuation) :
    f.conjuncts.all (·.eval v) = f.eval v := by
  fun_induction conjuncts f with
  | case1 p q ihp ihq => simp [eval, Connective.apply, ihp, ihq]
  | case2 p ih => exact ih
  | case3 => rfl
  | case4 f => simp

theorem occurrences_subset_of_mem_conjuncts {f g : Formula} (h : g ∈ f.conjuncts) :
    g.occurrences ⊆ f.occurrences := by
  fun_induction conjuncts f with
  | case1 p q ihp ihq =>
    rw [occurrences_binary]
    rcases List.mem_append.1 h with hp | hq
    · exact List.subset_append_of_subset_left _ (ihp hp)
    · exact List.subset_append_of_subset_right _ (ihq hq)
  | case2 p ih => exact ih h
  | case3 => cases h
  | case4 f =>
    rw [List.mem_singleton.1 h]
    exact List.Subset.refl _

/-- What `disjuncts` finds in a formula that it accepts. -/
inductive HasDisjuncts : Formula → Option (List Literal) → Prop where
  | disj {p q : Formula} {left right : Option (List Literal)} :
    HasDisjuncts p left → HasDisjuncts q right →
      HasDisjuncts (disj p q) (left.bind fun ls => right.map (ls ++ ·))
  | group {p : Formula} {r : Option (List Literal)} : HasDisjuncts p r → HasDisjuncts (group p) r
  | bottom : HasDisjuncts bottom (some [])
  | top : HasDisjuncts top none
  | atom (name : String) : HasDisjuncts (atom name) (some [⟨name, false⟩])
  | neg {p : Formula} {name : String} :
    p.ungroup = atom name → HasDisjuncts (neg p) (some [⟨name, true⟩])

theorem hasDisjuncts_of_disjuncts {f : Formula} {r : Option (List Literal)}
    (h : f.disjuncts = .ok r) : HasDisjuncts f r := by
  induction f generalizing r with
  | bottom | top | atom =>
    cases h
    constructor
  | neg p ih =>
    rw [disjuncts] at h
    split at h
    · next name hname =>
      cases h
      exact .neg hname
    · cases h
  | group p ih => exact .group (ih h)
  | binary op p q ihp ihq =>
    cases op with
    | disj =>
      rw [disjuncts] at h
      cases hp : p.disjuncts with
      | error e => simp [hp, bind, Except.bind] at h
      | ok left =>
        cases hq : q.disjuncts with
        | error e => simp [hp, hq, bind, Except.bind] at h
        | ok right =>
          rw [hp, hq] at h
          cases h
          cases left <;> cases right <;> exact .disj (ihp hp) (ihq hq)
    | conj | imp | iff => cases h

/-- The literals of a disjunction have its value; a disjunction without them is true. -/
theorem HasDisjuncts.eval_eq {f : Formula} {r : Option (List Literal)} (h : HasDisjuncts f r)
    (v : Valuation) : f.eval v = r.elim true (·.any (·.toFormula.eval v)) := by
  induction h with
  | @disj p q left right _ _ ihp ihq =>
    rw [eval, ihp, ihq]
    cases left <;> cases right <;> simp [Connective.apply]
  | group _ ih => exact ih
  | bottom | top => rfl
  | atom name => simp [Literal.toFormula]
  | @neg p name hname =>
    rw [eval, ← eval_ungroup, hname]
    simp [Literal.toFormula, eval]

theorem HasDisjuncts.var_mem {f : Formula} {r : Option (List Literal)} (h : HasDisjuncts f r)
    {ls : List Literal} (hr : r = some ls) {l : Literal} (hl : l ∈ ls) : l.var ∈ f.occurrences := by
  induction h generalizing ls with
  | @disj p q left right _ _ ihp ihq =>
    obtain ⟨ls₁, rfl, hright⟩ := Option.bind_eq_some_iff.1 hr
    obtain ⟨ls₂, rfl, rfl⟩ := Option.map_eq_some_iff.1 hright
    rw [occurrences_binary, List.mem_append]
    exact (List.mem_append.1 hl).imp (ihp rfl) (ihq rfl)
  | group _ ih => exact ih hr hl
  | bottom =>
    cases hr
    cases hl
  | top => cases hr
  | atom name =>
    cases hr
    simp [List.mem_singleton.1 hl]
  | @neg p name hname =>
    cases hr
    rw [occurrences_neg, ← occurrences_ungroup, hname, List.mem_singleton.1 hl]
    simp

end Formula

/-! ## Clause sets of formulas -/

namespace ClauseSet

open Formula

/-- The clauses of a formula are those of its conjuncts that are not true outright. -/
theorem mem_clauses_of_ofClausal {f : Formula} {s : ClauseSet} (h : ofClausal f = .ok s)
    {c : Clause} : c ∈ s.clauses ↔
      ∃ g ∈ f.conjuncts, ∃ ls, g.disjuncts = .ok (some ls) ∧ Clause.ofList ls = c := by
  obtain ⟨parts, hparts, rfl⟩ := ofClausal_eq_ok_iff.1 h
  simp only [List.mem_eraseDups, List.mem_map, List.mem_filterMap, id]
  constructor
  · rintro ⟨ls, ⟨_, hmem, rfl⟩, rfl⟩
    obtain ⟨g, hg, hok⟩ := mem_right_of_mapM hparts hmem
    exact ⟨g, hg, ls, hok, rfl⟩
  · rintro ⟨g, hg, ls, hok, rfl⟩
    obtain ⟨r, hmem, hr⟩ := mem_left_of_mapM hparts hg
    rw [hok] at hr
    cases hr
    exact ⟨ls, ⟨_, hmem, rfl⟩, rfl⟩

theorem exists_disjuncts_of_ofClausal {f g : Formula} {s : ClauseSet} (h : ofClausal f = .ok s)
    (hg : g ∈ f.conjuncts) : ∃ r, g.disjuncts = .ok r :=
  exists_ofClausal_iff_conjuncts.1 ⟨s, h⟩ g hg

/-- The clauses of a formula have its value. -/
theorem eval_toFormula_of_ofClausal {f : Formula} {s : ClauseSet} (h : ofClausal f = .ok s)
    (v : Valuation) : s.toFormula.eval v = f.eval v := by
  rw [Bool.eq_iff_iff, ← all_eval_conjuncts f v, List.all_eq_true, eval_toFormula_iff]
  constructor
  · intro hs g hg
    obtain ⟨r, hr⟩ := exists_disjuncts_of_ofClausal h hg
    rw [(hasDisjuncts_of_disjuncts hr).eval_eq v]
    cases r with
    | none => rfl
    | some ls =>
      have hc := hs _ ((mem_clauses_of_ofClausal h).2 ⟨g, hg, ls, hr, rfl⟩)
      obtain ⟨l, hl, ht⟩ := Clause.eval_toFormula_iff.1 hc
      exact List.any_eq_true.2 ⟨l, Clause.mem_ofList.1 hl, ht⟩
  · intro hf c hc
    obtain ⟨g, hg, ls, hr, rfl⟩ := (mem_clauses_of_ofClausal h).1 hc
    have htrue := hf g hg
    rw [(hasDisjuncts_of_disjuncts hr).eval_eq v] at htrue
    obtain ⟨l, hl, ht⟩ := List.any_eq_true.1 htrue
    exact Clause.eval_toFormula_iff.2 ⟨l, Clause.mem_ofList.2 hl, ht⟩

theorem mem_occurrences_of_ofClausal {f : Formula} {s : ClauseSet} (h : ofClausal f = .ok s)
    {name : String} (hn : name ∈ s.vars) : name ∈ f.occurrences := by
  obtain ⟨c, hc, l, hl, rfl⟩ := mem_vars.1 hn
  obtain ⟨g, hg, ls, hr, rfl⟩ := (mem_clauses_of_ofClausal h).1 hc
  exact occurrences_subset_of_mem_conjuncts hg
    ((hasDisjuncts_of_disjuncts hr).var_mem rfl (Clause.mem_ofList.1 hl))

/-- Every formula has clauses, with its meaning and its names only. -/
theorem exists_ofFormula_eq_ok (f : Formula) : ∃ s, ofFormula f = .ok s ∧
    (∀ v, s.toFormula.eval v = f.eval v) ∧ ∀ name ∈ s.vars, name ∈ f.occurrences := by
  obtain ⟨s, hs⟩ := exists_ofClausal_eq_ok f.simplify.isCnf_cnf
  refine ⟨s, hs, fun v => ?_, fun name hn => ?_⟩
  · rw [eval_toFormula_of_ofClausal hs, eval_cnf, eval_simplify]
  · have hmem := mem_occurrences_of_ofClausal hs hn
    exact occurrences_simplify_subset f (mem_occurrences_cnf.1 hmem)

/-- Clauses can be satisfied exactly when the formula with their meaning can. -/
theorem satisfiableFrom_empty_iff {s : ClauseSet} :
    s.SatisfiableFrom ∅ ↔ ∃ v, s.toFormula.eval v = true := by
  constructor
  · rintro ⟨v, -, hv⟩
    exact ⟨v, eval_toFormula_of_eval hv⟩
  · rintro ⟨v, hv⟩
    -- A model of the formula may leave names out; in the clauses they have to be written out.
    refine ⟨v.complete s.vars, Valuation.extends_empty _, ?_⟩
    rw [eval_eq_of_total fun name hn => Valuation.mem_complete.2 (.inr hn), ← hv]
    exact Formula.eval_congr fun name _ => Valuation.value_complete v s.vars name

end ClauseSet

end Sentential
