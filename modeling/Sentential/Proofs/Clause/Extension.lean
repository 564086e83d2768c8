import Sentential.Dpll.Branch
import Sentential.Proofs.Valuation

/-!
# Clauses under extensions of a valuation

A clause that is true stays true when names are added to the valuation, so what a partial
assignment says about a clause binds every extension of it.

* `eval_of_extends`: truth of literals, clauses and clause sets is kept by extensions.
* `Clause.exists_open_of_eval`: an extension can only make a clause true through a literal that
  was open.
* `Clause.status_eq_*_iff`: what each status of a clause says about its literals.
* `ClauseSet.SatisfiableFrom`: some extension makes every clause true.
-/

namespace Sentential

namespace Literal

/-- A literal is true when its name has the value that the literal asks for. -/
theorem value?_eq_some_true {l : Literal} {v : Valuation} :
    l.value? v = some true ↔ v[l.var]? = some l.polarity := by
  rw [value?, polarity, Option.map_eq_some_iff]
  constructor
  · rintro ⟨b, hb, h⟩
    rw [hb]
    cases b <;> cases hn : l.negated <;> simp_all
  · intro h
    exact ⟨_, h, by cases l.negated <;> rfl⟩

theorem value?_of_extends {l : Literal} {v w : Valuation} (h : w.Extends v) {b : Bool}
    (hb : l.value? v = some b) : l.value? w = some b := by
  obtain ⟨c, hc, rfl⟩ := Option.map_eq_some_iff.1 hb
  simp [value?, h _ _ hc]

theorem value?_eq_none {l : Literal} {v : Valuation} : l.value? v = none ↔ l.var ∉ v := by
  rw [value?, Option.map_eq_none_iff, Valuation.not_mem_iff]

theorem eq_or_eq_negate {l m : Literal} (h : l.var = m.var) : l = m ∨ l = m.negate := by
  obtain ⟨x, b⟩ := l
  obtain ⟨y, c⟩ := m
  obtain rfl : x = y := h
  cases b <;> cases c <;> simp [negate]

end Literal

namespace Clause

theorem eval_iff {c : Clause} {v : Valuation} :
    c.eval v = true ↔ ∃ l ∈ c, l.value? v = some true := by
  simp [eval, List.any_eq_true]

theorem eval_of_extends {c : Clause} {v w : Valuation} (h : w.Extends v) (hc : c.eval v = true) :
    c.eval w = true := by
  obtain ⟨l, hl, ht⟩ := eval_iff.1 hc
  exact eval_iff.2 ⟨l, hl, Literal.value?_of_extends h ht⟩

theorem mem_openLiterals {c : Clause} {a : Valuation} {l : Literal} :
    l ∈ c.openLiterals a ↔ l ∈ c ∧ l.var ∉ a := by
  simp [openLiterals]

/-- An extension makes a clause true through a literal that was open, unless the clause was true
before. -/
theorem exists_open_of_eval {c : Clause} {a v : Valuation} (h : v.Extends a)
    (hv : c.eval v = true) (ha : c.eval a = false) :
    ∃ l ∈ c.openLiterals a, l.value? v = some true := by
  obtain ⟨l, hl, ht⟩ := eval_iff.1 hv
  refine ⟨l, mem_openLiterals.2 ⟨hl, fun hmem => ?_⟩, ht⟩
  obtain ⟨b, hb⟩ := Option.ne_none_iff_exists'.1 fun hnone => Literal.value?_eq_none.1 hnone hmem
  obtain rfl : b = true := by
    have hsame := Literal.value?_of_extends h hb
    rw [ht] at hsame
    exact (Option.some.inj hsame).symm
  rw [eval_iff.2 ⟨l, hl, hb⟩] at ha
  cases ha

/-! ## The status of a clause -/

theorem status_eq_satisfied_iff {c : Clause} {a : Valuation} :
    c.status a = .satisfied ↔ c.eval a = true := by
  unfold status
  split
  · next h => simp [h]
  · next h => split <;> simp [h]

theorem status_eq_conflict_iff {c : Clause} {a : Valuation} :
    c.status a = .conflict ↔ c.eval a = false ∧ c.openLiterals a = [] := by
  unfold status
  split
  · next h => simp [h]
  · next h => split <;> simp_all

theorem status_eq_unit_iff {c : Clause} {a : Valuation} {l : Literal} :
    c.status a = .unit l ↔ c.eval a = false ∧ c.openLiterals a = [l] := by
  unfold status
  split
  · next h => simp [h]
  · next h => split <;> simp_all

theorem exists_open_of_status_unresolved {c : Clause} {a : Valuation}
    (h : c.status a = .unresolved) : c.eval a = false ∧ ∃ l, l ∈ c.openLiterals a := by
  unfold status at h
  split at h
  · cases h
  · next hfalse =>
    refine ⟨by simpa using hfalse, List.exists_mem_of_ne_nil _ fun hnil => ?_⟩
    simp [hnil] at h

/-- No extension makes a clause in conflict true. -/
theorem eval_of_status_conflict {c : Clause} {a v : Valuation} (h : v.Extends a)
    (hc : c.status a = .conflict) : c.eval v = false := by
  obtain ⟨hfalse, hopen⟩ := status_eq_conflict_iff.1 hc
  refine Bool.eq_false_iff.2 fun hv => ?_
  obtain ⟨l, hl, -⟩ := exists_open_of_eval h hv hfalse
  simp [hopen] at hl

/-- An extension that makes a unit clause true also extends the assignment that the clause
forces. -/
theorem extends_insert_of_status_unit {c : Clause} {a v : Valuation} {l : Literal}
    (h : v.Extends a) (hc : c.status a = .unit l) (hv : c.eval v = true) :
    v.Extends (a.insert l.var l.polarity) := by
  obtain ⟨hfalse, hopen⟩ := status_eq_unit_iff.1 hc
  obtain ⟨m, hm, ht⟩ := exists_open_of_eval h hv hfalse
  obtain rfl : m = l := by simpa [hopen] using hm
  exact Valuation.extends_insert h (Literal.value?_eq_some_true.1 ht)

end Clause

namespace ClauseSet

theorem eval_iff {s : ClauseSet} {v : Valuation} :
    s.eval v = true ↔ ∀ c ∈ s.clauses, c.eval v = true := by
  simp [eval, List.all_eq_true]

theorem eval_of_extends {s : ClauseSet} {v w : Valuation} (h : w.Extends v) (hs : s.eval v = true) :
    s.eval w = true :=
  eval_iff.2 fun c hc => Clause.eval_of_extends h (eval_iff.1 hs c hc)

theorem mem_vars {s : ClauseSet} {name : String} :
    name ∈ s.vars ↔ ∃ c ∈ s.clauses, ∃ l ∈ c, l.var = name := by
  simp only [vars, Std.ExtTreeSet.mem_toList, Std.ExtTreeSet.mem_ofList, List.contains_iff_mem,
    List.mem_map, occurrences, List.mem_flatMap, Clause.mem_toList]
  grind

/-- Some extension of `a` makes every clause true. -/
def SatisfiableFrom (s : ClauseSet) (a : Valuation) : Prop :=
  ∃ v : Valuation, v.Extends a ∧ s.eval v = true

end ClauseSet

end Sentential
