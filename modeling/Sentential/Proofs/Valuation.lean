import Sentential.Entailment

/-!
# Extending and completing valuations

* `mem_iff`: a name is assigned when it has some value.
* `getElem?_eq_some_value`: the value of an assigned name.
* `extends_insert`, `Extends.insert`: extensions and assignments of one name.
* `complete_extends`, `mem_complete`, `value_complete`: completing a valuation adds exactly the
  names asked for and changes no value that is read.
-/

namespace Sentential.Valuation

theorem mem_iff {v : Valuation} {name : String} : name ∈ v ↔ ∃ b, v[name]? = some b := by
  rw [Std.ExtTreeMap.mem_iff_isSome_getElem?, Option.isSome_iff_exists]

theorem not_mem_iff {v : Valuation} {name : String} : name ∉ v ↔ v[name]? = none := by
  rw [Std.ExtTreeMap.mem_iff_isSome_getElem?, Option.not_isSome_iff_eq_none]

/-- The value that is read of an assigned name is the assigned one. -/
theorem getElem?_eq_some_value {v : Valuation} {name : String} (h : name ∈ v) :
    v[name]? = some (v.value name) := by
  obtain ⟨b, hb⟩ := mem_iff.1 h
  rw [value, hb]
  rfl

theorem extends_empty (v : Valuation) : Extends v ∅ := by
  intro name b h
  simp at h

/-- An extension that gives `name` the value `b` also extends the assignment of `b`. -/
theorem extends_insert {v w : Valuation} (h : Extends w v) {name : String} {b : Bool}
    (hb : w[name]? = some b) : Extends w (v.insert name b) := by
  intro n c hc
  by_cases hn : name = n
  · subst hn
    obtain rfl : b = c := by simpa using hc
    exact hb
  · exact h n c (by simpa [Std.ExtTreeMap.getElem?_insert, hn] using hc)

theorem Extends.insert {v w : Valuation} (h : Extends w v) (name : String) (b : Bool) :
    Extends (w.insert name b) (v.insert name b) := by
  intro n c hc
  rw [Std.ExtTreeMap.getElem?_insert] at hc ⊢
  split
  · next hn => rwa [if_pos hn] at hc
  · next hn =>
    rw [if_neg hn] at hc
    exact h n c hc

/-! ## Completion -/

theorem insertIfNew_extends (v : Valuation) (name : String) (b : Bool) :
    Extends (v.insertIfNew name b) v := by
  intro n c hc
  rw [Std.ExtTreeMap.getElem?_insertIfNew, if_neg, hc]
  rintro ⟨heq, hnew⟩
  obtain rfl := Std.LawfulEqCmp.eq_of_compare heq
  exact hnew (mem_iff.2 ⟨c, hc⟩)

/-- A name that reads as false reads as false after it is assigned false. -/
theorem value_insertIfNew_false (v : Valuation) (name other : String) :
    value (v.insertIfNew name false) other = v.value other := by
  rw [value, Std.ExtTreeMap.getElem?_insertIfNew]
  split
  · next h =>
    obtain rfl := Std.LawfulEqCmp.eq_of_compare h.1
    simp [value, not_mem_iff.1 h.2]
  · rfl

theorem complete_extends (v : Valuation) (names : List String) : Extends (v.complete names) v := by
  induction names generalizing v with
  | nil => exact .refl v
  | cons name names ih => exact (ih _).trans (insertIfNew_extends v name false)

theorem mem_complete {v : Valuation} {names : List String} {name : String} :
    name ∈ v.complete names ↔ name ∈ v ∨ name ∈ names := by
  induction names generalizing v with
  | nil => simp [complete]
  | cons n names ih =>
    rw [complete, List.foldl_cons, ← complete, ih, Std.ExtTreeMap.mem_insertIfNew,
      Std.LawfulEqCmp.compare_eq_iff_eq, List.mem_cons]
    grind

@[simp] theorem value_complete (v : Valuation) (names : List String) (name : String) :
    value (v.complete names) name = v.value name := by
  induction names generalizing v with
  | nil => rfl
  | cons n names ih => exact (ih _).trans (value_insertIfNew_false v n name)

end Sentential.Valuation
