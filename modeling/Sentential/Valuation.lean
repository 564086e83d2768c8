import Std.Data.ExtTreeMap

/-!
# Valuations

A valuation assigns truth values to finitely many names. It serves complete (a row of a truth
table) and partial (a fact base, a solver's witness); a name that it leaves out reads as false.

* `value_insert`: the value of a name after an assignment.
* `Extends`: one valuation keeps every assignment of another and may add to it.
* `erase_insert_of_not_mem`: erasing a name that was new takes the valuation back.
-/

namespace Sentential

/-- A finite map from names to truth values, listed by name. -/
abbrev Valuation := Std.ExtTreeMap String Bool

namespace Valuation

/-- The truth value of `name`; a name without one is false. -/
def value (v : Valuation) (name : String) : Bool :=
  v[name]?.getD false

theorem value_insert (v : Valuation) (name other : String) (b : Bool) :
    value (v.insert name b) other = if name = other then b else v.value other := by
  simp only [value, Std.ExtTreeMap.getElem?_insert, Std.LawfulEqCmp.compare_eq_iff_eq]
  split <;> simp

/-- `w` keeps every assignment of `v`. -/
def Extends (w v : Valuation) : Prop :=
  ∀ (name : String) (b : Bool), v[name]? = some b → w[name]? = some b

theorem Extends.refl (v : Valuation) : Extends v v :=
  fun _ _ h => h

theorem Extends.trans {u v w : Valuation} (h : Extends w v) (h' : Extends v u) : Extends w u :=
  fun name b hb => h name b (h' name b hb)

/-- Assigning a name that had no value extends the valuation. -/
theorem insert_extends {v : Valuation} {name : String} (h : name ∉ v) (b : Bool) :
    Extends (v.insert name b) v := by
  intro n c hc
  have hne : name ≠ n := by
    rintro rfl
    exact h (Std.ExtTreeMap.isSome_getElem?_iff_mem.1 (by simp [hc]))
  simp [Std.ExtTreeMap.getElem?_insert, hne, hc]

/-- Erasing a name that was new takes the valuation back. -/
theorem erase_insert_of_not_mem {v : Valuation} {name : String} (h : name ∉ v) (b : Bool) :
    (v.insert name b).erase name = v := by
  apply Std.ExtTreeMap.ext_getElem?
  intro n
  by_cases hn : name = n
  · subst hn
    simp [Std.ExtTreeMap.getElem?_eq_none h]
  · simp [Std.ExtTreeMap.getElem?_erase, Std.ExtTreeMap.getElem?_insert, hn]

end Valuation

end Sentential
