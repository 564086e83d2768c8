import Mathlib.Algebra.Group.Nat.Defs
import Mathlib.Data.String.Basic
import Sentential.Proofs.TruthTable
import Sentential.Proofs.Valuation

/-!
# The rows of a truth table

A listing of the valuations of some names is built up name by name, with true before false; a search
goes down into them with false before true. Both go through the same rows, in opposite directions,
when the rows are ordered by the first name in alphabetical order on which they differ.

* `Valuation.rows`, `Valuation.enumerate_eq_rows`: the listing by recursion on the names.
* `Valuation.mem_rows_iff`: the rows assign the names and change nothing else.
* `Valuation.Precedes`, `Valuation.pairwise_rows`: the order of the rows, which the listing
  reverses.
* `Valuation.findFirst?_eq_getLast?`: the search finds the last row of the listing that passes.
* `Valuation.searchRows_eq`: the rows can be searched over one valuation that is changed on the way.
* `Formula.findValuation?_mirrors`: all of this of the variables of a formula.
-/

namespace Sentential

namespace Valuation

variable {names : List String} {u v w : Valuation} {test : Valuation → Bool}

/-! ## The listing -/

/-- The extensions of `v` by values for the names, with true listed before false and the first name
changing slowest. -/
def rows : List String → Valuation → List Valuation
  | [], v => [v]
  | name :: names, v => rows names (v.insert name true) ++ rows names (v.insert name false)

theorem enumerate_eq_rows (names : List String) : enumerate names = rows names ∅ := by
  suffices h : ∀ vs : List Valuation, names.foldl (fun vs name =>
      vs.flatMap fun v => [v.insert name true, v.insert name false]) vs =
        vs.flatMap (rows names) by
    rw [enumerate, h, List.flatMap_singleton]
  induction names with
  | nil => simp [rows]
  | cons name names ih =>
    intro vs
    rw [List.foldl_cons, ih, List.flatMap_assoc]
    simp [rows]

theorem length_rows (names : List String) (v : Valuation) :
    (rows names v).length = 2 ^ names.length := by
  induction names generalizing v with
  | nil => rfl
  | cons name names ih =>
    rw [rows, List.length_append, ih, ih, List.length_cons, Nat.pow_succ, Nat.mul_two]

theorem mem_rows_cons {name : String} :
    v ∈ rows (name :: names) u ↔ ∃ b, v ∈ rows names (u.insert name b) := by
  rw [rows, List.mem_append, Bool.exists_bool, or_comm]

/-- The rows assign all the names and change nothing else. -/
theorem mem_rows_iff : v ∈ rows names u ↔
    (∀ name ∈ names, name ∈ v) ∧ ∀ name, name ∉ names → v[name]? = u[name]? := by
  induction names generalizing u with
  | nil =>
    rw [rows, List.mem_singleton]
    exact ⟨fun h => by simp [h], fun h =>
      Std.ExtTreeMap.ext_getElem? fun name => h.2 name (by simp)⟩
  | cons n names ih =>
    rw [mem_rows_cons, List.forall_mem_cons]
    simp only [ih, List.mem_cons, not_or, Std.ExtTreeMap.getElem?_insert,
      Std.LawfulEqCmp.compare_eq_iff_eq]
    constructor
    · rintro ⟨b, hassigned, hkept⟩
      refine ⟨⟨?_, hassigned⟩, fun name h => ?_⟩
      · by_cases hn : n ∈ names
        · exact hassigned n hn
        · exact mem_iff.2 ⟨b, by rw [hkept n hn, if_pos rfl]⟩
      · rw [hkept name h.2, if_neg (Ne.symm h.1)]
    · rintro ⟨⟨hn, hassigned⟩, hkept⟩
      obtain ⟨b, hb⟩ := mem_iff.1 hn
      refine ⟨b, hassigned, fun name h => ?_⟩
      split
      · next heq => rw [← heq, hb]
      · next hne => exact hkept name ⟨Ne.symm hne, h⟩

/-- The rows that start from nothing are the valuations that assign just the names. -/
theorem mem_enumerate_iff : v ∈ enumerate names ↔ ∀ name, name ∈ v ↔ name ∈ names := by
  have hnone : ∀ name, v[name]? = (∅ : Valuation)[name]? ↔ name ∉ v := by
    intro name
    rw [not_mem_iff, Std.ExtTreeMap.getElem?_empty]
  rw [enumerate_eq_rows, mem_rows_iff]
  simp only [hnone, not_imp_not]
  exact ⟨fun h name => ⟨h.2 name, h.1 name⟩,
    fun h => ⟨fun name => (h name).2, fun name => (h name).1⟩⟩

/-! ## The order of the rows -/

/-- At the first of the names, in alphabetical order, on which the two differ, `v` has false and `w`
has true. -/
def Precedes (names : List String) (v w : Valuation) : Prop :=
  ∃ name ∈ names, v.value name = false ∧ w.value name = true ∧
    ∀ other ∈ names, other < name → v.value other = w.value other

theorem Precedes.asymm (h : Precedes names v w) : ¬ Precedes names w v := by
  rintro ⟨name', hname', hw', hv', hbelow'⟩
  obtain ⟨name, hname, hv, hw, hbelow⟩ := h
  rcases lt_trichotomy name name' with hlt | rfl | hlt
  · simp [hbelow' name hname hlt, hv] at hw
  · simp [hv] at hv'
  · simp [hbelow name' hname' hlt, hw'] at hv'

/-- A row comes before another in the listing when the other precedes it. -/
theorem pairwise_rows (h : names.Pairwise (· < ·)) (u : Valuation) :
    (rows names u).Pairwise fun v w => Precedes names w v := by
  induction names generalizing u with
  | nil => exact List.pairwise_singleton _ u
  | cons n names ih =>
    obtain ⟨hfirst, hsorted⟩ := List.pairwise_cons.1 h
    have hn : n ∉ names := fun hn => lt_irrefl n (hfirst n hn)
    have hvalue : ∀ b v, v ∈ rows names (u.insert n b) → v.value n = b := by
      intro b v hv
      rw [value, (mem_rows_iff.1 hv).2 n hn]
      simp
    have hbranch : ∀ b, (rows names (u.insert n b)).Pairwise fun v w =>
        Precedes (n :: names) w v := by
      intro b
      refine (ih hsorted _).imp_of_mem ?_
      rintro v w hv hw ⟨name, hname, hfalse, htrue, hbelow⟩
      refine ⟨name, List.mem_cons_of_mem n hname, hfalse, htrue, ?_⟩
      refine List.forall_mem_cons.2 ⟨fun _ => ?_, hbelow⟩
      rw [hvalue b v hv, hvalue b w hw]
    rw [rows, List.pairwise_append]
    refine ⟨hbranch true, hbranch false, fun v hv w hw => ?_⟩
    refine ⟨n, List.mem_cons_self, hvalue false w hw, hvalue true v hv, ?_⟩
    refine List.forall_mem_cons.2 ⟨fun hlt => absurd hlt (lt_irrefl n), fun other hother hlt => ?_⟩
    exact absurd hlt (lt_asymm (hfirst other hother))

/-! ## The search -/

/-- The search finds the last row of the listing that passes the test. -/
theorem findFirst?_eq_getLast? (test : Valuation → Bool) (names : List String) (v : Valuation) :
    findFirst? test names v = ((rows names v).filter test).getLast? := by
  induction names generalizing v with
  | nil => cases h : test v <;> simp [findFirst?, rows, h]
  | cons name names ih =>
    rw [findFirst?, rows, List.filter_append, List.getLast?_append, ← ih, ← ih]
    cases findFirst? test names (v.insert name false) <;> rfl

/-- In a list in which every item precedes those before it, the last is the least. -/
theorem getLast?_eq_some_iff_least {vs : List Valuation}
    (h : vs.Pairwise fun v w => Precedes names w v) : vs.getLast? = some v ↔
      v ∈ vs ∧ ∀ w ∈ vs, w = v ∨ Precedes names v w := by
  have hleast : ∀ v, vs.getLast? = some v → v ∈ vs ∧ ∀ w ∈ vs, w = v ∨ Precedes names v w := by
    intro v hv
    obtain ⟨earlier, rfl⟩ := List.getLast?_eq_some_iff.1 hv
    refine ⟨by simp, fun w hw => ?_⟩
    rcases List.mem_append.1 hw with hw | hw
    · exact .inr ((List.pairwise_append.1 h).2.2 w hw v (by simp))
    · exact .inl (List.mem_singleton.1 hw)
  refine ⟨hleast v, fun ⟨hmem, hv⟩ => ?_⟩
  obtain ⟨u, hu⟩ := Option.isSome_iff_exists.1 (List.getLast?_isSome.2 (List.ne_nil_of_mem hmem))
  obtain ⟨humem, hulast⟩ := hleast u hu
  rcases hulast v hmem with rfl | huv
  · exact hu
  · rcases hv u humem with rfl | hvu
    · exact hu
    · exact absurd hvu huv.asymm

/-! ## One valuation for the search -/

/-- Searches the rows over one valuation: each name is given false, then true unless a row was
found, and is erased again. Gives a copy of the row that was found and the valuation that is
left. -/
def searchRows (test : Valuation → Bool) : List String → Valuation → Option Valuation × Valuation
  | [], v => (if test v then some v else none, v)
  | name :: names, v =>
    match searchRows test names (v.insert name false) with
    | (some found, w) => (some found, w.erase name)
    | (none, w) =>
      let (found, u) := searchRows test names (w.insert name true)
      (found, u.erase name)

/-- The search takes back every change on the way, like the visit of all rows. -/
theorem searchRows_eq (hdistinct : names.Nodup) (hnew : ∀ name ∈ names, name ∉ v) :
    searchRows test names v = (findFirst? test names v, v) := by
  induction names generalizing v with
  | nil => rfl
  | cons name names ih =>
    obtain ⟨hother, hdistinct⟩ := List.nodup_cons.1 hdistinct
    obtain ⟨hname, hnew⟩ := List.forall_mem_cons.1 hnew
    have hstep : ∀ b, searchRows test names (v.insert name b) =
        (findFirst? test names (v.insert name b), v.insert name b) := fun b =>
      ih hdistinct (forall_not_mem_insert hother hnew b)
    rw [searchRows, findFirst?, hstep]
    cases hfalse : findFirst? test names (v.insert name false) with
    | some found => simp [erase_insert_of_not_mem hname]
    | none => simp [insert_insert, hstep, erase_insert_of_not_mem hname]

end Valuation

namespace Formula

theorem pairwise_vars (f : Formula) : f.vars.Pairwise (· < ·) :=
  Std.ExtTreeSet.ordered_toList.imp compare_lt_iff_lt.1

/-- The listing of the valuations of a formula's variables and the search through them are mirror
images. The listing has each valuation that assigns just the variables once, so `2 ^ n` of them for
`n` variables, and each precedes those before it: at the alphabetically first variable on which the
two differ it has false. The search finds the last that passes the test, whatever the test is, and
nothing where none passes. So it finds the least, and it has the same answer over one valuation that
is changed on the way and taken back. -/
theorem findValuation?_mirrors (f : Formula) (test : Valuation → Bool) :
    let rows := Valuation.enumerate f.vars
    (∀ v, v ∈ rows ↔ ∀ name, name ∈ v ↔ name ∈ f.vars) ∧
    rows.Nodup ∧ rows.length = 2 ^ f.vars.length ∧
    f.vars.Pairwise (· < ·) ∧ rows.Pairwise (fun v w => Valuation.Precedes f.vars w v) ∧
    f.findValuation? test = (rows.filter test).getLast? ∧
    (f.findValuation? test = none ↔ ∀ v ∈ rows, test v = false) ∧
    (∀ v, f.findValuation? test = some v ↔ (v ∈ rows ∧ test v = true) ∧
      ∀ w ∈ rows, test w = true → w = v ∨ Valuation.Precedes f.vars v w) ∧
    Valuation.searchRows test f.vars ∅ = (f.findValuation? test, ∅) := by
  intro rows
  have hrows : rows = Valuation.rows f.vars ∅ := Valuation.enumerate_eq_rows f.vars
  have horder : rows.Pairwise fun v w => Valuation.Precedes f.vars w v :=
    hrows ▸ Valuation.pairwise_rows f.pairwise_vars ∅
  have hfind : f.findValuation? test = (rows.filter test).getLast? := by
    rw [hrows]
    exact Valuation.findFirst?_eq_getLast? test f.vars ∅
  have hdistinct : f.vars.Nodup := Valuation.nodup_toList f.atoms
  refine ⟨fun v => Valuation.mem_enumerate_iff, ?_, ?_, f.pairwise_vars, horder, hfind, ?_, ?_, ?_⟩
  · refine horder.imp ?_
    rintro v _ h rfl
    exact h.asymm h
  · rw [hrows, Valuation.length_rows]
  · simp [hfind]
  · intro v
    rw [hfind, Valuation.getLast?_eq_some_iff_least (horder.sublist List.filter_sublist)]
    simp only [List.mem_filter, and_imp]
  · exact Valuation.searchRows_eq hdistinct fun name _ => Std.ExtTreeMap.not_mem_empty

end Formula

end Sentential
