import Mathlib.Data.String.Basic
import Sentential.Proofs.Dpll.Propagation

/-!
# Pure literals

A literal is pure when its name has no value and occurs with its sign only in the clauses that are
not true yet. One pass over these clauses that notes the signs of each name finds the pure literals,
sorted by name since the notes are. A pure literal may be false in a model of the clauses, but the
model can be changed to make it true: no clause that still matters has its opposite. All pure
literals are changed together.

* `has_signsOf`: the signs noted for a name are those with which it occurs.
* `mem_pureLiterals_iff`: which literals are pure, by the clauses.
* `sorted_pureLiterals`: the pure literals are in strict order of their names.
* `pureBySigns_eq`: the pass that notes signs finds them.
* `eval_assignAll_pureLiterals`: a model stays one when the pure literals are made true in it.
* `satisfiableFrom_assignPure`: what could be satisfied before the pure literals are assigned can
  be satisfied afterwards.
* `pureLiterals_exact`: which literals are pure, and that making all of them true loses nothing.
-/

namespace Sentential

/-! ## Making literals true -/

/-- Makes each of the literals true, one after the other. -/
def Valuation.assignAll (v : Valuation) (ls : List Literal) : Valuation :=
  ls.foldl (fun v l => v.insert l.var l.polarity) v

namespace Valuation

theorem getElem?_assignAll_of_not_mem {v : Valuation} {ls : List Literal} {name : String}
    (h : ∀ l ∈ ls, l.var ≠ name) : (v.assignAll ls)[name]? = v[name]? := by
  induction ls generalizing v with
  | nil => rfl
  | cons l ls ih =>
    obtain ⟨hl, hls⟩ := List.forall_mem_cons.1 h
    rw [assignAll, List.foldl_cons, ← assignAll, ih hls]
    simp [Std.ExtTreeMap.getElem?_insert, hl]

theorem getElem?_assignAll_of_mem {v : Valuation} {ls : List Literal}
    (hdistinct : ls.Pairwise (·.var ≠ ·.var)) {l : Literal} (hl : l ∈ ls) :
    (v.assignAll ls)[l.var]? = some l.polarity := by
  induction ls generalizing v with
  | nil => cases hl
  | cons m ls ih =>
    obtain ⟨hm, hls⟩ := List.pairwise_cons.1 hdistinct
    rw [assignAll, List.foldl_cons, ← assignAll]
    rcases List.mem_cons.1 hl with rfl | hmem
    · rw [getElem?_assignAll_of_not_mem fun k hk => (hm k hk).symm]
      simp
    · exact ih hls hmem

theorem Extends.assignAll {v w : Valuation} (h : Extends w v) (ls : List Literal) :
    Extends (w.assignAll ls) (v.assignAll ls) := by
  induction ls generalizing v w with
  | nil => exact h
  | cons l ls ih => exact ih (h.insert l.var l.polarity)

end Valuation

/-! ## Literals in the order of their names -/

namespace Literal

variable {ls ms : List Literal}

/-- In strict order no literal is there twice. -/
theorem nodup_of_sorted (h : ls.Pairwise (·.var < ·.var)) : ls.Nodup := by
  refine h.imp ?_
  rintro l _ hlt rfl
  exact lt_irrefl _ hlt

/-- Lists in strict order with the same literals are the same. -/
theorem eq_of_sorted (hl : ls.Pairwise (·.var < ·.var)) (hm : ms.Pairwise (·.var < ·.var))
    (h : ∀ l, l ∈ ls ↔ l ∈ ms) : ls = ms := by
  refine List.Perm.eq_of_pairwise (fun _ _ _ _ hlt hgt => absurd hlt (lt_asymm hgt)) hl hm ?_
  exact (List.perm_ext_iff_of_nodup (nodup_of_sorted hl) (nodup_of_sorted hm)).2 h

end Literal

/-! ## Signs of a name -/

/-- The signs with which a name has been met. -/
structure Signs where
  positive : Bool := false
  negated : Bool := false

namespace Signs

/-- Notes the sign of one more literal. -/
def note (p : Signs) (l : Literal) : Signs :=
  if l.negated then { p with negated := true } else { p with positive := true }

/-- Whether a sign has been met. -/
def has (p : Signs) (negated : Bool) : Bool :=
  if negated then p.negated else p.positive

/-- The literal of a name that has been met with one sign only. -/
def pure? (p : Signs) (name : String) : Option Literal :=
  match p with
  | ⟨true, false⟩ => some ⟨name, false⟩
  | ⟨false, true⟩ => some ⟨name, true⟩
  | _ => none

@[simp] theorem has_empty (negated : Bool) : ({} : Signs).has negated = false := by
  cases negated <;> rfl

theorem has_note (p : Signs) (l : Literal) (negated : Bool) :
    (p.note l).has negated = (p.has negated || l.negated == negated) := by
  cases hl : l.negated <;> cases negated <;> simp [note, has, hl]

theorem pure?_eq_some_iff {p : Signs} {name : String} {l : Literal} :
    p.pure? name = some l ↔ l.var = name ∧ p.has l.negated = true ∧ p.has (!l.negated) = false := by
  obtain ⟨x, b⟩ := l
  obtain ⟨positive, negated⟩ := p
  cases positive <;> cases negated <;> cases b <;> simp [pure?, has, eq_comm]

end Signs

/-- Notes one more literal among the signs of its name. -/
def noteSign (t : Std.ExtTreeMap String Signs) (l : Literal) : Std.ExtTreeMap String Signs :=
  t.insert l.var ((t.getD l.var {}).note l)

/-- The signs of each name, from one pass over literals. -/
def signsOf (ls : List Literal) : Std.ExtTreeMap String Signs :=
  ls.foldl noteSign ∅

theorem has_noteSign (t : Std.ExtTreeMap String Signs) (l : Literal) (name : String)
    (negated : Bool) : ((noteSign t l).getD name {}).has negated =
      ((t.getD name {}).has negated || decide (⟨name, negated⟩ = l)) := by
  obtain ⟨x, b⟩ := l
  rw [noteSign, Std.ExtTreeMap.getD_insert]
  split
  · next h =>
    obtain rfl := Std.LawfulEqCmp.eq_of_compare h
    rw [Signs.has_note]
    cases b <;> cases negated <;> simp
  · next h =>
    have hne : name ≠ x := fun heq => h (Std.LawfulEqCmp.compare_eq_iff_eq.2 heq.symm)
    simp [hne]

/-- The signs noted for a name are those with which it occurs. -/
theorem has_signsOf (ls : List Literal) (name : String) (negated : Bool) :
    ((signsOf ls).getD name {}).has negated = decide (⟨name, negated⟩ ∈ ls) := by
  have hfold : ∀ t : Std.ExtTreeMap String Signs,
      ((ls.foldl noteSign t).getD name {}).has negated =
        ((t.getD name {}).has negated || decide (⟨name, negated⟩ ∈ ls)) := by
    induction ls with
    | nil => simp
    | cons l ls ih =>
      intro t
      rw [List.foldl_cons, ih, has_noteSign, Bool.or_assoc]
      simp only [List.mem_cons, Bool.decide_or]
  rw [signsOf, hfold]
  simp

namespace ClauseSet

variable {s : ClauseSet} {a : Valuation}

/-! ## Which literals are pure -/

theorem mem_pureLiterals {l : Literal} :
    l ∈ s.pureLiterals a ↔ l ∈ s.liveLiterals a ∧ l.negate ∉ s.liveLiterals a := by
  simp [pureLiterals, Std.ExtTreeSet.mem_toList, Std.ExtTreeSet.mem_ofList]

/-- A live literal with the name of a pure one is that one. -/
theorem eq_of_live_of_pure {l m : Literal} (hl : l ∈ s.pureLiterals a)
    (hm : m ∈ s.liveLiterals a) (hvar : m.var = l.var) : m = l := by
  rcases Literal.eq_or_eq_negate hvar with rfl | rfl
  · rfl
  · exact absurd hm (mem_pureLiterals.1 hl).2

theorem mem_pureLiterals_iff {l : Literal} :
    l ∈ s.pureLiterals a ↔ l.var ∉ a ∧ (∃ c ∈ s.clauses, c.eval a = false ∧ l ∈ c) ∧
      ∀ c ∈ s.clauses, c.eval a = false → l.negate ∉ c := by
  have hopen : ∀ c : Clause, l.negate ∈ c.openLiterals a ↔ l.negate ∈ c ∧ l.var ∉ a := fun c =>
    Clause.mem_openLiterals
  simp only [mem_pureLiterals, mem_liveLiterals, Clause.mem_openLiterals, hopen]
  grind

/-- The pure literals are in strict order of their names. -/
theorem sorted_pureLiterals (s : ClauseSet) (a : Valuation) :
    (s.pureLiterals a).Pairwise (·.var < ·.var) := by
  have hsorted : (s.pureLiterals a).Pairwise (fun l m => compare l m = .lt) :=
    Std.ExtTreeSet.ordered_toList.filter _
  refine (hsorted.and (s.pureLiterals_distinct a)).imp fun {l m} h => ?_
  obtain ⟨hlt, hne⟩ := h
  replace hlt : (compare l.var m.var).then (compare l.negated m.negated) = .lt := hlt
  rcases Ordering.then_eq_lt.1 hlt with hvar | ⟨hvar, -⟩
  · exact compare_lt_iff_lt.1 hvar
  · exact absurd (Std.LawfulEqCmp.eq_of_compare hvar) hne

/-! ## Purity in one pass -/

/-- The live literals of the names that are met with one sign only, by name. -/
def pureBySigns (s : ClauseSet) (a : Valuation) : List Literal :=
  (signsOf (s.liveLiterals a)).toList.filterMap fun entry => entry.2.pure? entry.1

theorem mem_pureBySigns {l : Literal} : l ∈ s.pureBySigns a ↔ l ∈ s.pureLiterals a := by
  have hhas := has_signsOf (s.liveLiterals a) l.var
  rw [Std.ExtTreeMap.getD_eq_getD_getElem?] at hhas
  rw [pureBySigns, List.mem_filterMap, mem_pureLiterals]
  constructor
  · rintro ⟨⟨name, p⟩, hmem, hp⟩
    obtain ⟨rfl, hsign, hopposite⟩ := Signs.pure?_eq_some_iff.1 hp
    rw [Std.ExtTreeMap.mem_toList_iff_getElem?_eq_some.1 hmem, Option.getD_some] at hhas
    rw [hhas] at hsign hopposite
    exact ⟨of_decide_eq_true hsign, of_decide_eq_false hopposite⟩
  · rintro ⟨hlive, hopposite⟩
    have hsign := (hhas l.negated).trans (decide_eq_true hlive)
    cases hp : (signsOf (s.liveLiterals a))[l.var]? with
    | none =>
      -- A name without an entry has been met with no sign.
      simp [hp] at hsign
    | some p =>
      rw [hp, Option.getD_some] at hhas hsign
      exact ⟨(l.var, p), Std.ExtTreeMap.mem_toList_iff_getElem?_eq_some.2 hp,
        Signs.pure?_eq_some_iff.2 ⟨rfl, hsign, (hhas _).trans (decide_eq_false hopposite)⟩⟩

theorem sorted_pureBySigns (s : ClauseSet) (a : Valuation) :
    (s.pureBySigns a).Pairwise (·.var < ·.var) := by
  refine Std.ExtTreeMap.ordered_keys_toList.filterMap _ fun x y hxy l hl m hm => ?_
  rw [(Signs.pure?_eq_some_iff.1 hl).1, (Signs.pure?_eq_some_iff.1 hm).1]
  exact compare_lt_iff_lt.1 hxy

/-- The pass that notes signs finds the pure literals. -/
theorem pureBySigns_eq (s : ClauseSet) (a : Valuation) : s.pureBySigns a = s.pureLiterals a :=
  Literal.eq_of_sorted (s.sorted_pureBySigns a) (s.sorted_pureLiterals a) fun _ => mem_pureBySigns

/-! ## Models -/

theorem assignment_foldl_assign (ls : List Literal) (b : Branch) :
    (ls.foldl Branch.assign b).assignment = b.assignment.assignAll ls := by
  induction ls generalizing b with
  | nil => rfl
  | cons l ls ih => exact ih (b.assign l)

theorem assignAll_pureLiterals_extends : (a.assignAll (s.pureLiterals a)).Extends a := by
  have h := (s.assignPure_reaches (.ofAssignment a)).assignment_extends
  rwa [assignPure, assignment_foldl_assign] at h

/-- A model stays one when the pure literals are made true in it. -/
theorem eval_assignAll_pureLiterals {v : Valuation} (h : v.Extends a) (hv : s.eval v = true) :
    s.eval (v.assignAll (s.pureLiterals a)) = true := by
  refine eval_iff.2 fun c hc => ?_
  cases ha : c.eval a with
  | true =>
    have hext := (h.assignAll (s.pureLiterals a)).trans assignAll_pureLiterals_extends
    exact Clause.eval_of_extends hext ha
  | false =>
    obtain ⟨m, hm, ht⟩ := Clause.exists_open_of_eval h (eval_iff.1 hv c hc) ha
    have hlive := mem_liveLiterals.2 ⟨c, hc, ha, hm⟩
    refine Clause.eval_iff.2 ⟨m, (Clause.mem_openLiterals.1 hm).1, ?_⟩
    rw [Literal.value?_eq_some_true] at ht ⊢
    by_cases hpure : ∃ l ∈ s.pureLiterals a, l.var = m.var
    · -- The change can only have made `m` itself true, since its opposite is not pure.
      obtain ⟨l, hl, hvar⟩ := hpure
      obtain rfl := eq_of_live_of_pure hl hlive hvar.symm
      exact Valuation.getElem?_assignAll_of_mem (s.pureLiterals_distinct a) hl
    · rw [Valuation.getElem?_assignAll_of_not_mem fun l hl hvar => hpure ⟨l, hl, hvar⟩, ht]

/-- Where some extension makes every clause true, one does that also makes the pure literals
true. -/
theorem satisfiableFrom_assignPure {b : Branch} (h : s.SatisfiableFrom b.assignment) :
    s.SatisfiableFrom (s.assignPure b).assignment := by
  obtain ⟨v, hext, hv⟩ := h
  rw [assignPure, assignment_foldl_assign]
  exact ⟨_, hext.assignAll _, eval_assignAll_pureLiterals hext hv⟩

/-- Making the pure literals true adds their values and changes no other. -/
theorem getElem?_assignAll_pureLiterals {name : String} {value : Bool} :
    (a.assignAll (s.pureLiterals a))[name]? = some value ↔
      a[name]? = some value ∨ ⟨name, !value⟩ ∈ s.pureLiterals a := by
  by_cases hpure : ∃ l ∈ s.pureLiterals a, l.var = name
  · obtain ⟨l, hl, rfl⟩ := hpure
    have hnew := Valuation.not_mem_iff.1 (mem_pureLiterals_iff.1 hl).1
    rw [Valuation.getElem?_assignAll_of_mem (s.pureLiterals_distinct a) hl, hnew]
    constructor
    · rintro ⟨⟩
      rw [Literal.polarity, Bool.not_not]
      exact .inr hl
    · rintro (hnone | hmem)
      · cases hnone
      · have heq := eq_of_live_of_pure hl (mem_liveLiterals_of_pure hmem) rfl
        have hvalue := congrArg Literal.polarity heq
        rw [← hvalue, Literal.polarity, Bool.not_not]
  · have hnot : ⟨name, !value⟩ ∉ s.pureLiterals a := fun hmem => hpure ⟨_, hmem, rfl⟩
    rw [Valuation.getElem?_assignAll_of_not_mem fun l hl hvar => hpure ⟨l, hl, hvar⟩,
      or_iff_left hnot]

/-- Exactly the literals are pure whose name has no value and that occur in the clauses that are not
true, while their opposites do not. They are listed once each, in the order of their names, and one
pass over these clauses that notes the signs of each name finds them. Making all of them true adds
their values to the assignment and changes nothing else. Every model that extends the assignment
stays one when they are made true in it, so there are models afterwards exactly when there were
before. -/
theorem pureLiterals_exact (s : ClauseSet) (a : Valuation) :
    let ls := s.pureLiterals a
    let after := a.assignAll ls
    ls.Pairwise (·.var < ·.var) ∧ ls.Nodup ∧
    (∀ l, l ∈ ls ↔ l.var ∉ a ∧ (∃ c ∈ s.clauses, c.eval a = false ∧ l ∈ c) ∧
      ∀ c ∈ s.clauses, c.eval a = false → l.negate ∉ c) ∧
    s.pureBySigns a = ls ∧
    (∀ name value, after[name]? = some value ↔
      a[name]? = some value ∨ ⟨name, !value⟩ ∈ ls) ∧
    (∀ trail, (s.assignPure ⟨a, trail⟩).assignment = after) ∧
    (∀ v : Valuation, v.Extends a → s.eval v = true →
      (v.assignAll ls).Extends after ∧ s.eval (v.assignAll ls) = true) ∧
    ((∃ v : Valuation, v.Extends a ∧ s.eval v = true) ↔
      ∃ v : Valuation, v.Extends after ∧ s.eval v = true) := by
  intro ls after
  have hsorted : ls.Pairwise (·.var < ·.var) := s.sorted_pureLiterals a
  have hmodel : ∀ v : Valuation, v.Extends a → s.eval v = true →
      (v.assignAll ls).Extends after ∧ s.eval (v.assignAll ls) = true := fun v hext hv =>
    ⟨hext.assignAll ls, eval_assignAll_pureLiterals hext hv⟩
  refine ⟨hsorted, Literal.nodup_of_sorted hsorted, fun l => mem_pureLiterals_iff,
    s.pureBySigns_eq a, fun name value => getElem?_assignAll_pureLiterals,
    fun trail => assignment_foldl_assign ls ⟨a, trail⟩, hmodel, ?_, ?_⟩
  · rintro ⟨v, hext, hv⟩
    exact ⟨v.assignAll ls, hmodel v hext hv⟩
  · rintro ⟨v, hext, hv⟩
    exact ⟨v, hext.trans assignAll_pureLiterals_extends, hv⟩

/-- A sign in a clause that is true already does not count. -/
example :
    let s : ClauseSet := ⟨[.ofList [⟨"a", false⟩, ⟨"b", true⟩],
      .ofList [⟨"a", true⟩, ⟨"b", true⟩, ⟨"c", false⟩]]⟩
    s.pureLiterals ∅ = [⟨"b", true⟩, ⟨"c", false⟩] ∧
      s.pureLiterals ((∅ : Valuation).insert "c" true) = [⟨"a", false⟩, ⟨"b", true⟩] := by
  decide

end ClauseSet

end Sentential
