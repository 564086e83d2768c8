import Mathlib.Data.List.Dedup
import Mathlib.Data.List.Destutter
import Sentential.Rule

/-!
# Truth tables decide

A table goes through the values of finitely many names. A test that reads no other name has the
same answer under any valuation and under the row that agrees with it, so the rows decide what
holds of all valuations, whatever names those assign.

* `holdsOnAll_iff`: a test that depends on the names only holds on all rows exactly when it holds
  under every valuation.
* `tautology_iff`, `satisfiable_iff`, `equivalent_iff`: the queries of a formula.
* `isSome_findValuation?_iff`, `eval_of_findValuation?`: what the search for a model finds.
* `visitRows_eq`: the rows can be visited over one valuation that is changed on the way.
* `mergedVars_eq`: the variables of two formulas can be merged from their lists.
* `queries_decide`: what the queries decide, and that equality of rules is an equivalence.
-/

namespace Sentential

namespace Valuation

theorem value_insert_self (v : Valuation) (name : String) (b : Bool) :
    value (v.insert name b) name = b := by
  simp [value_insert]

/-- A test on all rows holds on the row that agrees with any given valuation. -/
theorem exists_row_of_holdsOnAll {test : Valuation → Bool} {names : List String} {v : Valuation}
    (h : holdsOnAll test names v = true) (w : Valuation) :
    ∃ u : Valuation, test u = true ∧ (∀ name ∈ names, u.value name = w.value name) ∧
      ∀ name, name ∉ names → u.value name = v.value name := by
  induction names generalizing v with
  | nil => exact ⟨v, h, by simp, fun _ _ => rfl⟩
  | cons n names ih =>
    have hn : holdsOnAll test names (v.insert n (w.value n)) = true := by
      rw [holdsOnAll, Bool.and_eq_true] at h
      cases w.value n with
      | false => exact h.1
      | true => exact h.2
    obtain ⟨u, hu, hin, hout⟩ := ih hn
    refine ⟨u, hu, fun name hname => ?_, fun name hname => ?_⟩
    · by_cases hmem : name ∈ names
      · exact hin name hmem
      · obtain rfl := (List.mem_cons.1 hname).resolve_right hmem
        rw [hout name hmem, value_insert_self]
    · rw [List.mem_cons, not_or] at hname
      rw [hout name hname.2, value_insert, if_neg (Ne.symm hname.1)]

theorem holdsOnAll_of_forall {test : Valuation → Bool} (h : ∀ v, test v = true)
    (names : List String) (v : Valuation) : holdsOnAll test names v = true := by
  induction names generalizing v with
  | nil => exact h v
  | cons n names ih => rw [holdsOnAll, ih, ih, Bool.and_self]

/-- A test that reads the given names only holds on all rows exactly when it holds under every
valuation. -/
theorem holdsOnAll_iff {test : Valuation → Bool} {names : List String} {v : Valuation}
    (htest : ∀ u w : Valuation, (∀ name ∈ names, u.value name = w.value name) → test u = test w) :
    holdsOnAll test names v = true ↔ ∀ w, test w = true := by
  constructor
  · intro h w
    obtain ⟨u, hu, hagree, -⟩ := exists_row_of_holdsOnAll h w
    rw [← htest u w hagree, hu]
  · intro h
    exact holdsOnAll_of_forall h names v

theorem test_of_findFirst? {test : Valuation → Bool} {names : List String} {v found : Valuation}
    (h : findFirst? test names v = some found) : test found = true := by
  induction names generalizing v with
  | nil =>
    rw [findFirst?] at h
    split at h
    · cases h
      assumption
    · cases h
  | cons n names ih =>
    rw [findFirst?] at h
    split at h
    · next u hu =>
      cases h
      exact ih hu
    · exact ih h

/-! ## One valuation for all rows -/

/-- Visits the rows over one valuation: each name is given false, then true unless that has failed,
and is erased again. Gives the answer and the valuation that is left. -/
def visitRows (test : Valuation → Bool) : List String → Valuation → Bool × Valuation
  | [], v => (test v, v)
  | name :: names, v =>
    match visitRows test names (v.insert name false) with
    | (false, w) => (false, w.erase name)
    | (true, w) =>
      let (answer, u) := visitRows test names (w.insert name true)
      (answer, u.erase name)

theorem insert_insert (v : Valuation) (name : String) (b c : Bool) :
    (v.insert name b).insert name c = v.insert name c := by
  apply Std.ExtTreeMap.ext_getElem?
  intro other
  simp only [Std.ExtTreeMap.getElem?_insert]
  split <;> rfl

/-- Where a new name is given a value, the other new names stay new. -/
theorem forall_not_mem_insert {v : Valuation} {name : String} {names : List String}
    (hother : name ∉ names) (hnew : ∀ n ∈ names, n ∉ v) (b : Bool) :
    ∀ n ∈ names, n ∉ v.insert name b := by
  intro n hn hmem
  rcases Std.ExtTreeMap.mem_insert.1 hmem with heq | hmem
  · exact hother (Std.LawfulEqCmp.eq_of_compare heq ▸ hn)
  · exact hnew n hn hmem

/-- The visit has the answer of the test on all rows, and it takes back every change on the way: a
name was new where it was given a value. -/
theorem visitRows_eq {test : Valuation → Bool} {names : List String} {v : Valuation}
    (hdistinct : names.Nodup) (hnew : ∀ name ∈ names, name ∉ v) :
    visitRows test names v = (holdsOnAll test names v, v) := by
  induction names generalizing v with
  | nil => rfl
  | cons name names ih =>
    obtain ⟨hother, hdistinct⟩ := List.nodup_cons.1 hdistinct
    obtain ⟨hname, hnew⟩ := List.forall_mem_cons.1 hnew
    have hstep : ∀ b, visitRows test names (v.insert name b) =
        (holdsOnAll test names (v.insert name b), v.insert name b) := fun b =>
      ih hdistinct (forall_not_mem_insert hother hnew b)
    rw [visitRows, holdsOnAll, hstep]
    cases hfalse : holdsOnAll test names (v.insert name false) with
    | false => simp [erase_insert_of_not_mem hname]
    | true => simp [insert_insert, hstep, erase_insert_of_not_mem hname]

theorem nodup_toList (names : Std.ExtTreeSet String) : names.toList.Nodup :=
  Std.ExtTreeSet.distinct_toList.imp fun hne heq => hne (Std.LawfulEqCmp.compare_eq_iff_eq.2 heq)

/-- The visit of a set of names that begins with no value leaves none. -/
theorem visitRows_toList (test : Valuation → Bool) (names : Std.ExtTreeSet String) :
    visitRows test names.toList ∅ = (holdsOnAll test names.toList ∅, ∅) :=
  visitRows_eq (nodup_toList names) fun _ _ => Std.ExtTreeMap.not_mem_empty

end Valuation

namespace Formula

theorem eval_congr_vars {f : Formula} {names : List String} (h : ∀ name ∈ f.vars, name ∈ names)
    {u w : Valuation} (hagree : ∀ name ∈ names, u.value name = w.value name) :
    f.eval u = f.eval w :=
  eval_congr fun name hn => hagree name (h name (mem_vars.2 hn))

/-- The variables of two formulas, merged in their order and each kept once. -/
def mergedVars (f g : Formula) : List String :=
  (f.vars.merge g.vars fun a b => (compare a b).isLE).destutter (· ≠ ·)

/-- Merging the variables of two formulas gives those of the union of their sets. -/
theorem mergedVars_eq (f g : Formula) : f.mergedVars g = (f.atoms ∪ g.atoms).toList := by
  have hantisymm : Std.Antisymm fun a b : String => (compare a b).isLE = true :=
    ⟨fun a b hab hba => Std.LawfulEqCmp.eq_of_compare (Std.OrientedCmp.isLE_antisymm hab hba)⟩
  have htotal : ∀ a b : String, ((compare a b).isLE || (compare b a).isLE) = true := by
    intro a b
    have hswap : compare b a = (compare a b).swap := Std.OrientedCmp.eq_swap
    rw [hswap]
    cases compare a b <;> rfl
  have hordered : ∀ names : Std.ExtTreeSet String,
      names.toList.Pairwise fun a b => (compare a b).isLE = true := fun _ =>
    Std.ExtTreeSet.ordered_toList.imp fun h => Ordering.isLE_of_eq_lt h
  have hmerged := List.pairwise_merge (fun _ _ _ => Std.TransCmp.isLE_trans) htotal _ _
    (hordered f.atoms) (hordered g.atoms)
  -- in a list in order equal names are neighbours, so all repeats are dropped
  rw [mergedVars, vars, vars, hmerged.destutter_eq_dedup]
  refine List.Perm.eq_of_pairwise (fun _ _ _ _ => hantisymm.antisymm _ _)
    (hmerged.sublist (List.dedup_sublist _)) (hordered _) ?_
  rw [List.perm_ext_iff_of_nodup (List.nodup_dedup _) (Valuation.nodup_toList _)]
  intro name
  rw [List.mem_dedup, List.mem_merge, Std.ExtTreeSet.mem_toList, Std.ExtTreeSet.mem_toList,
    Std.ExtTreeSet.mem_toList, Std.ExtTreeSet.mem_union_iff]

theorem tautology_iff {f : Formula} : f.tautology = true ↔ ∀ v, f.eval v = true :=
  Valuation.holdsOnAll_iff fun _ _ => eval_congr_vars fun _ h => h

theorem unsatisfiable_iff {f : Formula} : f.unsatisfiable = true ↔ ∀ v, f.eval v = false := by
  rw [unsatisfiable, Valuation.holdsOnAll_iff]
  · simp
  · intro u w hagree
    rw [eval_congr_vars (fun _ h => h) hagree]

theorem satisfiable_iff {f : Formula} : f.satisfiable = true ↔ ∃ v, f.eval v = true := by
  rw [satisfiable, Bool.not_eq_true', ← Bool.not_eq_true, unsatisfiable_iff]
  simp

theorem equivalent_iff {f g : Formula} : f.equivalent g = true ↔ ∀ v, f.eval v = g.eval v := by
  rw [equivalent, Valuation.holdsOnAll_iff]
  · simp
  · intro u w hagree
    have hnames : ∀ name, name ∈ f.vars ∨ name ∈ g.vars → name ∈ (f.atoms ∪ g.atoms).toList := by
      intro name h
      rw [Std.ExtTreeSet.mem_toList, Std.ExtTreeSet.mem_union_iff]
      exact h.imp Std.ExtTreeSet.mem_toList.1 Std.ExtTreeSet.mem_toList.1
    rw [eval_congr_vars (fun name h => hnames name (.inl h)) hagree,
      eval_congr_vars (fun name h => hnames name (.inr h)) hagree]

/-- The search through the rows finds a model exactly when there is one. -/
theorem isSome_findValuation?_iff {f : Formula} :
    (f.findValuation? f.eval).isSome = true ↔ ∃ v, f.eval v = true := by
  rw [findValuation?, Valuation.findFirst?_isSome, ← satisfiable_iff]
  rfl

theorem eval_of_findValuation? {f : Formula} {m : Valuation}
    (h : f.findValuation? f.eval = some m) : f.eval m = true :=
  Valuation.test_of_findFirst? h

end Formula

namespace Rule

variable {r r' : Rule}

theorem equals_iff : r.equals r' = true ↔ r.id = r'.id ∧ r.conclusion = r'.conclusion ∧
    ∀ v, r.condition.eval v = r'.condition.eval v := by
  simp [equals, Formula.equivalent_iff, and_assoc]

theorem equals_equivalence : Equivalence fun r r' : Rule => r.equals r' = true where
  refl r := equals_iff.2 ⟨rfl, rfl, fun _ => rfl⟩
  symm h := by
    obtain ⟨hid, hconclusion, heval⟩ := equals_iff.1 h
    exact equals_iff.2 ⟨hid.symm, hconclusion.symm, fun v => (heval v).symm⟩
  trans h h' := by
    obtain ⟨hid, hconclusion, heval⟩ := equals_iff.1 h
    obtain ⟨hid', hconclusion', heval'⟩ := equals_iff.1 h'
    exact equals_iff.2 ⟨hid.trans hid', hconclusion.trans hconclusion',
      fun v => (heval v).trans (heval' v)⟩

end Rule

/-- Truth tables decide. The queries of a formula say whether it is true under every, under some or
under no valuation, whatever names a valuation assigns, and whether two formulas have the same value
under every one, whichever names each mentions. A visit of the rows over one valuation that is
changed on the way and taken back, with the variables of both formulas merged into one list, has the
same answers. So the equality of rules, with the same id, the same conclusion and equivalent
conditions, is an equivalence. -/
theorem queries_decide :
    (∀ f : Formula, (f.tautology = true ↔ ∀ v, f.eval v = true) ∧
      (f.satisfiable = true ↔ ∃ v, f.eval v = true) ∧
      (f.unsatisfiable = true ↔ ∀ v, f.eval v = false) ∧
      Valuation.visitRows f.eval f.vars ∅ = (f.tautology, ∅) ∧
      Valuation.visitRows (fun v => !f.eval v) f.vars ∅ = (f.unsatisfiable, ∅)) ∧
    (∀ f g : Formula, (f.equivalent g = true ↔ ∀ v, f.eval v = g.eval v) ∧
      Valuation.visitRows (fun v => f.eval v == g.eval v) (f.mergedVars g) ∅ =
        (f.equivalent g, ∅)) ∧
    Equivalence fun r r' : Rule => r.equals r' = true := by
  refine ⟨fun f => ⟨Formula.tautology_iff, Formula.satisfiable_iff, Formula.unsatisfiable_iff,
    Valuation.visitRows_toList _ _, Valuation.visitRows_toList _ _⟩,
    fun f g => ⟨Formula.equivalent_iff, ?_⟩, Rule.equals_equivalence⟩
  rw [Formula.mergedVars_eq]
  exact Valuation.visitRows_toList _ _

end Sentential
