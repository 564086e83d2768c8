import Sentential.Clause.OfFormula
import Sentential.Proofs.Formula.Groups
import Sentential.Proofs.Formula.Shape
import Sentential.Proofs.Traversal

/-!
# Which formulas are read as clauses

The shape of a conjunctive normal form is recognised in one sweep, while clauses are read in two:
first the conjuncts, then the literals of each. Both accept the same formulas, if groups are set
aside: those in which every part of every conjunct is a literal or a constant. A constant that makes
a clause true does not save what stands beside it.

* `Formula.alternatives`: the parts of a disjunction.
* `Formula.exists_disjuncts_iff`: which disjunctions have literals.
* `Formula.isCnf_withoutGroups_iff`: the normal form, conjunct by conjunct.
* `ClauseSet.exists_ofClausal_iff`: which formulas have clauses.
* `ClauseSet.exists_error_of_mem_alternatives`: a single part that is out of place is an error.
-/

namespace Sentential

namespace Formula

/-- The parts of a disjunction, in reading order. -/
def alternatives : Formula → List Formula
  | disj p q => p.alternatives ++ q.alternatives
  | group p => p.alternatives
  | f => [f]

variable {f p : Formula}

/-! ## Groups in literals and normal forms -/

/-- A chain has groups only where its parts have. -/
theorem hasGroup_of_isChainOf {op : Connective} {part : Formula → Bool}
    (hpart : ∀ g, part g = true → g.hasGroup = false) (h : f.isChainOf op part = true) :
    f.hasGroup = false :=
  of_isChainOf hpart (fun p q hp hq => by rw [hasGroup, hp, hq, Bool.or_self]) h

theorem hasGroup_of_isLeaf (h : f.isLeaf = true) : f.hasGroup = false := by
  cases f with
  | bottom | top | atom => rfl
  | neg p =>
    obtain ⟨name, rfl⟩ := isLeaf_neg_iff.1 h
    rfl
  | binary =>
    rw [isLeaf_binary] at h
    cases h
  | group =>
    rw [isLeaf_group] at h
    cases h

theorem hasGroup_of_isCnf (h : f.isCnf = true) : f.hasGroup = false :=
  hasGroup_of_isChainOf (fun _ => hasGroup_of_isChainOf fun _ => hasGroup_of_isLeaf) h

/-! ## Conjuncts and alternatives -/

theorem isChainOf_withoutGroups_iff :
    f.withoutGroups.isChainOf .disj isLeaf = true ↔
      ∀ g ∈ f.alternatives, g.withoutGroups.isLeaf = true := by
  fun_induction alternatives f with
  | case1 p q ihp ihq =>
    rw [withoutGroups, isChainOf_binary_self, Bool.and_eq_true, ihp, ihq, List.forall_mem_append]
  | case2 p ih => exact ih
  | case3 f hdisj hgroup =>
    rw [List.forall_mem_singleton]
    cases f with
    | binary op p q =>
      rw [withoutGroups, isChainOf_binary_of_ne]
      rintro rfl
      exact hdisj p q rfl
    | group p => exact absurd rfl (hgroup p)
    | _ => rfl

/-- The literals of a disjunction can be found when all its parts are literals or constants. -/
theorem exists_disjuncts_iff :
    (∃ r, f.disjuncts = .ok r) ↔ ∀ g ∈ f.alternatives, g.withoutGroups.isLeaf = true := by
  fun_induction alternatives f with
  | case1 p q ihp ihq =>
    rw [List.forall_mem_append, ← ihp, ← ihq, disjuncts]
    cases p.disjuncts with
    | error e => simp [bind, Except.bind]
    | ok left =>
      cases q.disjuncts with
      | error e => simp [bind, Except.bind]
      | ok right => simp [bind, Except.bind, pure, Except.pure]
  | case2 p ih => exact ih
  | case3 f hdisj hgroup =>
    rw [List.forall_mem_singleton]
    cases f with
    | bottom | top | atom => exact ⟨fun _ => rfl, fun _ => ⟨_, rfl⟩⟩
    | neg p =>
      rw [withoutGroups, isLeaf_neg_iff, disjuncts]
      simp only [← ungroup_eq_atom_iff]
      split
      · next name hname => simp [hname]
      · next hne => simpa using hne
    | binary op p q =>
      rw [withoutGroups, isLeaf_binary]
      cases op with
      | disj => exact absurd rfl (hdisj p q)
      | conj | imp | iff => simp [disjuncts]
    | group p => exact absurd rfl (hgroup p)

/-- Without its groups a formula is a conjunctive normal form when each of its conjuncts is a
disjunction of literals and constants. -/
theorem isCnf_withoutGroups_iff :
    f.withoutGroups.isCnf = true ↔
      ∀ g ∈ f.conjuncts, g.withoutGroups.isChainOf .disj isLeaf = true := by
  fun_induction conjuncts f with
  | case1 p q ihp ihq =>
    rw [withoutGroups, isCnf, isChainOf_binary_self, Bool.and_eq_true, List.forall_mem_append,
      ← ihp, ← ihq, isCnf, isCnf]
  | case2 p ih => exact ih
  | case3 => simp [withoutGroups, isCnf, isChainOf, isLeaf]
  | case4 f hconj hgroup htop =>
    rw [List.forall_mem_singleton, isCnf]
    cases f with
    | binary op p q =>
      rw [withoutGroups, isChainOf_binary_of_ne]
      rintro rfl
      exact hconj p q rfl
    | group p => exact absurd rfl (hgroup p)
    | _ => rfl

end Formula

/-! ## Reading clauses -/

namespace ClauseSet

open Formula

variable {f : Formula} {s : ClauseSet}

theorem ofClausal_eq_ok_iff :
    ofClausal f = .ok s ↔ ∃ parts, f.conjuncts.mapM disjuncts = .ok parts ∧
      s = ⟨((parts.filterMap id).map Clause.ofList).eraseDups⟩ := by
  rw [ofClausal]
  cases f.conjuncts.mapM disjuncts with
  | error e => simp [bind, Except.bind]
  | ok parts => simp [bind, Except.bind, pure, Except.pure, eq_comm]

/-- A formula has clauses when the literals of each of its conjuncts can be found. -/
theorem exists_ofClausal_iff_conjuncts :
    (∃ s, ofClausal f = .ok s) ↔ ∀ g ∈ f.conjuncts, ∃ r, g.disjuncts = .ok r := by
  constructor
  · rintro ⟨s, hs⟩ g hg
    obtain ⟨parts, hparts, -⟩ := ofClausal_eq_ok_iff.1 hs
    obtain ⟨r, -, hr⟩ := mem_left_of_mapM hparts hg
    exact ⟨r, hr⟩
  · intro h
    obtain ⟨parts, hparts⟩ := exists_mapM_eq_ok h
    exact ⟨_, ofClausal_eq_ok_iff.2 ⟨parts, hparts, rfl⟩⟩

/-- A formula has clauses when it is a conjunctive normal form, groups aside. -/
theorem exists_ofClausal_iff : (∃ s, ofClausal f = .ok s) ↔ f.withoutGroups.isCnf = true := by
  simp only [exists_ofClausal_iff_conjuncts, isCnf_withoutGroups_iff, isChainOf_withoutGroups_iff,
    exists_disjuncts_iff]

/-- Every conjunctive normal form has clauses. -/
theorem exists_ofClausal_eq_ok (h : f.isCnf = true) : ∃ s, ofClausal f = .ok s := by
  rw [exists_ofClausal_iff, withoutGroups_of_hasGroup (hasGroup_of_isCnf h)]
  exact h

theorem exists_error_iff : (∃ e, ofClausal f = .error e) ↔ f.withoutGroups.isCnf = false := by
  rw [← Bool.not_eq_true, ← exists_ofClausal_iff]
  cases ofClausal f <;> simp

/-- One part that is neither a literal nor a constant is an error, whatever stands beside it. -/
theorem exists_error_of_mem_alternatives {g h : Formula} (hg : g ∈ f.conjuncts)
    (hh : h ∈ g.alternatives) (hleaf : h.withoutGroups.isLeaf = false) :
    ∃ e, ofClausal f = .error e := by
  rw [exists_error_iff, ← Bool.not_eq_true, isCnf_withoutGroups_iff]
  intro hall
  rw [isChainOf_withoutGroups_iff.1 (hall g hg) h hh] at hleaf
  cases hleaf

end ClauseSet

end Sentential
