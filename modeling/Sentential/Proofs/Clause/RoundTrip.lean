import Sentential.Proofs.Clause.Exactness

/-!
# Clauses written as a formula and read back

The formula of a clause set is a chain of chains of literals, built from the left, and reading it
takes the chains apart again. A set without clauses is written as `top`, which has no conjuncts, and
an empty clause as `bottom`, which has no literals. A clause keeps both signs of a name, for it is
true only where one of its literals is. So nothing is lost but the repeats of a clause.

* `Formula.conjuncts_conjunction`, `Formula.disjuncts_disjunction`: what is joined is taken apart.
* `Formula.isChainOf_foldl`: what is joined from the left is a chain of its parts.
* `Clause.disjuncts_toFormula`, `Clause.ofList_toList`: a clause is read back from its formula.
* `ClauseSet.isCnf_toFormula`: clauses are written as a conjunctive normal form.
* `ClauseSet.ofClausal_toFormula`: the clauses that are read back.
* `ClauseSet.toFormula_exact`: they are the clauses in the order in which they first occur.
-/

namespace Sentential

/-! ## Chains that are built from the left -/

namespace Formula

theorem conjuncts_conjunction (fs : List Formula) :
    (conjunction fs).conjuncts = fs.flatMap conjuncts := by
  have hfold : ∀ (fs : List Formula) (f : Formula),
      (fs.foldl conj f).conjuncts = f.conjuncts ++ fs.flatMap conjuncts := by
    intro fs
    induction fs with
    | nil => simp
    | cons g fs ih =>
      intro f
      rw [List.foldl_cons, ih, conjuncts, List.append_assoc, List.flatMap_cons]
  cases fs with
  | nil => rfl
  | cons f fs => exact hfold fs f

theorem disjuncts_disj {p q : Formula} {ls ms : List Literal} (hp : p.disjuncts = .ok (some ls))
    (hq : q.disjuncts = .ok (some ms)) : (disj p q).disjuncts = .ok (some (ls ++ ms)) := by
  rw [disjuncts, hp, hq]
  rfl

theorem disjuncts_literal (l : Literal) : l.toFormula.disjuncts = .ok (some [l]) := by
  obtain ⟨name, negated⟩ := l
  cases negated <;> rfl

/-- A disjunction of literals has these literals, in their order. -/
theorem disjuncts_disjunction (ls : List Literal) :
    (disjunction (ls.map Literal.toFormula)).disjuncts = .ok (some ls) := by
  have hfold : ∀ (ls ms : List Literal) (f : Formula), f.disjuncts = .ok (some ms) →
      ((ls.map Literal.toFormula).foldl disj f).disjuncts = .ok (some (ms ++ ls)) := by
    intro ls
    induction ls with
    | nil => simp
    | cons l ls ih =>
      intro ms f hf
      rw [List.map_cons, List.foldl_cons, ih _ _ (disjuncts_disj hf (disjuncts_literal l)),
        List.append_assoc]
      rfl
  cases ls with
  | nil => rfl
  | cons l ls => exact hfold ls [l] _ (disjuncts_literal l)

theorem isChainOf_foldl {op : Connective} {part : Formula → Bool} (fs : List Formula)
    (f : Formula) : (fs.foldl (binary op) f).isChainOf op part =
      (f.isChainOf op part && fs.all (isChainOf op part)) := by
  induction fs generalizing f with
  | nil => simp
  | cons g fs ih => rw [List.foldl_cons, ih, isChainOf_binary_self, List.all_cons, Bool.and_assoc]

/-- A disjunction of leaves that is not true outright is one conjunct. -/
theorem conjuncts_of_isChainOf {f : Formula} (h : f.isChainOf .disj isLeaf = true) (htop : f ≠ top) :
    f.conjuncts = [f] := by
  cases f with
  | bottom | atom | neg => rfl
  | top => exact absurd rfl htop
  | binary op p q =>
    obtain rfl := eq_of_isChainOf_isLeaf h
    rfl
  | group p => cases (isLeaf_group p).symm.trans h

end Formula

open Formula

/-! ## One clause -/

namespace Clause

theorem ofList_toList (c : Clause) : ofList c.toList = c := by
  have hliterals : (ofList c.toList).literals = c.literals :=
    Std.ExtTreeSet.ext_mem fun l => mem_ofList.trans mem_toList
  cases c
  exact congrArg Clause.mk hliterals

/-- The literals of a clause are read back from its formula. -/
theorem disjuncts_toFormula (c : Clause) : c.toFormula.disjuncts = .ok (some c.toList) :=
  disjuncts_disjunction c.toList

theorem isChainOf_toFormula (c : Clause) : c.toFormula.isChainOf .disj isLeaf = true := by
  have hliteral : ∀ l : Literal, l.toFormula.isChainOf .disj isLeaf = true := by
    rintro ⟨name, negated⟩
    cases negated <;> rfl
  rw [toFormula]
  cases c.toList with
  | nil => rfl
  | cons l ls =>
    rw [List.map_cons, disjunction, isChainOf_foldl, hliteral, Bool.true_and, List.all_map]
    exact List.all_eq_true.2 fun l _ => hliteral l

theorem conjuncts_toFormula (c : Clause) : c.toFormula.conjuncts = [c.toFormula] := by
  refine conjuncts_of_isChainOf c.isChainOf_toFormula fun htop => ?_
  -- `top` is no clause: its disjuncts are none at all
  have hread := c.disjuncts_toFormula
  rw [htop] at hread
  cases hread

end Clause

/-! ## All clauses -/

namespace ClauseSet

theorem conjuncts_toFormula (s : ClauseSet) :
    s.toFormula.conjuncts = s.clauses.map Clause.toFormula := by
  rw [toFormula, conjuncts_conjunction, List.flatMap_map]
  simp only [Clause.conjuncts_toFormula, List.map_eq_flatMap]

/-- The formula of clauses is read as the clauses, without repeats. -/
theorem ofClausal_toFormula (s : ClauseSet) :
    ofClausal s.toFormula = .ok ⟨s.clauses.eraseDups⟩ := by
  rw [ofClausal_eq_ok_iff, conjuncts_toFormula]
  refine ⟨s.clauses.map fun c => some c.toList, ?_, ?_⟩
  · rw [mapM_eq_ok_iff, List.forall₂_map_left_iff, List.forall₂_map_right_iff, List.forall₂_same]
    exact fun c _ => c.disjuncts_toFormula
  · simp [List.filterMap_map, Function.comp_def, Clause.ofList_toList]

/-- Clauses are written as a conjunctive normal form. -/
theorem isCnf_toFormula (s : ClauseSet) : s.toFormula.isCnf = true := by
  have hclause : ∀ c : Clause, c.toFormula.isCnf = true :=
    fun c => isLayered_of_isChainOf (by decide) c.isChainOf_toFormula
  rw [toFormula]
  cases s.clauses with
  | nil => rfl
  | cons c cs =>
    rw [List.map_cons, conjunction, isCnf, isChainOf_foldl, List.all_map]
    exact Bool.and_eq_true_iff.2 ⟨hclause c, List.all_eq_true.2 fun c _ => hclause c⟩

/-- Clauses survive the way through a formula, whatever their names are. The formula is read as the
same clauses, each once and in the order in which they first occur; it is a conjunctive normal form;
and where all names of the clauses are assigned, it has their value. -/
theorem toFormula_exact (s : ClauseSet) :
    (∃ t, ofClausal s.toFormula = .ok t ∧ (∀ c, c ∈ t.clauses ↔ c ∈ s.clauses) ∧
      t.clauses.Pairwise fun c d => s.clauses.idxOf c < s.clauses.idxOf d) ∧
    s.toFormula.isCnf = true ∧
    ∀ v : Valuation, (∀ name ∈ s.vars, name ∈ v) → s.toFormula.eval v = s.eval v :=
  ⟨⟨_, s.ofClausal_toFormula, fun _ => List.mem_eraseDups, pairwise_idxOf_eraseDups s.clauses⟩,
    s.isCnf_toFormula, fun _ hv => (eval_eq_of_total hv).symm⟩

end ClauseSet

end Sentential
