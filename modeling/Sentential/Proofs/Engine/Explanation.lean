import Sentential.Derivation

/-!
# What explanations say

An explanation is read from its root down and from left to right. A node stands for a formula and
carries its value, or it stands for a rule and carries whether the rule holds. What is below a node
follows from the rules, the facts and the atoms that were met before it, so a goal has one
explanation.

* `Explanation.nodes`: the nodes of a tree.
* `Engine.RestsOn`, `Engine.IsGround`: the rule on which an atom rests, and why it rests on none.
* `Engine.Explains`: the trees that explain a formula, and the atoms that are met in them.
* `Engine.ruleFor_eq_ok_iff`, `Engine.ruleFor_eq_error_iff`: what the search for a rule comes to.
* `Engine.explains_deriveFrom`: a derivation explains its formula.
* `Engine.Explains.unique`: no other tree does.
* `Engine.query_explains`: the answer to a goal is its value and its explanation.
-/

namespace Sentential

/-- Of the items that pass the test, `x` is the first. -/
def IsFirst {α : Type} (test : α → Bool) (xs : List α) (x : α) : Prop :=
  test x = true ∧ ∃ earlier later, xs = earlier ++ x :: later ∧ ∀ y ∈ earlier, test y = false

theorem find?_eq_some_iff_isFirst {α : Type} {test : α → Bool} {xs : List α} {x : α} :
    xs.find? test = some x ↔ IsFirst test xs x := by
  simp [IsFirst, List.find?_eq_some_iff_append]

namespace Explanation

mutual

/-- The nodes of a tree, each before those below it. -/
def nodes : Explanation → List Explanation
  | ⟨label, value, why, children⟩ => ⟨label, value, why, children⟩ :: nodesOf children

/-- The nodes of several trees, one tree after the other. -/
def nodesOf : List Explanation → List Explanation
  | [] => []
  | t :: ts => nodes t ++ nodesOf ts

end

@[simp] theorem nodesOf_singleton (t : Explanation) : nodesOf [t] = t.nodes := by
  rw [nodesOf, nodesOf, List.append_nil]

end Explanation

namespace Engine

variable {e : Engine} {name : String} {r : Rule}

/-! ## The rule on which an atom rests -/

/-- No rule that concludes `name` holds. -/
def NoneHolds (e : Engine) (name : String) : Prop :=
  ∀ r ∈ e.rules, r.conclusion = name → r.holds e.facts = false

instance (e : Engine) (name : String) : Decidable (e.NoneHolds name) :=
  inferInstanceAs (Decidable (∀ r ∈ e.rules, r.conclusion = name → r.holds e.facts = false))

/-- The rule `r` is the first declared of those that conclude `name` and hold, or, if none of them
holds and `name` is false, the first of those that conclude it. -/
inductive RestsOn (e : Engine) (name : String) (r : Rule) : Prop
  | holding (h : IsFirst (fun r => r.conclusion = name && r.holds e.facts) e.rules r)
  | failing (hfalse : e.facts.get name = false) (hnone : e.NoneHolds name)
    (h : IsFirst (fun r => r.conclusion = name) e.rules r)

/-- Why the atom `name` rests on no rule where the atoms `before` were met before it. -/
inductive IsGround (e : Engine) (before : List String) (name : String) : Ground → Prop
  /-- The atom was met before. -/
  | repeated (h : name ∈ before) : IsGround e before name .repeated
  /-- The atom is true and no rule that concludes it holds. -/
  | asserted (hnew : name ∉ before) (htrue : e.facts.get name = true) (hnone : e.NoneHolds name) :
    IsGround e before name .asserted
  /-- The atom is false and no rule concludes it. -/
  | unsupported (hnew : name ∉ before) (hfalse : e.facts.get name = false)
    (hnone : ∀ r ∈ e.rules, r.conclusion ≠ name) : IsGround e before name .unsupported

theorem noneHolds_iff : e.NoneHolds name ↔
    e.rules.find? (fun r => r.conclusion = name && r.holds e.facts) = none := by
  simp [NoneHolds]

theorem ruleFor_of_isFirst
    (h : IsFirst (fun r => r.conclusion = name && r.holds e.facts) e.rules r) :
    e.ruleFor name = .ok r := by
  rw [← find?_eq_some_iff_isFirst] at h
  simp only [ruleFor, List.find?_filter, Bool.decide_and, Bool.decide_eq_true, h]

theorem ruleFor_of_noneHolds (h : e.NoneHolds name) : e.ruleFor name =
    if e.facts.get name then .error .asserted
    else (e.rules.find? (fun r => r.conclusion = name)).elim (.error .unsupported) .ok := by
  rw [noneHolds_iff] at h
  simp only [ruleFor, List.find?_filter, List.head?_filter, Bool.decide_and, Bool.decide_eq_true, h]
  cases e.rules.find? (fun r => r.conclusion = name) <;> rfl

theorem RestsOn.ruleFor_eq (h : e.RestsOn name r) : e.ruleFor name = .ok r := by
  cases h with
  | holding h => exact ruleFor_of_isFirst h
  | failing hfalse hnone h =>
    rw [ruleFor_of_noneHolds hnone, hfalse, find?_eq_some_iff_isFirst.2 h]
    rfl

theorem IsGround.ruleFor_eq {before : List String} {ground : Ground}
    (h : e.IsGround before name ground) (hnew : name ∉ before) :
    e.ruleFor name = .error ground := by
  cases h with
  | repeated h => exact absurd h hnew
  | asserted _ htrue hnone =>
    rw [ruleFor_of_noneHolds hnone, htrue]
    rfl
  | unsupported _ hfalse hnone =>
    have hfirst : e.rules.find? (fun r => r.conclusion = name) = none := by simpa using hnone
    rw [ruleFor_of_noneHolds fun r hr h => absurd h (hnone r hr), hfalse, hfirst]
    rfl

theorem IsGround.eq_repeated {before : List String} {ground : Ground}
    (h : e.IsGround before name ground) (hmem : name ∈ before) : ground = .repeated := by
  cases h with
  | repeated => rfl
  | asserted hnew | unsupported hnew => exact absurd hmem hnew

/-- There is at most one ground for an atom. -/
theorem IsGround.unique {before : List String} {ground ground' : Ground}
    (h : e.IsGround before name ground) (h' : e.IsGround before name ground') :
    ground = ground' := by
  by_cases hmem : name ∈ before
  · rw [h.eq_repeated hmem, h'.eq_repeated hmem]
  · exact Except.error.inj ((h.ruleFor_eq hmem).symm.trans (h'.ruleFor_eq hmem))

/-- An atom that is met for the first time rests on a rule, or there is a ground for it. -/
theorem restsOn_or_isGround (e : Engine) {before : List String} (hnew : name ∉ before) :
    (∃ r, e.RestsOn name r) ∨ ∃ ground, e.IsGround before name ground := by
  cases hholding : e.rules.find? (fun r => r.conclusion = name && r.holds e.facts) with
  | some r => exact .inl ⟨r, .holding (find?_eq_some_iff_isFirst.1 hholding)⟩
  | none =>
    have hnone := noneHolds_iff.2 hholding
    cases hget : e.facts.get name with
    | true => exact .inr ⟨_, .asserted hnew hget hnone⟩
    | false =>
      cases hfirst : e.rules.find? (fun r => r.conclusion = name) with
      | some r => exact .inl ⟨r, .failing hget hnone (find?_eq_some_iff_isFirst.1 hfirst)⟩
      | none => exact .inr ⟨_, .unsupported hnew hget (by simpa using hfirst)⟩

theorem ruleFor_eq_ok_iff : e.ruleFor name = .ok r ↔ e.RestsOn name r := by
  refine ⟨fun h => ?_, RestsOn.ruleFor_eq⟩
  rcases e.restsOn_or_isGround (List.not_mem_nil (a := name)) with ⟨r', h'⟩ | ⟨ground, h'⟩
  · cases h.symm.trans h'.ruleFor_eq
    exact h'
  · cases h.symm.trans (h'.ruleFor_eq List.not_mem_nil)

theorem ruleFor_eq_error_iff {before : List String} {ground : Ground} (hnew : name ∉ before) :
    e.ruleFor name = .error ground ↔ e.IsGround before name ground := by
  refine ⟨fun h => ?_, fun h => h.ruleFor_eq hnew⟩
  rcases e.restsOn_or_isGround hnew with ⟨r, h'⟩ | ⟨ground', h'⟩
  · cases h.symm.trans h'.ruleFor_eq
  · cases h.symm.trans (h'.ruleFor_eq hnew)
    exact h'

/-! ## Explanations of formulas -/

/-- The node that stands for a formula. -/
def formulaNode (e : Engine) (f : Formula) (why : Option String) (children : List Explanation) :
    Explanation :=
  ⟨f.text, f.eval e.facts.valuation, why, children⟩

/-- The node that stands for a rule, above the explanation of its antecedent. -/
def ruleNode (e : Engine) (r : Rule) (premise : Explanation) : Explanation :=
  ⟨r.id, r.holds e.facts, some (r.antecedent.text ++ " => " ++ r.conclusion), [premise]⟩

@[simp] theorem nodes_formulaNode (f : Formula) (why : Option String)
    (children : List Explanation) : (e.formulaNode f why children).nodes =
      e.formulaNode f why children :: Explanation.nodesOf children := by
  rw [formulaNode, Explanation.nodes]

@[simp] theorem nodes_ruleNode (r : Rule) (premise : Explanation) :
    (e.ruleNode r premise).nodes = e.ruleNode r premise :: premise.nodes := by
  rw [ruleNode, Explanation.nodes, Explanation.nodesOf_singleton]

/-- Where the atoms `before` were met, the tree explains the formula, and the atoms `met` are met in
it, in this order. -/
inductive Explains (e : Engine) : (before : List String) → Formula → Explanation →
    (met : List String) → Prop
  | bottom {before : List String} : Explains e before .bottom (e.formulaNode .bottom none []) []
  | top {before : List String} : Explains e before .top (e.formulaNode .top none []) []
  /-- What explains a formula explains it inside a group. -/
  | group {before met : List String} {p : Formula} {t : Explanation}
    (h : Explains e before p t met) : Explains e before (.group p) t met
  | neg {before met : List String} {p : Formula} {t : Explanation}
    (h : Explains e before p t met) :
    Explains e before (.neg p) (e.formulaNode (.neg p) none [t]) met
  /-- The atoms of the left operand are met before those of the right one. -/
  | binary {before met met' : List String} {op : Connective} {p q : Formula} {t t' : Explanation}
    (hp : Explains e before p t met) (hq : Explains e (before ++ met) q t' met') :
    Explains e before (.binary op p q) (e.formulaNode (.binary op p q) none [t, t']) (met ++ met')
  /-- An atom that rests on no rule is a leaf. -/
  | leaf {before : List String} {name : String} {ground : Ground}
    (h : e.IsGround before name ground) :
    Explains e before (.atom name) (e.formulaNode (.atom name) (some ground.reason) []) [name]
  /-- An atom that is met for the first time and rests on a rule is above it. -/
  | concluded {before met : List String} {name : String} {r : Rule} {t : Explanation}
    (hnew : name ∉ before) (hr : e.RestsOn name r)
    (h : Explains e (before ++ [name]) r.antecedent t met) :
    Explains e before (.atom name) (e.formulaNode (.atom name) none [e.ruleNode r t]) (name :: met)

variable {before met met' : List String} {f : Formula} {t t' : Explanation}

/-- The root carries the value of the formula. -/
theorem Explains.value_eq (h : e.Explains before f t met) :
    t.value = f.eval e.facts.valuation := by
  induction h with
  | group _ ih => exact ih
  | _ => rfl

/-- The rules, the facts and the atoms met before determine the explanation of a formula. -/
theorem Explains.unique (h : e.Explains before f t met) (h' : e.Explains before f t' met') :
    t = t' ∧ met = met' := by
  induction h generalizing t' met' with
  | bottom | top =>
    cases h'
    exact ⟨rfl, rfl⟩
  | group _ ih =>
    cases h' with
    | group h' => exact ih h'
  | neg _ ih =>
    cases h' with
    | neg h' =>
      obtain ⟨rfl, rfl⟩ := ih h'
      exact ⟨rfl, rfl⟩
  | binary _ _ ihp ihq =>
    cases h' with
    | binary hp' hq' =>
      obtain ⟨rfl, rfl⟩ := ihp hp'
      obtain ⟨rfl, rfl⟩ := ihq hq'
      exact ⟨rfl, rfl⟩
  | @leaf before name ground h =>
    cases h' with
    | leaf h'' => exact ⟨by rw [h.unique h''], rfl⟩
    | concluded hnew hr _ => cases (h.ruleFor_eq hnew).symm.trans hr.ruleFor_eq
  | @concluded before met name r t hnew hr _ ih =>
    cases h' with
    | leaf h'' => cases (h''.ruleFor_eq hnew).symm.trans hr.ruleFor_eq
    | concluded _ hr' h' =>
      obtain rfl : r = _ := Except.ok.inj (hr.ruleFor_eq.symm.trans hr'.ruleFor_eq)
      obtain ⟨rfl, rfl⟩ := ih h'
      exact ⟨rfl, rfl⟩

/-! ## Derivations explain -/

theorem deriveFrom_of_error {seen : Seen} {ground : Ground} (hnew : name ∉ seen)
    (hrule : e.ruleFor name = .error ground) : (e.deriveFrom seen (.atom name)).1 =
      (.leaf name (e.facts.get name) ground, seen.insert name) := by
  rw [deriveFrom, dif_neg hnew]
  simp only
  split
  · next h =>
    cases hrule.symm.trans h
    rfl
  · next h => cases hrule.symm.trans h

theorem deriveFrom_of_ok {seen : Seen} (hnew : name ∉ seen) (hrule : e.ruleFor name = .ok r) :
    (e.deriveFrom seen (.atom name)).1 =
      (.concluded name (e.facts.get name) r (r.holds e.facts)
        (e.deriveFrom (seen.insert name) r.antecedent).1.1,
        (e.deriveFrom (seen.insert name) r.antecedent).1.2) := by
  rw [deriveFrom, dif_neg hnew]
  simp only
  split
  · next h => cases hrule.symm.trans h
  · next h =>
    cases hrule.symm.trans h
    rfl

theorem mem_insert_iff_mem_append {seen : Seen} {before : List String}
    (hseen : ∀ name, name ∈ seen ↔ name ∈ before) (other : String) :
    other ∈ seen.insert name ↔ other ∈ before ++ [name] := by
  rw [Std.ExtTreeSet.mem_insert, Std.LawfulEqOrd.compare_eq_iff_eq, hseen, List.mem_append,
    List.mem_singleton, eq_comm, or_comm]

/-- A derivation explains its formula, and the atoms explained after it are those met. -/
theorem explains_deriveFrom (seen : Seen) (f : Formula) {before : List String}
    (hseen : ∀ name, name ∈ seen ↔ name ∈ before) :
    ∃ met, e.Explains before f (e.deriveFrom seen f).1.1.explanation met ∧
      ∀ name, name ∈ (e.deriveFrom seen f).1.2 ↔ name ∈ before ++ met := by
  induction seen, f using deriveFrom.induct e generalizing before with
  | case1 seen =>
    rw [deriveFrom]
    exact ⟨[], .bottom, by simpa using hseen⟩
  | case2 seen =>
    rw [deriveFrom]
    exact ⟨[], .top, by simpa using hseen⟩
  | case3 seen p ih =>
    rw [deriveFrom]
    obtain ⟨met, h, hmet⟩ := ih hseen
    exact ⟨met, .group h, hmet⟩
  | case4 seen p ih =>
    rw [deriveFrom]
    obtain ⟨met, h, hmet⟩ := ih hseen
    exact ⟨met, .neg h, hmet⟩
  | case5 seen op p q left hle ihp ihq =>
    rw [deriveFrom]
    obtain ⟨met, hp, hmet⟩ := ihp hseen
    obtain ⟨met', hq, hmet'⟩ := ihq hmet
    exact ⟨met ++ met', .binary hp hq, by simpa using hmet'⟩
  | case6 seen name hmem =>
    rw [deriveFrom, dif_pos hmem]
    refine ⟨[name], .leaf (.repeated ((hseen name).1 hmem)), fun other => ?_⟩
    rw [List.mem_append, ← hseen, List.mem_singleton]
    exact ⟨.inl, fun h => h.elim id (· ▸ hmem)⟩
  | case7 seen name hnew _ ground hrule =>
    rw [deriveFrom_of_error hnew hrule]
    have hground := (ruleFor_eq_error_iff (mt (hseen name).2 hnew)).1 hrule
    exact ⟨[name], .leaf hground, mem_insert_iff_mem_append hseen⟩
  | case8 seen name hnew _ r hrule _ ih =>
    rw [deriveFrom_of_ok hnew hrule]
    obtain ⟨met, h, hmet⟩ := ih (mem_insert_iff_mem_append hseen)
    have hr := ruleFor_eq_ok_iff.1 hrule
    exact ⟨name :: met, .concluded (mt (hseen name).2 hnew) hr h, by simpa using hmet⟩

theorem explains_query (e : Engine) (goal : Formula) :
    ∃ met, e.Explains [] goal (e.query goal) met :=
  (explains_deriveFrom ∅ goal fun _ => by simp).imp fun _ h => h.1

/-- Whatever the rules and the facts are, the answer to a goal is its value, and the tree is the one
that explains the goal. In it the node of a formula carries the value of that formula, above one
node for each operand. An atom rests on the first declared rule that concludes it and holds, or, if
it is false and none of them holds, on the first that concludes it. The node of the rule stands
alone below the atom. It carries whether the rule holds, above the explanation of the antecedent.
An atom rests on no rule only where it was met before, where it is true and no rule that concludes
it holds, or where no rule concludes it. -/
theorem query_explains (e : Engine) (goal : Formula) :
    (e.query goal).value = goal.eval e.facts.valuation ∧
      ∀ t, (∃ met, e.Explains [] goal t met) ↔ t = e.query goal := by
  obtain ⟨met, h⟩ := e.explains_query goal
  refine ⟨h.value_eq, fun t => ⟨fun ⟨_, h'⟩ => (h'.unique h).1, ?_⟩⟩
  rintro rfl
  exact ⟨met, h⟩

end Engine
end Sentential
