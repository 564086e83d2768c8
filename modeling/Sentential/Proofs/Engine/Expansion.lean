import Mathlib.Algebra.Order.BigOperators.Group.List
import Mathlib.Algebra.Order.Ring.Nat
import Mathlib.Data.List.Nodup
import Sentential.Proofs.Engine.Explanation
import Sentential.Proofs.Formula.Passes

/-!
# How large explanations are

An explanation opens an atom where it is met for the first time and not again, also when the rules
refer to each other in circles. So no rule has two nodes in it, and its nodes can be counted: those
of the goal, and for every rule with a node that node and those of its antecedent.

* `Explanation.atomNodes`, `Explanation.ruleNodes`: the nodes of atoms and of rules, from the shape
  of the tree.
* `Engine.AtomNodes`, `Engine.Explains.atomNodes`: what the node of an atom depends on is whether
  the atom was met before.
* `Engine.Opens`, `Engine.Explains.opens`: the rules with a node, and the number of nodes.
* `Engine.explainWithin`, `Engine.Explains.explainWithin_eq`: as many nested calls as there are
  nodes are enough to explain a formula.
* `Engine.query_opens_once`: all of this of the answer to a goal.
-/

namespace Sentential

/-! ## Kinds of nodes -/

namespace Explanation

/-- The node of a rule has a reason and something below it. -/
def isRule (t : Explanation) : Bool :=
  t.why.isSome && !t.children.isEmpty

/-- The node of an atom is a leaf with a reason, or it stands above the node of a rule. -/
def isAtom (t : Explanation) : Bool :=
  t.why.isSome && t.children.isEmpty || t.children.any isRule

/-- The nodes of atoms, each before those below it. -/
def atomNodes (t : Explanation) : List Explanation :=
  t.nodes.filter isAtom

/-- The nodes of rules, each before those below it. -/
def ruleNodes (t : Explanation) : List Explanation :=
  t.nodes.filter isRule

theorem nodesOf_eq_flatMap (ts : List Explanation) : nodesOf ts = ts.flatMap nodes := by
  induction ts with
  | nil => rw [nodesOf, List.flatMap_nil]
  | cons t ts ih => rw [nodesOf, ih, List.flatMap_cons]

end Explanation

namespace Engine

open Explanation (nodesOf_eq_flatMap)

variable {e : Engine} {before met : List String} {f : Formula} {name : String} {r : Rule}
  {t node : Explanation} {children : List Explanation}

theorem isRule_formulaNode (f : Formula) (children : List Explanation) :
    (e.formulaNode f none children).isRule = false := rfl

/-- An explanation of a formula starts with no rule. -/
theorem Explains.isRule_eq_false (h : e.Explains before f t met) : t.isRule = false := by
  induction h with
  | group _ ih => exact ih
  | _ => rfl

/-- The node of a formula that is no atom is neither a rule nor an atom itself. -/
theorem atomNodes_formulaNode (f : Formula) (h : ∀ t ∈ children, t.isRule = false) :
    (e.formulaNode f none children).atomNodes = children.flatMap Explanation.atomNodes := by
  have hnode : (e.formulaNode f none children).isAtom = false := by
    simpa [Explanation.isAtom, formulaNode] using h
  rw [Explanation.atomNodes, nodes_formulaNode, List.filter_cons_of_neg (by simp [hnode]),
    nodesOf_eq_flatMap, List.filter_flatMap]
  rfl

theorem ruleNodes_formulaNode (f : Formula) (children : List Explanation) :
    (e.formulaNode f none children).ruleNodes = children.flatMap Explanation.ruleNodes := by
  rw [Explanation.ruleNodes, nodes_formulaNode,
    List.filter_cons_of_neg (by simp [isRule_formulaNode]), nodesOf_eq_flatMap,
    List.filter_flatMap]
  rfl

theorem atomNodes_concluded (f : Formula) (r : Rule) (ht : t.isRule = false) :
    (e.formulaNode f none [e.ruleNode r t]).atomNodes =
      e.formulaNode f none [e.ruleNode r t] :: t.atomNodes := by
  have hrule : (e.ruleNode r t).isAtom = false := by
    simpa [Explanation.isAtom, ruleNode] using ht
  rw [Explanation.atomNodes, nodes_formulaNode, List.filter_cons_of_pos rfl,
    Explanation.nodesOf_singleton, nodes_ruleNode, List.filter_cons_of_neg (by simp [hrule])]
  rfl

theorem ruleNodes_ruleNode (r : Rule) (t : Explanation) :
    (e.ruleNode r t).ruleNodes = e.ruleNode r t :: t.ruleNodes := by
  rw [Explanation.ruleNodes, nodes_ruleNode, List.filter_cons_of_pos rfl]
  rfl

/-! ## Nodes of atoms -/

/-- The node of the atom `name` where the atoms `before` were met before it. Only an atom that was
not met before is above a rule. -/
inductive AtomNode (e : Engine) (before : List String) (name : String) : Explanation → Prop
  | leaf {ground : Ground} (h : e.IsGround before name ground) :
    AtomNode e before name (e.formulaNode (.atom name) (some ground.reason) [])
  | concluded {r : Rule} {premise : Explanation} (hnew : name ∉ before) (hr : e.RestsOn name r) :
    AtomNode e before name (e.formulaNode (.atom name) none [e.ruleNode r premise])

/-- The nodes of atoms in their order, where the atoms `before` were met before the first. -/
inductive AtomNodes (e : Engine) : (before : List String) → List Explanation → Prop
  | nil {before : List String} : AtomNodes e before []
  | cons {before : List String} {node : Explanation} {nodes : List Explanation}
    (hnode : AtomNode e before node.label node) (h : AtomNodes e (before ++ [node.label]) nodes) :
    AtomNodes e before (node :: nodes)

theorem AtomNodes.append {nodes nodes' : List Explanation} (h : e.AtomNodes before nodes)
    (h' : e.AtomNodes (before ++ nodes.map Explanation.label) nodes') :
    e.AtomNodes before (nodes ++ nodes') := by
  induction h with
  | nil => simpa using h'
  | cons hnode _ ih => exact .cons hnode (ih (by simpa using h'))

/-- What the node of an atom is depends on the nodes of atoms before it. -/
theorem AtomNodes.of_append {earlier later : List Explanation}
    (h : e.AtomNodes before (earlier ++ node :: later)) :
    e.AtomNode (before ++ earlier.map Explanation.label) node.label node := by
  induction earlier generalizing before with
  | nil =>
    cases h with
    | cons hnode => simpa using hnode
  | cons x earlier ih =>
    cases h with
    | cons _ h => simpa using ih h

theorem AtomNode.value_eq (h : e.AtomNode before name node) : node.value = e.facts.get name := by
  cases h <;> rfl

theorem AtomNodes.value_eq {nodes : List Explanation} (h : e.AtomNodes before nodes) :
    ∀ node ∈ nodes, node.value = e.facts.get node.label := by
  intro node hmem
  obtain ⟨earlier, later, rfl⟩ := List.append_of_mem hmem
  exact h.of_append.value_eq

/-- An atom that was met before is a leaf that refers to what is above. -/
theorem AtomNode.of_mem (h : e.AtomNode before name node) (hmem : name ∈ before) :
    node = .leaf name (e.facts.get name) "explained above" := by
  cases h with
  | leaf h =>
    rw [h.eq_repeated hmem]
    rfl
  | concluded hnew => exact absurd hmem hnew

/-- An atom that was not met before is above a rule, or it is a leaf that says whether it was
asserted. -/
theorem AtomNode.of_not_mem (h : e.AtomNode before name node) (hnew : name ∉ before) :
    (∃ r premise, e.RestsOn name r ∧
      node = ⟨name, e.facts.get name, none, [e.ruleNode r premise]⟩) ∨
    node = .leaf name (e.facts.get name) "asserted" ∨
    node = .leaf name (e.facts.get name) "not asserted" := by
  cases h with
  | leaf h =>
    cases h with
    | repeated hmem => exact absurd hmem hnew
    | asserted => exact .inr (.inl rfl)
    | unsupported => exact .inr (.inr rfl)
  | concluded _ hr => exact .inl ⟨_, _, hr, rfl⟩

/-- The nodes of atoms are those of the atoms that are met, in this order, and none of them opens an
atom that was met before. -/
theorem Explains.atomNodes (h : e.Explains before f t met) :
    t.atomNodes.map Explanation.label = met ∧ e.AtomNodes before t.atomNodes := by
  induction h with
  | bottom | top => exact ⟨rfl, .nil⟩
  | group _ ih => exact ih
  | neg h ih =>
    rw [atomNodes_formulaNode _ (by simp [h.isRule_eq_false])]
    simpa using ih
  | binary hp hq ihp ihq =>
    obtain ⟨rfl, ihp⟩ := ihp
    obtain ⟨rfl, ihq⟩ := ihq
    rw [atomNodes_formulaNode _ (by simp [hp.isRule_eq_false, hq.isRule_eq_false])]
    simpa using ihp.append ihq
  | leaf h => exact ⟨rfl, .cons (.leaf h) .nil⟩
  | concluded hnew hr h ih =>
    obtain ⟨rfl, ih⟩ := ih
    rw [atomNodes_concluded _ _ h.isRule_eq_false]
    exact ⟨rfl, .cons (.concluded hnew hr) ih⟩

/-! ## Rules and the number of nodes -/

/-- The nodes for a rule: one for the rule and one for each part of its antecedent, groups apart. -/
def ruleCost (r : Rule) : Nat :=
  1 + r.antecedent.withoutGroups.size

/-- The nodes for a goal and for each rule of the engine. -/
def nodeBound (e : Engine) (goal : Formula) : Nat :=
  goal.withoutGroups.size + (e.rules.map ruleCost).sum

/-- The rules `opened` have a node in an explanation, in this order. Each is declared, concludes an
atom that is met in the explanation and not before, and no other one concludes it. -/
structure Opens (e : Engine) (before : List String) (f : Formula) (t : Explanation)
    (met : List String) (opened : List Rule) : Prop where
  nodes : List.Forall₂ (fun r node => ∃ premise, node = e.ruleNode r premise) opened t.ruleNodes
  declared : opened ⊆ e.rules
  fresh : ∀ r ∈ opened, r.conclusion ∉ before
  concluded : ∀ r ∈ opened, r.conclusion ∈ met
  nodup : (opened.map Rule.conclusion).Nodup
  length_nodes : t.nodes.length = f.withoutGroups.size + (opened.map ruleCost).sum

theorem RestsOn.mem_rules (h : e.RestsOn name r) : r ∈ e.rules ∧ r.conclusion = name :=
  mem_rules_of_ruleFor h.ruleFor_eq

theorem opens_nil_of_leaf (f : Formula) (why : Option String) (hsize : f.withoutGroups.size = 1) :
    e.Opens before f (e.formulaNode f why []) met [] where
  nodes := by
    have hnode : (e.formulaNode f why []).isRule = false := by
      simp [Explanation.isRule, formulaNode]
    rw [Explanation.ruleNodes, nodes_formulaNode, List.filter_cons_of_neg (by simp [hnode])]
    exact .nil
  declared := List.nil_subset _
  fresh := by simp
  concluded := by simp
  nodup := List.nodup_nil
  length_nodes := by simp [hsize, Explanation.nodesOf]

/-- An explanation has nodes for the parts of its formula and for the rules that it opens. -/
theorem Explains.opens (h : e.Explains before f t met) :
    ∃ opened, e.Opens before f t met opened := by
  induction h with
  | bottom | top | leaf => exact ⟨[], opens_nil_of_leaf _ _ rfl⟩
  | group _ ih =>
    obtain ⟨opened, ih⟩ := ih
    exact ⟨opened, { ih with }⟩
  | neg _ ih =>
    obtain ⟨opened, ih⟩ := ih
    refine ⟨opened, { ih with nodes := ?_, length_nodes := ?_ }⟩
    · rw [ruleNodes_formulaNode]
      simpa using ih.nodes
    · rw [nodes_formulaNode, List.length_cons, Explanation.nodesOf_singleton, ih.length_nodes,
        Formula.withoutGroups, Formula.size]
      omega
  | binary _ _ ihp ihq =>
    obtain ⟨opened, ihp⟩ := ihp
    obtain ⟨opened', ihq⟩ := ihq
    -- The right operand opens no atom of the left one: they are met before it.
    have hdisjoint : ∀ r ∈ opened, ∀ r' ∈ opened', r.conclusion ≠ r'.conclusion :=
      fun r hr r' hr' heq => ihq.fresh r' hr' (List.mem_append_right _ (heq ▸ ihp.concluded r hr))
    refine ⟨opened ++ opened', ?_, ?_, ?_, ?_, ?_, ?_⟩
    · rw [ruleNodes_formulaNode]
      simpa using List.rel_append ihp.nodes ihq.nodes
    · exact List.append_subset.2 ⟨ihp.declared, ihq.declared⟩
    · exact List.forall_mem_append.2 ⟨ihp.fresh, fun r hr hmem =>
        ihq.fresh r hr (List.mem_append_left _ hmem)⟩
    · exact List.forall_mem_append.2 ⟨fun r hr => List.mem_append_left _ (ihp.concluded r hr),
        fun r hr => List.mem_append_right _ (ihq.concluded r hr)⟩
    · rw [List.map_append, List.nodup_append]
      exact ⟨ihp.nodup, ihq.nodup, by simpa using hdisjoint⟩
    · rw [nodes_formulaNode, List.length_cons, Explanation.nodesOf, Explanation.nodesOf_singleton,
        List.length_append, ihp.length_nodes, ihq.length_nodes, Formula.withoutGroups, Formula.size,
        List.map_append, List.sum_append]
      omega
  | @concluded _ _ _ r _ hnew hr _ ih =>
    obtain ⟨opened, ih⟩ := ih
    obtain ⟨hmem, rfl⟩ := hr.mem_rules
    refine ⟨r :: opened, ?_, ?_, ?_, ?_, ?_, ?_⟩
    · rw [ruleNodes_formulaNode]
      simpa [ruleNodes_ruleNode] using ih.nodes
    · exact List.cons_subset.2 ⟨hmem, ih.declared⟩
    · exact List.forall_mem_cons.2 ⟨hnew, fun r hr hmem =>
        ih.fresh r hr (List.mem_append_left _ hmem)⟩
    · exact List.forall_mem_cons.2 ⟨List.mem_cons_self, fun r hr =>
        List.mem_cons_of_mem _ (ih.concluded r hr)⟩
    · rw [List.map_cons, List.nodup_cons]
      refine ⟨fun hmem => ?_, ih.nodup⟩
      obtain ⟨r, hr, heq⟩ := List.mem_map.1 hmem
      exact ih.fresh r hr (heq ▸ List.mem_append_right _ List.mem_cons_self)
    · have hatom : (Formula.atom r.conclusion).withoutGroups.size = 1 := rfl
      rw [nodes_formulaNode, List.length_cons, Explanation.nodesOf_singleton, nodes_ruleNode,
        List.length_cons, ih.length_nodes, hatom, List.map_cons, List.sum_cons, ruleCost]
      omega

/-- No rule is opened twice. -/
theorem Opens.subperm {opened : List Rule} (h : e.Opens before f t met opened) :
    opened.Subperm e.rules :=
  List.subperm_of_subset (List.Nodup.of_map _ h.nodup) h.declared

theorem sum_ruleCost_le_of_subperm {rules rules' : List Rule} (h : rules.Subperm rules') :
    (rules.map ruleCost).sum ≤ (rules'.map ruleCost).sum := by
  obtain ⟨opened, hperm, hsub⟩ := h
  rw [← (hperm.map ruleCost).sum_eq]
  exact (hsub.map ruleCost).sum_le_sum fun _ _ => Nat.zero_le _

/-! ## Nested calls -/

/-- The explanation of a formula and the atoms met in it, if no more than `depth` calls are inside
each other. -/
def explainWithin (e : Engine) :
    (depth : Nat) → (before : List String) → Formula → Option (Explanation × List String)
  | 0, _, _ => none
  | depth + 1, before, f =>
    match f.ungroup with
    | .bottom => some (e.formulaNode .bottom none [], [])
    | .top => some (e.formulaNode .top none [], [])
    | .atom name =>
      if name ∈ before then
        some (e.formulaNode (.atom name) (some Ground.repeated.reason) [], [name])
      else
        match e.ruleFor name with
        | .error ground => some (e.formulaNode (.atom name) (some ground.reason) [], [name])
        | .ok r => do
          let (premise, met) ← e.explainWithin depth (before ++ [name]) r.antecedent
          return (e.formulaNode (.atom name) none [e.ruleNode r premise], name :: met)
    | .neg p => do
      let (part, met) ← e.explainWithin depth before p
      return (e.formulaNode (.neg p) none [part], met)
    | .binary op p q => do
      let (left, met) ← e.explainWithin depth before p
      let (right, met') ← e.explainWithin depth (before ++ met) q
      return (e.formulaNode (.binary op p q) none [left, right], met ++ met')
    | .group p => do
      let (part, met) ← e.explainWithin depth before p
      return (e.formulaNode (.group p) none [part], met)

theorem explainWithin_group (depth : Nat) (before : List String) (p : Formula) :
    e.explainWithin depth before (.group p) = e.explainWithin depth before p := by
  cases depth <;> rfl

/-- A call that a node stands for leaves as many nested calls as there are nodes below it. -/
theorem exists_depth_of_length_nodes_le {why : Option String} {depth : Nat}
    (h : (e.formulaNode f why children).nodes.length ≤ depth) :
    ∃ rest, depth = rest + 1 ∧ (Explanation.nodesOf children).length ≤ rest := by
  rw [nodes_formulaNode] at h
  obtain ⟨spare, rfl⟩ := Nat.exists_eq_add_of_le' h
  exact ⟨spare + (Explanation.nodesOf children).length, rfl, Nat.le_add_left _ _⟩

/-- As many nested calls as the explanation has nodes are enough. -/
theorem Explains.explainWithin_eq (h : e.Explains before f t met) {depth : Nat}
    (hdepth : t.nodes.length ≤ depth) : e.explainWithin depth before f = some (t, met) := by
  induction h generalizing depth with
  | group _ ih => rw [explainWithin_group, ih hdepth]
  | bottom | top =>
    obtain ⟨depth, rfl, -⟩ := exists_depth_of_length_nodes_le hdepth
    rfl
  | neg _ ih =>
    obtain ⟨depth, rfl, hbelow⟩ := exists_depth_of_length_nodes_le hdepth
    rw [Explanation.nodesOf_singleton] at hbelow
    simp [explainWithin, Formula.ungroup, ih hbelow]
  | binary _ _ ihp ihq =>
    obtain ⟨depth, rfl, hbelow⟩ := exists_depth_of_length_nodes_le hdepth
    rw [Explanation.nodesOf, Explanation.nodesOf_singleton, List.length_append] at hbelow
    have hleft := ihp (Nat.le_trans (Nat.le_add_right _ _) hbelow)
    have hright := ihq (Nat.le_trans (Nat.le_add_left _ _) hbelow)
    simp [explainWithin, Formula.ungroup, hleft, hright]
  | @leaf before name _ h =>
    obtain ⟨depth, rfl, -⟩ := exists_depth_of_length_nodes_le hdepth
    by_cases hmem : name ∈ before
    · simp [explainWithin, Formula.ungroup, hmem, h.eq_repeated hmem]
    · simp [explainWithin, Formula.ungroup, hmem, h.ruleFor_eq hmem]
  | concluded hnew hr _ ih =>
    obtain ⟨depth, rfl, hbelow⟩ := exists_depth_of_length_nodes_le hdepth
    rw [Explanation.nodesOf_singleton, nodes_ruleNode, List.length_cons] at hbelow
    have hpremise := ih (Nat.le_of_succ_le hbelow)
    simp [explainWithin, Formula.ungroup, hnew, hr.ruleFor_eq, hpremise]

/-! ## Queries -/

/-- Whatever the rules and the facts are, a query ends: as many nested calls as the goal and the
rules have parts are enough. The first node of an atom stands above the rule on which the atom
rests, or it is a leaf that calls the atom asserted or not asserted. Every later node of the atom is
a leaf with the same value that refers to what is above. A declared rule has at most one node, and
so have all that conclude the same atom together. There are nodes for the parts of the goal and for
the rules with a node, and so no more than for the goal and every rule. -/
theorem query_opens_once (e : Engine) (goal : Formula) :
    (∀ depth, e.nodeBound goal ≤ depth → e.explainWithin depth [] goal =
      some (e.query goal, (e.query goal).atomNodes.map Explanation.label)) ∧
    e.Explains [] goal (e.query goal) ((e.query goal).atomNodes.map Explanation.label) ∧
    (∀ earlier node later, (e.query goal).atomNodes = earlier ++ node :: later →
      ((∀ first ∈ earlier, first.label ≠ node.label) → node.value = e.facts.get node.label ∧
        ((∃ r premise, e.RestsOn node.label r ∧
          node = ⟨node.label, node.value, none, [e.ruleNode r premise]⟩) ∨
        node = .leaf node.label node.value "asserted" ∨
        node = .leaf node.label node.value "not asserted")) ∧
      ∀ first ∈ earlier, first.label = node.label →
        node = .leaf first.label first.value "explained above") ∧
    (∃ opened : List Rule, opened.Subperm e.rules ∧ (opened.map Rule.conclusion).Nodup ∧
      List.Forall₂ (fun r node => ∃ premise, node = e.ruleNode r premise) opened
        (e.query goal).ruleNodes ∧
      (e.query goal).nodes.length =
        goal.withoutGroups.size + (opened.map ruleCost).sum) ∧
    (e.query goal).nodes.length ≤ e.nodeBound goal := by
  obtain ⟨met, h⟩ := e.explains_query goal
  obtain ⟨opened, hopened⟩ := h.opens
  have hbound : (e.query goal).nodes.length ≤ e.nodeBound goal := by
    rw [hopened.length_nodes, nodeBound]
    exact Nat.add_le_add_left (sum_ruleCost_le_of_subperm hopened.subperm) _
  obtain ⟨rfl, hatoms⟩ := h.atomNodes
  refine ⟨fun depth hdepth => h.explainWithin_eq (Nat.le_trans hbound hdepth), h,
    fun earlier node later hnodes => ?_,
    ⟨opened, hopened.subperm, hopened.nodup, hopened.nodes, hopened.length_nodes⟩, hbound⟩
  have hall : e.AtomNodes [] (earlier ++ node :: later) := hnodes ▸ hatoms
  have hnode : e.AtomNode (earlier.map Explanation.label) node.label node := hall.of_append
  refine ⟨fun hnew => ?_, fun first hfirst hlabel => ?_⟩
  · rw [hnode.value_eq]
    exact ⟨rfl, hnode.of_not_mem (by simpa using hnew)⟩
  · rw [hall.value_eq first (List.mem_append_left _ hfirst), hlabel]
    exact hnode.of_mem (hlabel ▸ List.mem_map_of_mem hfirst)

/-- Two rules that refer to each other. -/
def circle : Engine where
  rules := [⟨"back", .atom "B", "A"⟩, ⟨"forth", .atom "A", "B"⟩]

/-- In a circle each rule has a node, the atom where the circle closes is met a second time, and
there are as many nodes as there may be. -/
theorem query_opens_once_circle :
    (circle.query (.atom "A")).atomNodes.map Explanation.label = ["A", "B", "A"] ∧
      (circle.query (.atom "A")).ruleNodes.map Explanation.label = ["back", "forth"] ∧
      (circle.query (.atom "A")).nodes.length = circle.nodeBound (.atom "A") := by
  have hquery := (query_opens_once circle (.atom "A")).1 5 (by decide)
  have hrun : ∃ t, circle.explainWithin 5 [] (.atom "A") = some (t, ["A", "B", "A"]) ∧
      t.ruleNodes.map Explanation.label = ["back", "forth"] ∧ t.nodes.length = 5 :=
    ⟨_, rfl, by decide, by decide⟩
  obtain ⟨t, ht, hrules, hlength⟩ := hrun
  obtain ⟨rfl, hatoms⟩ := Prod.mk.inj (Option.some.inj (ht.symm.trans hquery))
  exact ⟨hatoms.symm, hrules, hlength⟩

end Engine
end Sentential
