import Sentential.Proofs.Engine.Explanation
import Sentential.Proofs.Engine.History

/-!
# What asserted leaves go back to

An engine keeps no record of where its facts come from. An explanation calls an atom asserted when
the atom is true and no rule that concludes it holds at that time. The atom was made true at some
point, by the caller or by a rule; a rule can cease to hold after it fired, for want of a premise
that was retracted or because of a conclusion that rules it out.

* `Engine.Explains.asserted_of_mem_nodes`: what holds where a node is called asserted.
* `Engine.Event.Asserts`, `Engine.get_replay_iff`: a name is true if and only if it was made true
  and not retracted since.
* `Engine.asserted_goes_back`: what is called asserted goes back to the caller or to a rule that
  fired and no longer holds.
* `Engine.wavering_calls_conclusion_asserted`: a conclusion that is called asserted, although the
  caller asserted nothing.
-/

namespace Sentential.Engine

open Explanation (nodesOf_singleton)

/-! ## Nodes that are called asserted -/

section Nodes

variable {e : Engine} {before met : List String} {f : Formula} {t node : Explanation}

/-- The node of a rule gives the rule as its reason. -/
theorem why_ruleNode_ne (r : Rule) : (e.ruleNode r t).why ≠ some Ground.asserted.reason := by
  intro h
  have htext := congrArg String.toList (Option.some.inj h)
  have hmem : '>' ∈ Ground.asserted.reason.toList := htext ▸ by simp [String.toList_append]
  exact absurd hmem (by decide)

/-- A formula node without a reason is none of the nodes that have one; they are below it. -/
theorem mem_nodesOf_of_why {reason : String} {children : List Explanation}
    (hnode : node ∈ (e.formulaNode f none children).nodes) (hwhy : node.why = some reason) :
    node ∈ Explanation.nodesOf children := by
  rw [nodes_formulaNode] at hnode
  rcases List.mem_cons.1 hnode with rfl | hnode
  · cases hwhy
  · exact hnode

/-- A node is called asserted only as a leaf, for an atom that is true and that no rule that holds
concludes. -/
theorem Explains.asserted_of_mem_nodes (h : e.Explains before f t met) (hnode : node ∈ t.nodes)
    (hwhy : node.why = some Ground.asserted.reason) :
    node.children = [] ∧ e.facts.get node.label = true ∧ e.NoneHolds node.label := by
  induction h with
  | bottom | top => cases mem_nodesOf_of_why hnode hwhy
  | group _ ih => exact ih hnode
  | neg _ ih =>
    have hbelow := mem_nodesOf_of_why hnode hwhy
    rw [nodesOf_singleton] at hbelow
    exact ih hbelow
  | binary _ _ ihp ihq =>
    have hbelow := mem_nodesOf_of_why hnode hwhy
    rw [Explanation.nodesOf, nodesOf_singleton] at hbelow
    exact (List.mem_append.1 hbelow).elim ihp ihq
  | @leaf _ name ground h =>
    rw [nodes_formulaNode, Explanation.nodesOf, List.mem_singleton] at hnode
    subst hnode
    cases h with
    | repeated | unsupported => exact absurd (Option.some.inj hwhy) (by decide)
    | asserted _ htrue hnone => exact ⟨rfl, htrue, hnone⟩
  | concluded _ _ _ ih =>
    have hbelow := mem_nodesOf_of_why hnode hwhy
    rw [nodesOf_singleton, nodes_ruleNode] at hbelow
    rcases List.mem_cons.1 hbelow with rfl | hbelow
    · exact absurd hwhy (why_ruleNode_ne _)
    · exact ih hbelow

end Nodes

/-! ## What makes a name true -/

/-- The event makes `name` true, by the caller or by a rule. -/
def Event.Asserts (name : String) (x : Event) : Prop :=
  x = .asserted name ∨ ∃ r : Rule, x = .fired r ∧ r.conclusion = name

section Replay

variable {e : Engine} {x : Event} {xs : List Event} {name : String}

/-- A name is true after an event that makes it true, and where it was true and is not retracted. -/
theorem get_record_iff : (e.record x).facts.get name = true ↔
    x.Asserts name ∨ e.facts.get name = true ∧ x ≠ .retracted name := by
  cases x with
  | declared r => simp [record, addRule, Event.Asserts]
  | asserted other =>
    by_cases h : other = name <;> simp [record, Engine.assert, FactBase.assert, Event.Asserts, h]
  | retracted other =>
    by_cases h : other = name <;> simp [record, Engine.retract, FactBase.retract, Event.Asserts, h]
  | fired r =>
    by_cases h : r.conclusion = name <;>
      simp [record, Engine.assert, FactBase.assert, Event.Asserts, h]

/-- A name is true if and only if it was made true, or was true at the start, and was not retracted
since. -/
theorem get_replay_iff : (e.replay xs).facts.get name = true ↔
    (∃ earlier x since, xs = earlier ++ x :: since ∧ x.Asserts name ∧ .retracted name ∉ since) ∨
      e.facts.get name = true ∧ .retracted name ∉ xs := by
  induction xs generalizing e with
  | nil => simp
  | cons y xs ih =>
    rw [replay_cons, ih, get_record_iff, List.mem_cons, not_or]
    constructor
    · rintro (⟨earlier, x, since, rfl, h⟩ | ⟨hy | ⟨htrue, hne⟩, hkept⟩)
      · exact .inl ⟨y :: earlier, x, since, rfl, h⟩
      · exact .inl ⟨[], y, xs, rfl, hy, hkept⟩
      · exact .inr ⟨htrue, Ne.symm hne, hkept⟩
    · rintro (⟨_ | ⟨z, earlier⟩, x, since, heq, h⟩ | ⟨htrue, hne, hkept⟩)
      · obtain ⟨rfl, rfl⟩ := List.cons.inj heq
        exact .inr ⟨.inl h.1, h.2⟩
      · obtain ⟨rfl, rfl⟩ := List.cons.inj heq
        exact .inl ⟨earlier, x, since, rfl, h⟩
      · exact .inr ⟨.inr ⟨htrue, Ne.symm hne⟩, hkept⟩

/-- What the caller has seen so far is a derivation of the engine that it can replay. -/
theorem steps_of_history_eq {commands : List Command} {before later : List Exchange}
    (h : e.history commands = before ++ later) :
    Steps e (events before) (e.replay (events before)) := by
  have hsteps := e.steps_history commands
  rw [h, events_append] at hsteps
  exact hsteps.of_append.1

end Replay

/-! ## What is called asserted -/

/-- Take any rules, no facts at the start, and any commands. In the answer to a query, what is
called asserted is a leaf, for an atom that is true and that no rule concludes that holds by then.
Earlier it was made true, and it was not retracted since: the caller asserted it, or a rule fired
that concludes it. That rule is still declared and no longer holds. -/
theorem asserted_goes_back {rules : List Rule} {settings : EngineSettings} {commands : List Command}
    {before later : List Exchange} {goal : Formula} {tree node : Explanation}
    (h : (Engine.mk rules ∅ settings).history commands =
      before ++ ⟨.query goal, .explained tree⟩ :: later)
    (hnode : node ∈ tree.nodes) (hwhy : node.why = some "asserted") :
    let now := (Engine.mk rules ∅ settings).replay (events before)
    node.children = [] ∧ now.facts.get node.label = true ∧ now.NoneHolds node.label ∧
      ∃ earlier x since, events before = earlier ++ x :: since ∧ .retracted node.label ∉ since ∧
        (x = .asserted node.label ∨ ∃ r ∈ now.rules, x = .fired r ∧ r.conclusion = node.label ∧
          r.holds now.facts = false) := by
  intro now
  have hanswer : tree = now.query goal := Answer.explained.inj (answer_of_history_eq h)
  obtain ⟨met, hexplains⟩ := now.explains_query goal
  rw [← hanswer] at hexplains
  obtain ⟨hleaf, htrue, hnone⟩ := hexplains.asserted_of_mem_nodes hnode hwhy
  refine ⟨hleaf, htrue, hnone, ?_⟩
  obtain ⟨earlier, x, since, heq, hx, hkept⟩ | ⟨habsurd, -⟩ := get_replay_iff.1 htrue
  · refine ⟨earlier, x, since, heq, hkept, hx.imp id ?_⟩
    rintro ⟨r, rfl, hr⟩
    have hmem : r ∈ now.rules :=
      (steps_of_history_eq h).mem_rules_of_fired (by rw [heq]; simp)
    exact ⟨r, hmem, rfl, hr, hnone r hmem hr⟩
  · simp at habsurd

/-- The exception rules out the default, so after both have fired nothing supports `a`. -/
theorem query_wavering_atom :
    (wavering.after [.run]).query (.atom "a") = .leaf "a" true "asserted" := by
  obtain ⟨met, h⟩ := (wavering.after [.run]).explains_query (.atom "a")
  exact (h.unique (.leaf (.asserted (by simp) rfl (by decide)))).1

/-- Here `a` goes back to a rule, and `c` to the caller. -/
theorem query_wavering_conj :
    (wavering.after [.run, .assert "c"]).query (.conj (.atom "a") (.atom "c")) =
      ⟨"(a & c)", true, none, [.leaf "a" true "asserted", .leaf "c" true "asserted"]⟩ := by
  obtain ⟨met, h⟩ := (wavering.after [.run, .assert "c"]).explains_query
    (.conj (.atom "a") (.atom "c"))
  exact (h.unique (.binary (.leaf (.asserted (by simp) rfl (by decide)))
    (.leaf (.asserted (by simp) rfl (by decide))))).1

theorem asserted_goes_back_wavering :
    let happened := wavering.rules.map Event.fired ++ [Event.asserted "c"]
    let now := wavering.replay happened
    now.facts.get "a" = true ∧ now.NoneHolds "a" ∧
      ∃ earlier x since, happened = earlier ++ x :: since ∧ Event.retracted "a" ∉ since ∧
        (x = Event.asserted "a" ∨
          ∃ r ∈ now.rules, x = Event.fired r ∧ r.conclusion = "a" ∧ r.holds now.facts = false) := by
  have h : wavering.history [.run, .assert "c", .query (.conj (.atom "a") (.atom "c"))] =
      [⟨.run, .fired wavering.rules⟩, ⟨.assert "c", .done⟩] ++
        ⟨.query (.conj (.atom "a") (.atom "c")), .explained ⟨"(a & c)", true, none,
          [.leaf "a" true "asserted", .leaf "c" true "asserted"]⟩⟩ :: [] := by
    rw [← query_wavering_conj]
    rfl
  have hnode : Explanation.leaf "a" true "asserted" ∈ Explanation.nodes ⟨"(a & c)", true, none,
      [.leaf "a" true "asserted", .leaf "c" true "asserted"]⟩ := by
    simp [Explanation.nodes, Explanation.nodesOf, Explanation.leaf]
  exact (asserted_goes_back h hnode rfl).2

/-- The caller asserts nothing. The default fires, the exception fires and rules out the default,
and `a` is called asserted. -/
theorem wavering_calls_conclusion_asserted :
    wavering.history [.run, .query (.atom "a")] =
      [⟨.run, .fired wavering.rules⟩,
        ⟨.query (.atom "a"), .explained (.leaf "a" true "asserted")⟩] ∧
    ∀ name, .asserted name ∉ events (wavering.history [.run, .query (.atom "a")]) := by
  have h : wavering.history [.run, .query (.atom "a")] = [⟨.run, .fired wavering.rules⟩,
      ⟨.query (.atom "a"), .explained (.leaf "a" true "asserted")⟩] := by
    rw [← query_wavering_atom]
    rfl
  refine ⟨h, fun name => ?_⟩
  rw [h]
  simp [Exchange.events, Answer.firings]

end Sentential.Engine
