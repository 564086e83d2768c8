import Sentential.Proofs.Json.RoundTrip
import Sentential.Proofs.Traversal
import Sentential.RuleSet

/-!
# Documents of rule sets

A saved document is read back as the records that were written. So saving and loading comes down to
the conditions: a rule is read back with its id and its conclusion, and with the condition that the
text of its simplified condition is read as.

* `document`, `read?_document`, `load_document`: the value that is written, and what is read back.
* `save_eq_ok_iff`: which rules can be saved, and as which text.
* `exists_parse_of_load`: a loaded rule is the rule of some texts.
* `Reread`, `load_save_iff`: what is loaded from the text of saved rules.
* `save_eq_save_iff`: when two rule sets are saved as the same text.
-/

namespace Sentential

/-- There is a rule of given texts when the conclusion is an identifier and the condition can be
read. -/
theorem Rule.parse_eq_ok_iff {id condition conclusion : String} {r : Rule} :
    Rule.parse id condition conclusion = .ok r ↔ isIdentifier conclusion = true ∧
      ∃ f, Formula.parse condition = .ok f ∧ r = ⟨id, f, conclusion⟩ := by
  rw [Rule.parse]
  split
  · next h =>
    cases Formula.parse condition with
    | ok f => simp [h, eq_comm]
    | error e => simp
  · next h => simp [h]

namespace RuleSet

/-! ## Documents -/

/-- The value that is written for records. -/
def document (records : List Record) : Json.Value :=
  .ofFields [("version", .ofNat formatVersion), ("rules", .array (records.map Record.toJson))]

theorem hasNumerals_document (records : List Record) : (document records).hasNumerals = true := by
  have hrecords : Json.itemsHaveNumerals (records.map Record.toJson) = true := by
    induction records with
    | nil => rfl
    | cons r records ih =>
      rw [List.map_cons, Json.itemsHaveNumerals, ih]
      rfl
  have hfields : (document records).hasNumerals =
      (Json.itemsHaveNumerals (records.map Record.toJson) && true) := rfl
  rw [hfields, hrecords]
  rfl

theorem read?_document (records : List Record) :
    read? ((document records).toText .indented) = some (formatVersion, records) := by
  have hrecords : (records.map Record.toJson).mapM Record.ofJson? = some records := by
    rw [List.mapM_map]
    exact (mapM_eq_some_map fun _ _ => rfl).trans (congrArg some (List.map_id records))
  have hfields : (document records).record? ["version", "rules"] =
      some [some (.ofNat formatVersion), some (.array (records.map Record.toJson))] := rfl
  have hversion : (Json.Value.ofNat formatVersion).natural? versionBound = some formatVersion := by
    decide
  have hparse := Json.parse?_toText .indented (hasNumerals_document records)
  simp only [read?, hparse, Option.bind_eq_bind, Option.bind_some, hfields, hversion,
    Json.Value.items?, hrecords]
  rfl

/-- A saved document is loaded as the rules of its records. -/
theorem load_document (records : List Record) :
    load ((document records).toText .indented) = records.mapM Record.toRule := by
  rw [load, read?_document]
  exact if_pos rfl

/-- Documents of different records are different texts. -/
theorem toText_document_inj {records records' : List Record} :
    (document records).toText .indented = (document records').toText .indented ↔
      records = records' := by
  constructor
  · intro h
    have hread := read?_document records
    rw [h, read?_document] at hread
    cases hread
    rfl
  · rintro rfl
    rfl

/-! ## Saving -/

/-- The record of a rule, whether it can be saved or not. -/
def Record.written (r : Rule) : Record :=
  ⟨r.id, r.condition.simplify.text, r.conclusion⟩

theorem Record.ofRule_eq_ok_iff {r : Rule} {record : Record} :
    Record.ofRule r = .ok record ↔ isIdentifier r.conclusion = true ∧ record = written r := by
  rw [ofRule]
  split
  · next h => simp [h, written, eq_comm]
  · next h => simp [h]

/-- Rules have records when their conclusions are identifiers. -/
theorem mapM_ofRule_eq_ok_iff {rules : List Rule} {records : List Record} :
    rules.mapM Record.ofRule = .ok records ↔
      (∀ r ∈ rules, isIdentifier r.conclusion = true) ∧ rules.map Record.written = records := by
  have hwritten : List.Forall₂ (fun r record => record = Record.written r) rules records ↔
      rules.map Record.written = records := by
    rw [← List.forall₂_eq_eq_eq, List.forall₂_map_left_iff]
    simp only [eq_comm]
  simp only [mapM_eq_ok_iff, Record.ofRule_eq_ok_iff, List.forall₂_and_left, hwritten]

section Rules

variable {rules rules' again : List Rule} {saved : String}

/-- Rules can be saved when their conclusions are identifiers. -/
theorem save_eq_ok_iff : save rules = .ok saved ↔
    (∀ r ∈ rules, isIdentifier r.conclusion = true) ∧
      (document (rules.map Record.written)).toText .indented = saved := by
  have hsave : save rules = .ok saved ↔ ∃ records, rules.mapM Record.ofRule = .ok records ∧
      (document records).toText .indented = saved := by
    rw [save]
    cases rules.mapM Record.ofRule with
    | ok records => simp [document, bind, Except.bind, pure, Except.pure]
    | error e => simp [bind, Except.bind]
  simp only [hsave, mapM_ofRule_eq_ok_iff, and_assoc, exists_and_left, exists_eq_left']

/-- Two rule sets are saved as the same text when their records are the same. -/
theorem save_eq_save_iff (h : save rules = .ok saved) : save rules' = .ok saved ↔
    List.Forall₂ (fun r r' => Record.written r = Record.written r') rules rules' := by
  obtain ⟨hnames, rfl⟩ := save_eq_ok_iff.1 h
  have hrecords : List.Forall₂ (fun r r' => Record.written r = Record.written r') rules rules' ↔
      rules'.map Record.written = rules.map Record.written := by
    rw [eq_comm, ← List.forall₂_eq_eq_eq, List.forall₂_map_left_iff, List.forall₂_map_right_iff]
  rw [save_eq_ok_iff, toText_document_inj, hrecords, and_iff_right_iff_imp]
  intro heq r' hr'
  have hmem : Record.written r' ∈ rules.map Record.written := heq ▸ List.mem_map_of_mem hr'
  obtain ⟨r, hr, hwritten⟩ := List.mem_map.1 hmem
  have hconclusion : r.conclusion = r'.conclusion := congrArg Record.conclusion hwritten
  exact hconclusion ▸ hnames r hr

/-! ## Loading -/

/-- A rule that was loaded is the rule of some texts. -/
theorem exists_parse_of_load {text : String} (h : load text = .ok rules) {r : Rule}
    (hr : r ∈ rules) : ∃ condition, Rule.parse r.id condition r.conclusion = .ok r := by
  rw [load] at h
  split at h
  · cases h
  · split at h
    · obtain ⟨record, -, hrecord⟩ := mem_right_of_mapM h hr
      obtain ⟨-, f, -, rfl⟩ := Rule.parse_eq_ok_iff.1 hrecord
      exact ⟨record.condition, hrecord⟩
    · cases h

/-- What a saved rule is read back as: its id, its conclusion, and the condition that the text of
its simplified condition is read as. -/
structure Reread (r r' : Rule) : Prop where
  id : r'.id = r.id
  conclusion : r'.conclusion = r.conclusion
  condition : Formula.parse r.condition.simplify.text = .ok r'.condition

theorem toRule_written_iff {r r' : Rule} :
    (Record.written r).toRule = .ok r' ↔ isIdentifier r.conclusion = true ∧ Reread r r' := by
  rw [Record.toRule, Rule.parse_eq_ok_iff]
  refine and_congr_right fun _ => ⟨?_, ?_⟩
  · rintro ⟨f, hf, rfl⟩
    exact ⟨rfl, rfl, hf⟩
  · intro h
    exact ⟨r'.condition, h.condition, by rw [Record.written, ← h.id, ← h.conclusion]⟩

/-- What is loaded from the text of saved rules. -/
theorem load_save_iff (h : save rules = .ok saved) :
    load saved = .ok again ↔ List.Forall₂ Reread rules again := by
  obtain ⟨hnames, rfl⟩ := save_eq_ok_iff.1 h
  simp only [load_document, mapM_eq_ok_iff, List.forall₂_map_left_iff, toRule_written_iff,
    List.forall₂_and_left]
  exact and_iff_right hnames

/-- What was saved can be loaded when the text of every condition can be read. -/
theorem exists_load_save_iff (h : save rules = .ok saved) :
    (∃ again, load saved = .ok again) ↔
      ∀ r ∈ rules, ∃ f, Formula.parse r.condition.simplify.text = .ok f := by
  simp only [load_save_iff h, exists_forall₂_iff]
  refine forall₂_congr fun r _ => ⟨fun ⟨r', hr'⟩ => ⟨_, hr'.condition⟩, fun ⟨f, hf⟩ => ?_⟩
  exact ⟨⟨r.id, f, r.conclusion⟩, rfl, rfl, hf⟩

end Rules

end RuleSet

end Sentential
