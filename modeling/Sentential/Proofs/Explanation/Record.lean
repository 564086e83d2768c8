import Sentential.Explanation.Record
import Sentential.Proofs.Json.RoundTrip

/-!
# Records keep what a tree says

A record has the fields of its tree, child by child, so no two trees have the same record. Written
in either layout, a record takes up an object and an array for every node on its longest branch.
That is all that can go wrong in reading it back: names and reasons may be any texts, and a reason
that is left out is read as missing.

* `toRecord_eq`, `toRecord_inj`: the fields of a record, and that they tell trees apart.
* `Record.height`: the nodes on the longest branch.
* `Record.ofJson?_toJson`: a record is read back from its value if there is room for its height.
* `Record.parse?_text`: it is read back from its text up to a height of 63.
* `toRecord_lossless`: these together.
-/

namespace Sentential.Explanation

/-! ## Trees and records -/

theorem toRecords_eq_map (es : List Explanation) : toRecords es = es.map toRecord := by
  induction es with
  | nil => rfl
  | cons e es ih => rw [toRecords, ih, List.map_cons]

/-- A record has the fields of its tree, and the children in their order. -/
theorem toRecord_eq (e : Explanation) :
    e.toRecord = ⟨e.label, e.value, e.why, e.children.map toRecord⟩ := by
  cases e
  rw [toRecord, toRecords_eq_map]

mutual

/-- No two trees have the same record. -/
theorem toRecord_inj {e e' : Explanation} (h : e.toRecord = e'.toRecord) : e = e' := by
  obtain ⟨label, value, why, children⟩ := e
  obtain ⟨label', value', why', children'⟩ := e'
  obtain ⟨rfl, rfl, rfl, hchildren⟩ := Record.mk.inj h
  rw [toRecords_inj hchildren]

theorem toRecords_inj {es es' : List Explanation} (h : toRecords es = toRecords es') :
    es = es' := by
  cases es with
  | nil =>
    cases es' with
    | nil => rfl
    | cons => cases h
  | cons e es =>
    cases es' with
    | nil => cases h
    | cons e' es' =>
      obtain ⟨hhead, htail⟩ := List.cons.inj h
      rw [toRecord_inj hhead, toRecords_inj htail]

end

namespace Record

/-! ## Values of records -/

mutual

/-- How many nodes the longest branch of a record has. -/
def height : Record → Nat
  | ⟨_, _, _, children⟩ => heights children + 1

/-- The largest height of several records. -/
def heights : List Record → Nat
  | [] => 0
  | r :: rs => max r.height (heights rs)

end

mutual

theorem hasNumerals_toJson (r : Record) : r.toJson.hasNumerals = true := by
  obtain ⟨expr, value, why, children⟩ := r
  rw [toJson]
  cases why <;>
    simp [Json.Value.ofFields, Json.Value.ofText, Json.Value.hasNumerals, Json.fieldsHaveNumerals,
      itemsHaveNumerals_toJsons children]

theorem itemsHaveNumerals_toJsons (rs : List Record) :
    Json.itemsHaveNumerals (toJsons rs) = true := by
  cases rs with
  | nil => rfl
  | cons r rs =>
    rw [toJsons, Json.itemsHaveNumerals, hasNumerals_toJson, itemsHaveNumerals_toJsons]
    rfl

end

/-- The value of a record has its fields, a missing reason as a missing field. -/
theorem record?_toJson (expr : String) (value : Bool) (why : Option String)
    (children : List Record) :
    (toJson ⟨expr, value, why, children⟩).record? ["expr", "value", "why", "children"] =
      some [some (.ofText expr), some (.bool value), why.map .ofText,
        some (.array (toJsons children))] := by
  cases why <;> rfl

theorem why?_map (why : Option String) : why? (why.map .ofText) = some why := by
  cases why <;> rfl

mutual

/-- A record is read back from its value if there is room for its height. -/
theorem ofJson?_toJson (room : Nat) (r : Record) :
    ofJson? room r.toJson = if 2 * r.height ≤ room then some r else none := by
  obtain ⟨expr, value, why, children⟩ := r
  match room with
  | 0 | 1 => rfl
  | room + 2 =>
    have hheight : 2 * height ⟨expr, value, why, children⟩ ≤ room + 2 ↔
        2 * heights children ≤ room := by
      rw [height]
      omega
    simp only [ofJson?, record?_toJson, hheight, Json.Value.ofText, Json.Value.text?,
      Json.Value.bool?, Json.Value.items?, Option.bind_eq_bind, Option.bind_some, why?_map,
      mapM_ofJson?_toJsons room children]
    split <;> rfl

theorem mapM_ofJson?_toJsons (room : Nat) (rs : List Record) :
    (toJsons rs).mapM (ofJson? room) = if 2 * heights rs ≤ room then some rs else none := by
  cases rs with
  | nil => simp [toJsons, heights]
  | cons r rs =>
    rw [toJsons, List.mapM_cons, ofJson?_toJson, mapM_ofJson?_toJsons]
    have hheight : 2 * heights (r :: rs) ≤ room ↔ 2 * r.height ≤ room ∧ 2 * heights rs ≤ room := by
      rw [heights]
      omega
    by_cases hr : 2 * r.height ≤ room <;> by_cases hrs : 2 * heights rs ≤ room <;>
      simp [hheight, hr, hrs]

end

/-- A record is read back from its text, in either layout, up to a height of 63. -/
theorem parse?_text (layout : Json.Layout) (r : Record) :
    parse? (r.text layout) = if r.height ≤ 63 then some r else none := by
  have hroom : 2 * r.height ≤ nestingRoom ↔ r.height ≤ 63 := by
    rw [nestingRoom]
    omega
  rw [parse?, text, Json.parse?_toText layout (hasNumerals_toJson r)]
  simp only [Option.bind_eq_bind, Option.bind_some, ofJson?_toJson, hroom]

end Record

/-- The record of a tree loses nothing. It has the fields of the tree and the records of its
children in their order, so it tells trees apart. It is read back from its text, in either layout,
unless more than 63 nodes stand below each other. -/
theorem toRecord_lossless :
    (∀ e : Explanation, e.toRecord = ⟨e.label, e.value, e.why, e.children.map toRecord⟩) ∧
    Function.Injective toRecord ∧
    ∀ (layout : Json.Layout) (r : Record),
      Record.parse? (r.text layout) = if r.height ≤ 63 then some r else none :=
  ⟨toRecord_eq, fun _ _ => toRecord_inj, Record.parse?_text⟩

end Sentential.Explanation
