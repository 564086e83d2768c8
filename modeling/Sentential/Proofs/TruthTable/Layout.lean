import Sentential.Proofs.Enumeration
import Sentential.Proofs.Token.Positions
import Sentential.Proofs.Token.Slicing
import Sentential.Proofs.Traversal

/-!
# The printed truth table

A line of the table has columns of one width, then a bar and a last cell. The width leaves room for
every name and for a truth value, with a blank behind it, so the columns of all lines and the bar
stand under each other. Widths are counted in bytes and cells are filled up by characters; in
identifiers the two are the same.

* `LaidOut`: how a line of the table is laid out, and `laidOut_line`: every line is.
* `column`: the characters of one column of a line.
* `lt_columnWidth`, `length_word_lt`: the cells fit into their columns.
* `IsPlain`, `plain_line`: a line of names and words has no end inside it and a byte for each
  character.
* `isSuffix_row_iff`, `tautology_iff_rows`: a row ends in the value of the formula, and the rows
  decide whether it is a tautology.
* `render?`, `render?_eq`: the table with values that are looked up and may be missing.
* `render_shows_truth_function`: the lines of the printed table, and what each of them says.
-/

namespace Sentential

namespace TruthTable

variable {f : Formula} {v : Valuation} {names cells : List String} {cell last name : String}
  {width : Nat}

/-! ## Columns -/

/-- The characters of the column with index `i` in a line whose columns are `width` wide. -/
def column (width i : Nat) (text : String) : String :=
  String.ofList ((text.toList.drop (i * width)).take width)

/-- A line whose columns, each `width` wide, hold the cells, filled up with blanks, and in which a
bar, a blank and the last cell follow on them. -/
structure LaidOut (width : Nat) (cells : List String) (last text : String) : Prop where
  fits : ∀ cell ∈ cells, cell.length < width
  column_eq : ∀ i (hi : i < cells.length), column width i text = pad width cells[i]
  bar : text.toList.idxOf '|' = cells.length * width
  rest : text.toList.drop (cells.length * width) = ("| " ++ last).toList

theorem toList_pad : (pad width cell).toList =
    cell.toList ++ List.replicate (width - cell.length) ' ' := by
  rw [pad, String.toList_append, String.toList_ofList]

theorem length_toList_pad (h : cell.length < width) : (pad width cell).toList.length = width := by
  rw [toList_pad, List.length_append, List.length_replicate, String.length_toList]
  omega

theorem toList_line : (line width cells last).toList =
    cells.flatMap (fun cell => (pad width cell).toList) ++ ("| " ++ last).toList := by
  simp [line, String.toList_join, List.flatMap_map]

/-- The characters of a line are those of its cells, blanks and the bar. -/
theorem mem_line {c : Char} (h : c ∈ (line width cells last).toList) :
    (∃ cell ∈ cells, c ∈ cell.toList) ∨ c ∈ last.toList ∨ c = ' ' ∨ c = '|' := by
  rw [toList_line, List.mem_append, List.mem_flatMap] at h
  rcases h with ⟨cell, hcell, hc⟩ | hc
  · rw [toList_pad, List.mem_append, List.mem_replicate] at hc
    rcases hc with hc | ⟨-, rfl⟩
    · exact .inl ⟨cell, hcell, hc⟩
    · exact .inr (.inr (.inl rfl))
  · simp only [String.toList_append, List.mem_append] at hc
    rcases hc with hc | hc
    · have hc : c = '|' ∨ c = ' ' := by simpa using hc
      exact .inr (.inr hc.symm)
    · exact .inr (.inl hc)

/-- Behind the first `i` columns the others follow. -/
theorem drop_line (hfits : ∀ cell ∈ cells, cell.length < width) {i : Nat} (hi : i ≤ cells.length) :
    (line width cells last).toList.drop (i * width) =
      (line width (cells.drop i) last).toList := by
  induction i generalizing cells with
  | zero => simp
  | succ i ih =>
    cases cells with
    | nil => cases hi
    | cons cell cells =>
      obtain ⟨hcell, hcells⟩ := List.forall_mem_cons.1 hfits
      have hdrop : (line width (cell :: cells) last).toList.drop width =
          (line width cells last).toList := by
        rw [toList_line, List.flatMap_cons, List.append_assoc,
          List.drop_left' (length_toList_pad hcell), toList_line]
      rw [Nat.succ_mul, Nat.add_comm, ← List.drop_drop, hdrop, List.drop_succ_cons]
      exact ih hcells (Nat.le_of_succ_le_succ hi)

/-- A line is laid out when its cells fit into the columns and none of them holds a bar. -/
theorem laidOut_line (hfits : ∀ cell ∈ cells, cell.length < width)
    (hbar : ∀ cell ∈ cells, '|' ∉ cell.toList) :
    LaidOut width cells last (line width cells last) where
  fits := hfits
  column_eq i hi := by
    have hcell : cells[i].length < width := hfits _ (List.getElem_mem hi)
    rw [column, drop_line hfits hi.le, List.drop_eq_getElem_cons hi, toList_line,
      List.flatMap_cons, List.append_assoc, List.take_left' (length_toList_pad hcell),
      String.ofList_toList]
  bar := by
    have hlengths : cells.map (fun cell => (pad width cell).toList.length) =
        List.replicate cells.length width :=
      List.map_eq_replicate_iff.2 fun cell hcell => length_toList_pad (hfits cell hcell)
    have hnone : '|' ∉ cells.flatMap fun cell => (pad width cell).toList := by
      simp only [List.mem_flatMap, toList_pad, List.mem_append, List.mem_replicate]
      rintro ⟨cell, hcell, hmem | ⟨-, hmem⟩⟩
      · exact hbar cell hcell hmem
      · cases hmem
    rw [toList_line, List.idxOf_append, if_neg hnone, List.length_flatMap, hlengths,
      List.sum_replicate_nat]
    simp
  rest := by
    rw [drop_line hfits le_rfl, List.drop_length, toList_line]
    rfl

/-! ## The width of the columns -/

theorem le_foldl_max {n start : Nat} {ns : List Nat} (h : n ≤ start ∨ ∃ m ∈ ns, n ≤ m) :
    n ≤ ns.foldl max start := by
  induction ns generalizing start with
  | nil => simpa using h
  | cons m ns ih =>
    refine ih ?_
    rw [List.exists_mem_cons_iff, ← or_assoc] at h
    exact h.imp_left le_max_iff.2

/-- The width has room for a blank behind a truth value and behind every name. -/
theorem lt_columnWidth {n : Nat} (h : n ≤ 5 ∨ ∃ name ∈ names, n ≤ name.utf8ByteSize) :
    n < columnWidth names := by
  rw [columnWidth, Nat.add_comm, Nat.lt_add_one_iff]
  exact le_foldl_max (h.imp_right fun ⟨name, hname, hn⟩ => ⟨_, List.mem_map_of_mem hname, hn⟩)

theorem length_word_lt (b : Bool) : (word b).length < columnWidth names :=
  lt_columnWidth (.inl (by cases b <;> decide))

/-! ## Plain cells -/

/-- A cell of letters, digits and underscores. -/
def IsPlain (cell : String) : Prop :=
  ∀ c ∈ cell.toList, isNameChar c = true

instance (cell : String) : Decidable (IsPlain cell) :=
  List.decidableBAll (fun c => isNameChar c = true) cell.toList

theorem isPlain_of_isIdentifier (h : isIdentifier name = true) : IsPlain name := by
  obtain ⟨c, cs, hname, hc, hcs, -⟩ := Token.isIdentifier_iff.1 h
  rw [IsPlain, hname, List.forall_mem_cons]
  exact ⟨Token.isNameChar_of_isNameStart hc, List.all_eq_true.1 hcs⟩

theorem isPlain_word (b : Bool) : IsPlain (word b) := by
  cases b <;> decide

theorem IsPlain.not_mem_bar (h : IsPlain cell) : '|' ∉ cell.toList := fun hmem =>
  absurd (h _ hmem) (by decide)

theorem IsPlain.utf8ByteSize_eq (h : IsPlain cell) : cell.utf8ByteSize = cell.length := by
  rw [← Text.byteLength_toList, Text.byteLength_eq_length, String.length_toList]
  exact fun c hc => (Token.toNat_of_isNameChar (h c hc)).2

/-- A line of plain cells is a line of its own, and it has a byte for each character. -/
theorem plain_line (hcells : ∀ cell ∈ cells, IsPlain cell) (hlast : IsPlain last) :
    ∀ c ∈ (line width cells last).toList, c ≠ '\n' ∧ c.toNat < 128 := by
  have hplain : ∀ c, isNameChar c = true → c ≠ '\n' ∧ c.toNat < 128 := by
    intro c hc
    obtain ⟨hlow, hhigh⟩ := Token.toNat_of_isNameChar hc
    refine ⟨?_, hhigh⟩
    rintro rfl
    exact absurd hlow (by decide)
  intro c hc
  rcases mem_line hc with ⟨cell, hcell, hc⟩ | hc | rfl | rfl
  · exact hplain c (hcells cell hcell c hc)
  · exact hplain c (hlast c hc)
  · decide
  · decide

/-! ## Lines -/

/-- Lines that are ended each can be told apart again. -/
theorem splitOn_ended {ls : List (List Char)} (h : ∀ l ∈ ls, '\n' ∉ l) :
    (ls.flatMap (· ++ ['\n'])).splitOn '\n' = ls ++ [[]] := by
  have hended : ls.flatMap (· ++ ['\n']) = ['\n'].intercalate (ls ++ [[]]) := by
    clear h
    induction ls with
    | nil => rfl
    | cons l ls ih => simp [List.intercalate_cons_of_ne_nil, ih]
  rw [hended, List.splitOn_intercalate]
  · simpa [or_imp, forall_and] using h
  · simp

theorem toList_render : (render f).toList =
    ((lines f).map String.toList).flatMap (· ++ ['\n']) := by
  simp [render, String.toList_join, List.flatMap_map]

/-- A row ends in the word for the value of the formula. -/
theorem isSuffix_row_iff : "true".toList <:+ (row f v).toList ↔ f.eval v = true := by
  have hrow : (word (f.eval v)).toList <:+ (row f v).toList := by
    rw [row, toList_line, String.toList_append, ← List.append_assoc]
    exact List.suffix_append _ _
  constructor
  · intro htrue
    by_contra hfalse
    rw [Bool.not_eq_true] at hfalse
    rw [hfalse] at hrow
    exact absurd (List.suffix_of_suffix_length_le htrue hrow (by decide)) (by decide)
  · intro htrue
    rwa [htrue] at hrow

/-- A formula is a tautology when it is true in every row. -/
theorem tautology_iff_rows : f.tautology = true ↔ ∀ v ∈ Valuation.enumerate f.vars,
    f.eval v = true := by
  have hrows : ∀ (names : List String) (v : Valuation),
      Valuation.holdsOnAll f.eval names v = (Valuation.rows names v).all f.eval := by
    intro names
    induction names with
    | nil => simp [Valuation.holdsOnAll, Valuation.rows]
    | cons name names ih =>
      intro v
      rw [Valuation.holdsOnAll, Valuation.rows, List.all_append, ih, ih, Bool.and_comm]
  rw [Formula.tautology, hrows, ← Valuation.enumerate_eq_rows, List.all_eq_true]

/-- The table with a look-up for every cell that may fail: then there is no table. -/
def render? (f : Formula) : Option String := do
  let rows ← (Valuation.enumerate f.vars).mapM fun v => do
    let values ← f.vars.mapM fun name => v[name]?
    some (line (columnWidth f.vars) (values.map word) (word (f.eval v)))
  some (String.join ((header f :: separator f :: rows ++ [separator f]).map (· ++ "\n")))

theorem render?_eq (f : Formula) : render? f = some (render f) := by
  have hrows : (Valuation.enumerate f.vars).mapM (fun v => do
      let values ← f.vars.mapM fun name => v[name]?
      some (line (columnWidth f.vars) (values.map word) (word (f.eval v)))) =
        some ((Valuation.enumerate f.vars).map (row f)) := by
    refine mapM_eq_some_map fun v hv => ?_
    have hvalues : f.vars.mapM (fun name => v[name]?) = some (f.vars.map v.value) :=
      mapM_eq_some_map fun name hname =>
        Valuation.getElem?_eq_some_value ((Valuation.mem_enumerate_iff.1 hv name).2 hname)
    rw [hvalues, Option.bind_eq_bind, Option.bind_some, row, List.map_map]
    rfl
  rw [render?, hrows]
  rfl

/-! ## The table of a formula over identifiers -/

theorem laidOut_header (hnames : ∀ name ∈ f.vars, isIdentifier name = true) :
    LaidOut (columnWidth f.vars) f.vars "formula" (header f) := by
  have hplain : ∀ name ∈ f.vars, IsPlain name := fun name hname =>
    isPlain_of_isIdentifier (hnames name hname)
  refine laidOut_line (fun name hname => ?_) fun name hname => (hplain name hname).not_mem_bar
  exact lt_columnWidth (.inr ⟨name, hname, (hplain name hname).utf8ByteSize_eq.ge⟩)

/-- A row of values that are all there is laid out with their words. -/
theorem laidOut_row (h : ∀ name ∈ f.vars, name ∈ v) : ∃ values : List Bool,
    f.vars.map (fun name => v[name]?) = values.map some ∧
    LaidOut (columnWidth f.vars) (values.map word) (word (f.eval v)) (row f v) := by
  refine ⟨f.vars.map v.value, ?_, ?_⟩
  · rw [List.map_map]
    exact List.map_congr_left fun name hname => Valuation.getElem?_eq_some_value (h name hname)
  · have hrow : row f v = line (columnWidth f.vars) ((f.vars.map v.value).map word)
        (word (f.eval v)) := by
      rw [row, List.map_map]
      rfl
    rw [hrow]
    refine laidOut_line ?_ ?_ <;> simp only [List.forall_mem_map]
    · exact fun name _ => length_word_lt _
    · exact fun name _ => (isPlain_word _).not_mem_bar

theorem newline_not_mem_lines (hnames : ∀ name ∈ f.vars, isIdentifier name = true) :
    ∀ l ∈ lines f, '\n' ∉ l.toList := by
  have hseparator : '\n' ∉ (separator f).toList := by
    rw [separator, String.toList_ofList, List.mem_replicate]
    exact fun h => absurd h.2 (by decide)
  have hheader : '\n' ∉ (header f).toList := fun h =>
    (plain_line (fun name hname => isPlain_of_isIdentifier (hnames name hname))
      (by decide) _ h).1 rfl
  have hrow : ∀ v, '\n' ∉ (row f v).toList := fun v h =>
    (plain_line (List.forall_mem_map.2 fun _ _ => isPlain_word _) (isPlain_word _) _ h).1 rfl
  simp [lines, hseparator, hheader, hrow, or_imp, forall_and]

theorem separator_eq (hnames : ∀ name ∈ f.vars, isIdentifier name = true) :
    separator f = String.ofList (List.replicate (header f).length '-') := by
  have hbytes : Text.byteLength (header f).toList = (header f).toList.length :=
    Text.byteLength_eq_length fun c hc =>
      (plain_line (fun name hname => isPlain_of_isIdentifier (hnames name hname))
        (by decide) c hc).2
  rw [separator, ← Text.byteLength_toList, hbytes, String.length_toList]

/-- The printed table of a formula whose variables are identifiers shows its truth function. Its
lines are the header, a rule as long as the header, a row for each of the `2 ^ n` valuations of the
`n` variables in the order of their listing, and the rule again. The columns of the header hold the
variables in alphabetical order. Those of a row hold the values of the variables, none of which is
missing, and behind the bar stands the value of the formula; the bar stands under that of the
header. So the table is the same when every value is looked up without a default, and every row ends
in `true` exactly when the formula is a tautology. -/
theorem render_shows_truth_function (f : Formula)
    (hnames : ∀ name ∈ f.vars, isIdentifier name = true) :
    let rows := Valuation.enumerate f.vars
    (render f).toList.splitOn '\n' =
      (header f :: separator f :: rows.map (row f) ++ [separator f, ""]).map String.toList ∧
    separator f = String.ofList (List.replicate (header f).length '-') ∧
    rows.length = 2 ^ f.vars.length ∧
    f.vars.Pairwise (· < ·) ∧ LaidOut (columnWidth f.vars) f.vars "formula" (header f) ∧
    (∀ v ∈ rows, ∃ values : List Bool,
      f.vars.map (fun name => v[name]?) = values.map some ∧
      LaidOut (columnWidth f.vars) (values.map word) (word (f.eval v)) (row f v) ∧
      (row f v).toList.idxOf '|' = (header f).toList.idxOf '|') ∧
    render? f = some (render f) ∧
    ((∀ v ∈ rows, "true".toList <:+ (row f v).toList) ↔ f.tautology = true) := by
  intro rows
  have hheader := laidOut_header hnames
  refine ⟨?_, separator_eq hnames, ?_, f.pairwise_vars, hheader, fun v hv => ?_, render?_eq f, ?_⟩
  · rw [toList_render, splitOn_ended (List.forall_mem_map.2 (newline_not_mem_lines hnames)), lines]
    simp [rows]
  · exact (congrArg List.length (Valuation.enumerate_eq_rows _)).trans (Valuation.length_rows _ _)
  · obtain ⟨values, hvalues, hrow⟩ :=
      laidOut_row fun name hname => (Valuation.mem_enumerate_iff.1 hv name).2 hname
    refine ⟨values, hvalues, hrow, ?_⟩
    have hlength := congrArg List.length hvalues
    simp only [List.length_map] at hlength
    rw [hrow.bar, hheader.bar, List.length_map, hlength]
  · rw [tautology_iff_rows]
    simp only [isSuffix_row_iff, rows]

/-- An implication with a name that is longer than a truth value. -/
def forecast : Formula :=
  .imp (.atom "rain") (.atom "umbrella")

theorem render_shows_truth_function_forecast :
    (∀ name ∈ forecast.vars, isIdentifier name = true) ∧
    (render forecast).toList.splitOn '\n' =
      ["rain     umbrella | formula", "---------------------------", "true     true     | true",
        "true     false    | false", "false    true     | true", "false    false    | true",
        "---------------------------", ""].map String.toList ∧
    LaidOut 9 ["rain", "umbrella"] "formula" "rain     umbrella | formula" ∧
    ¬ ∀ v ∈ Valuation.enumerate ["rain", "umbrella"],
      "true".toList <:+ (row forecast v).toList := by
  have hnames : ∀ name ∈ forecast.vars, isIdentifier name = true := by decide
  obtain ⟨hlines, -, -, -, hheader, -, -, htautology⟩ :=
    render_shows_truth_function forecast hnames
  refine ⟨hnames, hlines.trans (by decide +kernel), hheader, fun hall => ?_⟩
  exact absurd (htautology.1 hall) (by decide)

end TruthTable

end Sentential
