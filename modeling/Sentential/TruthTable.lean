import Sentential.Formula.Basic

/-!
# Truth tables

Questions about all valuations of a formula's variables, answered by going through them, and the
table as text. A search goes through the valuations with false before true and the first variable
changing slowest; a listing goes the other way round.

* `findFirst?_isSome`: the search finds a valuation unless the opposite test holds on all.
-/

namespace Sentential

namespace Valuation

/-- Whether `test` holds on every extension of `v` by values for `names`. -/
def holdsOnAll (test : Valuation → Bool) : List String → Valuation → Bool
  | [], v => test v
  | name :: names, v =>
    holdsOnAll test names (v.insert name false) && holdsOnAll test names (v.insert name true)

/-- The first extension of `v` by values for `names` on which `test` holds, with false tried
before true. -/
def findFirst? (test : Valuation → Bool) : List String → Valuation → Option Valuation
  | [], v => if test v then some v else none
  | name :: names, v =>
    match findFirst? test names (v.insert name false) with
    | some found => some found
    | none => findFirst? test names (v.insert name true)

/-- Every valuation of `names`, with true listed before false and the first name changing
slowest. -/
def enumerate (names : List String) : List Valuation :=
  names.foldl (fun vs name => vs.flatMap fun v => [v.insert name true, v.insert name false]) [∅]

/-- The search finds a valuation unless the opposite test holds on all. -/
theorem findFirst?_isSome (test : Valuation → Bool) (names : List String) (v : Valuation) :
    (findFirst? test names v).isSome = !holdsOnAll (fun w => !test w) names v := by
  induction names generalizing v with
  | nil => cases h : test v <;> simp [findFirst?, holdsOnAll, h]
  | cons name names ih =>
    rw [findFirst?, holdsOnAll, Bool.not_and, ← ih, ← ih]
    cases findFirst? test names (v.insert name false) <;> simp

end Valuation

namespace Formula

/-- True under every valuation. -/
def tautology (f : Formula) : Bool :=
  Valuation.holdsOnAll f.eval f.vars ∅

/-- True under no valuation. -/
def unsatisfiable (f : Formula) : Bool :=
  Valuation.holdsOnAll (fun v => !f.eval v) f.vars ∅

/-- True under some valuation. -/
def satisfiable (f : Formula) : Bool :=
  !f.unsatisfiable

/-- The first valuation of the variables that passes `test`. -/
def findValuation? (f : Formula) (test : Valuation → Bool) : Option Valuation :=
  Valuation.findFirst? test f.vars ∅

/-- True under the same valuations: compared over the variables of both. -/
def equivalent (f g : Formula) : Bool :=
  Valuation.holdsOnAll (fun v => f.eval v == g.eval v) (f.atoms ∪ g.atoms).toList ∅

end Formula

/-! ## The printed table -/

namespace TruthTable

/-- The word for a truth value. -/
def word (b : Bool) : String :=
  if b then "true" else "false"

/-- The width of a column: room for the longest name, counted in bytes, or for a truth value, and
for one space. -/
def columnWidth (names : List String) : Nat :=
  1 + (names.map String.utf8ByteSize).foldl max 5

/-- `cell` filled with spaces up to `width` characters. -/
def pad (width : Nat) (cell : String) : String :=
  cell ++ String.ofList (List.replicate (width - cell.length) ' ')

/-- A line of the table: the padded cells, a bar and the last cell. -/
def line (width : Nat) (cells : List String) (last : String) : String :=
  String.join (cells.map (pad width)) ++ "| " ++ last

/-- The line for the valuation `v`. -/
def row (f : Formula) (v : Valuation) : String :=
  line (columnWidth f.vars) (f.vars.map fun name => word (v.value name)) (word (f.eval v))

/-- The line that names the columns. -/
def header (f : Formula) : String :=
  line (columnWidth f.vars) f.vars "formula"

/-- A rule with a dash for every byte of the header. -/
def separator (f : Formula) : String :=
  String.ofList (List.replicate (header f).utf8ByteSize '-')

/-- The lines of the table: the header, a row for every valuation, and a rule below each. -/
def lines (f : Formula) : List String :=
  header f :: separator f :: (Valuation.enumerate f.vars).map (row f) ++ [separator f]

/-- The table as text. -/
def render (f : Formula) : String :=
  String.join ((lines f).map (· ++ "\n"))

end TruthTable

end Sentential
