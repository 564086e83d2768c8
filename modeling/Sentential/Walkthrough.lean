import Sentential.Derivation
import Sentential.Entailment
import Sentential.Evaluator
import Sentential.Explanation.Record
import Sentential.RuleSet

/-!
# Walkthrough

A tour of the library on fixed examples, as text: printing and truth tables, tautologies and
contradictions, simplification, clauses and the solver, entailment, forward chaining, and rule sets
that are saved and loaded again.

* `Walkthrough.transcript`: the whole tour.
-/

namespace Sentential.Walkthrough

/-! ## Showing results -/

/-- A line with a label and a truth value. -/
def answerLine (label : String) (b : Bool) : String :=
  label ++ ": " ++ TruthTable.word b ++ "\n"

/-- Names between square brackets, quoted. -/
def showNames (names : List String) : String :=
  "[" ++ ", ".intercalate (names.map Text.quoted) ++ "]"

/-- A valuation between braces, with its names quoted. -/
def showValuation (v : Valuation) : String :=
  let entry (pair : String × Bool) := Text.quoted pair.1 ++ ": " ++ TruthTable.word pair.2
  "\x7b" ++ ", ".intercalate (v.toList.map entry) ++ "\x7d"

/-- A counter-model, if there is one. -/
def showCounterModel : Option Valuation → String
  | some v => "Some(" ++ showValuation v ++ ")"
  | none => "None"

/-! ## Steps that can fail -/

/-- A formula of the tour, simplified. -/
def read (text : String) : Except String Formula :=
  (Formula.parse text).mapError ParseError.message

/-- A formula of the tour, as written. -/
def readRaw (text : String) : Except String Formula :=
  (Formula.parseRaw text).mapError ParseError.message

/-- A rule of the tour. -/
def readRule (id condition conclusion : String) : Except String Rule :=
  (Rule.parse id condition conclusion).mapError RuleError.message

/-- The answer of an evaluator. -/
def ask (reply : Except ClauseError (Reply Bool)) : Except String Bool :=
  (reply.map Reply.answer).mapError ClauseError.message

/-! ## The examples -/

/-- The evaluator of the tour. -/
def evaluator : Evaluator :=
  ⟨{}, some (Solver.dpll {})⟩

/-- A formula, its table and its conjunctive normal form. -/
def simpleFormula : Except String String := do
  let f ← read "C | D <=> (!A & B)"
  return "\nExample 1: Simple formula\n" ++ f.displayLine ++ TruthTable.render f ++
    f.cnf.displayLine ++ answerLine "Is satisfiable?" (← ask (evaluator.satisfiable f)) ++
    answerLine "Is tautology?" (← ask (evaluator.tautology f))

/-- A tautology, which simplifies to a constant. -/
def aTautology : Except String String := do
  let f ← readRaw "A | !A"
  return "\nExample 2: A Tautology\n" ++ f.displayLine ++ TruthTable.render f ++
    answerLine "Is tautology?" (← ask (evaluator.tautology f)) ++
    "...and `parse` simplifies it to...\n" ++ (← read "A | !A").displayLine

/-- A contradiction and its disjunctive normal form. -/
def aContradiction : Except String String := do
  let f ← readRaw "!A & A"
  return "\nExample 3: A Contradiction\n" ++ f.displayLine ++ f.dnf.displayLine ++
    answerLine "Is satisfiable?" (← ask (evaluator.satisfiable f)) ++
    answerLine "Is contradiction?" (← ask (evaluator.contradiction f))

/-- A formula with constants, simplified. -/
def simplification : Except String String := do
  let f ← readRaw "((TRUE => (x <=> FALSE)) => !(y | (FALSE & z)))"
  return "\nExample 4: Formula simplification\n" ++ f.displayLine ++ "...simplifies to...\n" ++
    f.simplify.displayLine

/-- The implication from the atom number `i` to the next. -/
def link (i : Nat) : String :=
  "p" ++ toString i ++ " => p" ++ toString (i + 1)

/-- Clauses and a witness, and a tautology with more variables than a truth table should have. -/
def clausesAndSearch : Except String String := do
  let f ← read "(A | B) & (!A | B) & (A | !B)"
  let s ← (ClauseSet.ofFormula f).mapError ClauseError.message
  let (sat, witness) := s.solve {} ∅
  let chain ← ((List.range 16).map link).mapM read
  let whole := Formula.imp (.conjunction chain) (← read "p0 => p16")
  let smallTables : Evaluator := ⟨{ truthTableThreshold := 4 }, some (Solver.dpll {})⟩
  return "\nExample 5: Clauses and DPLL\n" ++ "Clauses: " ++ s.text ++ "\n" ++
    "Is satisfiable?: " ++ TruthTable.word sat ++ ", witness: " ++ showValuation witness ++ "\n" ++
    answerLine ("Implication chain over " ++ toString whole.vars.length ++
      " variables is a tautology?") (← ask (smallTables.tautology whole))

/-- A goal that is entailed, and one with a counter-model. -/
def entailments : Except String String := do
  let implication ← read "A => B"
  let fact ← read "A"
  let goal := Formula.atom "B"
  let both ← (entails [implication, fact] goal).mapError ClauseError.message
  let alone := entailment [implication] goal
  return "\nExample 6: Entailment\n" ++
    answerLine "\x7bA => B, A\x7d entails B?" both ++
    "\x7bA => B\x7d entails B?: " ++ TruthTable.word alone.entails ++ ", counter-model: " ++
    showCounterModel alone.counterModel ++ "\n"

/-- The rules of the tour. -/
def rules : Except String (List Rule) := do
  return [← readRule "wet" "rain | sprinkler" "wet_grass",
    ← readRule "slip" "wet_grass & !shoes => slippery" "slippery",
    ← readRule "fall" "slippery & running" "fall"]

/-- Rules that fire, and the explanation of what they conclude. -/
def forwardChaining (rules : List Rule) : String :=
  let engine : Engine := { rules }
  let (fired, engine) := (engine.assert "rain").run
  let explanation := engine.query (.atom "slippery")
  "\nExample 7: Forward chaining\n" ++ "Fired: " ++ showNames (Engine.reported fired) ++ "\n" ++
    "slippery = " ++ TruthTable.word explanation.value ++ ", because:\n" ++ explanation.text ++
    "As JSON:\n" ++ explanation.toRecord.text .indented ++ "\n"

/-- The rules saved, loaded and saved again. -/
def savingAndLoading (rules : List Rule) : Except String String := do
  let saved ← (RuleSet.save rules).mapError RuleError.message
  let loaded ← (RuleSet.load saved).mapError RuleError.message
  let again ← (RuleSet.save loaded).mapError RuleError.message
  return "\nExample 8: Saving and loading rules\n" ++ saved ++ "\n" ++ "Reloaded " ++
    toString loaded.length ++ " rules, identical on re-save?: " ++
    TruthTable.word (again = saved) ++ "\n"

/-- The whole tour, or the wording of the error that ends it. -/
def transcript : Except String String := do
  let formulas := [← simpleFormula, ← aTautology, ← aContradiction, ← simplification]
  let rules ← rules
  return String.join (formulas ++ [← clausesAndSearch, ← entailments, forwardChaining rules,
    ← savingAndLoading rules])

end Sentential.Walkthrough
