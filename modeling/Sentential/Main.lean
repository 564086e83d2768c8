import Sentential.Walkthrough

/-!
# Command line

Prints the walkthrough.
-/

/-- Prints the walkthrough, or the error that ends it. -/
def main : IO UInt32 := do
  match Sentential.Walkthrough.transcript with
  | .ok text =>
    IO.print text
    return 0
  | .error message =>
    IO.eprintln ("Error: " ++ message)
    return 1
