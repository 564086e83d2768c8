import Sentential.Valuation

/-!
# Fact bases

What is known at a time: a value for some names. A name that was never mentioned reads as false,
like one that was retracted, but only the latter is recorded.

* `get_empty`, `get_set`: what is read before and after a change.
-/

namespace Sentential

/-- The recorded facts. -/
structure FactBase where
  valuation : Valuation
  deriving DecidableEq

namespace FactBase

/-- Nothing is recorded. -/
def empty : FactBase :=
  ⟨∅⟩

instance : EmptyCollection FactBase := ⟨empty⟩

instance : Inhabited FactBase := ⟨empty⟩

/-- Records a value for `name`. -/
def set (facts : FactBase) (name : String) (b : Bool) : FactBase :=
  ⟨facts.valuation.insert name b⟩

/-- Records `name` as true. -/
def assert (facts : FactBase) (name : String) : FactBase :=
  facts.set name true

/-- Records `name` as false. -/
def retract (facts : FactBase) (name : String) : FactBase :=
  facts.set name false

/-- Whether `name` is recorded as true. -/
def get (facts : FactBase) (name : String) : Bool :=
  facts.valuation.value name

/-- Whether `name` is recorded at all. -/
def isRecorded (facts : FactBase) (name : String) : Bool :=
  facts.valuation.contains name

/-- How many names are recorded. -/
def size (facts : FactBase) : Nat :=
  facts.valuation.size

/-- Whether no name is recorded. -/
def isEmpty (facts : FactBase) : Bool :=
  facts.valuation.isEmpty

@[simp] theorem get_empty (name : String) : (∅ : FactBase).get name = false := by
  show Valuation.value ∅ name = false
  simp [Valuation.value]

/-- What is read after a change. -/
@[simp] theorem get_set (facts : FactBase) (name other : String) (b : Bool) :
    (facts.set name b).get other = if name = other then b else facts.get other :=
  Valuation.value_insert facts.valuation name other b

end FactBase

end Sentential
