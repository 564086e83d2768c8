/-!
# Classes of characters

A class is a list of ranges of code points, both ends included. The class of the blank characters,
the 25 with the Unicode property White_Space, separates tokens.

* `CharClass.contains_iff`: a character is in a class when one of its ranges holds it.
-/

namespace Sentential.Text

/-- A set of characters, as ranges of code points with both ends included. -/
structure CharClass where
  ranges : List (Nat × Nat)

namespace CharClass

/-- Whether `c` lies in one of the ranges. -/
def contains (s : CharClass) (c : Char) : Bool :=
  s.ranges.any fun r => r.1 ≤ c.toNat && c.toNat ≤ r.2

theorem contains_iff {s : CharClass} {c : Char} :
    s.contains c ↔ ∃ r ∈ s.ranges, r.1 ≤ c.toNat ∧ c.toNat ≤ r.2 := by
  simp [contains]

end CharClass

/-- The Unicode property White_Space. -/
def blanks : CharClass where
  ranges := [(0x9, 0xd), (0x20, 0x20), (0x85, 0x85), (0xa0, 0xa0), (0x1680, 0x1680),
    (0x2000, 0x200a), (0x2028, 0x2029), (0x202f, 0x202f), (0x205f, 0x205f), (0x3000, 0x3000)]

/-- The class has 25 members. -/
example : (blanks.ranges.map fun r => r.2 + 1 - r.1).sum = 25 := by decide

/-- Whether `c` is white space. -/
def isBlank (c : Char) : Bool :=
  blanks.contains c

end Sentential.Text
