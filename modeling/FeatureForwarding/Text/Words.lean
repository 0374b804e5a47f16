/-! Words of a configuration list. Commas and blanks separate them, where a
blank is any character with the Unicode property `White_Space`; the words are
the maximal runs of all other characters, in order. -/

namespace FeatureForwarding.Text

/-- The ranges of the Unicode property `White_Space`, ends included. -/
def blankRanges : List (Nat × Nat) :=
  [(0x09, 0x0D), (0x20, 0x20), (0x85, 0x85), (0xA0, 0xA0), (0x1680, 0x1680),
    (0x2000, 0x200A), (0x2028, 0x2029), (0x202F, 0x202F), (0x205F, 0x205F), (0x3000, 0x3000)]

def isBlank (c : Char) : Bool :=
  blankRanges.any fun (low, high) => low ≤ c.toNat && c.toNat ≤ high

def isSeparator (c : Char) : Bool :=
  c == ',' || isBlank c

/-- Splits at every separator and drops the empty pieces between neighbours. -/
def words (text : String) : List String :=
  ((text.toList.splitOnP isSeparator).filter (!·.isEmpty)).map String.ofList

end FeatureForwarding.Text
