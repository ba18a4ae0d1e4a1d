/-!
# Blank characters

The characters with the Unicode property White_Space, and trimming by them.
-/

namespace Danmaku.Text

/-- The ranges of the property White_Space, ends included. -/
def blankRanges : List (Nat × Nat) :=
  [(0x9, 0xd), (0x20, 0x20), (0x85, 0x85), (0xa0, 0xa0), (0x1680, 0x1680), (0x2000, 0x200a),
    (0x2028, 0x2029), (0x202f, 0x202f), (0x205f, 0x205f), (0x3000, 0x3000)]

def isBlank (c : Char) : Bool := blankRanges.any fun (low, high) => low ≤ c.toNat && c.toNat ≤ high

/-- The characters without the blanks at either end. -/
def trimList (cs : List Char) : List Char :=
  ((cs.dropWhile isBlank).reverse.dropWhile isBlank).reverse

def trim (s : String) : String := String.ofList (trimList s.toList)

end Danmaku.Text
