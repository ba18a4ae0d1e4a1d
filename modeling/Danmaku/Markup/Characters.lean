/-!
# Characters of a markup text

Which characters a text may hold, which separate words, and which make up names.
-/

namespace Danmaku.Markup

/-- Whether a character lies in one of the ranges, ends included. -/
def inRanges (ranges : List (Nat × Nat)) (c : Char) : Bool :=
  ranges.any fun (low, high) => low ≤ c.toNat && c.toNat ≤ high

def isSpace (c : Char) : Bool := c == ' ' || c == '\t' || c == '\n' || c == '\r'

/-- Control characters other than the spaces, and the two last code points of the basic plane,
may not occur, not even by reference. -/
def isAllowed (c : Char) : Bool :=
  if c.toNat < 0x20 then isSpace c else c.toNat != 0xfffe && c.toNat != 0xffff

def nameStartRanges : List (Nat × Nat) :=
  [(0xc0, 0xd6), (0xd8, 0xf6), (0xf8, 0x2ff), (0x370, 0x37d), (0x37f, 0x1fff), (0x200c, 0x200d),
    (0x2070, 0x218f), (0x2c00, 0x2fef), (0x3001, 0xd7ff), (0xf900, 0xfdcf), (0xfdf0, 0xfffd),
    (0x10000, 0xeffff)]

def nameOnlyRanges : List (Nat × Nat) := [(0xb7, 0xb7), (0x300, 0x36f), (0x203f, 0x2040)]

def isNameStart (c : Char) : Bool :=
  c.isAlpha || c == ':' || c == '_' || inRanges nameStartRanges c

def isNameChar (c : Char) : Bool :=
  isNameStart c || c.isDigit || c == '-' || c == '.' || inRanges nameOnlyRanges c

def skipSpace (s : List Char) : List Char := s.dropWhile isSpace

/-- What follows a word, if the text starts with it. -/
def after? (word : String) (s : List Char) : Option (List Char) :=
  if word.toList.isPrefixOf s then some (s.drop word.length) else none

/-- What follows the spaces, if the text starts with one. -/
def space? : List Char → Option (List Char)
  | c :: r => if isSpace c then some (skipSpace r) else none
  | [] => none

/-- A name: its characters, and what follows it. -/
def name? : List Char → Option (String × List Char)
  | c :: r =>
    if isNameStart c then
      some (String.ofList (c :: r.takeWhile isNameChar), r.dropWhile isNameChar)
    else none
  | [] => none

/-- Either quote, and what follows it. -/
def quote? : List Char → Option (Char × List Char)
  | c :: r => if c == '\x27' || c == '\x22' then some (c, r) else none
  | [] => none

/-- The text up to a quote, and what follows the quote. -/
def quoted? (quote : Char) (s : List Char) : Option (List Char × List Char) :=
  match s.dropWhile (· != quote) with
  | _ :: r => some (s.takeWhile (· != quote), r)
  | [] => none

/-- The allowed characters up to a word, and what follows the word. -/
def until? (word : String) : List Char → Option (List Char × List Char)
  | [] => none
  | c :: r =>
    match after? word (c :: r) with
    | some rest => some ([], rest)
    | none =>
      if isAllowed c then (until? word r).map fun (cs, rest) => (c :: cs, rest) else none

/-- A word occurs somewhere in the text. -/
def occurs (word : String) : List Char → Bool
  | [] => false
  | c :: r => word.toList.isPrefixOf (c :: r) || occurs word r

end Danmaku.Markup
