import Danmaku.Expression.Basic
import Danmaku.Expression.Peg
import Danmaku.Text.Position

/-!
# Reading expressions

Sums of products of factors, both to the left; a factor may have one minus sign before an atom,
which is a number, a variable or a sum in parentheses. Spaces, tabs and line ends may stand
around every sign. Each rule is a parser that tries its alternatives in order, so the error of a
text is where any of them has got furthest.
-/

namespace Danmaku.Expression

def isSpace (c : Char) : Bool := c == ' ' || c == '\t' || c == '\r' || c == '\n'

/-- The natural that a run of decimal digits stands for. -/
def naturalOfDigits (digits : List Char) : Nat :=
  digits.foldl (fun n c => 10 * n + (c.toNat - '0'.toNat)) 0

/-- The number that digits stand for, perhaps with a point among or around them. -/
def valueOfNumeral (numeral : List Char) : Binary32 :=
  let whole := numeral.takeWhile Char.isDigit
  let fraction := (numeral.dropWhile Char.isDigit).drop 1
  .ofDecimal (naturalOfDigits (whole ++ fraction)) fraction.length

/-- Parameter indices are 64-bit words. -/
def indexBound : Nat := 2 ^ 64

def index? (digits : List Char) : Option Variable :=
  if naturalOfDigits digits < indexBound then some (.parameter (naturalOfDigits digits)) else none

namespace Grammar

def blank : Peg Unit := Peg.quiet do
  let _ ← Peg.many (Peg.one isSpace)
  return ()

def digit : Peg Char := Peg.one Char.isDigit

/-- Digits with an optional point among or after them, or a point and digits. -/
def numeral : Peg Unit :=
  (do
    let _ ← Peg.atLeastOne digit
    let _ ← Peg.optional do
      Peg.literal ['.']
      Peg.many digit
    return ())
  <|> (do
    Peg.literal ['.']
    let _ ← Peg.atLeastOne digit
    return ())

/-- A text of this form always stands for a number. -/
def number : Peg Expression := do
  return .number (valueOfNumeral (← Peg.text numeral))

/-- Digits for a number that fits. -/
def index : Peg Variable := Peg.check (Peg.text (Peg.atLeastOne digit)) index?

def var : Peg Expression :=
  (do
    Peg.literal ['$', 'r', 'a', 'n', 'd']
    return .var .random)
  <|> (do
    Peg.literal ['$', 'r', 'a', 'n', 'k']
    return .var .rank)
  <|> (do
    Peg.literal ['$']
    return .var (← index))

/-- What is in parentheses. -/
def group (nested : Peg Expression) : Peg Expression := do
  Peg.literal ['(']
  blank
  let e ← nested
  blank
  Peg.literal [')']
  return e

def atom (nested : Peg Expression) : Peg Expression := number <|> group nested <|> var

def negation (nested : Peg Expression) : Peg Expression := do
  Peg.literal ['-']
  blank
  return .negate (← atom nested)

def factor (nested : Peg Expression) : Peg Expression := negation nested <|> atom nested

/-- A sign and the operand after it. -/
def link (sign : Peg Operator) (operand : Peg Expression) : Peg (Operator × Expression) := do
  blank
  let operator ← sign
  blank
  return (operator, ← operand)

/-- Operands with signs between them, to the left. -/
def chain (sign : Peg Operator) (operand : Peg Expression) : Peg Expression := do
  let first ← operand
  let links ← Peg.many (link sign operand)
  return links.foldl (fun left (operator, right) => .binary operator left right) first

def multiplicative : Peg Operator :=
  (do
    Peg.literal ['*']
    return .mul)
  <|> (do
    Peg.literal ['/']
    return .div)
  <|> (do
    Peg.literal ['%']
    return .mod)

def additive : Peg Operator :=
  (do
    Peg.literal ['+']
    return .add)
  <|> (do
    Peg.literal ['-']
    return .sub)

/-- A sum in a text of at most as many characters as the argument, which have no room for deeper
parentheses. -/
def sum : Nat → Peg Expression
  | 0 => Peg.nothing
  | n + 1 => chain additive (chain multiplicative (factor (sum n)))

/-- A sum with blanks around it, and nothing after it. -/
def whole : Peg Expression := fun s =>
  (do
    blank
    let e ← sum s.length
    blank
    Peg.endOfText
    return e : Peg Expression) s

end Grammar

/-- A whole text as an expression, or what was unread at the furthest failure. -/
def readAll (s : List Char) : Except (List Char) Expression :=
  let attempt := Grammar.whole s
  match attempt.matched with
  | some (e, _) => .ok e
  | none => .error (attempt.unread s)

/-- The expression that a text stands for, with its constant parts computed, or the position of
the furthest character at which a terminal was tried and failed. -/
def parse (text : String) : Except Text.Position Expression :=
  match readAll text.toList with
  | .ok e => .ok e.fold
  | .error rest => .error (.ofRest text.toList rest)

end Danmaku.Expression
