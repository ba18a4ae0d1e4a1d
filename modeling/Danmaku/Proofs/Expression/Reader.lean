import Danmaku.Expression.Grammar

/-!
# A reader that never goes back

The parser tries the alternatives of each rule in turn. This reader decides at the next character
which of them to take and never goes back: where the text does not go on as the rule does, it fails
for good. It gives what is left after what it took, or, when it fails, what was unread there. What
texts have in common with the expressions that they stand for is easier to see of it than of the
parser, which does the same (`readAll_eq_readWhole`).
-/

namespace Danmaku.Expression

/-- What was read and what is left, or what was unread at the failure. -/
inductive Reading (α : Type) where
  | done (value : α) (rest : List Char)
  | failed (unread : List Char)

/-- Goes on with what is left. -/
def Reading.andThen {α β : Type} : Reading α → (α → List Char → Reading β) → Reading β
  | done value rest, next => next value rest
  | failed unread, _ => failed unread

def skipSpace (s : List Char) : List Char := s.dropWhile isSpace

/-- Digits with an optional point among or around them; at least one digit. -/
def readNumber (s : List Char) : Reading Expression :=
  let whole := s.takeWhile Char.isDigit
  match s.dropWhile Char.isDigit with
  | '.' :: r =>
    let fraction := r.takeWhile Char.isDigit
    if whole.isEmpty && fraction.isEmpty then .failed r
    else
      .done (number (.ofDecimal (naturalOfDigits (whole ++ fraction)) fraction.length))
        (r.dropWhile Char.isDigit)
  | r =>
    if whole.isEmpty then .failed s else .done (number (.ofDecimal (naturalOfDigits whole) 0)) r

/-- The name after the `$` of a variable. -/
def readVariable : List Char → Reading Expression
  | 'r' :: 'a' :: 'n' :: 'd' :: r => .done (var .random) r
  | 'r' :: 'a' :: 'n' :: 'k' :: r => .done (var .rank) r
  | s =>
    let digits := s.takeWhile Char.isDigit
    let r := s.dropWhile Char.isDigit
    if digits.isEmpty || indexBound ≤ naturalOfDigits digits then .failed r
    else .done (var (.parameter (naturalOfDigits digits))) r

/-- A number, a variable, or in parentheses what `nested` reads. -/
def readAtom (nested : List Char → Reading Expression) : List Char → Reading Expression
  | '(' :: r =>
    (nested (skipSpace r)).andThen fun e r =>
      match skipSpace r with
      | ')' :: r => .done e r
      | r => .failed r
  | '$' :: r => readVariable r
  | s => readNumber s

def readFactor (nested : List Char → Reading Expression) : List Char → Reading Expression
  | '-' :: r => (readAtom nested (skipSpace r)).andThen fun e r => .done (negate e) r
  | s => readAtom nested s

/-- Continues `left` with operators of one precedence, at most as many as the first argument. -/
def readChain (operator? : Char → Option Operator) (operand : List Char → Reading Expression) :
    Nat → Expression → List Char → Reading Expression
  | 0, left, s => .done left s
  | n + 1, left, s =>
    match skipSpace s with
    | [] => .done left s
    | c :: r =>
      match operator? c with
      | none => .done left s
      | some operator =>
        (operand (skipSpace r)).andThen fun right r =>
          readChain operator? operand n (binary operator left right) r

def additive? : Char → Option Operator
  | '+' => some .add
  | '-' => some .sub
  | _ => none

def multiplicative? : Char → Option Operator
  | '*' => some .mul
  | '/' => some .div
  | '%' => some .mod
  | _ => none

def readProduct (nested : List Char → Reading Expression) (n : Nat) (s : List Char) :
    Reading Expression :=
  (readFactor nested s).andThen (readChain multiplicative? (readFactor nested) n)

/-- A sum in a text of at most as many characters as the first argument; there is room neither
for more operators nor for deeper parentheses. -/
def readSum : Nat → List Char → Reading Expression
  | 0, s => .failed s
  | n + 1, s =>
    (readProduct (readSum n) n s).andThen (readChain additive? (readProduct (readSum n) n) n)

/-- A whole text as an expression, or what was unread at the failure. -/
def readWhole (s : List Char) : Except (List Char) Expression :=
  match readSum s.length (skipSpace s) with
  | .failed unread => .error unread
  | .done e r =>
    match skipSpace r with
    | [] => .ok e
    | r => .error r

end Danmaku.Expression
