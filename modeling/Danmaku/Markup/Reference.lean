import Danmaku.Markup.Characters

/-!
# References and line ends

A reference stands for a character, by its code or by one of five names, or for a declared
entity. Line ends in text become line feeds; spaces of any kind in an attribute become blanks.
A character given by its reference is exempt from this, except inside an entity.
-/

namespace Danmaku.Markup

/-- The declared entities and their values, in the order of their declarations; of two of a name
the first counts. -/
abbrev Entities := List (String × List Char)

/-- A piece of a text: a character, a character given by reference, or an entity's value. -/
inductive Piece where
  | plain (c : Char)
  | referred (c : Char)
  | entity (value : List Char)

/-- The value of digits in a base, if they are digits of it and the value is a 32-bit word. -/
def wordOfDigits? (base : Nat) (digits : List Char) : Option Nat := do
  let value (c : Char) : Nat :=
    if c.isDigit then c.toNat - '0'.toNat
    else if 'a' ≤ c && c ≤ 'f' then c.toNat - 'a'.toNat + 10
    else if 'A' ≤ c && c ≤ 'F' then c.toNat - 'A'.toNat + 10
    else base
  if digits.isEmpty || digits.any (base ≤ value ·) then none
  else
    let n := digits.foldl (fun n c => base * n + value c) 0
    if n < 2 ^ 32 then some n else none

/-- The character of a code; a code of none is replaced by U+FFFD. -/
def charOfCode (n : Nat) : Char := if n.isValidChar then Char.ofNat n else '\ufffd'

/-- What the text between `&` and `;` refers to. -/
def piece? (entities : Entities) (reference : List Char) : Option Piece :=
  let character (n : Nat) :=
    if isAllowed (charOfCode n) then some (Piece.referred (charOfCode n)) else none
  match reference with
  | '#' :: 'x' :: digits => (wordOfDigits? 16 digits).bind character
  | '#' :: digits => (wordOfDigits? 10 digits).bind character
  | _ =>
    match String.ofList reference with
    | "quot" => some (.referred '\x22')
    | "amp" => some (.referred '&')
    | "apos" => some (.referred '\x27')
    | "lt" => some (.referred '<')
    | "gt" => some (.referred '>')
    | name => (entities.lookup name).map .entity

/-- The pieces of a text, at most as many as the first argument. -/
def piecesUpTo? (entities : Entities) : Nat → List Char → Option (List Piece)
  | _, [] => some []
  | 0, _ => none
  | n + 1, '&' :: r =>
    match r.dropWhile (· != ';') with
    | [] => none
    | _ :: rest => do
      let piece ← piece? entities (r.takeWhile (· != ';'))
      return piece :: (← piecesUpTo? entities n rest)
  | n + 1, c :: r => (piecesUpTo? entities n r).map (.plain c :: ·)

def pieces? (entities : Entities) (raw : List Char) : Option (List Piece) :=
  piecesUpTo? entities raw.length raw

/-- Adds a character to a text, which is given backwards. A carriage return is settled, together
with a line feed after it, as the next character comes, or at the end. -/
def pushText (c : Char) (last : Bool) (text : List Char) : List Char :=
  match text with
  | '\r' :: text =>
    if last && c == '\r' then '\n' :: '\n' :: text
    else if c == '\n' then '\n' :: text
    else c :: '\n' :: text
  | text => if last && c == '\r' then '\n' :: text else c :: text

/-- A stretch of text between entities, or an entity. -/
inductive Run where
  | text (s : String)
  | entity (value : List Char)

/-- The run of a text that is given backwards, if there is any. -/
def flush (text : List Char) : List Run :=
  if text.isEmpty then [] else [.text (String.ofList text.reverse)]

/-- The runs of some pieces. `asIs` holds after a character by reference, outside of entities:
the next character is then kept as it is. -/
def runs (inEntity : Bool) (asIs : Bool) (text : List Char) : List Piece → List Run
  | [] => flush text
  | .plain c :: rest =>
    if asIs then runs inEntity false (c :: text) rest
    else runs inEntity false (pushText c rest.isEmpty text) rest
  | .referred c :: rest =>
    if inEntity then runs inEntity asIs (pushText c rest.isEmpty text) rest
    else runs inEntity true (c :: text) rest
  | .entity value :: rest => flush text ++ .entity value :: runs inEntity false [] rest

/-- Verbatim text: only its line ends change. -/
def verbatimText (text : List Char) : List Char → List Char
  | [] => text.reverse
  | c :: rest => verbatimText (pushText c rest.isEmpty text) rest

/-- A character in an attribute: any space is a blank. -/
def blankOfSpace (c : Char) : Char := if isSpace c then ' ' else c

/-- Entities nest at most this deep. -/
def maxNesting : Nat := 10

/-- Within one entity of the document itself, at most this many further ones are entered. -/
def maxReferences : Nat := 255

/-- Counts an entity that is entered while `levels` more may nest. -/
def countReference? (levels count : Nat) : Option Nat :=
  if levels = maxNesting then some count
  else if count = maxReferences then none
  else some (count + 1)

/-- The count after an entity has been left again. -/
def countAfter (levels count : Nat) : Nat := if levels = maxNesting then 0 else count

/-- The value of an attribute, given backwards, added to `text`; `value` takes in the value of an
entity. Inside an entity an opening angle bracket may be plain, but not be given by reference. -/
def attributePieces? (value : List Char → Nat → List Char → Option (Nat × List Char))
    (levels : Nat) : Nat → List Char → List Piece → Option (Nat × List Char)
  | count, text, [] => some (count, text)
  | count, text, .plain '\r' :: .plain '\n' :: rest =>
    attributePieces? value levels count (' ' :: text) rest
  | count, text, .plain c :: rest =>
    attributePieces? value levels count (blankOfSpace c :: text) rest
  | count, text, .referred c :: rest =>
    if levels < maxNesting then
      if c == '<' then none
      else attributePieces? value levels count (blankOfSpace c :: text) rest
    else attributePieces? value levels count (c :: text) rest
  | count, text, .entity v :: rest => do
    let count ← countReference? levels count
    let (count, text) ← value v count text
    attributePieces? value levels (countAfter levels count) text rest

/-- The value of an attribute while `levels` more entities may nest, added to `text` backwards. -/
def attributeText? (entities : Entities) :
    Nat → List Char → Nat → List Char → Option (Nat × List Char)
  | 0, raw, count, text => do
    attributePieces? (fun _ _ _ => none) 0 count text (← pieces? entities raw)
  | levels + 1, raw, count, text => do
    attributePieces? (attributeText? entities levels) (levels + 1) count text
      (← pieces? entities raw)

end Danmaku.Markup
