/-!
# Parsing expressions

A parser takes something from the front of a text, or it fails. Of an ordered choice the first
alternative that does not fail counts, and a repetition goes on until its part fails; neither comes
back to what it has left. Apart from what it takes, a parser tells at which places it tried a
character or a word in vain, whatever became of the alternative or the repetition it did so for:
the error of a text is at the furthest of these places.
-/

namespace Danmaku

/-- What came of a parser on a text. -/
structure Attempt (α : Type) where
  /-- What was taken, and the text after it. -/
  matched : Option (α × List Char)
  /-- For every terminal that failed, the number of characters that were unread there. -/
  failures : List Nat

/-- What is unread of the text at the furthest failure, all of it if nothing failed. -/
def Attempt.unread {α : Type} (a : Attempt α) (s : List Char) : List Char :=
  s.drop (s.length - a.failures.min?.getD s.length)

def Peg (α : Type) : Type := List Char → Attempt α

namespace Peg

variable {α β : Type}

instance : Monad Peg where
  pure a := fun s => ⟨some (a, s), []⟩
  bind p next := fun s =>
    match p s with
    | ⟨none, failures⟩ => ⟨none, failures⟩
    | ⟨some (a, r), failures⟩ => ⟨(next a r).matched, failures ++ (next a r).failures⟩

/-- The ordered choice. What failed in the first alternative is kept. -/
instance : OrElse (Peg α) where
  orElse p q := fun s =>
    match p s with
    | ⟨some result, failures⟩ => ⟨some result, failures⟩
    | ⟨none, failures⟩ => ⟨(q () s).matched, failures ++ (q () s).failures⟩

/-- A terminal that fails on every text. -/
def nothing : Peg α := fun s => ⟨none, [s.length]⟩

/-- A character of a class. -/
def one (accepts : Char → Bool) : Peg Char
  | [] => nothing []
  | c :: r => if accepts c then ⟨some (c, r), []⟩ else nothing (c :: r)

/-- A word, which fails where it begins. -/
def literal (word : List Char) : Peg Unit := fun s =>
  if word.isPrefixOf s then ⟨some ((), s.drop word.length), []⟩ else nothing s

def endOfText : Peg Unit
  | [] => ⟨some ((), []), []⟩
  | s => nothing s

def optional (part : Peg α) : Peg (Option α) :=
  (do return some (← part)) <|> pure none

/-- A repetition, of at most as many parts as the first argument. -/
def upTo : Nat → Peg α → Peg (List α)
  | 0, _ => pure []
  | n + 1, part => (do return (← part) :: (← upTo n part)) <|> pure []

/-- A repetition of a part that takes at least one character. -/
def many (part : Peg α) : Peg (List α) := fun s => upTo (s.length + 1) part s

def atLeastOne (part : Peg α) : Peg (List α) := do
  return (← part) :: (← many part)

/-- The text that the parser takes. -/
def text (p : Peg α) : Peg (List Char) := fun s =>
  match p s with
  | ⟨none, failures⟩ => ⟨none, failures⟩
  | ⟨some (_, r), failures⟩ => ⟨some (s.take (s.length - r.length), r), failures⟩

/-- What is made of the result, which fails at its end. -/
def check (p : Peg α) (make : α → Option β) : Peg β := fun s =>
  match p s with
  | ⟨none, failures⟩ => ⟨none, failures⟩
  | ⟨some (a, r), failures⟩ =>
    match make a with
    | some b => ⟨some (b, r), failures⟩
    | none => ⟨none, failures ++ [r.length]⟩

/-- The parser without a mention of its failures. -/
def quiet (p : Peg α) : Peg α := fun s => { p s with failures := [] }

end Peg

end Danmaku
