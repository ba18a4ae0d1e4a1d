import Danmaku.Markup.Characters

/-!
# Tokens of markup

A text is cut into tags, runs of characters and verbatim runs; comments and processing
instructions leave nothing behind. References are kept as they are written.
-/

namespace Danmaku.Markup

/-- A name with its qualifier, which is empty when there is none. -/
structure Name where
  qualifier : String
  base : String
deriving DecidableEq

/-- An attribute as it is written. -/
structure RawAttribute where
  name : Name
  value : List Char

inductive Token where
  | openTag (name : Name) (attributes : List RawAttribute)
  | emptyTag (name : Name) (attributes : List RawAttribute)
  | closeTag (name : Name)
  /-- A tag that the text ends in, right after its name or an attribute. -/
  | brokenTag (name : Name) (attributes : List RawAttribute)
  | characters (raw : List Char)
  | verbatim (raw : List Char)

/-- A name with at most one colon; both parts start as names do, and only the qualifier may be
empty. -/
def qualifiedName? (s : List Char) : Option (Name × List Char) :=
  let run := s.takeWhile isNameChar
  let rest := s.dropWhile isNameChar
  let starts (part : List Char) := part.head?.any isNameStart
  match run.dropWhile (· != ':') with
  | [] => if starts run then some (⟨"", String.ofList run⟩, rest) else none
  | _ :: base =>
    let qualifier := run.takeWhile (· != ':')
    if (qualifier.isEmpty || starts qualifier) && starts base && !base.contains ':' then
      some (⟨String.ofList qualifier, String.ofList base⟩, rest)
    else none

/-- Characters up to a quote; an opening angle bracket may not stand among them. -/
def attributeValue? (quote : Char) : List Char → Option (List Char × List Char)
  | [] => none
  | c :: r =>
    if c == quote then some ([], r)
    else if c == '<' || !isAllowed c then none
    else (attributeValue? quote r).map fun (cs, rest) => (c :: cs, rest)

/-- A name, an equals sign and a quoted value. -/
def attribute? (s : List Char) : Option (RawAttribute × List Char) := do
  let (name, s) ← qualifiedName? s
  let s ← after? "=" (skipSpace s)
  let (quote, s) ← quote? (skipSpace s)
  let (value, s) ← attributeValue? quote s
  return (⟨name, value⟩, s)

/-- How a tag goes on after its name. -/
inductive TagEnd where
  | opened (attributes : List RawAttribute) (rest : List Char)
  | empty (attributes : List RawAttribute) (rest : List Char)
  /-- The text ends within the tag, right after its name or an attribute. -/
  | broken (attributes : List RawAttribute)

/-- The attributes of a tag, each after a space, and its end; at most as many attributes as the
first argument. -/
def tagEnd? : Nat → List RawAttribute → List Char → Option TagEnd
  | _, attributes, [] => some (.broken attributes.reverse)
  | 0, _, _ => none
  | n + 1, attributes, s =>
    match skipSpace s with
    | '/' :: '>' :: r => some (.empty attributes.reverse r)
    | '>' :: r => some (.opened attributes.reverse r)
    | r => do
      let _ ← space? s
      let (a, r) ← attribute? r
      tagEnd? n (a :: attributes) r

/-- The body of a comment: no two hyphens in a row, and none at the end. -/
def comment? (s : List Char) : Option (List Char) := do
  let (body, rest) ← until? "-->" s
  if occurs "--" body || body.getLast? == some '-' then none else some rest

/-- What follows `<?` in a processing instruction. -/
def instruction? (s : List Char) : Option (List Char) := do
  if (after? "xml " s).isSome then none
  else
    let (_, s) ← name? s
    let (_, rest) ← until? "?>" (skipSpace s)
    return rest

/-- Characters up to the next tag. -/
def characters? (s : List Char) : Option (List Char × List Char) :=
  let raw := s.takeWhile (· != '<')
  if raw.all isAllowed && !occurs "]]>" raw then some (raw, s.dropWhile (· != '<')) else none

def closeTag? (s : List Char) : Option (Name × List Char) := do
  let (name, s) ← qualifiedName? s
  let rest ← after? ">" (skipSpace s)
  return (name, rest)

/-- The tokens of a text in which `depth` elements are open, up to the tag that closes the
outermost of them or to the end of the text, and what is left. No more tokens are read than the
first argument allows; each takes a character at least. -/
def tokens? : Nat → Nat → List Char → Option (List Token × List Char)
  | _, _, [] => some ([], [])
  | 0, _, _ => none
  | n + 1, depth, s =>
    match s with
    | '<' :: '!' :: r =>
      match after? "--" r with
      | some r => do tokens? n depth (← comment? r)
      | none => do
        let (raw, r) ← until? "]]>" (← after? "[CDATA[" r)
        let (tokens, rest) ← tokens? n depth r
        return (.verbatim raw :: tokens, rest)
    | '<' :: '?' :: r => do tokens? n depth (← instruction? r)
    | '<' :: '/' :: r => do
      let (name, r) ← closeTag? r
      match depth with
      | 0 | 1 => return ([.closeTag name], r)
      | depth + 1 =>
        let (tokens, rest) ← tokens? n depth r
        return (.closeTag name :: tokens, rest)
    | '<' :: r => do
      let (name, r) ← qualifiedName? r
      match ← tagEnd? n [] r with
      | .broken attributes => return ([.brokenTag name attributes], [])
      | .opened attributes r =>
        let (tokens, rest) ← tokens? n (depth + 1) r
        return (.openTag name attributes :: tokens, rest)
      | .empty attributes r =>
        if depth = 0 then return ([.emptyTag name attributes], r)
        let (tokens, rest) ← tokens? n depth r
        return (.emptyTag name attributes :: tokens, rest)
    | _ => do
      let (raw, r) ← characters? s
      let (tokens, rest) ← tokens? n depth r
      return (.characters raw :: tokens, rest)

/-- The tokens of the one element that a text starts with, and what is left. -/
def elementTokens? (s : List Char) : Option (List Token × List Char) :=
  match s with
  | '<' :: c :: _ => if c == '/' || c == '!' || c == '?' then none else tokens? s.length 0 s
  | _ => none

/-- The tokens of a piece of content, up to a tag that closes what was opened outside of it. -/
def contentTokens? (s : List Char) : Option (List Token) := (tokens? s.length 1 s).map (·.1)

end Danmaku.Markup
