import Danmaku.Markup.Tree

/-!
# Markup documents

A declaration, comments and processing instructions, a document type, and one element. Of the
document type only the values of entities matter; what it names outside the text is not fetched.
-/

namespace Danmaku.Markup

/-- Comments, processing instructions and spaces; at most as many as the first argument. -/
def misc? : Nat → List Char → Option (List Char)
  | 0, s => some (skipSpace s)
  | n + 1, s =>
    match skipSpace s with
    | '<' :: '!' :: '-' :: '-' :: r => do misc? n (← comment? r)
    | '<' :: '?' :: r => do misc? n (← instruction? r)
    | r => some r

/-- Spaces, which may be missing at the end of a declaration. -/
def declarationSpace? (s : List Char) : Option (List Char) :=
  if s.isEmpty || (after? "?>" s).isSome then some s else space? s

/-- What follows `<?xml` in a declaration: a version, then an encoding and a mention of other
documents, if any. -/
def declaration? (s : List Char) : Option (List Char) := do
  let s ← declarationSpace? s
  let _ ← after? "version" s
  let (_, s) ← attribute? s
  let s ← declarationSpace? s
  let s ← if (after? "encoding" s).isSome then do
      let (_, s) ← attribute? s
      declarationSpace? s
    else some s
  let s ← if (after? "standalone" s).isSome then (attribute? s).map (·.2) else some s
  after? "?>" (skipSpace s)

/-- A quoted literal. -/
def literal? (s : List Char) : Option (List Char) := do
  let (quote, s) ← quote? s
  let (_, s) ← quoted? quote s
  return s

/-- Where something outside the text is to be found, if the text starts with that. -/
def externalId? (s : List Char) : Option (List Char) :=
  match after? "SYSTEM" s with
  | some s => do literal? (← space? s)
  | none =>
    match after? "PUBLIC" s with
    | some s => do
      let s ← literal? (← space? s)
      literal? (← space? s)
    | none => some s

/-- The format of an entity outside the text, if it is named. -/
def unparsedNote? (s : List Char) : Option (List Char) :=
  match after? "NDATA" (skipSpace s) with
  | some s => do
    let (_, s) ← name? (← space? s)
    return s
  | none => some (skipSpace s)

/-- What follows `<!ENTITY`: the name and the value, if it is given in the text. -/
def entity? (s : List Char) : Option (Option (String × List Char) × List Char) := do
  let s ← space? s
  let (general, s) ← match s with
    | '%' :: s => do some (false, ← space? s)
    | s => some (true, s)
  let (name, s) ← name? s
  let s ← space? s
  let (declared, s) ← match s with
    | c :: r =>
      if c == '\x27' || c == '\x22' then do
        let (value, r) ← quoted? c r
        some (some (name, value), r)
      else if (after? "SYSTEM" s).isSome || (after? "PUBLIC" s).isSome then do
        let s ← externalId? s
        let s ← if general then unparsedNote? s else some s
        some (none, s)
      else none
    | [] => none
  let s ← after? ">" (skipSpace s)
  return (declared, s)

/-- The declarations between square brackets, at most as many as the first argument: the
entities, and what follows the document type. -/
def subset? : Nat → Entities → List Char → Option (Entities × List Char)
  | 0, _, _ => none
  | n + 1, entities, s =>
    let s := skipSpace s
    if s.isEmpty then some (entities.reverse, s)
    else
      match after? "]" s with
      | some s => do some (entities.reverse, ← after? ">" (skipSpace s))
      | none =>
        match after? "<!ENTITY" s with
        | some s => do
          let (declared, s) ← entity? s
          subset? n (declared.toList ++ entities) s
        | none =>
          match after? "<!--" s with
          | some s => do subset? n entities (← comment? s)
          | none =>
            match after? "<?" s with
            | some s => do subset? n entities (← instruction? s)
            | none =>
              if ["<!ELEMENT", "<!ATTLIST", "<!NOTATION"].any fun word => (after? word s).isSome then
                match s.dropWhile (· != '>') with
                | _ :: r => subset? n entities r
                | [] => none
              else none

/-- What follows `<!DOCTYPE`: the entities, and the rest. -/
def doctype? (s : List Char) : Option (Entities × List Char) := do
  let s ← space? s
  let (_, s) ← name? s
  let s ← externalId? (skipSpace s)
  match skipSpace s with
  | '>' :: s => some ([], s)
  | '[' :: s => subset? s.length.succ [] s
  | _ => none

/-- The root element of a document. -/
def parse? (text : String) : Option Node := do
  let s := match text.toList with
    | '\ufeff' :: s => s
    | s => s
  let s ← match after? "<?xml " s with
    | some r => declaration? (' ' :: r)
    | none => some s
  let s ← misc? s.length s
  let (entities, s) ← match after? "<!DOCTYPE" s with
    | some r => do
      let (entities, r) ← doctype? r
      some (entities, ← misc? r.length r)
    | none => some ([], s)
  let (tokens, s) ← elementTokens? s
  let s ← misc? s.length s
  if s.isEmpty then rootOfTokens? entities tokens else none

end Danmaku.Markup
