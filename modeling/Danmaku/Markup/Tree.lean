import Danmaku.Markup.Reference
import Danmaku.Markup.Token

/-!
# Trees of markup

Tokens are gathered into a tree. A qualifier stands for the namespace that the innermost
declaration of it names; no two attributes of an element may have the same name in the same
namespace. The value of an entity is gathered in the place of its reference; when it ends within a
tag, the attributes of that tag wait for the next one.
-/

namespace Danmaku.Markup

/-- An attribute with the name of its namespace, if it has one. -/
structure Attribute where
  uri : Option String
  name : String
  value : String
deriving DecidableEq

/-- An element, known by the base of its name, or a stretch of text. -/
inductive Node where
  | element (name : String) (attributes : List Attribute) (children : List Node)
  | text (s : String)

/-- Qualifiers and what they stand for, the innermost declaration first. -/
abbrev Namespaces := List (String × String)

def xmlNamespace : String := "http://www.w3.org/XML/1998/namespace"

def xmlnsNamespace : String := "http://www.w3.org/2000/xmlns/"

/-- An element whose closing tag has not come yet; its children are given backwards. -/
structure OpenElement where
  name : Name
  attributes : List Attribute
  namespaces : Namespaces
  children : List Node

/-- What has been gathered: the open elements, innermost first, the nodes outside of all, given
backwards, the count of entities entered, and the declarations and attributes, both backwards, that
wait for the end of a tag. -/
structure Gathering where
  opened : List OpenElement
  outside : List Node
  count : Nat
  declared : Namespaces
  waiting : List (Name × String)

namespace Gathering

def empty : Gathering := ⟨[], [], 0, [], []⟩

def addNode (g : Gathering) (node : Node) : Gathering :=
  match g.opened with
  | [] => { g with outside := node :: g.outside }
  | e :: rest => { g with opened := { e with children := node :: e.children } :: rest }

def namespaces (g : Gathering) : Namespaces :=
  match g.opened with
  | [] => []
  | e :: _ => e.namespaces

end Gathering

/-- The declarations among the attributes of one tag, added to `own`, and the attributes that are
none, backwards. The two reserved namespaces may not be declared, except the one of `xml` for
`xml` itself; no qualifier is declared twice. -/
def declarations? : Namespaces → List (Name × String) → List (Name × String) →
    Option (Namespaces × List (Name × String))
  | own, others, [] => some (own, others)
  | own, others, (name, value) :: rest =>
    if name.qualifier = "xmlns" then
      if value = xmlnsNamespace then none
      else if (name.base = "xml") != (value = xmlNamespace) then none
      else if (own.lookup name.base).isSome then none
      else if value = xmlNamespace then declarations? own others rest
      else declarations? ((name.base, value) :: own) others rest
    else if name.base = "xmlns" then
      if value = xmlNamespace || value = xmlnsNamespace then none
      else declarations? own others rest
    else declarations? own ((name, value) :: others) rest

/-- The namespace of an attribute: none without a qualifier. -/
def attributeNamespace? (namespaces : Namespaces) (qualifier : String) : Option (Option String) :=
  if qualifier = "xml" then some (some xmlNamespace)
  else if qualifier = "" then some none
  else (namespaces.lookup qualifier).map some

/-- The attributes, given backwards, with their namespaces; none of them twice. -/
def attributes? (namespaces : Namespaces) : List Attribute → List (Name × String) →
    Option (List Attribute)
  | done, [] => some done
  | done, (name, value) :: rest => do
    let found ← attributeNamespace? namespaces name.qualifier
    if done.any fun a => a.uri == found && a.name == name.base then none
    else attributes? namespaces (⟨found, name.base, value⟩ :: done) rest

/-- The values of the attributes of a tag. -/
def attributeValues? (value : List Char → Nat → Option (Nat × String)) :
    Nat → List RawAttribute → Option (Nat × List (Name × String))
  | count, [] => some (count, [])
  | count, a :: rest => do
    let (count, v) ← value a.value count
    let (count, values) ← attributeValues? value count rest
    return (count, (a.name, v) :: values)

/-- The namespaces and the attributes at the end of a tag; nothing waits any longer. -/
def Gathering.settle? (g : Gathering) : Option (Namespaces × List Attribute × Gathering) := do
  let namespaces := g.declared ++ g.namespaces
  let attributes ← attributes? namespaces [] g.waiting
  return (namespaces, attributes, { g with declared := [], waiting := [] })

/-- The element of a tag that ends here, still without children. -/
def Gathering.openElement? (g : Gathering) (name : Name) : Option (OpenElement × Gathering) := do
  let (namespaces, attributes, g) ← g.settle?
  if name.qualifier ≠ "" && (namespaces.lookup name.qualifier).isNone then none
  return (⟨name, attributes, namespaces, []⟩, g)

/-- The node of an element that is complete. -/
def OpenElement.close (e : OpenElement) : Node :=
  .element e.name.base e.attributes e.children.reverse

/-- What the references of a text are resolved with: the entities, how deep they may still nest,
and the gathering of an entity's value. -/
structure Resolver where
  entities : Entities
  levels : Nat
  content : List Char → Gathering → Option Gathering

def gatherRuns? (r : Resolver) : List Run → Gathering → Option Gathering
  | [], g => some g
  | .text s :: rest, g => gatherRuns? r rest (g.addNode (.text s))
  | .entity value :: rest, g => do
    let count ← countReference? r.levels g.count
    let g ← r.content value { g with count }
    gatherRuns? r rest { g with count := countAfter r.levels g.count }

/-- The value of one attribute. -/
def Resolver.attribute? (r : Resolver) (raw : List Char) (count : Nat) : Option (Nat × String) := do
  let (count, text) ← attributeText? r.entities r.levels raw count []
  return (count, String.ofList text.reverse)

/-- Takes in the name and the attributes of a tag. -/
def gatherTag? (r : Resolver) (name : Name) (raw : List RawAttribute) (g : Gathering) :
    Option Gathering := do
  if name.qualifier = "xmlns" then none
  let (count, values) ← attributeValues? r.attribute? g.count raw
  let (declared, waiting) ← declarations? g.declared g.waiting values
  return { g with count, declared, waiting }

/-- Gathers tokens. `tagSeen` holds once a tag has been opened among them: before that, none may
be closed. -/
def gatherTokens? (r : Resolver) : Bool → List Token → Gathering → Option Gathering
  | _, [], g => some g
  | tagSeen, .characters raw :: rest, g => do
    let pieces ← pieces? r.entities raw
    let g ← gatherRuns? r (runs (r.levels < maxNesting) false [] pieces) g
    gatherTokens? r tagSeen rest g
  | tagSeen, .verbatim raw :: rest, g =>
    gatherTokens? r tagSeen rest (g.addNode (.text (String.ofList (verbatimText [] raw))))
  | _, .openTag name raw :: rest, g => do
    let (e, g) ← (← gatherTag? r name raw g).openElement? name
    gatherTokens? r true rest { g with opened := e :: g.opened }
  | _, .emptyTag name raw :: rest, g => do
    let (e, g) ← (← gatherTag? r name raw g).openElement? name
    gatherTokens? r true rest (g.addNode e.close)
  | _, .brokenTag name raw :: rest, g => do
    gatherTokens? r true rest (← gatherTag? r name raw g)
  | tagSeen, .closeTag name :: rest, g => do
    let (_, _, g) ← g.settle?
    match tagSeen, g.opened with
    | true, e :: outer =>
      if e.name = name then
        gatherTokens? r true rest ({ g with opened := outer }.addNode e.close)
      else none
    | _, _ => none

/-- Gathers the value of an entity while `levels` more may nest inside of it. -/
def gatherEntity? (entities : Entities) : Nat → List Char → Gathering → Option Gathering
  | 0, value, g => do
    gatherTokens? ⟨entities, 0, fun _ _ => none⟩ false (← contentTokens? value) g
  | levels + 1, value, g => do
    gatherTokens? ⟨entities, levels + 1, gatherEntity? entities levels⟩ false
      (← contentTokens? value) g

/-- The first element that the tokens of a document make up. -/
def rootOfTokens? (entities : Entities) (tokens : List Token) : Option Node := do
  let r : Resolver := ⟨entities, maxNesting, gatherEntity? entities (maxNesting - 1)⟩
  let g ← gatherTokens? r true tokens .empty
  if !g.opened.isEmpty then none
  else g.outside.reverse.find? fun
    | .element .. => true
    | .text _ => false

end Danmaku.Markup
