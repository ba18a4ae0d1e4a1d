import Danmaku.Markup.Document
import Danmaku.Pattern.Document

/-!
# Loading documents

A document is made from markup whose root is named `bulletml`. Only the base of a name counts.
An element of an unknown name is kept as one of the unknown kind; a `type` that its element does
not know is kept too. Both leave a warning.
-/

namespace Danmaku

/-- Why a text makes no document. -/
inductive LoadError where
  | malformed
  | wrongRoot (name : String)
deriving DecidableEq

def LoadError.message : LoadError → String
  | malformed => "malformed XML"
  | wrongRoot name => "expected a `bulletml` root element, found `" ++ name ++ "`"

namespace Load

/-- Whether an element of a kind knows a value of its `type`. -/
def knowsType (kind : Kind) (value : String) : Bool :=
  match kind with
  | .bulletml => (Orientation.ofName? value).isSome
  | .direction => (DirectionType.ofName? value).isSome
  | kind => !kind.hasValueType || (ValueType.ofName? value).isSome

/-- The kind of an element by its name, and the warnings about the name and the `type`, of which
only an attribute without a namespace is looked at. -/
def kindOf (name : String) (attributes : List Markup.Attribute) : Kind × List Warning :=
  let (kind, unknown) : Kind × List Warning :=
    match Kind.ofTag? name with
    | some kind => (kind, [])
    | none => (.unknown, [.unknownElement name])
  let type? := attributes.find? fun a => a.uri == none && a.name == "type"
  match type? with
  | some a =>
    if knowsType kind a.value then (kind, unknown)
    else (kind, unknown ++ [.unknownType kind a.value])
  | none => (kind, unknown)

/-- What stands within an element: its elements, its text, if there is any, and the warnings. -/
structure Contents where
  elements : List Element
  text : Option String
  warnings : List Warning

/-- One text after another. -/
def joinText : Option String → Option String → Option String
  | some s, some t => some (s ++ t)
  | some s, none => some s
  | none, t => t

def Contents.append (c d : Contents) : Contents :=
  ⟨c.elements ++ d.elements, joinText c.text d.text, c.warnings ++ d.warnings⟩

/-- The element of a name, its attributes and what stands within, and the warnings in the order
of the text. -/
def elementOf (name : String) (attributes : List Markup.Attribute) (inner : Contents) :
    Element × List Warning :=
  let (kind, warnings) := kindOf name attributes
  (.make kind (attributes.map fun a => (a.name, a.value)) inner.text inner.elements,
    warnings ++ inner.warnings)

mutual

def ofNode : Markup.Node → Contents
  | .text s => ⟨[], some s, []⟩
  | .element name attributes children =>
    let (e, warnings) := elementOf name attributes (ofNodes children)
    ⟨[e], none, warnings⟩

def ofNodes : List Markup.Node → Contents
  | [] => ⟨[], none, []⟩
  | node :: rest => (ofNode node).append (ofNodes rest)

end

end Load

namespace Document

/-- The document of a markup tree; a text is no tree. -/
def ofMarkup : Markup.Node → Except LoadError Document
  | .text _ => .error .malformed
  | .element name attributes children =>
    if Kind.ofTag? name = some .bulletml then
      let (root, warnings) := Load.elementOf name attributes (Load.ofNodes children)
      .ok (.ofRoot root warnings)
    else .error (.wrongRoot name)

/-- The document of a text. -/
def parse (text : String) : Except LoadError Document :=
  match Markup.parse? text with
  | some root => ofMarkup root
  | none => .error .malformed

/-- What is logged when a document has been read from a text. -/
def parseLog (d : Document) : List LogLine :=
  ⟨.debug, "parsed BulletML document with " ++ toString d.root.children.length
    ++ " top-level elements"⟩ :: d.log

end Document

end Danmaku
