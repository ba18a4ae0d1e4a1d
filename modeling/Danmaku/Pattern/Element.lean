import Danmaku.Pattern.Kind
import Danmaku.Text.Blank

/-!
# Pattern elements

A tree of elements. Only an element without children has a text, and that text is trimmed.
-/

namespace Danmaku

/-- An element; each attribute has one value. -/
structure Element where
  kind : Kind
  attributes : List (String × String)
  text : Option String
  children : List Element
deriving Inhabited

namespace Element

/-- Sets an attribute. -/
def setAttribute (name value : String) : List (String × String) → List (String × String)
  | [] => [(name, value)]
  | (n, v) :: rest =>
    if n = name then (name, value) :: rest else (n, v) :: setAttribute name value rest

/-- The element with the given parts; of two values for an attribute the later counts. -/
def make (kind : Kind) (attributes : List (String × String)) (text : Option String)
    (children : List Element) : Element where
  kind := kind
  attributes := attributes.foldl (fun done (name, value) => setAttribute name value done) []
  text := if children.isEmpty then text.map Text.trim else none
  children := children

/-- An element with nothing but a text. -/
def leaf (kind : Kind) (text : String) : Element := make kind [] (some text) []

def attribute? (e : Element) (name : String) : Option String := e.attributes.lookup name

/-- The label, unless it is empty. -/
def label? (e : Element) : Option String :=
  match e.attribute? "label" with
  | some label => if label.isEmpty then none else some label
  | none => none

/-- The text, empty when there is none. -/
def body (e : Element) : String := e.text.getD ""

/-- The first child of a kind. -/
def child? (e : Element) (kind : Kind) : Option Element := e.children.find? (·.kind == kind)

def childrenOf (e : Element) (kind : Kind) : List Element := e.children.filter (·.kind == kind)

/-- The `type` attribute; without one it is the default, and one that is no member is none. -/
def typeBy? {α : Type} [Inhabited α] (e : Element) (ofName? : String → Option α) : Option α :=
  match e.attribute? "type" with
  | some name => ofName? name
  | none => some default

/-- How the value is meant; a `type` that is no member is taken as missing. -/
def valueType (e : Element) : ValueType := (e.typeBy? ValueType.ofName?).getD default

/-- How the direction is meant; a `type` that is no member is taken as missing. -/
def directionType (e : Element) : DirectionType := (e.typeBy? DirectionType.ofName?).getD default

mutual

/-- The elements of a tree, each before its children, with their depths. -/
def preorder (depth : Nat) : Element → List (Nat × Element)
  | ⟨kind, attributes, text, children⟩ =>
    (depth, ⟨kind, attributes, text, children⟩) :: preorderAll (depth + 1) children

def preorderAll (depth : Nat) : List Element → List (Nat × Element)
  | [] => []
  | e :: rest => preorder depth e ++ preorderAll depth rest

end

/-- The elements of a tree, each before its children. -/
def nodes (e : Element) : List Element := (e.preorder 0).map (·.2)

end Element

end Danmaku
