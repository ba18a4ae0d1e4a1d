import Danmaku.Log
import Danmaku.Pattern.Element

/-!
# Documents

A document is a tree of elements with an index of its labelled bullets, actions and fires. The
first definition of a label in the order of the text counts; every later one of the same kind
leaves a warning.
-/

namespace Danmaku

/-- What is odd about a document. None of it keeps the document from being used. -/
inductive Warning where
  | unknownElement (name : String)
  | unknownType (element : Kind) (value : String)
  | duplicateLabel (element : Kind) (label : String)
deriving DecidableEq

def Warning.message : Warning → String
  | unknownElement name => "unknown element `" ++ name ++ "`"
  | unknownType element value =>
    "unknown type `" ++ value ++ "` for `" ++ element.tag ++ "`; using the default"
  | duplicateLabel element label =>
    "duplicate " ++ element.tag ++ " label `" ++ label ++ "`; keeping the first definition"

/-- An element and its place among the elements of the tree, counted from the root. -/
structure Definition where
  place : Nat
  element : Element
deriving Inhabited

/-- The definitions of one kind by label, in the order of the text. -/
abbrev Labels := List (String × Definition)

/-- The definitions that have been met so far. -/
structure LabelIndex where
  bullets : Labels
  actions : Labels
  fires : Labels
  tops : List Definition
  duplicates : List Warning

namespace LabelIndex

def empty : LabelIndex := ⟨[], [], [], [], []⟩

/-- The labels of actions that a pattern starts with: `top`, and decimal digits. -/
def isTop (label : String) : Bool :=
  match label.toList with
  | 't' :: 'o' :: 'p' :: rest => rest.all Char.isDigit
  | _ => false

/-- Adds a definition unless its label is taken, and says whether it was. -/
def insert (labels : Labels) (label : String) (d : Definition) : Labels × Bool :=
  if (labels.lookup label).isSome then (labels, true) else (labels ++ [(label, d)], false)

/-- Adds the warning if the label was taken. -/
def noteIf (taken : Bool) (kind : Kind) (label : String) (duplicates : List Warning) :
    List Warning :=
  if taken then duplicates ++ [.duplicateLabel kind label] else duplicates

/-- Takes in the next element of the tree. -/
def add (index : LabelIndex) (d : Definition) : LabelIndex :=
  match d.element.kind, d.element.label? with
  | .bullet, some label =>
    let (bullets, taken) := insert index.bullets label d
    { index with bullets, duplicates := noteIf taken .bullet label index.duplicates }
  | .action, some label =>
    let (actions, taken) := insert index.actions label d
    { index with
      actions
      tops := if isTop label && !taken then index.tops ++ [d] else index.tops
      duplicates := noteIf taken .action label index.duplicates }
  | .fire, some label =>
    let (fires, taken) := insert index.fires label d
    { index with fires, duplicates := noteIf taken .fire label index.duplicates }
  | _, _ => index

mutual

/-- Takes in an element, whose place is given, and then what is below it; the place after them is
given back. -/
def walk (index : LabelIndex) (place : Nat) : Element → LabelIndex × Nat
  | ⟨kind, attributes, text, children⟩ =>
    (index.add ⟨place, ⟨kind, attributes, text, children⟩⟩).walkAll (place + 1) children

def walkAll (index : LabelIndex) (place : Nat) : List Element → LabelIndex × Nat
  | [] => (index, place)
  | e :: rest =>
    let (index, place) := index.walk place e
    index.walkAll place rest

end

end LabelIndex

structure Document where
  root : Element
  orientation : Orientation
  labels : LabelIndex
  warnings : List Warning

namespace Document

/-- The document of a tree; the warnings of its making come before those of its labels. -/
def ofRoot (root : Element) (warnings : List Warning) : Document :=
  let (labels, _) := LabelIndex.empty.walk 0 root
  { root
    orientation := (root.typeBy? Orientation.ofName?).getD default
    labels
    warnings := warnings ++ labels.duplicates }

/-- Every warning is logged as the document is made. -/
def log (d : Document) : List LogLine := d.warnings.map fun w => ⟨.warn, w.message⟩

def bullet? (d : Document) (label : String) : Option Definition := d.labels.bullets.lookup label

def action? (d : Document) (label : String) : Option Definition := d.labels.actions.lookup label

def fire? (d : Document) (label : String) : Option Definition := d.labels.fires.lookup label

/-- The action that is labelled exactly `top`. -/
def top? (d : Document) : Option Definition := d.action? "top"

/-- The actions that a pattern starts with, in the order of the text. -/
def tops (d : Document) : List Definition := d.labels.tops

/-- The definition that a reference names; other elements have none. -/
def resolve? (d : Document) (reference : Element) : Option Definition :=
  match reference.kind, reference.attribute? "label" with
  | .bulletRef, some label => d.bullet? label
  | .actionRef, some label => d.action? label
  | .fireRef, some label => d.fire? label
  | _, _ => none

end Document

end Danmaku
