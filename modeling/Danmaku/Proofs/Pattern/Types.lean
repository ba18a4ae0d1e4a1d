import Danmaku.Pattern.Load
import Danmaku.Proofs.Pattern.Nodes
import Mathlib.Data.List.Basic
import Mathlib.Data.List.Forall2
import Mathlib.Data.List.Nodup

/-!
# Types that are not known

The `type` of an element is looked at twice. Loading warns about the one without a namespace;
using the element reads the last one that was given, of whatever namespace. A tag whose `type` has
no namespace is warned about exactly when its element takes the default instead; with another
namespace either can be without the other.
-/

namespace Danmaku

namespace Markup

/-- What stands in an opening tag. -/
structure Tag where
  name : String
  attributes : List Attribute

mutual

/-- The tags of a tree, in the order of the text. -/
def Node.tags : Node → List Tag
  | .text _ => []
  | .element name attributes children => ⟨name, attributes⟩ :: tagsOf children

def Node.tagsOf : List Node → List Tag
  | [] => []
  | node :: rest => node.tags ++ tagsOf rest

end

namespace Tag

def kind (t : Tag) : Kind := (Load.kindOf t.name t.attributes).1

def warnings (t : Tag) : List Warning := (Load.kindOf t.name t.attributes).2

/-- The `type` without a namespace. -/
def plainType? (t : Tag) : Option String :=
  (t.attributes.find? fun a => a.uri == none && a.name == "type").map (·.value)

/-- The last `type`, of whatever namespace. -/
def lastType? (t : Tag) : Option String :=
  (t.attributes.reverse.find? (·.name == "type")).map (·.value)

/-- There is a warning about the `type`. -/
def Warned (t : Tag) : Prop := ∃ value, .unknownType t.kind value ∈ t.warnings

/-- No `type` is in a namespace, and no attribute is given twice. -/
structure Plain (t : Tag) : Prop where
  bare : ∀ a ∈ t.attributes, a.name = "type" → a.uri = none
  unique : (t.attributes.map fun a => (a.uri, a.name)).Nodup

end Tag

end Markup

open Load (knowsType)

/-- The `type` of the element is none of those of its kind. -/
def Element.misread (e : Element) : Bool :=
  match e.kind with
  | .bulletml => (e.typeBy? Orientation.ofName?).isNone
  | .direction => (e.typeBy? DirectionType.ofName?).isNone
  | .speed | .horizontal | .vertical => (e.typeBy? ValueType.ofName?).isNone
  | _ => false

theorem lookup_cons_if (key name value : String) (rest : List (String × String)) :
    ((name, value) :: rest).lookup key = if key = name then some value else rest.lookup key := by
  rw [List.lookup_cons]
  by_cases same : key = name
  · simp [same]
  · simp [same, beq_false_of_ne same]

namespace Element

theorem lookup_setAttribute (key name value : String) (given : List (String × String)) :
    (setAttribute name value given).lookup key =
      if key = name then some value else given.lookup key := by
  induction given with
  | nil => rw [setAttribute, lookup_cons_if]
  | cons entry rest ih =>
    obtain ⟨other, old⟩ := entry
    rw [setAttribute]
    by_cases here : other = name
    · subst here
      rw [if_pos rfl, lookup_cons_if, lookup_cons_if]
      split <;> rfl
    · rw [if_neg here, lookup_cons_if, lookup_cons_if, ih]
      by_cases same : key = name
      · subst same
        rw [if_neg (Ne.symm here)]
        simp
      · simp [same]

theorem lookup_foldl_setAttribute (key : String) (given done : List (String × String)) :
    (given.foldl (fun done (name, value) => setAttribute name value done) done).lookup key =
      (given.reverse.lookup key).or (done.lookup key) := by
  induction given generalizing done with
  | nil => rfl
  | cons entry rest ih =>
    obtain ⟨name, value⟩ := entry
    rw [List.foldl_cons, ih, List.reverse_cons, List.lookup_append, Option.or_assoc,
      lookup_setAttribute, lookup_cons_if]
    congr 1
    split <;> rfl

/-- Of the values for an attribute the last is kept. -/
theorem attribute?_make (kind : Kind) (given : List (String × String)) (text : Option String)
    (children : List Element) (key : String) :
    (make kind given text children).attribute? key = given.reverse.lookup key := by
  show (given.foldl _ []).lookup key = _
  rw [lookup_foldl_setAttribute]
  simp

theorem misread_iff (e : Element) :
    e.misread = true ↔
      ∃ value, e.attribute? "type" = some value ∧ knowsType e.kind value = false := by
  unfold misread typeBy? knowsType
  cases e.attribute? "type" <;> cases e.kind <;> simp [Kind.hasValueType]

end Element

namespace Markup.Tag

variable {t : Tag}

theorem warned_iff :
    t.Warned ↔ ∃ value, t.plainType? = some value ∧ knowsType t.kind value = false := by
  unfold Warned warnings plainType? kind Load.kindOf
  cases t.attributes.find? fun a => a.uri == none && a.name == "type" with
  | none => cases Kind.ofTag? t.name <;> simp
  | some a =>
    cases Kind.ofTag? t.name with
    | none => cases known : knowsType .unknown a.value <;> simp [known]
    | some kind => cases known : knowsType kind a.value <;> simp [known]

theorem lookup_lastType? :
    (t.attributes.map fun a => (a.name, a.value)).reverse.lookup "type" = t.lastType? := by
  rw [← List.map_reverse, lastType?]
  induction t.attributes.reverse with
  | nil => rfl
  | cons a rest ih =>
    rw [List.map_cons, lookup_cons_if, List.find?_cons, ih]
    by_cases named : a.name = "type"
    · simp [named]
    · simp [beq_false_of_ne named, Ne.symm named]

/-- An element is what its tag says: which `type` is warned about, and which one is read. -/
structure Reads (t : Tag) (e : Element) : Prop where
  kind : e.kind = t.kind
  warned : t.Warned ↔ ∃ value, t.plainType? = some value ∧ knowsType t.kind value = false
  misread : e.misread = true ↔ ∃ value, t.lastType? = some value ∧ knowsType t.kind value = false

theorem reads_elementOf (inner : Load.Contents) :
    t.Reads (Load.elementOf t.name t.attributes inner).1 := by
  have kept : (Load.elementOf t.name t.attributes inner).1.attribute? "type" = t.lastType? := by
    rw [← lookup_lastType?]
    exact Element.attribute?_make _ _ _ _ _
  refine ⟨rfl, warned_iff, ?_⟩
  rw [Element.misread_iff, kept]
  rfl

theorem Reads.warned_iff_misread {e : Element} (h : t.Reads e) (same : t.plainType? = t.lastType?) :
    t.Warned ↔ e.misread = true := by
  rw [h.warned, h.misread, same]

theorem Plain.same (h : t.Plain) : t.plainType? = t.lastType? := by
  -- There is at most one attribute of this name, so it is no matter from which end it is looked for.
  have only : ∀ a ∈ t.attributes, ∀ b ∈ t.attributes, a.name = "type" → b.name = "type" → a = b := by
    intro a ha b hb na nb
    refine List.inj_on_of_nodup_map h.unique ha hb ?_
    rw [h.bare a ha na, h.bare b hb nb, na, nb]
  unfold plainType? lastType?
  cases last : t.attributes.reverse.find? (·.name == "type") with
  | none =>
    have none_named : ∀ a ∈ t.attributes, a.name ≠ "type" := by
      intro a ha
      simpa using List.find?_eq_none.1 last a (List.mem_reverse.2 ha)
    rw [List.find?_eq_none.2 fun a ha => by simp [none_named a ha]]
  | some b =>
    have nb : b.name = "type" := by simpa using List.find?_some last
    have hb : b ∈ t.attributes := List.mem_reverse.1 (List.mem_of_find?_eq_some last)
    cases first : t.attributes.find? fun a => a.uri == none && a.name == "type" with
    | none =>
      have := List.find?_eq_none.1 first b hb
      simp [nb, h.bare b hb nb] at this
    | some a =>
      have found : a.uri = none ∧ a.name = "type" := by simpa using List.find?_some first
      rw [only a (List.mem_of_find?_eq_some first) b hb found.2 nb]

end Markup.Tag

/-! ## Whole trees -/

namespace Load

open Markup

mutual

theorem ofNode_warnings : ∀ node : Node, (ofNode node).warnings = node.tags.flatMap Tag.warnings
  | .text _ => rfl
  | .element name attributes children => by
    rw [Node.tags, List.flatMap_cons, ← ofNodes_warnings children]
    rfl

theorem ofNodes_warnings :
    ∀ nodes : List Node, (ofNodes nodes).warnings = (Node.tagsOf nodes).flatMap Tag.warnings
  | [] => rfl
  | node :: rest => by
    rw [Node.tagsOf, List.flatMap_append, ← ofNode_warnings node, ← ofNodes_warnings rest]
    rfl

end

mutual

theorem ofNode_reads :
    ∀ node : Node, List.Forall₂ Tag.Reads node.tags ((ofNode node).elements.flatMap Element.nodes)
  | .text _ => .nil
  | .element name attributes children => by
    have nodes : (ofNode (.element name attributes children)).elements.flatMap Element.nodes =
        (elementOf name attributes (ofNodes children)).1 ::
          (ofNodes children).elements.flatMap Element.nodes := by
      simp only [ofNode, List.flatMap_cons, List.flatMap_nil, List.append_nil, Element.nodes_eq]
      rfl
    rw [nodes, Node.tags]
    exact .cons (Tag.reads_elementOf (t := ⟨name, attributes⟩) _) (ofNodes_reads children)

theorem ofNodes_reads : ∀ nodes : List Node,
    List.Forall₂ Tag.Reads (Node.tagsOf nodes) ((ofNodes nodes).elements.flatMap Element.nodes)
  | [] => .nil
  | node :: rest => by
    have elements : (ofNodes (node :: rest)).elements =
        (ofNode node).elements ++ (ofNodes rest).elements := rfl
    rw [elements, List.flatMap_append, Node.tagsOf]
    exact List.rel_append (ofNode_reads node) (ofNodes_reads rest)

end

/-- **The warnings about the `type` of an element, and how it is read.** The warnings of a tree are
those of its tags. A tag is warned about when the `type` without a namespace is not one of its
kind, and its element takes the default instead of a `type` when the last one is not. When no
`type` is in a namespace both are the same. -/
theorem types_warned (node : Node) :
    (ofNode node).warnings = node.tags.flatMap Tag.warnings ∧
      List.Forall₂ (fun t e => t.Reads e ∧ (t.Plain → (t.Warned ↔ e.misread = true))) node.tags
        ((ofNode node).elements.flatMap Element.nodes) := by
  refine ⟨ofNode_warnings node, (ofNode_reads node).imp fun t e reads => ⟨reads, ?_⟩⟩
  intro plain
  exact reads.warned_iff_misread plain.same

/-- The tag of a direction whose `type` is none. -/
def bogus : Tag := ⟨"direction", [⟨none, "type", "bogus"⟩]⟩

theorem bogus_warned :
    bogus.Plain ∧ bogus.Warned ∧
      ∃ e ∈ (ofNode (.element bogus.name bogus.attributes [.text "0"])).elements,
        e.misread = true := by
  have plain : bogus.Plain := ⟨by decide, by decide⟩
  obtain ⟨-, pairs⟩ := types_warned (.element bogus.name bogus.attributes [.text "0"])
  cases pairs with
  | cons pair _ =>
    have misread := pair.1.misread.2 ⟨"bogus", by decide, by decide⟩
    exact ⟨plain, (pair.2 plain).2 misread, _, List.mem_singleton.2 rfl, misread⟩

end Load

/-- A direction whose `type` is in a namespace, in a document that is fine otherwise. -/
def foreignType : Markup.Node :=
  .element "bulletml" [] [.element "action" [⟨none, "label", "top"⟩] [.element "fire" []
    [.element "direction" [⟨some "y", "type", "bogus"⟩] [.text "0"], .element "bullet" [] []]]]

/-- There is no warning about a `type` in a namespace, but it is read. -/
theorem foreignType_misread :
    ∃ d, Document.ofMarkup foreignType = .ok d ∧ d.warnings = [] ∧
      ∃ e ∈ d.root.nodes, e.kind = .direction ∧ e.misread = true := by
  exact ⟨_, rfl, by decide, by decide⟩

/-- With both, the one without a namespace is warned about even when it is not read. -/
example :
    let read := Load.ofNode (.element "direction"
      [⟨none, "type", "bogus"⟩, ⟨some "y", "type", "absolute"⟩] [.text "0"])
    read.warnings = [.unknownType .direction "bogus"] ∧
      read.elements.map Element.misread = [false] := by
  decide

end Danmaku
