import Danmaku.Pattern.Document

/-!
# The nodes of a document

The nodes of a tree are its root and the nodes of its children, so a child of a node is a node
again. The walk that makes the index of a document meets each of them once, in their order
(`LabelIndex.walk_eq`). A reference of a document that resolves names a node of its tree, of the
kind that the reference asks for.
-/

namespace Danmaku

namespace Element

mutual

theorem map_preorder (depth depth' : Nat) :
    ∀ e : Element, (e.preorder depth).map (·.2) = (e.preorder depth').map (·.2)
  | ⟨kind, attributes, text, children⟩ => by
    simp only [preorder, List.map_cons]
    rw [map_preorderAll (depth + 1) (depth' + 1) children]

theorem map_preorderAll (depth depth' : Nat) :
    ∀ es : List Element, (preorderAll depth es).map (·.2) = (preorderAll depth' es).map (·.2)
  | [] => rfl
  | e :: rest => by
    simp only [preorderAll, List.map_append]
    rw [map_preorder depth depth' e, map_preorderAll depth depth' rest]

end

theorem preorderAll_nodes (depth : Nat) (es : List Element) :
    (preorderAll depth es).map (·.2) = es.flatMap nodes := by
  induction es with
  | nil => rfl
  | cons e rest ih =>
    simp only [preorderAll, List.map_append, List.flatMap_cons, ih]
    rw [map_preorder depth 0 e, nodes]

theorem nodes_eq (e : Element) : e.nodes = e :: e.children.flatMap nodes := by
  obtain ⟨kind, attributes, text, children⟩ := e
  simp only [nodes, preorder, List.map_cons, preorderAll_nodes]

theorem self_mem_nodes (e : Element) : e ∈ e.nodes := by
  rw [nodes_eq]
  exact List.mem_cons_self

mutual

theorem child_mem_nodes {a c : Element} (hc : c ∈ a.children) :
    ∀ e : Element, a ∈ e.nodes → c ∈ e.nodes
  | ⟨kind, attributes, text, children⟩, ha => by
    rw [nodes_eq] at ha ⊢
    refine List.mem_cons_of_mem _ ?_
    rcases List.mem_cons.1 ha with rfl | ha
    · exact List.mem_flatMap.2 ⟨c, hc, self_mem_nodes c⟩
    · exact child_mem_flatMap_nodes hc children ha

theorem child_mem_flatMap_nodes {a c : Element} (hc : c ∈ a.children) :
    ∀ es : List Element, a ∈ es.flatMap nodes → c ∈ es.flatMap nodes
  | e :: rest, ha => by
    simp only [List.flatMap_cons, List.mem_append] at ha ⊢
    rcases ha with ha | ha
    · exact .inl (child_mem_nodes hc e ha)
    · exact .inr (child_mem_flatMap_nodes hc rest ha)

end

mutual

/-- The nodes of a node are nodes. -/
theorem nodes_subset {e : Element} :
    ∀ b : Element, b ∈ e.nodes → ∀ a ∈ b.nodes, a ∈ e.nodes
  | ⟨kind, attributes, text, children⟩, hb, a, ha => by
    rw [nodes_eq] at ha
    rcases List.mem_cons.1 ha with rfl | ha
    · exact hb
    · exact flatMap_nodes_subset children (fun c hc => child_mem_nodes hc e hb) a ha

theorem flatMap_nodes_subset {e : Element} :
    ∀ es : List Element, (∀ c ∈ es, c ∈ e.nodes) → ∀ a ∈ es.flatMap nodes, a ∈ e.nodes
  | c :: rest, h, a, ha => by
    rw [List.flatMap_cons, List.mem_append] at ha
    rcases ha with ha | ha
    · exact nodes_subset c (h c List.mem_cons_self) a ha
    · exact flatMap_nodes_subset rest (fun c' hc' => h c' (List.mem_cons_of_mem _ hc')) a ha

end

end Element

namespace LabelIndex

/-- The index of elements that stand one after the other from the given place on. -/
def ofElements (index : LabelIndex) (place : Nat) : List Element → LabelIndex
  | [] => index
  | e :: rest => ofElements (index.add ⟨place, e⟩) (place + 1) rest

theorem ofElements_append (es es' : List Element) : ∀ (index : LabelIndex) (place : Nat),
    index.ofElements place (es ++ es') =
      (index.ofElements place es).ofElements (place + es.length) es' := by
  induction es with
  | nil => exact fun _ _ => rfl
  | cons e es ih =>
    intro index place
    rw [List.cons_append, ofElements, ih, ofElements, List.length_cons, Nat.add_right_comm,
      Nat.add_assoc]

mutual

/-- The walk takes in the nodes of a tree, one after the other. -/
theorem walk_eq (index : LabelIndex) (place : Nat) : ∀ e : Element,
    index.walk place e = (index.ofElements place e.nodes, place + e.nodes.length)
  | ⟨kind, attributes, text, children⟩ => by
    rw [walk, walkAll_eq _ _ children, Element.nodes_eq, ofElements, List.length_cons,
      Nat.add_right_comm, Nat.add_assoc]

theorem walkAll_eq (index : LabelIndex) (place : Nat) : ∀ es : List Element,
    index.walkAll place es =
      (index.ofElements place (es.flatMap Element.nodes),
        place + (es.flatMap Element.nodes).length)
  | [] => rfl
  | e :: rest => by
    simp only [walkAll, walk_eq index place e, walkAll_eq _ _ rest, List.flatMap_cons,
      ofElements_append, List.length_append, Nat.add_assoc]

end

end LabelIndex

theorem Document.ofRoot_labels (root : Element) (warnings : List Warning) :
    (ofRoot root warnings).labels = LabelIndex.empty.ofElements 0 root.nodes := by
  simp only [ofRoot, LabelIndex.walk_eq]

/-- Each definition is one of `nodes`, of the given kind. -/
def Labels.Name (labels : Labels) (kind : Kind) (nodes : List Element) : Prop :=
  ∀ label d, (label, d) ∈ labels → d.element.kind = kind ∧ d.element ∈ nodes

namespace LabelIndex

/-- Whatever is labelled is one of `nodes`. -/
structure Within (index : LabelIndex) (nodes : List Element) : Prop where
  bullets : index.bullets.Name .bullet nodes
  actions : index.actions.Name .action nodes
  fires : index.fires.Name .fire nodes

theorem insert_name {labels : Labels} {kind : Kind} {nodes : List Element}
    (h : labels.Name kind nodes) (label : String) {d : Definition} (hk : d.element.kind = kind)
    (hd : d.element ∈ nodes) : (insert labels label d).1.Name kind nodes := by
  unfold insert
  split
  · exact h
  · intro label' d' mem
    rcases List.mem_append.1 mem with mem | mem
    · exact h label' d' mem
    · obtain ⟨rfl, rfl⟩ := Prod.mk.inj (List.mem_singleton.1 mem)
      exact ⟨hk, hd⟩

theorem Within.add {index : LabelIndex} {nodes : List Element} (h : index.Within nodes)
    {d : Definition} (hd : d.element ∈ nodes) : (index.add d).Within nodes := by
  unfold LabelIndex.add
  split
  · exact { h with bullets := insert_name h.bullets _ ‹_› hd }
  · exact { h with actions := insert_name h.actions _ ‹_› hd }
  · exact { h with fires := insert_name h.fires _ ‹_› hd }
  · exact h

theorem Within.ofElements {nodes : List Element} (es : List Element) (hes : ∀ e ∈ es, e ∈ nodes) :
    ∀ {index : LabelIndex} (place : Nat), index.Within nodes →
      (index.ofElements place es).Within nodes := by
  induction es with
  | nil => exact fun _ h => h
  | cons e rest ih =>
    intro index place h
    have he := hes e List.mem_cons_self
    exact ih (fun e' he' => hes e' (List.mem_cons_of_mem _ he')) (place + 1) (h.add he)

theorem empty_within (nodes : List Element) : empty.Within nodes := by
  constructor <;> exact fun _ _ mem => absurd mem List.not_mem_nil

end LabelIndex

namespace Document

theorem ofRoot_within (root : Element) (warnings : List Warning) :
    (ofRoot root warnings).labels.Within root.nodes := by
  rw [ofRoot_labels]
  exact .ofElements _ (fun _ he => he) 0 (LabelIndex.empty_within _)

/-- The kind of what a reference names. -/
def named : Kind → Kind
  | .bulletRef => .bullet
  | .actionRef => .action
  | .fireRef => .fire
  | kind => kind

theorem lookup_name {labels : Labels} {kind : Kind} {nodes : List Element}
    (h : labels.Name kind nodes) {label : String} {d : Definition}
    (found : labels.lookup label = some d) : d.element.kind = kind ∧ d.element ∈ nodes := by
  obtain ⟨before, after, rfl, -⟩ := List.lookup_eq_some_iff.1 found
  exact h label d (by simp)

/-- A reference that resolves names a node. -/
theorem resolve?_mem {root : Element} {warnings : List Warning} {reference : Element}
    {d : Definition} (h : (ofRoot root warnings).resolve? reference = some d) :
    d.element.kind = named reference.kind ∧ d.element ∈ root.nodes := by
  have within := ofRoot_within root warnings
  unfold resolve? at h
  split at h
  · rename_i label hk _
    rw [hk]
    exact lookup_name within.bullets h
  · rename_i label hk _
    rw [hk]
    exact lookup_name within.actions h
  · rename_i label hk _
    rw [hk]
    exact lookup_name within.fires h
  · cases h

/-- The actions of a document, labelled or not. -/
def actions (d : Document) : List Element := d.root.nodes.filter (·.kind == .action)

theorem mem_actions {d : Document} {e : Element} :
    e ∈ d.actions ↔ e ∈ d.root.nodes ∧ e.kind = .action := by
  simp [actions]

end Document

end Danmaku
