import Danmaku.Proofs.Pattern.Nodes
import Mathlib.Data.List.Basic

/-!
# First definitions

The index of a document is made in one walk over its elements. What it comes to is said here
without the walk: a label names the first element in the order of the text that bears it, of each
kind apart, and every other one has left a warning (`ofRoot_labels_first`).
-/

namespace Danmaku

/-- The element is of the kind, and its label is this one, which is not empty. -/
def Element.bears (e : Element) (kind : Kind) (label : String) : Bool :=
  e.kind == kind && e.attribute? "label" == some label && !label.isEmpty

theorem Element.bears_iff {e : Element} {kind : Kind} {label : String} :
    e.bears kind label = true ↔ e.kind = kind ∧ e.label? = some label := by
  simp only [bears, Bool.and_eq_true, beq_iff_eq, Bool.not_eq_true']
  rw [and_assoc, and_congr_right_iff]
  intro _
  unfold label?
  cases found : e.attribute? "label" with
  | none => simp
  | some other =>
    by_cases empty : other.isEmpty = true
    · simp only [empty, ↓reduceIte, Option.some.injEq]
      constructor
      · rintro ⟨rfl, nonempty⟩
        exact absurd empty (by simp [nonempty])
      · intro h
        cases h
    · simp only [empty, Bool.false_eq_true, ↓reduceIte, Option.some.injEq, and_iff_left_iff_imp]
      rintro rfl
      simpa using empty

/-- The elements of a tree with their places, in the order of the text. -/
def Element.definitions (root : Element) : List Definition := root.nodes.mapIdx Definition.mk

/-- The kinds whose labels are indexed. -/
def Kind.isLabelled : Kind → Bool
  | .bullet | .action | .fire => true
  | _ => false

/-- `top`, with decimal digits after it or nothing. -/
def TopLabel (label : String) : Prop :=
  "top".toList <+: label.toList ∧ ∀ c ∈ label.toList.drop 3, '0' ≤ c ∧ c ≤ '9'

instance (label : String) : Decidable (TopLabel label) :=
  inferInstanceAs (Decidable (_ ∧ _))

namespace Definition

/-- The first that bears a label. -/
def first? (ds : List Definition) (kind : Kind) (label : String) : Option Definition :=
  ds.find? (·.element.bears kind label)

/-- None before it is of its kind and bears the label. -/
def isFirst (ds : List Definition) (d : Definition) (label : String) : Bool :=
  (first? (ds.take d.place) d.element.kind label).isNone

/-- An indexed action whose label is one that a pattern starts with. -/
def startsPattern (ds : List Definition) (d : Definition) : Bool :=
  match d.element.label? with
  | some label => d.element.kind == .action && decide (TopLabel label) && d.isFirst ds label
  | none => false

/-- The warning that a definition leaves which is not the first. -/
def duplicate? (ds : List Definition) (d : Definition) : Option Warning :=
  match d.element.label? with
  | some label =>
    if d.element.kind.isLabelled && !d.isFirst ds label then
      some (.duplicateLabel d.element.kind label)
    else none
  | none => none

end Definition

theorem LabelIndex.isTop_iff {label : String} : isTop label = true ↔ TopLabel label := by
  have digit (c : Char) : c.isDigit = true ↔ '0' ≤ c ∧ c ≤ '9' := by
    simp [Char.isDigit, Char.le_def]
  unfold isTop TopLabel
  split
  · rename_i rest text
    simp [text, digit]
  · rename_i other
    constructor
    · intro h
      cases h
    · rintro ⟨⟨rest, text⟩, -⟩
      exact absurd text.symm (other rest)

namespace LabelIndex

open Definition

/-- The definitions of a kind. -/
def labels (index : LabelIndex) : Kind → Labels
  | .bullet => index.bullets
  | .action => index.actions
  | .fire => index.fires
  | _ => []

/-- The index after the walk over some elements. -/
structure Indexes (index : LabelIndex) (ds : List Definition) : Prop where
  labels : ∀ {kind : Kind}, kind.isLabelled = true → ∀ label,
    (index.labels kind).lookup label = first? ds kind label
  tops : index.tops = ds.filter (startsPattern ds)
  duplicates : index.duplicates = ds.filterMap (duplicate? ds)

theorem empty_indexes : empty.Indexes [] where
  labels {kind} _ _ := by cases kind <;> rfl
  tops := rfl
  duplicates := rfl

theorem lookup_insert (labels : Labels) (label label' : String) (d : Definition) :
    (insert labels label d).1.lookup label' =
      (labels.lookup label').or (if label' = label then some d else none) := by
  unfold insert
  by_cases taken : (labels.lookup label).isSome = true
  · simp only [taken, ↓reduceIte]
    split
    · rename_i eq
      obtain ⟨first, found⟩ := Option.isSome_iff_exists.1 taken
      simp [eq, found]
    · simp
  · simp only [taken, Bool.false_eq_true, ↓reduceIte, List.lookup_append]
    congr 1
    by_cases eq : label' = label
    · simp [eq]
    · have ne : (label' == label) = false := by simpa using eq
      simp [List.lookup_cons, eq, ne]

theorem insert_taken (labels : Labels) (label : String) (d : Definition) :
    (insert labels label d).2 = (labels.lookup label).isSome := by
  unfold insert
  split
  · rename_i taken
    exact taken.symm
  · rename_i free
    exact (Bool.eq_false_iff.2 free).symm

section Add

variable {d : Definition}

theorem add_unlabelled (h : d.element.label? = none ∨ d.element.kind.isLabelled = false)
    (index : LabelIndex) : index.add d = index := by
  unfold LabelIndex.add
  split
  · rename_i hk hl
    simp [hk, hl, Kind.isLabelled] at h
  · rename_i hk hl
    simp [hk, hl, Kind.isLabelled] at h
  · rename_i hk hl
    simp [hk, hl, Kind.isLabelled] at h
  · rfl

/-- A definition is put among those of its kind, and noted. -/
theorem add_labelled {label : String} (hk : d.element.kind.isLabelled = true)
    (hl : d.element.label? = some label) (index : LabelIndex) :
    let kind := d.element.kind
    let taken := (insert (index.labels kind) label d).2
    (index.add d).labels kind = (insert (index.labels kind) label d).1 ∧
      (∀ other, other ≠ kind → (index.add d).labels other = index.labels other) ∧
      (index.add d).tops =
        (if kind == .action && isTop label && !taken then index.tops ++ [d] else index.tops) ∧
      (index.add d).duplicates = noteIf taken kind label index.duplicates := by
  cases kind : d.element.kind <;> rw [kind] at hk <;> try cases hk
  all_goals
    simp only [LabelIndex.add, kind, hl]
    refine ⟨rfl, fun other ne => ?_, by simp [labels], rfl⟩
    cases other <;> first | rfl | exact absurd rfl ne

end Add

section Snoc

variable {ds : List Definition} {d : Definition}

theorem first?_snoc (kind : Kind) (label : String) :
    first? (ds ++ [d]) kind label =
      (first? ds kind label).or (if d.element.bears kind label then some d else none) := by
  rw [first?, List.find?_append]
  congr 1
  cases h : d.element.bears kind label <;> simp [h]

/-- One that does not bear the label makes no difference. -/
theorem first?_snoc_of_not {kind : Kind} {label : String}
    (h : ¬ (d.element.kind = kind ∧ d.element.label? = some label)) :
    first? (ds ++ [d]) kind label = first? ds kind label := by
  rw [← Element.bears_iff] at h
  rw [first?_snoc, if_neg h, Option.or_none]

theorem isFirst_append {x : Definition} (h : x.place ≤ ds.length) (more : List Definition) :
    x.isFirst (ds ++ more) = x.isFirst ds := by
  funext label
  rw [isFirst, isFirst, List.take_append_of_le_length h]

/-- One that comes later makes no difference to those before. -/
theorem tops_snoc (placed : ∀ x ∈ ds, x.place ≤ ds.length) :
    (ds ++ [d]).filter (startsPattern (ds ++ [d])) =
      ds.filter (startsPattern ds) ++ if d.startsPattern (ds ++ [d]) then [d] else [] := by
  rw [List.filter_append]
  congr 1
  · refine List.filter_congr fun x mem => ?_
    rw [startsPattern, startsPattern, isFirst_append (placed x mem)]
  · cases h : d.startsPattern (ds ++ [d]) <;> simp [h]

theorem duplicates_snoc (placed : ∀ x ∈ ds, x.place ≤ ds.length) :
    (ds ++ [d]).filterMap (duplicate? (ds ++ [d])) =
      ds.filterMap (duplicate? ds) ++ (d.duplicate? (ds ++ [d])).toList := by
  rw [List.filterMap_append]
  congr 1
  refine List.filterMap_congr fun x mem => ?_
  rw [duplicate?, duplicate?, isFirst_append (placed x mem)]

theorem Indexes.add_unlabelled {index : LabelIndex} (h : index.Indexes ds)
    (placed : ∀ x ∈ ds, x.place ≤ ds.length)
    (unlabelled : d.element.label? = none ∨ d.element.kind.isLabelled = false) :
    (index.add d).Indexes (ds ++ [d]) := by
  rw [LabelIndex.add_unlabelled unlabelled]
  constructor
  · intro kind labelled label
    rw [h.labels labelled, first?_snoc_of_not]
    rintro ⟨rfl, hl⟩
    simp [labelled, hl] at unlabelled
  · have starts : d.startsPattern (ds ++ [d]) = false := by
      unfold startsPattern
      rcases unlabelled with hl | hk
      · simp only [hl]
      · have ne : (d.element.kind == .action) = false := by
          rw [beq_eq_false_iff_ne]
          rintro eq
          rw [eq] at hk
          cases hk
        split <;> simp [ne]
    simp [tops_snoc placed, starts, h.tops]
  · have duplicate : d.duplicate? (ds ++ [d]) = none := by
      unfold duplicate?
      rcases unlabelled with hl | hk
      · simp only [hl]
      · split <;> simp [hk]
    simp [duplicates_snoc placed, duplicate, h.duplicates]

theorem Indexes.add_labelled {index : LabelIndex} (h : index.Indexes ds)
    (place : d.place = ds.length) (placed : ∀ x ∈ ds, x.place ≤ ds.length) {label : String}
    (hk : d.element.kind.isLabelled = true) (hl : d.element.label? = some label) :
    (index.add d).Indexes (ds ++ [d]) := by
  obtain ⟨own, others, tops, duplicates⟩ := LabelIndex.add_labelled hk hl index
  have first : d.isFirst (ds ++ [d]) label = !(insert (index.labels d.element.kind) label d).2 := by
    rw [insert_taken, h.labels hk, isFirst_append (Nat.le_of_eq place), isFirst, place,
      List.take_length, Option.not_isSome]
  constructor
  · intro kind labelled label'
    by_cases same : kind = d.element.kind
    · rw [same, own, lookup_insert, h.labels hk, first?_snoc]
      have bears : d.element.bears d.element.kind label' = true ↔ label' = label := by
        rw [Element.bears_iff, hl, Option.some.injEq]
        exact ⟨fun h => h.2.symm, fun h => ⟨rfl, h.symm⟩⟩
      simp only [bears]
    · rw [others kind same, h.labels labelled, first?_snoc_of_not fun bears => same bears.1.symm]
  · rw [tops_snoc placed, tops, h.tops]
    simp only [startsPattern, hl, first, ← isTop_iff, Bool.decide_eq_true]
    split <;> simp
  · rw [duplicates_snoc placed, duplicates, h.duplicates]
    simp only [duplicate?, hl, hk, first, Bool.not_not, Bool.true_and, noteIf]
    split <;> simp

/-- The next element is taken in. -/
theorem Indexes.add {index : LabelIndex} (h : index.Indexes ds) (place : d.place = ds.length)
    (placed : ∀ x ∈ ds, x.place ≤ ds.length) : (index.add d).Indexes (ds ++ [d]) := by
  cases hk : d.element.kind.isLabelled with
  | false => exact h.add_unlabelled placed (.inr hk)
  | true =>
    cases hl : d.element.label? with
    | none => exact h.add_unlabelled placed (.inl hl)
    | some label => exact h.add_labelled place placed hk hl

end Snoc

/-- The walk over the elements that come next. -/
theorem Indexes.ofElements (es : List Element) :
    ∀ {index : LabelIndex} {ds : List Definition}, index.Indexes ds →
      (∀ x ∈ ds, x.place ≤ ds.length) →
      (index.ofElements ds.length es).Indexes
        (ds ++ es.mapIdx fun i e => ⟨ds.length + i, e⟩) := by
  induction es with
  | nil =>
    intro index ds h _
    simpa [LabelIndex.ofElements] using h
  | cons e rest ih =>
    intro index ds h placed
    -- The elements taken in so far have the places below the next one.
    have next := h.add (d := ⟨ds.length, e⟩) rfl placed
    have placed' : ∀ x ∈ ds ++ [Definition.mk ds.length e],
        x.place ≤ (ds ++ [Definition.mk ds.length e]).length := by
      intro x mem
      rw [List.length_append]
      rcases List.mem_append.1 mem with mem | mem
      · exact Nat.le_succ_of_le (placed x mem)
      · rw [List.mem_singleton.1 mem]
        exact Nat.le_succ _
    have all := ih next placed'
    rw [List.length_append, List.length_singleton] at all
    simpa only [LabelIndex.ofElements, List.mapIdx_cons, List.append_assoc,
      List.singleton_append, Nat.add_zero, Nat.add_assoc, Nat.add_comm 1] using all

end LabelIndex

/-! ## Documents -/

namespace Document

open Definition

/-- What the labels and warnings of a document come to. -/
structure LabelsFirst (d : Document) (ds : List Definition) (warnings : List Warning) : Prop where
  bullet : ∀ label, d.bullet? label = first? ds .bullet label
  action : ∀ label, d.action? label = first? ds .action label
  fire : ∀ label, d.fire? label = first? ds .fire label
  top : d.top? = first? ds .action "top"
  tops : d.tops = ds.filter (startsPattern ds)
  warnings : d.warnings = warnings ++ ds.filterMap (duplicate? ds)
  resolve : ∀ reference label, reference.attribute? "label" = some label →
    d.resolve? reference =
      match reference.kind with
      | .bulletRef => first? ds .bullet label
      | .actionRef => first? ds .action label
      | .fireRef => first? ds .fire label
      | _ => none
  unlabelled : ∀ reference, reference.attribute? "label" = none ∨
    reference.attribute? "label" = some "" → d.resolve? reference = none

theorem first?_empty (ds : List Definition) (kind : Kind) : first? ds kind "" = none := by
  refine List.find?_eq_none.2 fun d _ bears => ?_
  simp [Element.bears] at bears

theorem resolve?_labelled {d : Document} {reference : Element} {label : String}
    (h : reference.attribute? "label" = some label) :
    d.resolve? reference =
      match reference.kind with
      | .bulletRef => d.bullet? label
      | .actionRef => d.action? label
      | .fireRef => d.fire? label
      | _ => none := by
  unfold resolve?
  rw [h]
  cases reference.kind <;> rfl

theorem resolve?_unlabelled {d : Document} {reference : Element}
    (h : reference.attribute? "label" = none) : d.resolve? reference = none := by
  unfold resolve?
  rw [h]
  cases reference.kind <;> rfl

/-- **A label names the first element that bears it.** Of the elements of a tree in the order of the
text, a label of a bullet, an action or a fire names the first of its kind that bears it. A pattern
starts with those of these actions whose label is `top`, perhaps with digits after it. Every other
element that bears a label has left a warning, and the warnings are in the order of the text. A
reference names what its label names. -/
theorem ofRoot_labels_first (root : Element) (warnings : List Warning) :
    (ofRoot root warnings).LabelsFirst root.definitions warnings := by
  have indexes : (ofRoot root warnings).labels.Indexes root.definitions := by
    have walk := LabelIndex.empty_indexes.ofElements root.nodes (by simp)
    rw [ofRoot_labels]
    simpa [Element.definitions] using walk
  have bullet := indexes.labels (show Kind.bullet.isLabelled = true from rfl)
  have action := indexes.labels (show Kind.action.isLabelled = true from rfl)
  have fire := indexes.labels (show Kind.fire.isLabelled = true from rfl)
  have resolve (reference : Element) (label : String)
      (h : reference.attribute? "label" = some label) :
      (ofRoot root warnings).resolve? reference =
        match reference.kind with
        | .bulletRef => first? root.definitions .bullet label
        | .actionRef => first? root.definitions .action label
        | .fireRef => first? root.definitions .fire label
        | _ => none := by
    rw [resolve?_labelled h, bullet?, action?, fire?, ← bullet label, ← action label, ← fire label]
    rfl
  refine ⟨bullet, action, fire, action "top", indexes.tops, ?_, resolve, ?_⟩
  · exact congrArg (warnings ++ ·) indexes.duplicates
  · rintro reference (absent | empty)
    · exact resolve?_unlabelled absent
    · rw [resolve reference "" empty]
      cases reference.kind <;> first | exact first?_empty _ _ | rfl

example :
    let shot (direction : String) : Element :=
      .make .bullet [("label", "shot")] none [.leaf .direction direction]
    let d := Document.ofRoot (.make .bulletml [] none
      [.make .action [("label", "top1")] none [.make .fire [] none [shot "1"]], shot "2"]) []
    (d.bullet? "shot").map (·.place) = some 3 ∧ d.tops.map (·.place) = [1] ∧
      d.warnings = [.duplicateLabel .bullet "shot"] := by
  decide +kernel

end Document

end Danmaku
