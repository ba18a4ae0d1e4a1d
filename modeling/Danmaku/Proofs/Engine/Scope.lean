import Danmaku.Proofs.Engine.Move
import Danmaku.Proofs.Engine.Trace

/-!
# Scopes

Which texts a command reads, in which order, and under which parameters. What a command reads
itself it reads under the parameters of its frame; so are the `param` children of a reference, and
what the reference names is read under their values and nothing else. `command_traced` goes through
the commands once, and `step_traced` says the same of a step.
-/

namespace Danmaku

namespace Element

/-- The value goes on from what the sequences have come to. -/
def GoesOn (e : Element) : Prop :=
  e.kind.hasValueType = true ∧ e.attribute? "type" = some "sequence"

/-- The first children of the kinds, as far as there are any. -/
def firsts (e : Element) (kinds : List Kind) : List Element := kinds.filterMap e.child?

/-- The first child of a kind and the first `term`, if there are both. -/
def changing (e : Element) (kind : Kind) : List Element :=
  match e.child? kind, e.child? .term with
  | some child, some term => [child, term]
  | _, _ => []

/-- What a command reads that neither enters an action nor fires. -/
def bodies? (e : Element) : Option (List Element) :=
  match e.kind with
  | .wait => some [e]
  | .changeDirection => some (e.changing .direction)
  | .changeSpeed => some (e.changing .speed)
  | .accel =>
    some (if (e.child? .term).isSome then e.firsts [.horizontal, .vertical, .term] else [])
  | .repetition | .fire | .fireRef | .action | .actionRef => none
  | _ => some []

theorem child?_kind {e child : Element} {kind : Kind} (h : e.child? kind = some child) :
    child.kind = kind := by
  simpa using List.find?_some h

theorem firsts_append (e : Element) (kinds kinds' : List Kind) :
    e.firsts (kinds ++ kinds') = e.firsts kinds ++ e.firsts kinds' :=
  List.filterMap_append

theorem valueType_sequence {e : Element} (h : e.valueType = .sequence) :
    e.attribute? "type" = some "sequence" := by
  unfold valueType typeBy? at h
  cases given : e.attribute? "type" with
  | none =>
    rw [given] at h
    cases h
  | some name =>
    simp only [given, ValueType.ofName?] at h
    split at h
    case h_3 => rfl
    all_goals cases h

theorem directionType_sequence {e : Element} (h : e.directionType = .sequence) :
    e.attribute? "type" = some "sequence" := by
  unfold directionType typeBy? at h
  cases given : e.attribute? "type" with
  | none =>
    rw [given] at h
    cases h
  | some name =>
    simp only [given, DirectionType.ofName?] at h
    split at h
    case h_4 => rfl
    all_goals cases h

end Element

/-- What a cursor plays, and under which parameters. -/
def Cursor.scope (c : Cursor) : Element × Parameters := (c.action, c.parameters)

/-- The cursor that an effect puts on the stack. -/
def Effect.cursor? : Effect → Option Cursor
  | enter _ cursor => some cursor
  | replace cursor => some cursor
  | _ => none

/-- An effect enters nothing but the action that was called, under its parameters. -/
def Effect.Enters (effect : Effect) (called : Option (Element × Parameters)) : Prop :=
  ∀ cursor, effect.cursor? = some cursor →
    ∃ action q depth, called = some (action, q) ∧ cursor = .enter action q depth

namespace Lexical

/-- Elements are read under parameters, one after the other. -/
inductive Under (p : Parameters) : List Element → List Access → Prop
  | nil : Under p [] []
  | value {e : Element} {es : List Element} {trace : List Access} (x : Binary32)
      (rest : Under p es trace) : Under p (e :: es) (.value e p x :: trace)
  | goOn {e : Element} {es : List Element} {trace : List Access} (x : Binary32) (h : e.GoesOn)
      (rest : Under p es trace) : Under p (e :: es) (.value e p x :: .resume e :: trace)

/-- The parameters that a reference passes on: the values of its `param` children, read under those
around it. -/
def Binds (p : Parameters) (reference : Element) (trace : List Access) (q : Parameters) : Prop :=
  ∃ xs : List Binary32, xs.length = (reference.childrenOf .param).length ∧
    trace = ((reference.childrenOf .param).zip xs).map (fun child => .value child.1 p child.2) ∧
    q = .ofValues xs

variable (d : Document)

/-- The action that an element stands for, and its parameters: those around it, or those that the
reference passes on. -/
inductive Calls (p : Parameters) (e : Element) :
    List Access → Option (Element × Parameters) → Prop
  | inline (h : e.kind = .action) : Calls p e [] (some (e, p))
  | reference {definition : Definition} {trace : List Access} {q : Parameters}
      (h : e.kind = .actionRef) (named : d.resolve? e = some definition)
      (binds : Binds p e trace q) : Calls p e trace (some (definition.element, q))
  | dangling (h : e.kind = .actionRef) (unnamed : d.resolve? e = none) : Calls p e [] none

/-- The template of a fire, and its parameters. -/
inductive Templates (p : Parameters) (fire : Element) :
    List Access → Option (Element × Parameters) → Prop
  | own {template : Element} (h : fire.child? .bullet = some template) :
      Templates p fire [] (some (template, p))
  | reference {reference : Element} {definition : Definition} {trace : List Access}
      {q : Parameters} (without : fire.child? .bullet = none)
      (h : fire.child? .bulletRef = some reference)
      (named : d.resolve? reference = some definition) (binds : Binds p reference trace q) :
      Templates p fire trace (some (definition.element, q))
  | dangling {reference : Element} (without : fire.child? .bullet = none)
      (h : fire.child? .bulletRef = some reference) (unnamed : d.resolve? reference = none) :
      Templates p fire [] none
  | missing (without : fire.child? .bullet = none) (h : fire.child? .bulletRef = none) :
      Templates p fire [] none

/-- The cursors that the children of a template give a bullet. -/
inductive Arms (q : Parameters) : List Element → List Access → List Cursor → Prop
  | nil : Arms q [] [] []
  | other {e : Element} {es : List Element} {trace : List Access} {cursors : List Cursor}
      (h : e.kind.isAction = false) (rest : Arms q es trace cursors) :
      Arms q (e :: es) trace cursors
  | action {e action : Element} {es : List Element} {r : Parameters} {trace later : List Access}
      {cursors : List Cursor} (calls : Calls d q e trace (some (action, r)))
      (rest : Arms q es later cursors) :
      Arms q (e :: es) (trace ++ later) (.enter action r 0 :: cursors)
  | dangling {e : Element} {es : List Element} {trace later : List Access}
      {cursors : List Cursor} (calls : Calls d q e trace none) (rest : Arms q es later cursors) :
      Arms q (e :: es) (trace ++ later) cursors

/-- What a fire reads, and the cursors that it gives its bullet. -/
inductive Fires (p : Parameters) (fire : Element) : List Access → List Cursor → Prop
  | templated {own passed armed given : List Access} {template : Element} {q : Parameters}
      {cursors : List Cursor} (reads : Under p (fire.firsts [.direction, .speed]) own)
      (templates : Templates d p fire passed (some (template, q)))
      (arms : Arms d q template.children armed cursors)
      (gives : Under q (template.firsts [.direction, .speed]) given) :
      Fires p fire (own ++ (passed ++ (armed ++ given))) cursors
  | bare {own passed : List Access} (reads : Under p (fire.firsts [.direction, .speed]) own)
      (templates : Templates d p fire passed none) : Fires p fire (own ++ passed) []

/-- What a repetition reads, and what it does. -/
inductive Repeats (f : Frame) (e : Element) : List Access → Effect → Prop
  | timeless (h : e.child? .times = none) : Repeats f e [] .nothing
  | never {times : Element} {x : Binary32} (h : e.child? .times = some times)
      (le : x.round.le 0 = true) : Repeats f e [.value times f.parameters x] .finish
  | bodiless {times : Element} {x : Binary32} (h : e.child? .times = some times)
      (gt : x.round.le 0 = false) (without : e.children.find? (·.kind.isAction) = none) :
      Repeats f e [.value times f.parameters x] .nothing
  | again {times body : Element} {x : Binary32} {trace : List Access}
      {called : Option (Element × Parameters)} {effect : Effect}
      (h : e.child? .times = some times) (gt : x.round.le 0 = false)
      (found : e.children.find? (·.kind.isAction) = some body)
      (calls : Calls d f.parameters body trace called) (enters : effect.Enters called) :
      Repeats f e (.value times f.parameters x :: trace) effect

/-- What a command reads in a frame, the stacks of the bullets that it fires, and what it does. -/
inductive Commands (f : Frame) (e : Element) :
    List Access → List (List Cursor) → Effect → Prop
  | own {es : List Element} {trace : List Access} {effect : Effect} (h : e.bodies? = some es)
      (reads : Under f.parameters es trace) (stays : effect.cursor? = none) :
      Commands f e trace [] effect
  | repetition {trace : List Access} {effect : Effect} (h : e.kind = .repetition)
      (repeats : Repeats d f e trace effect) : Commands f e trace [] effect
  | action {trace : List Access} {called : Option (Element × Parameters)} {effect : Effect}
      (calls : Calls d f.parameters e trace called) (enters : effect.Enters called) :
      Commands f e trace [] effect
  | fire {trace : List Access} {cursors : List Cursor} (h : e.kind = .fire)
      (fires : Fires d f.parameters e trace cursors) : Commands f e trace [cursors] .nothing
  | fireRef {definition : Definition} {passed trace : List Access} {q : Parameters}
      {cursors : List Cursor} (h : e.kind = .fireRef) (named : d.resolve? e = some definition)
      (binds : Binds f.parameters e passed q) (fires : Fires d q definition.element trace cursors) :
      Commands f e (passed ++ trace) [cursors] .nothing
  | dangling (h : e.kind = .fireRef) (unnamed : d.resolve? e = none) :
      Commands f e [] [] .nothing

/-- What a step of a bullet reads, the stacks of the bullets that it fires, and its result. -/
inductive Steps (b : Bullet) : List Access → List (List Cursor) → Bullet × Bool → Prop
  | still {result : Bullet × Bool}
      (h : ∀ top rest, b.stack = top :: rest → 0 < top.wait ∨ top.command? = none)
      (keeps : result.1.stack.map Cursor.scope <:+ b.stack.map Cursor.scope) :
      Steps b [] [] result
  | command {top : Cursor} {rest : List Cursor} {e : Element} {trace : List Access}
      {fired : List (List Cursor)} {effect : Effect} (stack : b.stack = top :: rest)
      (idle : top.wait = 0) (at_ : top.command? = some e)
      (commands : Commands d top.frame e trace fired effect) :
      Steps b trace fired (effect.apply b top rest)

theorem Under.append {p : Parameters} {es es' : List Element} {trace trace' : List Access}
    (h : Under p es trace) (h' : Under p es' trace') : Under p (es ++ es') (trace ++ trace') := by
  induction h with
  | nil => exact h'
  | value x _ ih => exact .value x ih
  | goOn x goesOn _ ih => exact .goOn x goesOn ih

end Lexical

namespace Exec

variable {α β : Type} {s : Setup}

/-- Nothing is fired. -/
def Quiet (P : List Access → α → Prop) (trace : List Access) (fired : List Bullet) (a : α) : Prop :=
  fired = [] ∧ P trace a

namespace Traced

theorem quiet_pure {P : List Access → α → Prop} {a : α} (h : P [] a) :
    Traced s (Quiet P) (Pure.pure a) :=
  .pure ⟨rfl, h⟩

theorem quiet_mono {P P' : List Access → α → Prop} {x : Exec α} (h : Traced s (Quiet P) x)
    (le : ∀ trace a, P trace a → P' trace a) : Traced s (Quiet P') x :=
  h.mono fun trace _ a => And.imp_right (le trace a)

theorem quiet_bind {P : List Access → α → Prop} {R : List Access → List Bullet → β → Prop}
    {x : Exec α} {f : α → Exec β} (h : Traced s (Quiet P) x)
    (next : ∀ trace a, P trace a → Traced s (fun trace' => R (trace ++ trace')) (f a)) :
    Traced s R (x >>= f) := by
  refine h.bind fun trace fired a hP => ?_
  obtain ⟨rfl, hP⟩ := hP
  exact next trace a hP

/-- With nothing after it but the result. -/
theorem quiet_return {P : List Access → α → Prop} {R : List Access → List Bullet → β → Prop}
    {x : Exec α} {g : α → β} (h : Traced s (Quiet P) x)
    (le : ∀ trace a, P trace a → R trace [] (g a)) :
    Traced s R (x >>= fun a => Pure.pure (g a)) := by
  refine h.quiet_bind fun trace a hP => .pure ?_
  rw [List.append_nil]
  exact le trace a hP

/-- The last part of an execution. -/
theorem last {R : List Access → List Bullet → α → Prop} {x : Exec α}
    (h : Traced s R (x >>= Pure.pure)) : Traced s R x := by
  rwa [bind_pure] at h

end Traced

theorem frames_traced (term : Element) (p : Parameters) :
    Traced s (Quiet fun trace _ => Lexical.Under p [term] trace) (frames term p) := by
  unfold frames
  exact .value fun x => .quiet_pure (.value x .nil)

theorem values_traced (p : Parameters) (es : List Element) :
    Traced s (Quiet fun trace xs => xs.length = es.length ∧
      trace = (es.zip xs).map fun child => .value child.1 p child.2) (values p es) := by
  induction es with
  | nil => exact .quiet_pure ⟨rfl, rfl⟩
  | cons e rest ih =>
    unfold values
    refine .value fun x => ih.quiet_bind fun trace xs h => .quiet_pure ?_
    obtain ⟨length, rfl⟩ := h
    constructor
    · simp [length]
    · simp

theorem arguments_traced (reference : Element) (p : Parameters) :
    Traced s (Quiet (Lexical.Binds p reference)) (arguments reference p) := by
  unfold arguments
  exact (values_traced p _).quiet_return fun trace xs h => ⟨rfl, xs, h.1, h.2, rfl⟩

theorem resolve_traced (reference : Element) :
    Traced s (Quiet fun trace definition? => trace = [] ∧
      definition? = (s.document.resolve? reference).map (·.element)) (resolve reference) := by
  unfold resolve
  refine .setup ?_
  cases s.document.resolve? reference with
  | some d => exact .quiet_pure ⟨rfl, rfl⟩
  | none => exact .report (.quiet_pure ⟨rfl, rfl⟩)

theorem aim_traced (source : Bullet) :
    Traced s (Quiet fun trace _ => trace = []) (aim source) := by
  unfold aim
  exact .setup (.quiet_pure rfl)

/-- A value that goes on from what the sequences have come to. -/
theorem goOn_traced {e : Element} {p : Parameters} {x : Binary32} (h : e.kind.hasValueType = true)
    (sequence : e.attribute? "type" = some "sequence") (change : Sequences → Sequences)
    (next : Sequences → α) :
    Traced s (fun trace => Quiet (fun trace _ => Lexical.Under p [e] trace) (.value e p x :: trace))
      (do
        let last ← sequences
        setSequences (change last)
        return next last) :=
  .resume e fun _ => .setSequences _ (.quiet_pure (.goOn x ⟨h, sequence⟩ .nil))

theorem direction_traced {e : Element} (h : e.kind.hasValueType = true) (source : Bullet)
    (p : Parameters) :
    Traced s (Quiet fun trace _ => Lexical.Under p [e] trace) (direction e source p) := by
  unfold direction
  refine .value fun x => .setup ?_
  split
  · refine (aim_traced source).quiet_bind ?_
    rintro _ _ rfl
    exact .quiet_pure (.value x .nil)
  · exact .quiet_pure (.value x .nil)
  · exact .quiet_pure (.value x .nil)
  · rename_i sequence
    exact goOn_traced h (Element.directionType_sequence sequence) _ _

theorem firedSpeed_traced {e : Element} (h : e.kind.hasValueType = true) (source : Bullet)
    (p : Parameters) :
    Traced s (Quiet fun trace _ => Lexical.Under p [e] trace) (firedSpeed e source p) := by
  unfold firedSpeed
  refine .value fun x => ?_
  split
  · exact .quiet_pure (.value x .nil)
  · exact .quiet_pure (.value x .nil)
  · rename_i sequence
    have goesOn : e.GoesOn := ⟨h, Element.valueType_sequence sequence⟩
    exact .resume e fun last => .quiet_pure (.goOn x goesOn .nil)

theorem changedSpeed_traced {e : Element} (h : e.kind.hasValueType = true) (source : Bullet)
    (p : Parameters) :
    Traced s (Quiet fun trace _ => Lexical.Under p [e] trace) (changedSpeed e source p) := by
  unfold changedSpeed
  refine .value fun x => ?_
  split
  · exact .quiet_pure (.value x .nil)
  · exact .quiet_pure (.value x .nil)
  · rename_i sequence
    exact goOn_traced h (Element.valueType_sequence sequence) _ _

theorem component_traced (axis : Axis) (command : Element) (current : Binary32) (p : Parameters) :
    Traced s (Quiet fun trace _ => Lexical.Under p (command.child? axis.child).toList trace)
      (component axis command current p) := by
  unfold component
  split
  · rename_i missing
    rw [missing]
    exact .quiet_pure .nil
  · rename_i e found
    rw [found]
    refine .value fun x => ?_
    split
    · exact .quiet_pure (.value x .nil)
    · exact .quiet_pure (.value x .nil)
    · rename_i sequence
      have kind : e.kind.hasValueType = true := by
        rw [Element.child?_kind found]
        cases axis <;> rfl
      exact goOn_traced kind (Element.valueType_sequence sequence) _ _

theorem actionOf_traced {e : Element} (h : e.kind.isAction = true) (p : Parameters) :
    Traced s (Quiet (Lexical.Calls s.document p e)) (actionOf e p) := by
  unfold actionOf
  split
  · rename_i reference
    refine (resolve_traced e).quiet_bind ?_
    rintro _ _ ⟨rfl, rfl⟩
    cases named : s.document.resolve? e with
    | none => exact .quiet_pure (.dangling reference named)
    | some d =>
      exact (arguments_traced e p).quiet_return fun trace q binds =>
        ⟨rfl, .reference reference named binds⟩
  · rename_i own
    refine .quiet_pure (.inline ?_)
    cases kind : e.kind <;> simp_all [Kind.isAction]

/-- A cursor within what was called. -/
def Within (depth : Nat) (called : Option (Element × Parameters)) (cursor? : Option Cursor) :
    Prop :=
  ∀ cursor, cursor? = some cursor → ∃ action q, called = some (action, q) ∧
    cursor = .enter action q depth

theorem entered_traced (action : Element) (p : Parameters) (depth : Nat) :
    Traced s (Quiet fun trace cursor? => trace = [] ∧ Within depth (some (action, p)) cursor?)
      (entered action p depth) := by
  unfold entered
  refine .setup ?_
  split
  · exact .report (.quiet_pure ⟨rfl, by simp [Within]⟩)
  · refine .quiet_pure ⟨rfl, fun cursor eq => ?_⟩
    exact ⟨action, p, rfl, (Option.some.inj eq).symm⟩

theorem cursorOf_traced {e : Element} (h : e.kind.isAction = true) (p : Parameters)
    (depth : Nat) :
    Traced s (Quiet fun trace cursor? => ∃ called, Lexical.Calls s.document p e trace called ∧
      Within depth called cursor?) (cursorOf e p depth) := by
  unfold cursorOf
  refine (actionOf_traced h p).quiet_bind fun trace called calls => ?_
  cases called with
  | none =>
    refine .quiet_pure ?_
    rw [List.append_nil]
    exact ⟨none, calls, by simp [Within]⟩
  | some called =>
    refine (entered_traced called.1 called.2 depth).quiet_mono ?_
    rintro _ cursor? ⟨rfl, within⟩
    rw [List.append_nil]
    exact ⟨some called, calls, within⟩

theorem action_traced {e : Element} (h : e.kind.isAction = true) (f : Frame) :
    Traced s (Quiet fun trace effect => ∃ called,
      Lexical.Calls s.document f.parameters e trace called ∧ effect.Enters called)
      (action e f) := by
  unfold action
  refine (cursorOf_traced h f.parameters _).quiet_bind ?_
  rintro trace cursor? ⟨called, calls, within⟩
  cases cursor? with
  | none =>
    refine .quiet_pure ⟨called, by rwa [List.append_nil], fun cursor eq => ?_⟩
    cases eq
  | some cursor =>
    obtain ⟨action, q, rfl, rfl⟩ := within cursor rfl
    refine .quiet_pure ⟨_, by rwa [List.append_nil], fun cursor eq => ?_⟩
    split at eq <;> exact ⟨action, q, _, rfl, (Option.some.inj eq).symm⟩

theorem repetitions_traced (times : Binary32) :
    Traced s (Quiet fun trace _ => trace = []) (repetitions times) := by
  unfold repetitions
  refine .setup ?_
  dsimp only
  split
  · exact .report (.quiet_pure rfl)
  · exact .quiet_pure rfl

theorem repetition_traced (e : Element) (f : Frame) :
    Traced s (Quiet (Lexical.Repeats s.document f e)) (repetition e f) := by
  unfold repetition
  split
  · rename_i timeless
    exact .report (.quiet_pure (.timeless timeless))
  · rename_i times child
    refine .value fun x => ?_
    dsimp only
    split
    · rename_i le
      exact .quiet_pure (.never child le)
    · rename_i gt
      have gt : x.round.le 0 = false := by simpa using gt
      refine (repetitions_traced _).quiet_bind ?_
      rintro _ count rfl
      split
      · rename_i without
        exact .report (.quiet_pure (.bodiless child gt without))
      · rename_i body found
        have isAction : body.kind.isAction = true := by simpa using List.find?_some found
        refine (cursorOf_traced isAction f.parameters _).quiet_bind ?_
        rintro trace cursor? ⟨called, calls, within⟩
        cases cursor? with
        | none =>
          refine .quiet_pure (.again child gt found (by rwa [List.append_nil]) fun cursor eq => ?_)
          cases eq
        | some cursor =>
          obtain ⟨action, q, rfl, rfl⟩ := within cursor rfl
          refine .emit (.quiet_pure (.again child gt found (by rwa [List.append_nil]) ?_))
          exact fun cursor eq => ⟨action, q, _, rfl, (Option.some.inj eq).symm⟩

/-! ## Fires -/

theorem template_traced (fire : Element) (p : Parameters) :
    Traced s (Quiet (Lexical.Templates s.document p fire)) (template fire p) := by
  unfold template
  split
  · rename_i own
    exact .quiet_pure (.own own)
  · rename_i without
    split
    · rename_i reference child
      refine (resolve_traced reference).quiet_bind ?_
      rintro _ _ ⟨rfl, rfl⟩
      cases named : s.document.resolve? reference with
      | none => exact .quiet_pure (.dangling without child named)
      | some d =>
        exact (arguments_traced reference p).quiet_return fun trace q binds =>
          ⟨rfl, .reference without child named binds⟩
    · rename_i missing
      exact .report (.quiet_pure (.missing without missing))

theorem templateCursors_traced (q : Parameters) (es : List Element) :
    Traced s (Quiet (Lexical.Arms s.document q es)) (templateCursors q es) := by
  induction es with
  | nil => exact .quiet_pure .nil
  | cons e rest ih =>
    unfold templateCursors
    split
    · rename_i isAction
      refine (actionOf_traced isAction q).quiet_bind fun trace called calls => ?_
      cases called with
      | none => exact ih.quiet_mono fun later cursors arms => .dangling calls arms
      | some called => exact ih.quiet_return fun later cursors arms => ⟨rfl, .action calls arms⟩
    · rename_i other
      exact ih.quiet_mono fun later cursors arms => .other (by simpa using other) arms

theorem ofChild_traced {e : Element} {kind : Kind} {read : Element → Exec Binary32}
    {p : Parameters} (h : ∀ child, child.kind = kind →
      Traced s (Quiet fun trace _ => Lexical.Under p [child] trace) (read child)) :
    Traced s (Quiet fun trace _ => Lexical.Under p (e.firsts [kind]) trace)
      (ofChild e kind read) := by
  unfold ofChild Element.firsts
  split
  · rename_i child found
    refine (h child (Element.child?_kind found)).quiet_return fun trace _ under => ⟨rfl, ?_⟩
    simpa [found] using under
  · rename_i missing
    exact .quiet_pure (by simpa [missing] using Lexical.Under.nil)

theorem orElse_traced (x? : Option Binary32) {other : Exec Binary32}
    (h : Traced s (Quiet fun trace _ => trace = []) other) :
    Traced s (Quiet fun trace _ => trace = []) (orElse x? other) := by
  cases x? with
  | some x => exact .quiet_pure rfl
  | none => exact h

theorem ownHeading_traced (source : Bullet) :
    Traced s (Quiet fun trace _ => trace = []) (ownHeading source) := by
  unfold ownHeading
  refine (aim_traced source).quiet_bind ?_
  rintro _ _ rfl
  exact .setup (.quiet_pure rfl)

theorem ownSpeed_traced (source : Bullet) :
    Traced s (Quiet fun trace _ => trace = []) (ownSpeed source) := by
  unfold ownSpeed
  split
  · exact .quiet_pure rfl
  · exact .setup (.quiet_pure rfl)

/-- The direction and the speed of a fire or of a template. -/
theorem headingAndSpeed_traced {R : List Access → List Bullet → α → Prop} (e : Element)
    (source : Bullet) (p : Parameters) {f : Option Binary32 → Option Binary32 → Exec α}
    (next : ∀ trace x? y?, Lexical.Under p (e.firsts [.direction, .speed]) trace →
      Traced s (fun later => R (trace ++ later)) (f x? y?)) :
    Traced s R (do
      let heading? ← ofChild e .direction (direction · source p)
      let speed? ← ofChild e .speed (firedSpeed · source p)
      f heading? speed?) := by
  have heading (child : Element) (kind : child.kind = .direction) :=
    direction_traced (s := s) (e := child) (by rw [kind]; rfl) source p
  have speed (child : Element) (kind : child.kind = .speed) :=
    firedSpeed_traced (s := s) (e := child) (by rw [kind]; rfl) source p
  refine (ofChild_traced heading).quiet_bind fun trace x? under => ?_
  refine (ofChild_traced speed).quiet_bind fun trace' y? under' => ?_
  have both := under.append under'
  rw [← Element.firsts_append] at both
  simpa only [List.append_assoc] using next (trace ++ trace') x? y? both

theorem madeBullet_traced (fire : Element) (source : Bullet) (p : Parameters) :
    Traced s (Quiet fun trace bullet => Lexical.Fires s.document p fire trace bullet.stack)
      (madeBullet fire source p) := by
  unfold madeBullet
  refine headingAndSpeed_traced fire source p fun own heading? speed? reads => ?_
  refine (template_traced fire p).quiet_bind fun passed template? templates => ?_
  refine (orElse_traced heading? (ownHeading_traced source)).quiet_bind ?_
  rintro _ heading rfl
  refine (orElse_traced speed? (ownSpeed_traced source)).quiet_bind ?_
  rintro _ speed rfl
  cases template? with
  | none => exact .quiet_pure (by simpa [Bullet.make] using Lexical.Fires.bare reads templates)
  | some template =>
    refine (templateCursors_traced template.2 template.1.children).quiet_bind
      fun armed cursors arms => ?_
    refine headingAndSpeed_traced template.1 source template.2 fun given _ _ gives => ?_
    exact .quiet_pure (by simpa using Lexical.Fires.templated reads templates arms gives)

theorem fire_traced (fire : Element) (source : Bullet) (p : Parameters) :
    Traced s (fun trace fired _ => ∃ cursors, Lexical.Fires s.document p fire trace cursors ∧
      fired.map (·.stack) = [cursors]) (Exec.fire fire source p) := by
  unfold Exec.fire
  refine (madeBullet_traced fire source p).quiet_bind fun trace bullet fires => ?_
  unfold handOver
  refine .setup (.store _ (.last (.emit (.pure ⟨bullet.stack, ?_, rfl⟩))))
  rwa [List.append_nil]

/-! ## Commands -/

/-- A change reads its two children if it has them. -/
theorem withTerm_traced {e : Element} {kind : Kind} {f : Element → Element → Exec Effect}
    {P : List Access → Effect → Prop} (without : e.changing kind = [] → P [] .nothing)
    (next : ∀ child term, child.kind = kind → e.changing kind = [child, term] →
      Traced s (Quiet P) (f child term)) :
    Traced s (Quiet P) (do
      match ← withTerm e kind with
      | none => return .nothing
      | some (child, term) => f child term) := by
  unfold withTerm
  unfold Element.changing at without next
  cases found : e.child? kind with
  | none =>
    rw [found] at without
    simp only [bind_assoc, pure_bind]
    exact .report (.quiet_pure (without rfl))
  | some child =>
    cases found' : e.child? .term with
    | none =>
      rw [found, found'] at without
      simp only [bind_assoc, pure_bind]
      exact .report (.quiet_pure (without rfl))
    | some term =>
      rw [found, found'] at next
      exact next child term (Element.child?_kind found) rfl

/-- What a command does that reads elements of its own. -/
def Own (p : Parameters) (es : List Element) (trace : List Access) (effect : Effect) : Prop :=
  Lexical.Under p es trace ∧ effect.cursor? = none

theorem wait_traced (e : Element) (f : Frame) :
    Traced s (Quiet (Own f.parameters [e])) (wait e f) := by
  unfold wait
  exact .value fun x => .setup (.quiet_pure ⟨.value x .nil, rfl⟩)

theorem changeDirection_traced (e : Element) (b : Bullet) (p : Parameters) :
    Traced s (Quiet (Own p (e.changing .direction))) (changeDirection e b p) := by
  unfold changeDirection
  refine withTerm_traced (fun none => ?_) fun child term kind both => ?_
  · rw [none]
    exact ⟨.nil, rfl⟩
  · rw [both]
    have heading := direction_traced (s := s) (e := child) (by rw [kind]; rfl) b p
    refine heading.quiet_bind fun trace target under => ?_
    exact (frames_traced term p).quiet_return fun later _ under' => ⟨rfl, under.append under', rfl⟩

theorem changeSpeed_traced (e : Element) (b : Bullet) (p : Parameters) :
    Traced s (Quiet (Own p (e.changing .speed))) (changeSpeed e b p) := by
  unfold changeSpeed
  refine withTerm_traced (fun none => ?_) fun child term kind both => ?_
  · rw [none]
    exact ⟨.nil, rfl⟩
  · rw [both]
    have speed := changedSpeed_traced (s := s) (e := child) (by rw [kind]; rfl) b p
    refine speed.quiet_bind fun trace target under => ?_
    exact (frames_traced term p).quiet_return fun later _ under' => ⟨rfl, under.append under', rfl⟩

theorem accel_traced (e : Element) (b : Bullet) (p : Parameters) :
    Traced s (Quiet (Own p (if (e.child? .term).isSome
      then e.firsts [.horizontal, .vertical, .term] else []))) (accel e b p) := by
  unfold accel
  cases found : e.child? .term with
  | none => exact .report (.quiet_pure ⟨.nil, rfl⟩)
  | some term =>
    have firsts : e.firsts [.horizontal, .vertical, .term] =
        (e.child? .horizontal).toList ++ ((e.child? .vertical).toList ++ [term]) := by
      cases h : e.child? .horizontal <;> cases v : e.child? .vertical <;>
        simp [Element.firsts, h, v, found]
    simp only [Option.isSome_some, ↓reduceIte, firsts]
    refine (component_traced .horizontal e _ p).quiet_bind fun trace _ h => ?_
    refine (component_traced .vertical e _ p).quiet_bind fun trace' _ v => ?_
    exact (frames_traced term p).quiet_return fun later _ under =>
      ⟨rfl, h.append (v.append under), rfl⟩

/-- What a command reads, fires and does. -/
theorem command_traced (e : Element) (b : Bullet) (f : Frame) :
    Traced s (fun trace fired effect =>
        Lexical.Commands s.document f e trace (fired.map (·.stack)) effect)
      (command e b f) := by
  -- A command that reads nothing but elements of its own.
  have own {es : List Element} {x : Exec Effect} (h : e.bodies? = some es)
      (traced : Traced s (Quiet (Own f.parameters es)) x) :
      Traced s (fun trace fired effect =>
        Lexical.Commands s.document f e trace (fired.map (·.stack)) effect) x := by
    refine traced.mono ?_
    rintro trace _ effect ⟨rfl, reads, stays⟩
    exact .own h reads stays
  unfold command
  split
  case h_1 h => exact own (by rw [Element.bodies?, h]) (wait_traced e f)
  case h_2 h =>
    have none : e.bodies? = some [] := by rw [Element.bodies?, h]
    exact own none (.quiet_pure ⟨.nil, rfl⟩)
  case h_3 h =>
    refine (repetition_traced e f).mono ?_
    rintro trace _ effect ⟨rfl, repeats⟩
    exact .repetition h repeats
  case h_4 h =>
    refine (fire_traced e b f.parameters).bind ?_
    rintro trace fired _ ⟨cursors, fires, made⟩
    refine .pure ?_
    simpa [made] using Lexical.Commands.fire h fires
  case h_5 h =>
    refine (resolve_traced e).quiet_bind ?_
    rintro _ _ ⟨rfl, rfl⟩
    cases named : s.document.resolve? e with
    | none => exact .pure (.dangling h named)
    | some d =>
      refine (arguments_traced e f.parameters).quiet_bind fun passed q binds => ?_
      refine (fire_traced d.element b q).bind ?_
      rintro trace fired _ ⟨cursors, fires, made⟩
      refine .pure ?_
      simpa [made] using Lexical.Commands.fireRef h named binds fires
  case h_6 h =>
    exact own (by rw [Element.bodies?, h]) (changeDirection_traced e b f.parameters)
  case h_7 h => exact own (by rw [Element.bodies?, h]) (changeSpeed_traced e b f.parameters)
  case h_8 h => exact own (by rw [Element.bodies?, h]) (accel_traced e b f.parameters)
  case h_9 h =>
    refine (action_traced (by rw [h]; rfl) f).mono ?_
    rintro trace _ effect ⟨rfl, called, calls, enters⟩
    exact .action calls enters
  case h_10 h =>
    refine (action_traced (by rw [h]; rfl) f).mono ?_
    rintro trace _ effect ⟨rfl, called, calls, enters⟩
    exact .action calls enters
  case h_11 kind =>
    have none : e.bodies? = some [] := by
      unfold Element.bodies?
      split <;> first | contradiction | rfl
    exact own none (.report (.quiet_pure ⟨.nil, rfl⟩))

/-- What a step reads and fires, and its result. -/
theorem step_traced (b : Bullet) :
    Traced s (fun trace fired result =>
        Lexical.Steps s.document b trace (fired.map (·.stack)) result)
      (step Cursor.frame b) := by
  cases stack : b.stack with
  | nil =>
    rw [step_nil stack]
    refine .pure (.still (fun top rest eq => ?_) (List.suffix_refl _))
    rw [stack] at eq
    cases eq
  | cons top rest =>
    by_cases waiting : 0 < top.wait
    · simp only [step, stack, waiting, ↓reduceIte]
      refine .pure (.still (fun top' rest' eq => ?_) ?_)
      · obtain ⟨rfl, rfl⟩ := List.cons.inj (stack.symm.trans eq)
        exact .inl waiting
      · rw [stack]
        exact List.suffix_refl _
    have idle : top.wait = 0 := by omega
    cases at_ : top.command? with
    | none =>
      simp only [step, stack, waiting, at_, ↓reduceIte]
      refine .pure (.still (fun top' rest' eq => ?_) ?_)
      · obtain ⟨rfl, rfl⟩ := List.cons.inj (stack.symm.trans eq)
        exact .inr at_
      · rw [stack]
        exact List.suffix_cons _ _
    | some e =>
      rw [step_perform stack idle at_]
      unfold perform
      refine (command_traced e b top.frame).bind fun trace fired effect commands => ?_
      have done : Lexical.Steps s.document b (trace ++ [])
          (((fired ++ []) : List Bullet).map (·.stack)) (effect.apply b top rest) := by
        rw [List.append_nil, List.append_nil]
        exact .command stack idle at_ commands
      dsimp only
      cases effect <;> first | exact .pure done | exact .emit (.pure done)

end Exec

end Danmaku
