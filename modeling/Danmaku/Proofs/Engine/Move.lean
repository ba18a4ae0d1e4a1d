import Danmaku.Engine.Basic
import Danmaku.Proofs.Binary32.Whole
import Danmaku.Proofs.Engine.Gives
import Danmaku.Proofs.Pattern.Nodes

/-!
# Moves

What a command can do to its bullet (`Effect.Of`), what it can leave behind (`Event.Of`), and so
what one step can do to a stack of cursors (`Move`). `command_gives` and `step_move` are the only
places that open the commands; what holds along every run is read off these cases.
-/

namespace Danmaku

/-- The parameters that a reference passes on: a finite value for each of its `param` children. -/
def Passes (reference : Element) (q : Parameters) : Prop :=
  ∃ xs, xs.length = (reference.childrenOf .param).length ∧ (∀ x ∈ xs, x.isFinite = true) ∧
    q = .ofValues xs

/-- The action that an element under parameters `p` stands for, and the parameters that the action
is played under. -/
inductive Calls (d : Document) (p : Parameters) (e : Element) : Element → Parameters → Prop
  | inline (h : e.kind = .action) : Calls d p e e p
  | reference {definition : Definition} {q : Parameters} (h : e.kind = .actionRef)
      (named : d.resolve? e = some definition) (passes : Passes e q) :
      Calls d p e definition.element q

/-- The fire that a command performs, and the parameters that it is read under. -/
inductive Fires (d : Document) (p : Parameters) (e : Element) : Element → Parameters → Prop
  | own (h : e.kind = .fire) : Fires d p e e p
  | reference {definition : Definition} {q : Parameters} (h : e.kind = .fireRef)
      (named : d.resolve? e = some definition) (passes : Passes e q) :
      Fires d p e definition.element q

/-- The template of a fire, and the parameters that it is read under. -/
inductive Templates (d : Document) (p : Parameters) (fire : Element) :
    Element → Parameters → Prop
  | own {template : Element} (h : fire.child? .bullet = some template) :
      Templates d p fire template p
  | reference {reference : Element} {definition : Definition} {q : Parameters}
      (h : fire.child? .bulletRef = some reference)
      (named : d.resolve? reference = some definition) (passes : Passes reference q) :
      Templates d p fire definition.element q

/-- A cursor that a template gives its bullet: the start of one of its actions. -/
inductive Arms (d : Document) (q : Parameters) (es : List Element) : Cursor → Prop
  | start {e action : Element} {r : Parameters} (mem : e ∈ es) (calls : Calls d q e action r) :
      Arms d q es (.enter action r 0)

/-- What an element of a document calls is an action of the document. -/
theorem Calls.mem_actions {root : Element} {warnings : List Warning} {p q : Parameters}
    {e action : Element} (h : Calls (.ofRoot root warnings) p e action q) (he : e ∈ root.nodes) :
    action ∈ (Document.ofRoot root warnings).actions := by
  rw [Document.mem_actions]
  cases h with
  | inline hk => exact ⟨he, hk⟩
  | reference hk named =>
    obtain ⟨kind, mem⟩ := Document.resolve?_mem named
    rw [hk] at kind
    exact ⟨mem, kind⟩

theorem Cursor.command?_mem {c : Cursor} {e : Element} (h : c.command? = some e) :
    e ∈ c.action.children := by
  unfold command? at h
  split at h
  · cases h
  · exact List.mem_of_getElem? h

theorem Cursor.command?_mem_nodes {c : Cursor} {e root : Element} (h : c.command? = some e)
    (mem : c.action ∈ root.nodes) : e ∈ root.nodes :=
  Element.child_mem_nodes (command?_mem h) root mem

/-- What a command enters is the command itself or its body. -/
theorem Element.body_mem_nodes {e body root : Element} (mem : body = e ∨ body ∈ e.children)
    (he : e ∈ root.nodes) : body ∈ root.nodes := by
  rcases mem with rfl | mem
  · exact he
  · exact child_mem_nodes mem root he

theorem Cursor.next_lt_of_command? {c : Cursor} {e : Element} (h : c.command? = some e) :
    c.next < c.action.children.length := by
  unfold command? at h
  split at h
  · cases h
  · exact (List.getElem?_eq_some_iff.1 h).1

/-- What a command can do in a frame. -/
inductive Effect.Of (d : Document) (settings : Settings) (e : Element) (f : Frame) :
    Effect → Prop
  | nothing : Effect.Of d settings e f .nothing
  | wait (h : e.kind = .wait) (frames : Nat) : Effect.Of d settings e f (.wait frames)
  | finish (h : e.kind = .repetition) : Effect.Of d settings e f .finish
  | vanish (h : e.kind = .vanish) : Effect.Of d settings e f .vanish
  | turn (h : e.kind = .changeDirection) (ramp : Ramp) : Effect.Of d settings e f (.turn ramp)
  | changeSpeed (h : e.kind = .changeSpeed) (ramp : Ramp) :
      Effect.Of d settings e f (.changeSpeed ramp)
  | accelerate (h : e.kind = .accel) (thrust : Thrust) :
      Effect.Of d settings e f (.accelerate thrust)
  | enter {body action : Element} {q : Parameters} {count : Nat}
      (mem : body = e ∨ body ∈ e.children) (calls : Calls d f.parameters body action q)
      (shallow : f.depth + 1 ≤ settings.maxDepth)
      (few : settings.maxRepeat ≤ 2 ^ 24 → count ≤ max 1 settings.maxRepeat) :
      Effect.Of d settings e f (.enter count (.enter action q (f.depth + 1)))
  | replace {action : Element} {q : Parameters} (last : f.last = true)
      (calls : Calls d f.parameters e action q) (shallow : f.depth ≤ settings.maxDepth) :
      Effect.Of d settings e f (.replace (.enter action q f.depth))

/-- The depth at which a command enters an action: its own when it makes room for it. -/
def Frame.target (f : Frame) (e : Element) : Nat :=
  if e.kind.isAction && f.last then f.depth else f.depth + 1

/-- What a command can leave behind in a frame. -/
inductive Event.Of (d : Document) (settings : Settings) (e : Element) (f : Frame) : Event → Prop
  | aside {event : Event} (h : event.Aside) : Event.Of d settings e f event
  | fired {fire : Element} {p : Parameters} {bullet : Bullet}
      (fires : Fires d f.parameters e fire p)
      (armed : ∀ c ∈ bullet.stack,
        ∃ template q, Templates d p fire template q ∧ Arms d q template.children c) :
      Event.Of d settings e f (.fired bullet)
  | tooDeep (label : String) (deep : settings.maxDepth < f.target e) :
      Event.Of d settings e f (.fault (.tooDeep label (f.target e)))

namespace Exec

variable {s : Setup}

/-- A reference names a definition of the document, or nothing. -/
theorem resolve_gives {α : Type} {P : α → Prop} {Q : Event → Prop} {reference : Element}
    {f : Option Element → Exec α} (aside : ∀ event : Event, event.Aside → Q event)
    (missing : Gives s P Q (f none))
    (found : ∀ d, s.document.resolve? reference = some d → Gives s P Q (f (some d.element))) :
    Gives s P Q (resolve reference >>= f) := by
  have resolves : Gives s (· = (s.document.resolve? reference).map (·.element)) Q
      (resolve reference) := by
    unfold resolve
    refine Gives.setup.bind fun s' hs => ?_
    subst hs
    cases h : s'.document.resolve? reference with
    | some d => exact .pure rfl
    | none =>
      refine Gives.bind (.report (aside _ ?_)) fun _ _ => .pure rfl
      trivial
  refine resolves.bind fun element eq => ?_
  subst eq
  cases h : s.document.resolve? reference with
  | some d => exact found d h
  | none => exact missing

theorem arguments_gives (reference : Element) (p : Parameters) :
    Gives s (Passes reference) Event.Aside (arguments reference p) :=
  (values_gives p _).bind fun xs hxs => .pure ⟨xs, hxs.1, hxs.2, rfl⟩

theorem actionOf_gives {e : Element} (h : e.kind.isAction = true) (p : Parameters) :
    Gives s (fun called => ∀ action q, called = some (action, q) → Calls s.document p e action q)
      Event.Aside (actionOf e p) := by
  unfold actionOf
  split
  · rename_i reference
    refine resolve_gives (fun _ => id) (.pure (by simp)) fun d named => ?_
    refine (arguments_gives e p).bind fun q passes => .pure fun action q' eq => ?_
    obtain ⟨rfl, rfl⟩ := Prod.mk.inj (Option.some.inj eq)
    exact .reference reference named passes
  · rename_i own
    refine .pure fun action q eq => ?_
    obtain ⟨rfl, rfl⟩ := Prod.mk.inj (Option.some.inj eq)
    refine .inline ?_
    cases hk : e.kind <;> simp_all [Kind.isAction]

/-- An event of entering an action at a depth. -/
def Entering (settings : Settings) (depth : Nat) (event : Event) : Prop :=
  event.Aside ∨ ∃ label, settings.maxDepth < depth ∧ event = .fault (.tooDeep label depth)

theorem entered_gives (action : Element) (p : Parameters) (depth : Nat) :
    Gives s (fun c? => ∀ c, c? = some c → depth ≤ s.settings.maxDepth ∧ c = .enter action p depth)
      (Entering s.settings depth) (entered action p depth) := by
  unfold entered
  refine Gives.setup.bind fun s' hs => ?_
  subst hs
  split
  · rename_i deep
    exact (Gives.report (.inr ⟨_, deep, rfl⟩)).bind fun _ _ => .pure (by simp)
  · rename_i shallow
    exact .pure fun c eq => ⟨by omega, (Option.some.inj eq).symm⟩

theorem cursorOf_gives {e : Element} (h : e.kind.isAction = true) (p : Parameters) (depth : Nat) :
    Gives s (fun c? => ∀ c, c? = some c → ∃ action q, Calls s.document p e action q ∧
        depth ≤ s.settings.maxDepth ∧ c = .enter action q depth)
      (Entering s.settings depth) (cursorOf e p depth) := by
  unfold cursorOf
  refine ((actionOf_gives h p).mono (fun _ => id) fun _ => .inl).bind fun called hcalled => ?_
  split
  · rename_i action q
    refine (entered_gives action q depth).mono (fun c? hc? c eq => ?_) fun _ => id
    exact ⟨action, q, hcalled action q rfl, hc? c eq⟩
  · exact .pure (by simp)

theorem repetitions_gives (times : Binary32) :
    Gives s (fun count => s.settings.maxRepeat ≤ 2 ^ 24 → count ≤ s.settings.maxRepeat)
      Event.Aside (repetitions times) := by
  unfold repetitions
  refine Gives.setup.bind fun s' hs => ?_
  subst hs
  dsimp only
  split
  · exact (Gives.report trivial).bind fun _ _ => .pure fun _ => Nat.le_refl _
  · rename_i below
    exact .pure fun small => Binary32.toNatClipped_le small (by simpa using below)

theorem template_gives (fire : Element) (p : Parameters) :
    Gives s (fun found => ∀ t q, found = some (t, q) → Templates s.document p fire t q)
      Event.Aside (template fire p) := by
  unfold template
  split
  · rename_i bullet own
    refine .pure fun t q eq => ?_
    obtain ⟨rfl, rfl⟩ := Prod.mk.inj (Option.some.inj eq)
    exact .own own
  · split
    · rename_i reference href
      refine resolve_gives (fun _ => id) (.pure (by simp)) fun d named => ?_
      refine (arguments_gives reference p).bind fun q passes => .pure fun t q' eq => ?_
      obtain ⟨rfl, rfl⟩ := Prod.mk.inj (Option.some.inj eq)
      exact .reference href named passes
    · exact (Gives.report trivial).bind fun _ _ => .pure (by simp)

theorem templateCursors_gives (q : Parameters) (es : List Element) :
    Gives s (fun cursors => ∀ c ∈ cursors, Arms s.document q es c) Event.Aside
      (templateCursors q es) := by
  induction es with
  | nil => exact .pure (by simp)
  | cons e rest ih =>
    have later : Gives s (fun cursors => ∀ c ∈ cursors, Arms s.document q (e :: rest) c)
        Event.Aside (templateCursors q rest) := by
      refine ih.mono (fun cursors h c mem => ?_) fun _ => id
      obtain ⟨inRest, calls⟩ := h c mem
      exact .start (List.mem_cons_of_mem _ inRest) calls
    unfold templateCursors
    split
    · rename_i isAction
      refine (actionOf_gives isAction q).bind fun called hcalled => ?_
      split
      · rename_i action r
        refine later.bind fun cursors hcursors => .pure fun c mem => ?_
        rcases List.mem_cons.1 mem with rfl | mem
        · exact .start List.mem_cons_self (hcalled action r rfl)
        · exact hcursors c mem
      · exact later
    · exact later

theorem ofChild_gives {e : Element} {kind : Kind} {read : Element → Exec Binary32}
    (h : ∀ child, Gives s (fun _ => True) Event.Aside (read child)) :
    Gives s (fun _ => True) Event.Aside (ofChild e kind read) := by
  unfold ofChild
  split
  · exact (h _).bind fun _ _ => .pure trivial
  · exact .pure trivial

theorem orElse_gives (x? : Option Binary32) {other : Exec Binary32}
    (h : Gives s (fun _ => True) Event.Aside other) :
    Gives s (fun _ => True) Event.Aside (orElse x? other) := by
  cases x? with
  | some x => exact .pure trivial
  | none => exact h

theorem ownHeading_gives (source : Bullet) :
    Gives s (fun _ => True) Event.Aside (ownHeading source) :=
  (aim_gives source).bind fun _ _ => Gives.setup.bind fun _ _ => .pure trivial

theorem ownSpeed_gives (source : Bullet) :
    Gives s (fun _ => True) Event.Aside (ownSpeed source) := by
  unfold ownSpeed
  split
  · exact .pure trivial
  · exact Gives.setup.bind fun _ _ => .pure trivial

theorem madeBullet_gives (fire : Element) (source : Bullet) (p : Parameters) :
    Gives s (fun bullet => ∀ c ∈ bullet.stack,
        ∃ t q, Templates s.document p fire t q ∧ Arms s.document q t.children c)
      Event.Aside (madeBullet fire source p) := by
  unfold madeBullet
  refine (ofChild_gives fun _ => direction_gives _ _ _).bind fun _ _ => ?_
  refine (ofChild_gives fun _ => firedSpeed_gives _ _ _).bind fun _ _ => ?_
  refine (template_gives fire p).bind fun found hfound => ?_
  refine (orElse_gives _ (ownHeading_gives source)).bind fun _ _ => ?_
  refine (orElse_gives _ (ownSpeed_gives source)).bind fun _ _ => ?_
  split
  · rename_i t q
    refine (templateCursors_gives q t.children).bind fun cursors hcursors => ?_
    refine (ofChild_gives fun _ => direction_gives _ _ _).bind fun _ _ => ?_
    refine (ofChild_gives fun _ => firedSpeed_gives _ _ _).bind fun _ _ => ?_
    exact .pure fun c mem => ⟨t, q, hfound t q rfl, hcursors c mem⟩
  · exact .pure (by simp [Bullet.make])

theorem fire_gives {e fire : Element} (source : Bullet) {p : Parameters} {f : Frame}
    (fires : Fires s.document f.parameters e fire p) :
    Gives s (fun _ => True) (Event.Of s.document s.settings e f) (Exec.fire fire source p) := by
  unfold Exec.fire handOver
  refine ((madeBullet_gives fire source p).mono (fun _ => id) fun _ => .aside).bind
    fun bullet armed => ?_
  refine Gives.setup.bind fun _ _ => Gives.sequences.bind fun _ _ => ?_
  exact (Gives.setSequences _).bind fun _ _ => Gives.emit (.fired fires armed)

/-! ## Commands -/

theorem withTerm_gives (e : Element) (kind : Kind) :
    Gives s (fun _ => True) Event.Aside (withTerm e kind) := by
  unfold withTerm
  split
  · exact .pure trivial
  · exact (Gives.report trivial).bind fun _ _ => .pure trivial
  · exact (Gives.report trivial).bind fun _ _ => .pure trivial

theorem wait_gives {e : Element} {f : Frame} (h : e.kind = .wait) :
    Gives s (Effect.Of s.document s.settings e f) Event.Aside (wait e f) :=
  (value_gives _ _).bind fun _ _ => Gives.setup.bind fun _ _ => .pure (.wait h _)

theorem changeDirection_gives {e : Element} {f : Frame} (b : Bullet)
    (h : e.kind = .changeDirection) :
    Gives s (Effect.Of s.document s.settings e f) Event.Aside
      (changeDirection e b f.parameters) := by
  unfold changeDirection
  refine (withTerm_gives _ _).bind fun _ _ => ?_
  split
  · exact .pure .nothing
  · exact (direction_gives _ _ _).bind fun _ _ => (frames_gives _ _).bind fun _ _ =>
      .pure (.turn h _)

theorem changeSpeed_gives {e : Element} {f : Frame} (b : Bullet) (h : e.kind = .changeSpeed) :
    Gives s (Effect.Of s.document s.settings e f) Event.Aside
      (changeSpeed e b f.parameters) := by
  unfold changeSpeed
  refine (withTerm_gives _ _).bind fun _ _ => ?_
  split
  · exact .pure .nothing
  · exact (changedSpeed_gives _ _ _).bind fun _ _ => (frames_gives _ _).bind fun _ _ =>
      .pure (.changeSpeed h _)

theorem accel_gives {e : Element} {f : Frame} (b : Bullet) (h : e.kind = .accel) :
    Gives s (Effect.Of s.document s.settings e f) Event.Aside (accel e b f.parameters) := by
  unfold accel
  split
  · exact (Gives.report trivial).bind fun _ _ => .pure .nothing
  · dsimp only
    refine (component_gives .horizontal e _ _).bind fun _ _ => ?_
    refine (component_gives .vertical e _ _).bind fun _ _ => ?_
    exact (frames_gives _ _).bind fun _ _ => .pure (.accelerate h _)

theorem Entering.of {e : Element} {f : Frame} {event : Event}
    (h : Entering s.settings (f.target e) event) : Event.Of s.document s.settings e f event := by
  obtain aside | ⟨label, deep, rfl⟩ := h
  · exact .aside aside
  · exact .tooDeep label deep

theorem action_gives {e : Element} {f : Frame} (h : e.kind.isAction = true) :
    Gives s (Effect.Of s.document s.settings e f) (Event.Of s.document s.settings e f)
      (action e f) := by
  have target : (if f.last then f.depth else f.depth + 1) = f.target e := by
    simp [Frame.target, h]
  unfold action
  dsimp only
  rw [target]
  refine ((cursorOf_gives h f.parameters _).mono (fun _ => id) fun _ => Entering.of).bind
    fun c? hc? => ?_
  split
  · rename_i c
    obtain ⟨called, q, calls, shallow, rfl⟩ := hc? c rfl
    refine .pure ?_
    cases last : f.last with
    | true =>
      have own : f.target e = f.depth := by simp [← target, last]
      rw [own] at shallow ⊢
      exact .replace last calls shallow
    | false =>
      have below : f.target e = f.depth + 1 := by simp [← target, last]
      rw [below] at shallow ⊢
      exact .enter (.inl rfl) calls shallow fun _ => Nat.le_max_left _ _
  · exact .pure .nothing

theorem repetition_gives {e : Element} {f : Frame} (h : e.kind = .repetition) :
    Gives s (Effect.Of s.document s.settings e f) (Event.Of s.document s.settings e f)
      (repetition e f) := by
  have target : f.depth + 1 = f.target e := by simp [Frame.target, h, Kind.isAction]
  have aside : ∀ event : Event, event.Aside → Event.Of s.document s.settings e f event :=
    fun _ => .aside
  unfold repetition
  split
  · exact (Gives.report (.aside trivial)).bind fun _ _ => .pure .nothing
  · refine ((value_gives _ _).mono (fun _ => id) aside).bind fun times _ => ?_
    dsimp only
    split
    · exact .pure (.finish h)
    · refine ((repetitions_gives _).mono (fun _ => id) aside).bind fun count few => ?_
      split
      · exact (Gives.report (.aside trivial)).bind fun _ _ => .pure .nothing
      · rename_i body found
        have isAction : body.kind.isAction = true := by simpa using List.find?_some found
        have mem := List.mem_of_find?_eq_some found
        rw [target]
        refine ((cursorOf_gives isAction f.parameters _).mono (fun _ => id)
          fun _ => Entering.of).bind fun c? hc? => ?_
        split
        · rename_i c
          obtain ⟨called, q, calls, shallow, rfl⟩ := hc? c rfl
          refine (Gives.emit (.aside trivial)).bind fun _ _ => .pure ?_
          rw [← target] at shallow ⊢
          exact .enter (.inr mem) calls shallow
            fun small => Nat.le_trans (few small) (Nat.le_max_right _ _)
        · exact .pure .nothing

/-- What a command does and what it leaves behind. -/
theorem command_gives (e : Element) (b : Bullet) (f : Frame) :
    Gives s (Effect.Of s.document s.settings e f) (Event.Of s.document s.settings e f)
      (command e b f) := by
  have aside : ∀ event : Event, event.Aside → Event.Of s.document s.settings e f event :=
    fun _ => .aside
  unfold command
  split
  case h_1 h => exact (wait_gives h).mono (fun _ => id) aside
  case h_2 h => exact .pure (.vanish h)
  case h_3 h => exact repetition_gives h
  case h_4 h => exact (fire_gives b (.own h)).bind fun _ _ => .pure .nothing
  case h_5 h =>
    refine resolve_gives aside (.pure .nothing) fun d named => ?_
    refine ((arguments_gives e f.parameters).mono (fun _ => id) aside).bind fun q passes => ?_
    exact (fire_gives b (.reference h named passes)).bind fun _ _ => .pure .nothing
  case h_6 h => exact (changeDirection_gives b h).mono (fun _ => id) aside
  case h_7 h => exact (changeSpeed_gives b h).mono (fun _ => id) aside
  case h_8 h => exact (accel_gives b h).mono (fun _ => id) aside
  case h_9 h => exact action_gives (by rw [h]; rfl)
  case h_10 h => exact action_gives (by rw [h]; rfl)
  case h_11 => exact (Gives.report (.aside trivial)).bind fun _ _ => .pure .nothing

end Exec

/-! ## Steps -/

/-- What a step can do to a stack whose running cursor, seen in the frame `f`, is `top`. -/
inductive Move (d : Document) (settings : Settings) (f : Frame) (top : Cursor)
    (rest : List Cursor) : List Cursor → Prop
  | countDown (h : 0 < top.wait) :
      Move d settings f top rest ({ top with wait := top.wait - 1 } :: rest)
  /-- The action is over, or ends early. -/
  | leave (h : top.wait = 0) : Move d settings f top rest rest
  | vanish (h : top.wait = 0) : Move d settings f top rest []
  | advance {e : Element} (h : top.wait = 0) (at_ : top.command? = some e) (frames : Nat) :
      Move d settings f top rest ({ top.advance with wait := frames } :: rest)
  | enter {e body action : Element} {q : Parameters} {count : Nat} (h : top.wait = 0)
      (at_ : top.command? = some e) (mem : body = e ∨ body ∈ e.children)
      (calls : Calls d f.parameters body action q) (shallow : f.depth + 1 ≤ settings.maxDepth)
      (few : settings.maxRepeat ≤ 2 ^ 24 → count ≤ max 1 settings.maxRepeat) :
      Move d settings f top rest
        (List.replicate count (.enter action q (f.depth + 1)) ++ top.advance :: rest)
  | replace {e action : Element} {q : Parameters} (h : top.wait = 0)
      (at_ : top.command? = some e) (last : f.last = true)
      (calls : Calls d f.parameters e action q) (shallow : f.depth ≤ settings.maxDepth) :
      Move d settings f top rest (.enter action q f.depth :: rest)

/-- A step goes one level deeper at most. -/
theorem Move.depth_le {d : Document} {settings : Settings} {f : Frame} {top : Cursor}
    {rest after : List Cursor} (h : Move d settings f top rest after)
    (keeps : f.depth = top.depth) : ∀ c ∈ after, c ∈ rest ∨ c.depth ≤ top.depth + 1 := by
  intro c mem
  cases h with
  | countDown =>
    rcases List.mem_cons.1 mem with rfl | mem
    · exact .inr (Nat.le_succ _)
    · exact .inl mem
  | leave => exact .inl mem
  | vanish => cases mem
  | advance =>
    rcases List.mem_cons.1 mem with rfl | mem
    · exact .inr (Nat.le_succ _)
    · exact .inl mem
  | enter =>
    rcases List.mem_append.1 mem with mem | mem
    · rw [(List.mem_replicate.1 mem).2]
      exact .inr (Nat.succ_le_succ (Nat.le_of_eq keeps))
    · rcases List.mem_cons.1 mem with rfl | mem
      · exact .inr (Nat.le_succ _)
      · exact .inl mem
  | replace =>
    rcases List.mem_cons.1 mem with rfl | mem
    · exact .inr (Nat.le_succ_of_le (Nat.le_of_eq keeps))
    · exact .inl mem

theorem Effect.Of.move {d : Document} {settings : Settings} {e : Element} {f : Frame}
    {effect : Effect} {b : Bullet} {top : Cursor} {rest : List Cursor}
    (h : effect.Of d settings e f) (idle : top.wait = 0) (at_ : top.command? = some e) :
    Move d settings f top rest (effect.apply b top rest).1.stack := by
  -- A cursor that does not wait keeps its wait of zero.
  have pass : Move d settings f top rest (top.advance :: rest) := .advance idle at_ top.wait
  cases h with
  | wait _ frames => exact .advance idle at_ frames
  | finish => exact .leave idle
  | vanish => exact .vanish idle
  | nothing => exact pass
  | turn => exact pass
  | changeSpeed => exact pass
  | accelerate => exact pass
  | enter mem calls shallow few => exact .enter idle at_ mem calls shallow few
  | replace last calls shallow => exact .replace idle at_ last calls shallow

theorem Effect.event?_aside {effect : Effect} {event : Event}
    (h : event ∈ effect.event?.toList) : event.Aside := by
  cases effect <;> simp_all [event?, Event.Aside]

namespace Exec

theorem step_nil {b : Bullet} (h : b.stack = []) (frame : Cursor → Frame) :
    step frame b = pure (b, false) := by
  simp only [step, h]

theorem step_perform {b : Bullet} {top : Cursor} {rest : List Cursor} {e : Element}
    (h : b.stack = top :: rest) (idle : top.wait = 0) (at_ : top.command? = some e)
    (frame : Cursor → Frame) : step frame b = perform frame e b top rest := by
  simp only [step, h, idle, at_, Nat.lt_irrefl, ↓reduceIte]

theorem perform_run (frame : Cursor → Frame) (e : Element) (b : Bullet) (top : Cursor)
    (rest : List Cursor) (s : Setup) (m : Memory) :
    perform frame e b top rest s m =
      let done := command e b (frame top) s m
      ⟨done.value.apply b top rest, done.memory, done.events ++ done.value.event?.toList⟩ := by
  simp only [perform, bind_run]
  cases (command e b (frame top) s m).value.event? with
  | none => rfl
  | some event => rfl

/-- A step does one of the moves. -/
theorem step_move {b : Bullet} {top : Cursor} {rest : List Cursor} (h : b.stack = top :: rest)
    (frame : Cursor → Frame) (s : Setup) (m : Memory) :
    Move s.document s.settings (frame top) top rest (step frame b s m).value.1.stack := by
  by_cases waiting : 0 < top.wait
  · simp only [step, h, waiting, ↓reduceIte, pure_run]
    exact .countDown waiting
  have idle : top.wait = 0 := by omega
  cases at_ : top.command? with
  | none =>
    simp only [step, h, waiting, at_, ↓reduceIte, pure_run]
    exact .leave idle
  | some e =>
    rw [step_perform h idle at_, perform_run]
    exact (command_gives e b (frame top) m).1.move idle at_

/-- What a step leaves behind comes from the command that it executes. -/
theorem step_events {b : Bullet} {frame : Cursor → Frame} {s : Setup} {m : Memory} {event : Event}
    (mem : event ∈ (step frame b s m).events) :
    ∃ top rest e, b.stack = top :: rest ∧ top.wait = 0 ∧ top.command? = some e ∧
      event.Of s.document s.settings e (frame top) := by
  cases hs : b.stack with
  | nil =>
    rw [step_nil hs] at mem
    cases mem
  | cons top rest =>
    by_cases waiting : 0 < top.wait
    · simp [step, hs, waiting, pure_run] at mem
    have idle : top.wait = 0 := by omega
    cases at_ : top.command? with
    | none => simp [step, hs, waiting, at_, pure_run] at mem
    | some e =>
      rw [step_perform hs idle at_, perform_run] at mem
      refine ⟨top, rest, e, rfl, idle, at_, ?_⟩
      rcases List.mem_append.1 mem with mem | mem
      · exact (command_gives e b (frame top) m).2 event mem
      · exact .aside (Effect.event?_aside mem)

end Exec

namespace Engine

variable {b : Bullet}

theorem step_idle (e : Engine) (h : b.stack = []) : (e.step b).2.1.1 = b := by
  simp only [step, run, Exec.step_nil h, Exec.pure_run]

theorem step_move (e : Engine) {top : Cursor} {rest : List Cursor} (h : b.stack = top :: rest) :
    Move e.setup.document e.settings top.frame top rest (e.step b).2.1.1.stack :=
  Exec.step_move h Cursor.frame e.setup e.memory

theorem step_events {e : Engine} {event : Event} (mem : event ∈ (e.step b).2.2) :
    ∃ top rest command, b.stack = top :: rest ∧ top.wait = 0 ∧ top.command? = some command ∧
      event.Of e.setup.document e.settings command top.frame :=
  Exec.step_events mem

end Engine

end Danmaku
