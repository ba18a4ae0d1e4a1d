import Danmaku.Proofs.Engine.Readings
import Danmaku.Proofs.Engine.Scope
import Danmaku.Proofs.Geometry.Heading

/-!
# What a fire makes

A fire first reads all that it needs (`Exec.charge`): its own direction and speed, its template with
the actions for the bullet, and the direction and the speed of the template. The bullet and what the
next sequence values build on are functions of that, of the settings and of what the sequences have
come to (`Exec.fire_run`).
-/

namespace Danmaku

/-- The direction and the speed that a fire or a template gives, as far as it does, with their
values. -/
structure Given where
  direction : Option (Element × Binary32)
  speed : Option (Element × Binary32)

/-- What a fire reads: what it gives itself, the stack of the bullet, and what its template gives,
which counts before that. -/
structure Charge where
  own : Given
  stack : List Cursor
  inner : Given

namespace Exec

/-- The first child of a kind, if there is one, and its value. -/
def giving (e : Element) (kind : Kind) (p : Parameters) : Exec (Option (Element × Binary32)) := do
  match e.child? kind with
  | some child => return some (child, ← value child p)
  | none => return none

def given (e : Element) (p : Parameters) : Exec Given := do
  return ⟨← giving e .direction p, ← giving e .speed p⟩

def charge (fire : Element) (p : Parameters) : Exec Charge := do
  let own ← given fire p
  match ← template fire p with
  | some (e, q) =>
    let stack ← templateCursors q e.children
    let inner ← given e q
    return ⟨own, stack, inner⟩
  | none => return ⟨own, [], ⟨none, none⟩⟩

end Exec

/-- The heading on which a bullet aims: the angle, clockwise from the vertical axis of its plane, at
which it sees the target, and down if it is closer to it than a thousandth. -/
def Setup.aim (s : Setup) (source : Bullet) : Binary32 :=
  let (h, v) := source.plane.components (s.target - source.position)
  if (h * h + v * v).lt (.ofDecimal 1 6) then 180
  else Heading.normalize (Binary32.atan2 h v * Heading.degreesPerRadian)

namespace Element

/-- The heading that a direction of this value means for a bullet. -/
def headingOf (e : Element) (x : Binary32) (s : Setup) (last : Sequences) (source : Bullet) :
    Binary32 :=
  match e.directionType with
  | .aim => Heading.normalize (s.aim source + x + s.settings.angleOffset)
  | .absolute => Heading.normalize (x + s.settings.angleOffset)
  | .relative => Heading.normalize (source.heading + x + s.settings.angleOffset)
  | .sequence =>
    Heading.normalize (Heading.normalize (last.direction + x) + s.settings.angleOffset)

theorem headingOf_normal (e : Element) (x : Binary32) (s : Setup) (last : Sequences)
    (source : Bullet) :
    Heading.normalize (e.headingOf x s last source) = e.headingOf x s last source := by
  unfold headingOf
  cases e.directionType <;> exact Heading.normalize_normalize _

/-- What an element of this value means where there is a `current` value and a `last` one to go on
from. -/
def amount (e : Element) (x last current : Binary32) : Binary32 :=
  match e.valueType with
  | .absolute => x
  | .relative => current + x
  | .sequence => last + x

end Element

/-- The sequences after a direction has been read, if there is one. -/
def Sequences.goneOn (last : Sequences) : Option (Element × Binary32) → Sequences
  | none => last
  | some (e, x) =>
    match e.directionType with
    | .sequence => { last with direction := Heading.normalize (last.direction + x) }
    | _ => last

theorem Sequences.goneOn_eq (last : Sequences) (read : Option (Element × Binary32)) :
    ∃ direction, last.goneOn read = { last with direction } := by
  rcases read with _ | ⟨e, x⟩
  · exact ⟨last.direction, rfl⟩
  · unfold goneOn
    dsimp only
    split
    · exact ⟨_, rfl⟩
    · exact ⟨last.direction, rfl⟩

theorem Sequences.goneOn_speed (last : Sequences) (read : Option (Element × Binary32)) :
    (last.goneOn read).speed = last.speed := by
  obtain ⟨direction, eq⟩ := last.goneOn_eq read
  rw [eq]

namespace Given

variable (g : Given) (s : Setup) (last : Sequences) (source : Bullet)

def heading? : Option Binary32 := g.direction.map fun d => d.1.headingOf d.2 s last source

def speed? : Option Binary32 := g.speed.map fun v => v.1.amount v.2 last.speed source.speed

theorem speed?_goneOn (read : Option (Element × Binary32)) :
    g.speed? (last.goneOn read) source = g.speed? last source := by
  rw [speed?, speed?, last.goneOn_speed]

end Given

namespace Charge

variable (c : Charge) (s : Setup) (last : Sequences) (source : Bullet)

/-- The bullet that is fired. The direction of the fire is read in any case, so a direction of the
template goes on from where it has come to. -/
def bullet : Bullet where
  position := source.position
  heading := (c.inner.heading? s (last.goneOn c.own.direction) source).getD
    ((c.own.heading? s last source).getD
      (Heading.normalize (s.aim source + s.settings.angleOffset)))
  speed := (c.inner.speed? last source).getD
    ((c.own.speed? last source).getD
      (if (0 : Binary32).lt source.speed then source.speed else s.settings.defaultSpeed))
  acceleration := .zero
  accumulated := .zero
  visible := true
  active := true
  plane := source.plane
  stack := c.stack
  headingRamp := .idle
  speedRamp := .idle
  thrust := .idle

theorem bullet_normal :
    Heading.normalize (c.bullet s last source).heading = (c.bullet s last source).heading := by
  unfold bullet Given.heading?
  rcases c.inner.direction with _ | d
  · rcases c.own.direction with _ | d
    · exact Heading.normalize_normalize _
    · exact d.1.headingOf_normal d.2 s last source
  · exact d.1.headingOf_normal d.2 s _ source

theorem bullet_make :
    { Bullet.make source.position (c.bullet s last source).heading (c.bullet s last source).speed
        source.plane with stack := c.stack } = c.bullet s last source := by
  unfold Bullet.make
  rw [bullet_normal]
  rfl

/-- The sequences after the fire go on from its bullet. -/
def after : Sequences :=
  { last with
    direction := Heading.normalize ((c.bullet s last source).heading - s.settings.angleOffset)
    speed := (c.bullet s last source).speed }

end Charge

namespace Exec

variable {s : Setup}

/-! ## The fire -/

theorem giving_reading (e : Element) (kind : Kind) (p : Parameters) :
    Reading (giving e kind p) := by
  unfold giving
  split
  · exact (value_reading _ p).bind fun _ => .pure _
  · exact .pure _

theorem given_reading (e : Element) (p : Parameters) : Reading (given e p) :=
  (giving_reading e _ p).bind fun _ => (giving_reading e _ p).bind fun _ => .pure _

theorem charge_reading (fire : Element) (p : Parameters) : Reading (charge fire p) := by
  unfold charge
  apply (given_reading fire p).bind
  intro own
  apply (template_reading fire p).bind
  intro template?
  split
  · exact (templateCursors_reading _ _).bind fun _ => (given_reading _ _).bind fun _ => .pure _
  · exact .pure _

theorem aim_run (source : Bullet) (m : Memory) : aim source s m = ⟨s.aim source, m, []⟩ := by
  have bearing : (Heading.bearing? source.plane source.position s.target).getD defaultAim =
      s.aim source :=
    apply_ite (Option.getD · defaultAim) _ _ _
  simp only [aim, bind_run, setup, pure_run, bearing, List.append_nil]

theorem direction_run (e : Element) (source : Bullet) (p : Parameters) (m : Memory) :
    direction e source p s m =
      ⟨e.headingOf (value e p s m).value s m.sequences source,
        (value e p s m).memory.withSequences
          (m.sequences.goneOn (some (e, (value e p s m).value))),
        (value e p s m).events⟩ := by
  have stays := (value_reading e p).sequences s m
  unfold direction
  rw [bind_run]
  generalize value e p s m = read at stays ⊢
  have same : read.memory.withSequences m.sequences = read.memory := by
    rw [← stays, Memory.withSequences_self]
  simp only [Element.headingOf, Sequences.goneOn]
  cases e.directionType with
  | aim => simp only [bind_run, setup, aim_run, pure_run, same, List.append_nil]
  | absolute => simp only [bind_run, setup, pure_run, same, List.append_nil]
  | relative => simp only [bind_run, setup, pure_run, same, List.append_nil]
  | sequence =>
    simp only [bind_run, setup, sequences, setSequences, pure_run, stays, Memory.withSequences,
      List.append_nil]

theorem firedSpeed_run (e : Element) (source : Bullet) (p : Parameters) (m : Memory) :
    firedSpeed e source p s m =
      ⟨e.amount (value e p s m).value m.sequences.speed source.speed, (value e p s m).memory,
        (value e p s m).events⟩ := by
  have stays := (value_reading e p).sequences s m
  unfold firedSpeed
  rw [bind_run]
  generalize value e p s m = read at stays ⊢
  rw [Element.amount]
  cases e.valueType with
  | absolute => simp only [pure_run, List.append_nil]
  | relative => simp only [pure_run, List.append_nil]
  | sequence => simp only [bind_run, sequences, pure_run, stays, List.append_nil]

/-- The direction and the speed of a fire or of a template, and what is done with them. -/
theorem given_run {α : Type} (e : Element) (source : Bullet) (p : Parameters) (m : Memory)
    (f : Option Binary32 → Option Binary32 → Exec α) :
    (do
      let heading? ← ofChild e .direction (direction · source p)
      let speed? ← ofChild e .speed (firedSpeed · source p)
      f heading? speed?) s m =
      let read := given e p s m
      let rest := f (read.value.heading? s m.sequences source)
        (read.value.speed? m.sequences source) s
        (read.memory.withSequences (m.sequences.goneOn read.value.direction))
      ⟨rest.value, rest.memory, read.events ++ rest.events⟩ := by
  have heading : ofChild e .direction (direction · source p) s m =
      let read := giving e .direction p s m
      ⟨read.value.map fun d => d.1.headingOf d.2 s m.sequences source,
        read.memory.withSequences (m.sequences.goneOn read.value), read.events⟩ := by
    unfold ofChild giving
    cases e.child? .direction with
    | none => rfl
    | some child =>
      simp only [bind_run, pure_run, direction_run, Option.map_some]
  have speed (m : Memory) : ofChild e .speed (firedSpeed · source p) s m =
      let read := giving e .speed p s m
      ⟨read.value.map fun v => v.1.amount v.2 m.sequences.speed source.speed, read.memory,
        read.events⟩ := by
    unfold ofChild giving
    cases e.child? .speed with
    | none => rfl
    | some child => simp only [bind_run, pure_run, firedSpeed_run, Option.map_some]
  have apart := (giving_reading e .speed p).apart s
  rw [bind_run, heading, bind_run, speed]
  simp only [given, bind_run, pure_run, apart, Given.heading?, Given.speed?,
    Memory.withSequences_sequences, Sequences.goneOn_speed, List.append_assoc, List.append_nil]

theorem orElse_run (x? : Option Binary32) {other : Exec Binary32} {m : Memory} {x : Binary32}
    (h : other s m = ⟨x, m, []⟩) : orElse x? other s m = ⟨x?.getD x, m, []⟩ := by
  cases x? with
  | none => exact h
  | some y => rfl

theorem ownHeading_run (source : Bullet) (m : Memory) :
    ownHeading source s m =
      ⟨Heading.normalize (s.aim source + s.settings.angleOffset), m, []⟩ := by
  simp only [ownHeading, bind_run, setup, aim_run, pure_run, List.append_nil]

theorem ownSpeed_run (source : Bullet) (m : Memory) :
    ownSpeed source s m =
      ⟨if (0 : Binary32).lt source.speed then source.speed else s.settings.defaultSpeed, m,
        []⟩ := by
  unfold ownSpeed
  split
  · rfl
  · rfl

theorem madeBullet_run (fire : Element) (source : Bullet) (p : Parameters) (m : Memory) :
    ∃ direction, madeBullet fire source p s m =
      let read := charge fire p s m
      ⟨read.value.bullet s m.sequences source,
        read.memory.withSequences { m.sequences with direction }, read.events⟩ := by
  unfold madeBullet charge
  rw [given_run, bind_run]
  generalize given fire p s m = own
  dsimp only
  rw [bind_run, bind_run, bind_run, bind_run, (template_reading fire p).apart,
    orElse_run _ (ownHeading_run source _), orElse_run _ (ownSpeed_run source _)]
  generalize template fire p s own.memory = found
  dsimp only
  cases found.value with
  | none =>
    obtain ⟨direction, last⟩ := m.sequences.goneOn_eq own.value.direction
    refine ⟨direction, ?_⟩
    rw [← last]
    simp only [pure_run, List.append_nil]
    rw [← Charge.bullet_make]
    rfl
  | some template =>
    dsimp only
    rw [bind_run, (templateCursors_reading _ _).apart]
    dsimp only
    rw [given_run, (given_reading _ _).apart, bind_run, bind_run]
    generalize templateCursors template.2 template.1.children s found.memory = armed
    generalize given template.1 template.2 s armed.memory = inner
    obtain ⟨direction, last⟩ := m.sequences.goneOn_eq own.value.direction
    obtain ⟨direction', last'⟩ := (m.sequences.goneOn own.value.direction).goneOn_eq
      inner.value.direction
    refine ⟨direction', ?_⟩
    have after : { m.sequences with direction := direction' } =
        (m.sequences.goneOn own.value.direction).goneOn inner.value.direction := by
      rw [last', last]
    rw [after]
    simp only [pure_run, Memory.withSequences,
      Given.speed?_goneOn, List.append_nil, List.nil_append]
    rw [← Charge.bullet_make]
    rfl

theorem fire_run (fire : Element) (source : Bullet) (p : Parameters) (m : Memory) :
    Exec.fire fire source p s m =
      let read := charge fire p s m
      ⟨(), read.memory.withSequences (read.value.after s m.sequences source),
        read.events ++ [.fired (read.value.bullet s m.sequences source)]⟩ := by
  obtain ⟨direction, made⟩ := madeBullet_run (s := s) fire source p m
  unfold Exec.fire handOver
  rw [bind_run, made]
  simp only [bind_run, setup, sequences, setSequences, emit, List.nil_append]
  rfl

end Exec

/-- What is given is given by the first children of an element. -/
structure Given.Of (g : Given) (e : Element) : Prop where
  direction : g.direction.map Prod.fst = e.child? .direction
  speed : g.speed.map Prod.fst = e.child? .speed

/-- The readings of the direction and then of the speed. -/
def Given.accesses (g : Given) (p : Parameters) : List Access :=
  (g.direction.toList ++ g.speed.toList).map fun read => .value read.1 p read.2

/-- What a fire reads under which parameters and in which order, and what comes of it. -/
inductive Lexical.Charges (d : Document) (p : Parameters) (fire : Element) :
    List Access → Charge → Prop
  | templated {own inner : Given} {passed armed : List Access} {template : Element}
      {q : Parameters} {cursors : List Cursor} (ofFire : own.Of fire)
      (templates : Templates d p fire passed (some (template, q)))
      (arms : Arms d q template.children armed cursors) (ofTemplate : inner.Of template) :
      Charges d p fire (own.accesses p ++ (passed ++ (armed ++ inner.accesses q)))
        ⟨own, cursors, inner⟩
  | bare {own : Given} {passed : List Access} (ofFire : own.Of fire)
      (templates : Templates d p fire passed none) :
      Charges d p fire (own.accesses p ++ passed) ⟨own, [], ⟨none, none⟩⟩

namespace Exec

variable {s : Setup}

theorem giving_traced (e : Element) (kind : Kind) (p : Parameters) :
    Traced s (Quiet fun trace read => read.map Prod.fst = e.child? kind ∧
      trace = read.toList.map fun read => .value read.1 p read.2) (giving e kind p) := by
  unfold giving
  split
  · rename_i child found
    apply Traced.value
    intro x
    exact .quiet_pure ⟨found.symm, rfl⟩
  · rename_i missing
    exact .quiet_pure ⟨missing.symm, rfl⟩

theorem given_traced (e : Element) (p : Parameters) :
    Traced s (Quiet fun trace g => g.Of e ∧ trace = g.accesses p) (given e p) := by
  apply (giving_traced e .direction p).quiet_bind
  rintro _ direction ⟨ofDirection, rfl⟩
  apply (giving_traced e .speed p).quiet_return
  rintro _ speed ⟨ofSpeed, rfl⟩
  refine ⟨rfl, ⟨ofDirection, ofSpeed⟩, ?_⟩
  rw [Given.accesses, List.map_append]

theorem charge_traced (fire : Element) (p : Parameters) :
    Traced s (Quiet (Lexical.Charges s.document p fire)) (charge fire p) := by
  unfold charge
  apply (given_traced fire p).quiet_bind
  rintro _ own ⟨ofFire, rfl⟩
  apply (template_traced fire p).quiet_bind
  intro passed template? templates
  cases template? with
  | none =>
    apply Traced.quiet_pure
    rw [List.append_nil]
    exact .bare ofFire templates
  | some template =>
    apply (templateCursors_traced template.2 template.1.children).quiet_bind
    intro armed cursors arms
    apply (given_traced template.1 template.2).quiet_return
    rintro _ inner ⟨ofTemplate, rfl⟩
    refine ⟨rfl, ?_⟩
    exact .templated ofFire templates arms ofTemplate

/-! ## The step -/

/-- The fire that a command stands for, and the parameters that it is read under: those around it,
or those that the reference passes on. -/
def fireOf (command : Element) (p : Parameters) : Exec (Option (Element × Parameters)) := do
  match command.kind with
  | .fire => return some (command, p)
  | .fireRef =>
    match ← resolve command with
    | some fire => return some (fire, ← arguments command p)
    | none => return none
  | _ => return none

theorem fireOf_reading (command : Element) (p : Parameters) : Reading (fireOf command p) := by
  unfold fireOf
  split
  · exact .pure _
  · apply (resolve_reading command).bind
    intro found
    split
    · exact (arguments_reading command p).bind fun _ => .pure _
    · exact .pure _
  · exact .pure _

theorem resolve_value (reference : Element) (m : Memory) :
    (resolve reference s m).value = (s.document.resolve? reference).map (·.element) := by
  unfold resolve
  rw [bind_run]
  simp only [setup]
  cases s.document.resolve? reference with
  | none => rfl
  | some d => rfl

section

variable {command : Element} {p : Parameters}

theorem fireOf_own (kind : command.kind = .fire) : fireOf command p = pure (some (command, p)) := by
  simp only [fireOf, kind]

theorem fireOf_other (own : command.kind ≠ .fire) (reference : command.kind ≠ .fireRef) :
    fireOf command p = pure none := by
  unfold fireOf
  split
  · contradiction
  · contradiction
  · rfl

theorem fireOf_reference (kind : command.kind = .fireRef) (m : Memory) :
    let found := resolve command s m
    let passed := arguments command p s found.memory
    fireOf command p s m =
      match found.value with
      | some fire => ⟨some (fire, passed.value), passed.memory, found.events ++ passed.events⟩
      | none => ⟨none, found.memory, found.events⟩ := by
  simp only [fireOf, kind, bind_run]
  cases (resolve command s m).value with
  | none => simp only [pure_run, List.append_nil]
  | some fire => simp only [bind_run, pure_run, List.append_nil]

/-- The commands that fire are the fires and the references to one. -/
theorem fireOf_isSome (m : Memory) :
    (fireOf command p s m).value.isSome = true ↔
      command.kind = .fire ∨
        command.kind = .fireRef ∧ (s.document.resolve? command).isSome = true := by
  by_cases own : command.kind = .fire
  · simp [fireOf_own own, own, pure_run]
  by_cases reference : command.kind = .fireRef
  · have found := resolve_value (s := s) command m
    rw [fireOf_reference reference]
    generalize resolve command s m = result at found ⊢
    cases named : s.document.resolve? command with
    | none =>
      rw [named] at found
      simp [found, own]
    | some d =>
      rw [named] at found
      simp [found, reference]
  · simp [fireOf_other own reference, own, reference, pure_run]

theorem fireOf_fires {fire : Element} {q : Parameters}
    (fires : Fires s.document p command fire q) (m : Memory) :
    (fireOf command p s m).value.isSome = true := by
  apply (fireOf_isSome m).2
  cases fires with
  | own kind => exact .inl kind
  | reference kind named => exact .inr ⟨kind, by rw [named]; rfl⟩

theorem command_fires {fire : Element} {q : Parameters} (b : Bullet) {f : Frame} {m : Memory}
    (called : (fireOf command f.parameters s m).value = some (fire, q)) :
    Exec.command command b f s m =
      let call := fireOf command f.parameters s m
      let shot := Exec.fire fire b q s call.memory
      ⟨.nothing, shot.memory, call.events ++ shot.events⟩ := by
  by_cases own : command.kind = .fire
  · simp only [fireOf_own own, pure_run] at called ⊢
    cases called
    simp only [Exec.command, own, bind_run, pure_run, List.append_nil, List.nil_append]
  by_cases reference : command.kind = .fireRef
  · rw [fireOf_reference reference] at called ⊢
    simp only [Exec.command, reference, bind_run]
    cases found : (resolve command s m).value with
    | none => simp [found] at called
    | some definition =>
      simp only [found, Option.some.injEq, Prod.mk.injEq] at called ⊢
      obtain ⟨rfl, rfl⟩ := called
      simp only [bind_run, pure_run, List.append_nil, List.append_assoc]
  · simp [fireOf_other own reference, pure_run] at called

/-- No other command fires. -/
theorem command_holdsFire (b : Bullet) {f : Frame} {m : Memory}
    (uncalled : (fireOf command f.parameters s m).value = none) :
    (Exec.command command b f s m).events.filterMap Event.bullet? = [] := by
  rw [List.filterMap_eq_nil_iff]
  intro event mem
  cases (command_gives command b f m).2 event mem with
  | aside aside => exact aside.bullet?_eq_none
  | tooDeep => rfl
  | fired fires =>
    have called := fireOf_fires fires m
    rw [uncalled] at called
    cases called

end

end Exec

theorem Effect.event?_bullet? (effect : Effect) :
    effect.event?.toList.filterMap Event.bullet? = [] := by
  cases effect <;> rfl

/-- **What a fire makes.** A step fires if it executes a fire or a reference to one, and then it
fires one bullet. What the fire reads it reads in the order and under the parameters that
`Lexical.Charges` gives; `Charge.bullet` says which bullet comes of that, and `Charge.after` where
the sequences go on. -/
theorem Engine.fire_makes (e : Engine) (b : Bullet) :
    (b.next? = none → (e.step b).2.2.filterMap Event.bullet? = []) ∧
    ∀ top rest command, b.Runs top rest command →
      let called := e.run (Exec.fireOf command top.parameters)
      (called.2.1.isSome = true ↔ command.kind = .fire ∨
        command.kind = .fireRef ∧ (e.setup.document.resolve? command).isSome = true) ∧
      (called.2.1 = none → (e.step b).2.2.filterMap Event.bullet? = []) ∧
      ∀ fire q, called.2.1 = some (fire, q) →
        let read := called.1.run (Exec.charge fire q)
        let made := read.2.1.bullet e.setup e.memory.sequences b
        let last := read.2.1.after e.setup e.memory.sequences b
        (e.step b).2.2.filterMap Event.bullet? = [made] ∧
        e.step b = ({ e with memory := read.1.memory.withSequences last },
          ({ b with stack := top.advance :: rest }, true),
          called.2.2 ++ read.2.2 ++ [.fired made]) ∧
        Exec.Traced e.setup (Exec.Quiet (Lexical.Charges e.setup.document q fire))
          (Exec.charge fire q) := by
  constructor
  · intro still
    rcases e.step_cases b with ⟨-, stack, eq⟩ | ⟨top, rest, command, runs⟩
    · rw [eq]
      rfl
    · rw [runs.next?] at still
      cases still
  intro top rest command runs called
  refine ⟨Exec.fireOf_isSome e.memory, fun uncalled => ?_, fun fire q isCalled => ?_⟩
  · rw [e.step_runs runs, List.filterMap_append, Effect.event?_bullet?, List.append_nil]
    exact Exec.command_holdsFire b uncalled
  · intro read made last
    have sequences : called.1.memory.sequences = e.memory.sequences :=
      e.run_sequences (Exec.fireOf_reading command top.parameters)
    have quiet : (called.2.2 ++ read.2.2).filterMap Event.bullet? = [] := by
      rw [List.filterMap_append, e.run_bullets (Exec.fireOf_reading command top.parameters),
        called.1.run_bullets (Exec.charge_reading fire q), List.append_nil]
    have step : e.step b = ({ e with memory := read.1.memory.withSequences last },
        ({ b with stack := top.advance :: rest }, true),
        called.2.2 ++ read.2.2 ++ [.fired made]) := by
      have fires : Exec.command command b top.frame e.setup e.memory = _ :=
        Exec.command_fires b isCalled
      have shot : Exec.fire fire b q e.setup called.1.memory = _ := Exec.fire_run fire b q _
      rw [sequences] at shot
      rw [e.step_runs runs, fires]
      show ((⟨e.setup, (Exec.fire fire b q e.setup called.1.memory).memory⟩ : Engine),
          ({ b with stack := top.advance :: rest }, true),
          called.2.2 ++ (Exec.fire fire b q e.setup called.1.memory).events ++ []) = _
      rw [shot, List.append_nil, ← List.append_assoc]
      rfl
    refine ⟨?_, step, Exec.charge_traced fire q⟩
    rw [step, List.filterMap_append, quiet]
    rfl

/-- An action with a reference to a fire. -/
def salvos : Element :=
  .make .action [("label", "top")] none
    [.make .fireRef [("label", "salvo")] none [.leaf .param "7"], .leaf .wait "1"]

/-- The fire: it goes on by its parameter, and so does its template, by another one. -/
def salvo : Element :=
  .make .fire [("label", "salvo")] none
    [.make .direction [("type", "sequence")] (some "$1") [], .leaf .speed "2",
      .make .bulletRef [("label", "seed")] none [.leaf .param "$1 - 4"]]

/-- The template: of its three actions the second one is nowhere. -/
def seed : Element :=
  .make .bullet [("label", "seed")] none
    [.make .direction [("type", "sequence")] (some "$1") [],
      .make .speed [("type", "sequence")] (some "$1 / 2") [], .make .action [] none [],
      .make .actionRef [("label", "nowhere")] none [],
      .make .actionRef [("label", "top")] none [.leaf .param "$1 * 2"]]

/-- An engine that plays it. -/
def playsSalvo : Engine :=
  .make (.ofRoot (.make .bulletml [] none [salvos, salvo, seed]) []) {}

theorem salvo_makes :
    let b := playsSalvo.shooter salvos .zero
    ∃ made, (playsSalvo.step b).2.2.filterMap Event.bullet? = [made] ∧
      made.heading = 10 ∧ made.speed = .ofDecimal 15 1 ∧
      made.stack.map (fun c => (c.action.label?, c.parameters, c.next, c.depth)) =
        [(none, .ofValues [3], 0, 0), (some "top", .ofValues [6], 0, 0)] := by
  intro b
  have runs : b.Runs (.enter salvos .empty 0) []
      (.make .fireRef [("label", "salvo")] none [.leaf .param "7"]) := ⟨rfl, rfl, rfl⟩
  obtain ⟨-, commands⟩ := playsSalvo.fire_makes b
  obtain ⟨fires, -, makes⟩ := commands _ _ _ runs
  have called := fires.2 (.inr ⟨rfl, by decide +kernel⟩)
  obtain ⟨fired, -⟩ := makes _ _ (Option.some_get called).symm
  refine ⟨_, fired, ?_, ?_, ?_⟩
  · decide +kernel
  · decide +kernel
  · decide +kernel

end Danmaku
