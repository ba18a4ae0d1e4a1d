import Danmaku.Proofs.Engine.Fire
import Danmaku.Proofs.Engine.Writes

/-!
# How the sequences go on

What a step does to the sequences, and what it takes from them, is a function of what its command
reads (`Engine.play`): the five cases of `Play`. `Engine.step_plays` says this of all that a step
leaves behind.
-/

namespace Danmaku

/-- What a command reads that has to do with the sequences: all that a fire needs, the direction or
the speed that a bullet changes to, or the components of an acceleration. -/
inductive Play where
  | fire (charge : Charge)
  | turn (direction : Element × Binary32)
  | changeSpeed (speed : Element × Binary32)
  | accelerate (horizontal vertical : Option (Element × Binary32))
  | other

namespace Exec

/-- What a change reads besides its term, if it has one. -/
def changing (command : Element) (kind : Kind) (p : Parameters) :
    Exec (Option (Element × Binary32)) :=
  if (command.child? .term).isSome then giving command kind p else return none

/-- What a command reads that does not fire. -/
def playUnfired (command : Element) (p : Parameters) : Exec Play := do
  match command.kind with
  | .changeDirection => return (← changing command .direction p).elim .other .turn
  | .changeSpeed => return (← changing command .speed p).elim .other .changeSpeed
  | .accel =>
    if (command.child? .term).isSome then
      return .accelerate (← giving command .horizontal p) (← giving command .vertical p)
    else return .other
  | _ => return .other

def play (command : Element) (p : Parameters) : Exec Play := do
  match ← fireOf command p with
  | some (fire, q) => return .fire (← charge fire q)
  | none => playUnfired command p

end Exec

/-- What the next step of a bullet reads. -/
def Engine.play (e : Engine) (b : Bullet) : Play :=
  match b.stack, b.next? with
  | top :: _, some command => (e.run (Exec.play command top.parameters)).2.1
  | _, _ => .other

/-- The value that goes on from the last one, if it does. -/
def goingOn? : Option (Element × Binary32) → Option Binary32
  | some (e, x) => if e.valueType = .sequence then some x else none
  | none => none

theorem goingOn?_eq_some {read : Option (Element × Binary32)} {x : Binary32}
    (goesOn : goingOn? read = some x) :
    ∃ e, read = some (e, x) ∧ ∀ last current, e.amount x last current = last + x := by
  rcases read with _ | ⟨e, y⟩
  · cases goesOn
  · by_cases sequence : e.valueType = .sequence
    · rw [goingOn?, if_pos sequence] at goesOn
      cases goesOn
      exact ⟨e, rfl, fun _ _ => by rw [Element.amount, sequence]⟩
    · rw [goingOn?, if_neg sequence] at goesOn
      cases goesOn

theorem Given.speed?_goesOn {g : Given} {x : Binary32} (goesOn : goingOn? g.speed = some x)
    (last : Sequences) (source : Bullet) : g.speed? last source = some (last.speed + x) := by
  obtain ⟨e, eq, amount⟩ := goingOn?_eq_some goesOn
  rw [speed?, eq, Option.map_some, amount]

theorem Charge.bullet_goesOn {c : Charge} {x : Binary32}
    (goesOn : goingOn? (c.inner.speed.or c.own.speed) = some x) (s : Setup) (last : Sequences)
    (source : Bullet) : (c.bullet s last source).speed = last.speed + x := by
  cases inner : c.inner.speed with
  | none =>
    rw [inner, Option.none_or] at goesOn
    rw [bullet, Given.speed?_goesOn goesOn, Given.speed?, inner]
    rfl
  | some read =>
    rw [inner, Option.some_or, ← inner] at goesOn
    rw [bullet, Given.speed?_goesOn goesOn]
    rfl

namespace Play

variable (s : Setup) (last : Sequences) (b : Bullet)

/-- The sequences after the command. -/
def after : Play → Sequences
  | fire c => c.after s last b
  | turn direction => last.goneOn (some direction)
  | changeSpeed speed =>
    match goingOn? (some speed) with
    | some x => { last with changeSpeed := some (last.changeSpeed.getD b.speed + x) }
    | none => last
  | accelerate h v =>
    { last with
      horizontal := ((goingOn? h).map (last.horizontal + ·)).getD last.horizontal
      vertical := ((goingOn? v).map (last.vertical + ·)).getD last.vertical }
  | other => last

/-- The bullet that is fired. -/
def bullet? : Play → Option Bullet
  | fire c => some (c.bullet s last b)
  | _ => none

/-- The component that an acceleration changes to. -/
def component (read : Option (Element × Binary32)) (last current : Binary32) : Binary32 :=
  (read.map fun r => r.1.amount r.2 last current).getD current

theorem component_goesOn {read : Option (Element × Binary32)} {x : Binary32}
    (goesOn : goingOn? read = some x) (last current : Binary32) :
    component read last current = last + x := by
  obtain ⟨e, rfl, amount⟩ := goingOn?_eq_some goesOn
  exact amount last current

/-- What the command does to its bullet. -/
def Does : Play → Effect → Prop
  | fire _, effect => effect = .nothing
  | turn direction, effect =>
    ∃ n, effect = .turn (.make b.heading (direction.1.headingOf direction.2 s last b) n)
  | changeSpeed speed, effect =>
    ∃ n, effect = .changeSpeed (.make b.speed
      (speed.1.amount speed.2 (last.changeSpeed.getD b.speed) b.speed) n)
  | accelerate h v, effect =>
    ∃ n, effect = .accelerate (.make
      (component h last.horizontal (b.plane.components b.acceleration).1)
      (component v last.vertical (b.plane.components b.acceleration).2) n)
  | other, _ => True

end Play

namespace Exec

variable {s : Setup}

theorem changedSpeed_run (e : Element) (source : Bullet) (p : Parameters) (m : Memory) :
    let read := value e p s m
    changedSpeed e source p s m =
      ⟨e.amount read.value (m.sequences.changeSpeed.getD source.speed) source.speed,
        read.memory.withSequences ((Play.changeSpeed (e, read.value)).after s m.sequences source),
        read.events⟩ := by
  have stays := (value_reading e p).sequences s m
  unfold changedSpeed
  rw [bind_run]
  generalize value e p s m = read at stays ⊢
  have same : read.memory.withSequences m.sequences = read.memory := by
    rw [← stays, Memory.withSequences_self]
  simp only [Element.amount, Play.after, goingOn?]
  cases e.valueType with
  | absolute => simp [pure_run, same]
  | relative => simp [pure_run, same]
  | sequence =>
    simp only [bind_run, sequences, setSequences, pure_run, stays, Memory.withSequences,
      List.append_nil, ↓reduceIte]

/-- A component of an acceleration, which goes on from the one of its axis. -/
theorem component_run (axis : Axis) (command : Element) (current : Binary32) (p : Parameters)
    (m : Memory) :
    let read := giving command axis.child p s m
    let last := m.sequences.component axis
    component axis command current p s m =
      ⟨Play.component read.value last current,
        read.memory.withSequences
          (m.sequences.setComponent axis (((goingOn? read.value).map (last + ·)).getD last)),
        read.events⟩ := by
  unfold component giving
  cases command.child? axis.child with
  | none =>
    simp only [pure_run, goingOn?, Option.map_none, Option.getD_none,
      Sequences.setComponent_component, Memory.withSequences_self]
    rfl
  | some e =>
    have stays := (value_reading e p).sequences s m
    simp only [bind_run, pure_run]
    generalize value e p s m = read at stays ⊢
    have same : read.memory.withSequences m.sequences = read.memory := by
      rw [← stays, Memory.withSequences_self]
    simp only [Play.component, Element.amount, goingOn?, Option.map_some, Option.getD_some]
    cases e.valueType with
    | absolute => simp [pure_run, same]
    | relative => simp [pure_run, same]
    | sequence =>
      simp only [bind_run, sequences, setSequences, pure_run, stays, Memory.withSequences,
        List.append_nil, ↓reduceIte, Option.map_some, Option.getD_some]

end Exec

/-- What a command leaves behind is as it should be after what it has read. -/
structure Play.Explains (play : Play) (s : Setup) (last : Sequences) (b : Bullet)
    (o : Outcome Effect) : Prop where
  sequences : o.memory.sequences = play.after s last b
  does : play.Does s last b o.value

namespace Exec

variable {s : Setup}

/-- A change reads its child, and then its term, which has nothing to do with the sequences. -/
theorem change_explained (command : Element) (kind : Kind) (b : Bullet) (p : Parameters)
    (m : Memory) {make : Element × Binary32 → Play} {read : Element → Exec Binary32}
    {effect : Binary32 → Nat → Effect}
    (leaves : ∀ child, (read child s m).memory = (value child p s m).memory.withSequences
      ((make (child, (value child p s m).value)).after s m.sequences b))
    (does : ∀ child n, (make (child, (value child p s m).value)).Does s m.sequences b
      (effect (read child s m).value n)) :
    ((changing command kind p s m).value.elim .other make).Explains s m.sequences b
      ((do
        match ← withTerm command kind with
        | none => return .nothing
        | some (e, term) =>
          let target ← read e
          let duration ← frames term p
          return effect target duration : Exec Effect) s m) := by
  unfold withTerm changing giving
  cases command.child? kind with
  | none =>
    simp only [bind_run, pure_run, ite_self]
    exact ⟨rfl, trivial⟩
  | some child =>
    cases command.child? .term with
    | none => exact ⟨rfl, trivial⟩
    | some term =>
      have stays := (frames_reading term p).sequences s (read child s m).memory
      simp only [bind_run, pure_run, Option.isSome_some, ↓reduceIte, Option.elim]
      constructor
      · rw [stays, leaves child, Memory.withSequences_sequences]
      · exact does child _

theorem changeDirection_explained (command : Element) (b : Bullet) (p : Parameters) (m : Memory) :
    ((changing command .direction p s m).value.elim .other Play.turn).Explains s m.sequences b
      (changeDirection command b p s m) := by
  apply change_explained
  · intro direction
    rw [direction_run]
    rfl
  · intro direction n
    rw [direction_run]
    generalize value direction p s m = read
    exact ⟨n, rfl⟩

theorem changeSpeed_explained (command : Element) (b : Bullet) (p : Parameters) (m : Memory) :
    ((changing command .speed p s m).value.elim .other Play.changeSpeed).Explains s m.sequences b
      (changeSpeed command b p s m) := by
  apply change_explained
  · intro speed
    rw [changedSpeed_run]
  · intro speed n
    rw [changedSpeed_run]
    generalize value speed p s m = read
    exact ⟨n, rfl⟩

theorem accel_explained (command : Element) (b : Bullet) (p : Parameters) (m : Memory)
    (complete : (command.child? .term).isSome = true) :
    let h := giving command .horizontal p s m
    let v := giving command .vertical p s h.memory
    (Play.accelerate h.value v.value).Explains s m.sequences b (accel command b p s m) := by
  intro h v
  obtain ⟨term, found⟩ := Option.isSome_iff_exists.1 complete
  unfold accel
  simp only [found, bind_run, pure_run, component_run, Axis.child,
    (giving_reading command .vertical p).apart, Memory.withSequences_sequences]
  constructor
  · rw [(frames_reading term p).sequences]
    rfl
  · exact ⟨_, rfl⟩

/-- A command that does not go on from a sequence leaves the sequences alone. -/
theorem command_still {command : Element} (b : Bullet) (f : Frame) (m : Memory)
    (uncalled : (fireOf command f.parameters s m).value = none)
    (turn : command.kind ≠ .changeDirection) (change : command.kind ≠ .changeSpeed)
    (accel : command.kind ≠ .accel) :
    (Exec.command command b f s m).memory.sequences = m.sequences := by
  have unfired (fire : Element) (q : Parameters) :
      ¬ Fires s.document f.parameters command fire q := by
    intro fires
    have called := fireOf_fires fires m
    rw [uncalled] at called
    cases called
  apply (command_writes command b f).keeps (I := fun last => last = m.sequences) _ rfl
  intro last last' writes same
  cases writes with
  | turn kind => exact absurd kind turn
  | aim fires => exact absurd fires (unfired _ _)
  | handOver fires => exact absurd fires (unfired _ _)
  | changeSpeed kind => exact absurd kind change
  | component _ kind => exact absurd kind accel

theorem play_fires {command fire : Element} {p q : Parameters} {m : Memory}
    (called : (fireOf command p s m).value = some (fire, q)) :
    (play command p s m).value =
      .fire (charge fire q s (fireOf command p s m).memory).value := by
  unfold play
  simp only [bind_run, called, pure_run]

theorem play_unfired {command : Element} {p : Parameters} {m : Memory}
    (uncalled : (fireOf command p s m).value = none) :
    (play command p s m).value =
      (playUnfired command p s (fireOf command p s m).memory).value := by
  unfold play
  simp only [bind_run, uncalled]

theorem playUnfired_plain {command : Element} {p : Parameters}
    (turn : command.kind ≠ .changeDirection) (change : command.kind ≠ .changeSpeed)
    (accel : command.kind ≠ .accel) : playUnfired command p = pure .other := by
  unfold playUnfired
  split
  · contradiction
  · contradiction
  · contradiction
  · rfl

/-- What a command leaves behind follows from what it reads. -/
theorem command_explained (command : Element) (b : Bullet) (f : Frame) (m : Memory) :
    (play command f.parameters s m).value.Explains s m.sequences b
      (Exec.command command b f s m) := by
  cases called : (fireOf command f.parameters s m).value with
  | some fire =>
    have sequences := (fireOf_reading command f.parameters).sequences s m
    rw [play_fires called, command_fires b called]
    simp only [fire_run, sequences]
    exact ⟨rfl, rfl⟩
  | none =>
    have still := command_still b f m called
    rw [play_unfired called]
    by_cases reference : command.kind = .fireRef
    · rw [playUnfired_plain (by simp [reference]) (by simp [reference]) (by simp [reference])]
      exact ⟨still (by simp [reference]) (by simp [reference]) (by simp [reference]), trivial⟩
    have own : command.kind ≠ .fire := by
      intro own
      rw [fireOf_own own] at called
      cases called
    have stays : (fireOf command f.parameters s m).memory = m := by
      rw [fireOf_other own reference, pure_run]
    rw [stays]
    by_cases turn : command.kind = .changeDirection
    · simp only [playUnfired, turn, bind_run, pure_run, Exec.command]
      exact changeDirection_explained command b f.parameters m
    by_cases change : command.kind = .changeSpeed
    · simp only [playUnfired, change, bind_run, pure_run, Exec.command]
      exact changeSpeed_explained command b f.parameters m
    by_cases accelerate : command.kind = .accel
    · simp only [playUnfired, accelerate, Exec.command]
      split
      · rename_i complete
        exact accel_explained command b f.parameters m complete
      · rename_i incomplete
        have missing : command.child? .term = none := by simpa using incomplete
        simp only [accel, missing]
        exact ⟨rfl, trivial⟩
    · rw [playUnfired_plain turn change accelerate]
      exact ⟨still turn change accelerate, trivial⟩

theorem playUnfired_holdsFire (command : Element) (p : Parameters) (last : Sequences)
    (b : Bullet) :
    Gives s (fun play => play.bullet? s last b = none) (fun _ => True)
      (playUnfired command p) := by
  have changed {kind : Kind} {make : Element × Binary32 → Play}
      (held : ∀ read, (make read).bullet? s last b = none) :
      Gives s (fun play => play.bullet? s last b = none) (fun _ => True)
        (do return (← changing command kind p).elim .other make) := by
    intro m
    refine ⟨?_, fun _ _ => trivial⟩
    rw [bind_run, pure_run]
    cases (changing command kind p s m).value with
    | none => rfl
    | some read => exact held read
  unfold playUnfired
  split
  · exact changed fun _ => rfl
  · exact changed fun _ => rfl
  · split
    · exact fun m => ⟨rfl, fun _ _ => trivial⟩
    · exact .pure rfl
  · exact .pure rfl

/-- The bullets that a command fires follow from what it reads. -/
theorem command_bullets (command : Element) (b : Bullet) (f : Frame) (m : Memory) :
    (Exec.command command b f s m).events.filterMap Event.bullet? =
      ((play command f.parameters s m).value.bullet? s m.sequences b).toList := by
  cases called : (fireOf command f.parameters s m).value with
  | some fire =>
    have reading := fireOf_reading command f.parameters
    have sequences := reading.sequences s m
    rw [play_fires called, command_fires b called]
    simp only [fire_run, sequences, List.filterMap_append, (reading.events s m).1,
      ((charge_reading fire.1 fire.2).events s _).1, List.nil_append]
    rfl
  | none =>
    rw [command_holdsFire b called, play_unfired called,
      (playUnfired_holdsFire command f.parameters m.sequences b _).1, Option.toList_none]

end Exec

namespace Engine

variable {e : Engine} {b : Bullet}

theorem play_still (still : b.next? = none) : e.play b = .other := by
  unfold play
  rw [still]
  cases b.stack <;> rfl

theorem play_runs {top : Cursor} {rest : List Cursor} {command : Element}
    (runs : b.Runs top rest command) :
    e.play b = (Exec.play command top.parameters e.setup e.memory).value := by
  unfold play
  rw [runs.next?, runs.stack]
  rfl

/-- What a step leaves behind follows from what its command reads. -/
theorem step_plays (e : Engine) (b : Bullet) :
    (e.step b).1.memory.sequences = (e.play b).after e.setup e.memory.sequences b ∧
    (e.step b).2.2.filterMap Event.bullet? =
      ((e.play b).bullet? e.setup e.memory.sequences b).toList ∧
    (e.play b = .other ∨ ∃ effect top rest, (e.play b).Does e.setup e.memory.sequences b effect ∧
      (e.step b).2.1 = effect.apply b top rest) := by
  rcases e.step_cases b with ⟨still, stack, eq⟩ | ⟨top, rest, command, runs⟩
  · rw [play_still still, eq]
    exact ⟨rfl, rfl, .inl rfl⟩
  · have explained := Exec.command_explained (s := e.setup) command b top.frame e.memory
    have bullets := Exec.command_bullets (s := e.setup) command b top.frame e.memory
    rw [play_runs runs, e.step_runs runs]
    refine ⟨explained.sequences, ?_, .inr ⟨_, top, rest, explained.does, rfl⟩⟩
    rw [List.filterMap_append, Effect.event?_bullet?, List.append_nil]
    exact bullets

theorem step_sequences (e : Engine) (b : Bullet) :
    (e.step b).1.memory.sequences = (e.play b).after e.setup e.memory.sequences b :=
  (e.step_plays b).1

theorem step_bullets (e : Engine) (b : Bullet) :
    (e.step b).2.2.filterMap Event.bullet? =
      ((e.play b).bullet? e.setup e.memory.sequences b).toList :=
  (e.step_plays b).2.1

theorem step_does (play : e.play b ≠ .other) :
    ∃ effect top rest, (e.play b).Does e.setup e.memory.sequences b effect ∧
      (e.step b).2.1 = effect.apply b top rest := by
  obtain ⟨-, -, other | does⟩ := e.step_plays b
  · contradiction
  · exact does

theorem step_turn {direction : Element × Binary32} (play : e.play b = .turn direction) :
    (e.step b).2.1.1.headingRamp.target =
      direction.1.headingOf direction.2 e.setup e.memory.sequences b := by
  obtain ⟨effect, top, rest, does, step⟩ := e.step_does (b := b) (by simp [play])
  rw [play] at does
  obtain ⟨n, rfl⟩ := does
  rw [step]
  rfl

theorem step_changeSpeed {speed : Element × Binary32} (play : e.play b = .changeSpeed speed) :
    (e.step b).2.1.1.speedRamp.target =
      speed.1.amount speed.2 (e.memory.sequences.changeSpeed.getD b.speed) b.speed := by
  obtain ⟨effect, top, rest, does, step⟩ := e.step_does (b := b) (by simp [play])
  rw [play] at does
  obtain ⟨n, rfl⟩ := does
  rw [step]
  rfl

theorem step_accelerate {h v : Option (Element × Binary32)} (play : e.play b = .accelerate h v) :
    (e.step b).2.1.1.thrust.horizontal =
        Play.component h e.memory.sequences.horizontal (b.plane.components b.acceleration).1 ∧
      (e.step b).2.1.1.thrust.vertical =
        Play.component v e.memory.sequences.vertical (b.plane.components b.acceleration).2 := by
  obtain ⟨effect, top, rest, does, step⟩ := e.step_does (b := b) (by simp [play])
  rw [play] at does
  obtain ⟨n, rfl⟩ := does
  rw [step]
  exact ⟨rfl, rfl⟩

end Engine

end Danmaku
