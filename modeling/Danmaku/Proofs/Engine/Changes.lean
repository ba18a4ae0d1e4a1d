import Danmaku.Proofs.Engine.Writes

/-!
# What a step may change

A step leaves most of its bullet as it is; each of the changes under way, and each of the sequences,
is in the hands of a few commands (`Bullet.Confines`, `Sequences.Confines`). Where a bullet is, and
what it has gathered, is the business of its frames alone, and not even of those if it is not seen.
So a shooter stays where it is (`Engine.step_confined`).
-/

namespace Danmaku

/-- The command fires, by itself or by reference. -/
def Document.Shoots (d : Document) (command : Element) : Prop :=
  command.kind = .fire ∨ command.kind = .fireRef ∧ (d.resolve? command).isSome = true

namespace Element

/-- The command changes the heading to one that goes on from the last one. -/
def Turns (command : Element) : Prop :=
  command.kind = .changeDirection ∧
    ∃ child, command.child? .direction = some child ∧ child.directionType = .sequence

/-- The command is of a kind, and has a child whose value goes on from the last one. -/
def Continues (command : Element) (kind child : Kind) : Prop :=
  command.kind = kind ∧ ∃ e, command.child? child = some e ∧ e.valueType = .sequence

end Element

theorem Fires.shoots {d : Document} {p q : Parameters} {command fire : Element}
    (h : Fires d p command fire q) : d.Shoots command := by
  cases h with
  | own kind => exact .inl kind
  | reference kind named => exact .inr ⟨kind, by rw [named]; rfl⟩

namespace Sequences.Writes

variable {d : Document} {p : Parameters} {e : Element} {last last' : Sequences}

theorem of_direction (h : Writes d p e last last') (changed : last'.direction ≠ last.direction) :
    d.Shoots e ∨ e.Turns := by
  cases h with
  | turn kind found type => exact .inr ⟨kind, _, found, type⟩
  | aim fires => exact .inl fires.shoots
  | handOver fires => exact .inl fires.shoots
  | component => exact absurd (last.setComponent_direction _ _) changed
  | changeSpeed => exact absurd rfl changed

theorem of_speed (h : Writes d p e last last') (changed : last'.speed ≠ last.speed) :
    d.Shoots e := by
  cases h with
  | handOver fires => exact fires.shoots
  | component => exact absurd (last.setComponent_speed _ _) changed
  | _ => exact absurd rfl changed

theorem of_component (axis : Axis) (h : Writes d p e last last')
    (changed : last'.component axis ≠ last.component axis) : e.Continues .accel axis.child := by
  cases h with
  | component other kind found type =>
    by_cases same : axis = other
    · subst same
      exact ⟨kind, _, found, type⟩
    · exact absurd (last.component_setComponent_of_ne axis _ same) changed
  | _ => exact absurd (by cases axis <;> rfl) changed

theorem of_changeSpeed (h : Writes d p e last last')
    (changed : last'.changeSpeed ≠ last.changeSpeed) : e.Continues .changeSpeed .speed := by
  cases h with
  | changeSpeed kind found type => exact ⟨kind, _, found, type⟩
  | component => exact absurd (last.setComponent_changeSpeed _ _) changed
  | _ => exact absurd rfl changed

end Sequences.Writes

namespace Effect.Of

variable {d : Document} {settings : Settings} {e : Element} {f : Frame} {effect : Effect}
  {b : Bullet} {top : Cursor} {rest : List Cursor}

theorem of_headingRamp (of : Effect.Of d settings e f effect)
    (changed : (effect.apply b top rest).1.headingRamp ≠ b.headingRamp) :
    e.kind = .changeDirection := by
  cases of with
  | turn kind => exact kind
  | _ => exact absurd rfl changed

theorem of_speedRamp (of : Effect.Of d settings e f effect)
    (changed : (effect.apply b top rest).1.speedRamp ≠ b.speedRamp) : e.kind = .changeSpeed := by
  cases of with
  | changeSpeed kind => exact kind
  | _ => exact absurd rfl changed

theorem of_thrust (of : Effect.Of d settings e f effect)
    (changed : (effect.apply b top rest).1.thrust ≠ b.thrust) : e.kind = .accel := by
  cases of with
  | accelerate kind => exact kind
  | _ => exact absurd rfl changed

theorem of_active (of : Effect.Of d settings e f effect)
    (changed : (effect.apply b top rest).1.active ≠ b.active) : e.kind = .vanish := by
  cases of with
  | vanish kind => exact kind
  | _ => exact absurd rfl changed

end Effect.Of

/-- The next command of a bullet is one that `P` holds of. -/
def Bullet.NextIs (b : Bullet) (P : Element → Prop) : Prop :=
  ∃ command, b.next? = some command ∧ P command

namespace Engine

variable {γ : Type} {e : Engine} {b : Bullet}

/-- What a step changes of a bullet, but for its stack, is changed by the effect of its command. -/
theorem step_effect (get : Bullet → γ) (unstacked : ∀ stack, get { b with stack } = get b)
    {P : Element → Prop}
    (each : ∀ {command f effect top rest},
      Effect.Of e.setup.document e.setup.settings command f effect →
        get (effect.apply b top rest).1 ≠ get b → P command)
    (changed : get (e.step b).2.1.1 ≠ get b) : b.NextIs P := by
  rcases e.step_cases b with ⟨-, stack, eq⟩ | ⟨top, rest, command, runs⟩
  · rw [eq] at changed
    exact absurd (unstacked stack) changed
  · rw [e.step_runs runs] at changed
    have of := (Exec.command_gives (s := e.setup) command b top.frame e.memory).1
    exact ⟨command, runs.next?, each of changed⟩

/-- What a step changes of the sequences is changed by one of the writes of its command. -/
theorem step_writes (get : Sequences → γ) {P : Element → Prop}
    (each : ∀ {p command last last'}, Sequences.Writes e.setup.document p command last last' →
      get last' ≠ get last → P command)
    (changed : get (e.step b).1.memory.sequences ≠ get e.memory.sequences) : b.NextIs P := by
  rcases e.step_cases b with ⟨-, stack, eq⟩ | ⟨top, rest, command, runs⟩
  · rw [eq] at changed
    exact absurd rfl changed
  · refine ⟨command, runs.next?, ?_⟩
    rw [e.step_runs runs] at changed
    by_contra none
    -- If no write changes it, all of them together keep what it was before the step.
    apply changed
    apply (Exec.command_writes command b top.frame).keeps
      (I := fun last => get last = get e.memory.sequences) _ rfl
    intro last last' writes same
    by_contra different
    exact none (each writes fun kept => different (kept.trans same))

end Engine

/-- What a step changes of a bullet, and with which commands only. -/
structure Bullet.Confines (b b' : Bullet) : Prop where
  position : b'.position = b.position
  heading : b'.heading = b.heading
  speed : b'.speed = b.speed
  acceleration : b'.acceleration = b.acceleration
  accumulated : b'.accumulated = b.accumulated
  visible : b'.visible = b.visible
  plane : b'.plane = b.plane
  headingRamp : b'.headingRamp ≠ b.headingRamp → b.NextIs (·.kind = .changeDirection)
  speedRamp : b'.speedRamp ≠ b.speedRamp → b.NextIs (·.kind = .changeSpeed)
  thrust : b'.thrust ≠ b.thrust → b.NextIs (·.kind = .accel)
  active : b'.active ≠ b.active → b.NextIs (·.kind = .vanish)

/-- What a step of a bullet changes of the sequences, and with which commands only. -/
structure Sequences.Confines (d : Document) (b : Bullet) (last last' : Sequences) : Prop where
  direction : last'.direction ≠ last.direction →
    b.NextIs fun command => d.Shoots command ∨ command.Turns
  speed : last'.speed ≠ last.speed → b.NextIs d.Shoots
  horizontal : last'.horizontal ≠ last.horizontal → b.NextIs (·.Continues .accel .horizontal)
  vertical : last'.vertical ≠ last.vertical → b.NextIs (·.Continues .accel .vertical)
  changeSpeed : last'.changeSpeed ≠ last.changeSpeed → b.NextIs (·.Continues .changeSpeed .speed)

namespace Engine

variable (e : Engine) (b : Bullet)

theorem step_confines : b.Confines (e.step b).2.1.1 := by
  have takes := e.step_takes b
  have same {γ : Type} (get : Bullet → γ)
      (on : ∀ stack headingRamp speedRamp thrust,
        get { b with stack, headingRamp, speedRamp, thrust } = get b)
      (vanish : get b.vanish = get b) : get (e.step b).2.1.1 = get b := by
    generalize (e.step b).2.1 = result at takes ⊢
    cases takes with
    | on => exact on _ _ _ _
    | vanish => exact vanish
  constructor
  case headingRamp => exact step_effect Bullet.headingRamp (fun _ => rfl) Effect.Of.of_headingRamp
  case speedRamp => exact step_effect Bullet.speedRamp (fun _ => rfl) Effect.Of.of_speedRamp
  case thrust => exact step_effect Bullet.thrust (fun _ => rfl) Effect.Of.of_thrust
  case active => exact step_effect Bullet.active (fun _ => rfl) Effect.Of.of_active
  all_goals exact same _ (fun _ _ _ _ => rfl) rfl

theorem step_confines_sequences :
    Sequences.Confines e.setup.document b e.memory.sequences (e.step b).1.memory.sequences where
  direction := step_writes Sequences.direction Sequences.Writes.of_direction
  speed := step_writes Sequences.speed Sequences.Writes.of_speed
  horizontal := step_writes Sequences.horizontal (Sequences.Writes.of_component .horizontal)
  vertical := step_writes Sequences.vertical (Sequences.Writes.of_component .vertical)
  changeSpeed := step_writes Sequences.changeSpeed Sequences.Writes.of_changeSpeed

end Engine

/-! ## Runs -/

/-- `b'` is not seen, and is where `b` was, with no more gathered. -/
structure Bullet.Rests (b b' : Bullet) : Prop where
  unseen : b'.visible = false
  position : b'.position = b.position
  accumulated : b'.accumulated = b.accumulated

/-- A frame moves only what is seen. -/
theorem Bullet.Rests.tick {b b' : Bullet} (h : b.Rests b') (dt multiplier : Binary32) :
    b.Rests (b'.tick dt multiplier) := by
  by_cases active : b'.active = true
  · obtain ⟨position, accumulated, eq, unmoved⟩ := Bullet.tick_of_active active dt multiplier
    obtain ⟨here, same⟩ := unmoved h.unseen
    rw [eq]
    exact ⟨h.unseen, here.trans h.position, same.trans h.accumulated⟩
  · rw [Bullet.tick, if_neg active]
    exact h

theorem Host.Treats.rests {e : Engine} {b b₁ b₂ : Bullet} (treats : Treats e b₁ b₂)
    (h : b.Rests b₁) : b.Rests b₂ := by
  cases treats with
  | keep => exact h
  | step =>
    have confined := e.step_confines b₁
    exact ⟨confined.visible.trans h.unseen, confined.position.trans h.position,
      confined.accumulated.trans h.accumulated⟩
  | integrate dt => exact h.tick dt e.settings.speedMultiplier

/-- **A step changes only what its command is for.** It never moves its bullet or changes what the
motion depends on; the changes under way and the sequences are in the hands of the commands that are
listed, and what the engine plays, under which settings and at which target, in those of none. So
whatever a host does, a bullet that is not seen stays where it is and gathers nothing. -/
theorem Engine.step_confined (e : Engine) (b : Bullet) :
    b.Confines (e.step b).2.1.1 ∧
    (e.step b).1.setup = e.setup ∧
    Sequences.Confines e.setup.document b e.memory.sequences (e.step b).1.memory.sequences ∧
    ∀ (h : Host) (i : Nat), h.bullets[i]? = some b → b.visible = false →
      ∀ deeds : List Deed, ∃ b', (h.run deeds).1.bullets[i]? = some b' ∧ b.Rests b' := by
  refine ⟨e.step_confines b, rfl, e.step_confines_sequences b, fun h i found unseen deeds => ?_⟩
  apply Host.run_keeps (P := fun h => ∃ b', h.bullets[i]? = some b' ∧ b.Rests b')
  · rintro h deed ⟨b₁, found₁, rests⟩
    obtain ⟨b₂, found₂, treats⟩ := Host.act_treats found₁ deed
    exact ⟨b₂, found₂, treats.rests rests⟩
  · exact ⟨b, found, unseen, rfl, rfl⟩

/-- An action that accelerates its bullet, and then turns it. -/
def thrusting : Element :=
  .make .action [("label", "top")] none
    [.make .accel [] none [.make .horizontal [("type", "sequence")] (some "1") [], .leaf .term "1"],
      .make .changeDirection [] none [.leaf .direction "90", .leaf .term "1"]]

/-- A host with a shooter that plays it. -/
def thruster : Host :=
  let e := Engine.make (.ofRoot (.make .bulletml [] none [thrusting]) []) {}
  ⟨e, [e.shooter thrusting .zero]⟩

theorem thrusting_rests :
    let b := thruster.engine.shooter thrusting .zero
    ∃ b', (thruster.run [.step 0, .integrate 0 1, .step 0, .integrate 0 1]).1.bullets[0]? = some b' ∧
      b.Rests b' := by
  intro b
  exact (Engine.step_confined thruster.engine b).2.2.2 thruster 0 rfl rfl _

end Danmaku
