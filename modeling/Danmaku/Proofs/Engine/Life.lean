import Danmaku.Proofs.Engine.Depth

/-!
# The life of a bullet

A step executes a command, or changes the stack alone (`Engine.step_cases`). A bullet is fired
where its source is, and starts anew (`Engine.step_fired`). A step leaves of it what it was, but
for its stack and the changes that are under way, or makes it vanish (`Bullet.Takes`). One that has
vanished has no actions (`Host.run_settled`) and never comes back (`Host.run_inactive`).
-/

namespace Danmaku

/-- The command that the next step executes. -/
def Bullet.next? (b : Bullet) : Option Element :=
  match b.stack with
  | [] => none
  | top :: _ => if 0 < top.wait then none else top.command?

/-- The next step executes a command of the topmost action. -/
structure Bullet.Runs (b : Bullet) (top : Cursor) (rest : List Cursor) (command : Element) :
    Prop where
  stack : b.stack = top :: rest
  idle : top.wait = 0
  command : top.command? = some command

theorem Bullet.Runs.next? {b : Bullet} {top : Cursor} {rest : List Cursor} {command : Element}
    (h : b.Runs top rest command) : b.next? = some command := by
  simp only [Bullet.next?, h.stack, h.idle, Nat.lt_irrefl, ↓reduceIte, h.command]

namespace Engine

theorem step_runs {b : Bullet} {top : Cursor} {rest : List Cursor} {command : Element} (e : Engine)
    (h : b.Runs top rest command) :
    e.step b =
      let done := Exec.command command b top.frame e.setup e.memory
      ({ e with memory := done.memory }, done.value.apply b top rest,
        done.events ++ done.value.event?.toList) := by
  simp only [step, run, Exec.step_perform h.stack h.idle h.command, Exec.perform_run]

/-- A step executes a command, or changes nothing but the stack. -/
theorem step_cases (e : Engine) (b : Bullet) :
    (b.next? = none ∧ ∃ stack, e.step b = (e, ({ b with stack }, !stack.isEmpty), [])) ∨
      ∃ top rest command, b.Runs top rest command := by
  cases stack : b.stack with
  | nil =>
    left
    have none : (!b.stack.isEmpty) = false := by rw [stack]; rfl
    refine ⟨by simp [Bullet.next?, stack], b.stack, ?_⟩
    rw [none]
    simp only [step, run, Exec.step_nil stack, Exec.pure_run]
  | cons top rest =>
    by_cases waiting : 0 < top.wait
    · left
      refine ⟨by simp [Bullet.next?, stack, waiting], { top with wait := top.wait - 1 } :: rest, ?_⟩
      simp only [step, run, Exec.step, stack, waiting, ↓reduceIte]
      rfl
    cases at_ : top.command? with
    | none =>
      left
      refine ⟨by simp [Bullet.next?, stack, waiting, at_], rest, ?_⟩
      simp only [step, run, Exec.step, stack, waiting, at_, ↓reduceIte]
      rfl
    | some command => exact .inr ⟨top, rest, command, stack, by omega, at_⟩

end Engine

/-! ## Fired bullets -/

/-- A bullet that starts anew where another is. -/
def Bullet.Makes (source b : Bullet) : Prop :=
  ∃ heading speed stack, b = { Bullet.make source.position heading speed source.plane with stack }

namespace Exec

variable {s : Setup}

theorem madeBullet_makes (fire : Element) (source : Bullet) (p : Parameters) :
    Gives s source.Makes Event.Aside (madeBullet fire source p) := by
  unfold madeBullet
  apply Gives.bind (ofChild_gives fun _ => direction_gives _ _ _)
  intro heading? _
  apply Gives.bind (ofChild_gives fun _ => firedSpeed_gives _ _ _)
  intro speed? _
  apply Gives.bind (template_gives fire p)
  intro template? _
  apply Gives.bind (orElse_gives _ (ownHeading_gives source))
  intro heading _
  apply Gives.bind (orElse_gives _ (ownSpeed_gives source))
  intro speed _
  rcases template? with _ | ⟨t, q⟩
  · exact .pure ⟨heading, speed, [], rfl⟩
  · apply Gives.bind (templateCursors_gives q t.children)
    intro stack _
    apply Gives.bind (ofChild_gives fun _ => direction_gives _ _ _)
    intro heading? _
    apply Gives.bind (ofChild_gives fun _ => firedSpeed_gives _ _ _)
    intro speed? _
    exact .pure ⟨_, _, stack, rfl⟩

/-- What is fired is made where `source` is. -/
def FiresFrom (source : Bullet) (event : Event) : Prop :=
  ∀ b, event = .fired b → source.Makes b

theorem firesFrom_of_aside (source : Bullet) (event : Event) (h : event.Aside) :
    FiresFrom source event := by
  intro b eq
  subst eq
  exact h.elim

theorem fire_firesFrom (fire : Element) (source : Bullet) (p : Parameters) :
    Gives s (fun _ => True) (FiresFrom source) (Exec.fire fire source p) := by
  unfold Exec.fire handOver
  apply Gives.bind ((madeBullet_makes fire source p).mono (fun _ => id) (firesFrom_of_aside source))
  intro made makes
  apply Gives.bind Gives.setup
  intro _ _
  apply Gives.bind Gives.sequences
  intro last _
  apply Gives.bind (Gives.setSequences _)
  intro _ _
  apply Gives.emit
  intro b eq
  cases eq
  exact makes

theorem command_firesFrom (e : Element) (source : Bullet) (f : Frame) :
    Gives s (fun _ => True) (FiresFrom source) (command e source f) := by
  by_cases own : e.kind = .fire
  · simp only [command, own]
    apply Gives.bind (fire_firesFrom e source f.parameters)
    intro _ _
    exact .pure trivial
  by_cases reference : e.kind = .fireRef
  · simp only [command, reference]
    refine resolve_gives (firesFrom_of_aside source) (.pure trivial) fun d _ => ?_
    apply Gives.bind ((arguments_gives e f.parameters).mono (fun _ => id) (firesFrom_of_aside source))
    intro q _
    apply Gives.bind (fire_firesFrom d.element source q)
    intro _ _
    exact .pure trivial
  · -- No other command fires.
    apply (command_gives e source f).mono (fun _ _ => trivial)
    intro event of b eq
    subst eq
    cases of with
    | aside aside => exact aside.elim
    | fired fires =>
      cases fires with
      | own h => exact absurd h own
      | reference h => exact absurd h reference

end Exec

theorem Engine.step_fired {e : Engine} {source b : Bullet}
    (fired : .fired b ∈ (e.step source).2.2) : source.Makes b := by
  obtain ⟨top, rest, command, stack, idle, at_, -⟩ := step_events fired
  rw [e.step_runs ⟨stack, idle, at_⟩] at fired
  rcases List.mem_append.1 fired with fired | handed
  · exact (Exec.command_firesFrom command source top.frame e.memory).2 _ fired b rfl
  · exact (Effect.event?_aside handed).elim

/-- What a step can make of a bullet, and what it tells: whether there are actions left. -/
inductive Bullet.Takes (b : Bullet) : Bullet × Bool → Prop
  | on (stack : List Cursor) (headingRamp speedRamp : Ramp) (thrust : Thrust) :
      Takes b ({ b with stack, headingRamp, speedRamp, thrust }, !stack.isEmpty)
  | vanish : Takes b (b.vanish, false)

theorem Effect.apply_takes (effect : Effect) (b : Bullet) (top : Cursor) (rest : List Cursor) :
    b.Takes (effect.apply b top rest) := by
  cases effect with
  | vanish => exact .vanish
  | finish => exact .on rest b.headingRamp b.speedRamp b.thrust
  | nothing => exact .on (top.advance :: rest) b.headingRamp b.speedRamp b.thrust
  | wait frames =>
    exact .on ({ top.advance with wait := frames } :: rest) b.headingRamp b.speedRamp b.thrust
  | turn ramp => exact .on (top.advance :: rest) ramp b.speedRamp b.thrust
  | changeSpeed ramp => exact .on (top.advance :: rest) b.headingRamp ramp b.thrust
  | accelerate thrust => exact .on (top.advance :: rest) b.headingRamp b.speedRamp thrust
  | replace cursor => exact .on (cursor :: rest) b.headingRamp b.speedRamp b.thrust
  | enter count cursor =>
    have some : (!(List.replicate count cursor ++ top.advance :: rest).isEmpty) = true := by
      cases count <;> rfl
    have takes := Bullet.Takes.on (b := b) (List.replicate count cursor ++ top.advance :: rest)
      b.headingRamp b.speedRamp b.thrust
    rw [some] at takes
    exact takes

namespace Engine

variable {b : Bullet}

theorem step_takes (e : Engine) (b : Bullet) : b.Takes (e.step b).2.1 := by
  rcases e.step_cases b with ⟨-, stack, eq⟩ | ⟨top, rest, command, runs⟩
  · rw [eq]
    exact .on stack b.headingRamp b.speedRamp b.thrust
  · rw [e.step_runs runs]
    exact Effect.apply_takes _ b top rest

/-- A step tells whether there are actions left. -/
theorem step_tells (e : Engine) (b : Bullet) :
    (e.step b).2.1.2 = (e.step b).2.1.1.hasActions := by
  have takes := e.step_takes b
  generalize (e.step b).2.1 = result at takes
  cases takes with
  | on => rfl
  | vanish => rfl

theorem step_inactive (e : Engine) (gone : b.active = false) :
    (e.step b).2.1.1.active = false := by
  have takes := e.step_takes b
  generalize (e.step b).2.1 = result at takes
  cases takes with
  | on => exact gone
  | vanish => rfl

end Engine

namespace Bullet

/-- The bullet with every change one frame further, and with what the changes set. -/
def changed (b : Bullet) : Bullet :=
  { b with
    heading := (b.headingRamp.advance.2.map Heading.normalize).getD b.heading
    headingRamp := b.headingRamp.advance.1
    speed := b.speedRamp.advance.2.getD b.speed
    speedRamp := b.speedRamp.advance.1
    acceleration := (b.thrust.advance.2.map fun (h, v) => b.plane.embed h v).getD b.acceleration
    thrust := b.thrust.advance.1 }

theorem advance_eq_changed (b : Bullet) :
    b.advanceDirection.advanceSpeed.advanceThrust = b.changed := by
  have direction : b.advanceDirection = { b with
      heading := (b.headingRamp.advance.2.map Heading.normalize).getD b.heading
      headingRamp := b.headingRamp.advance.1 } := by
    unfold advanceDirection
    dsimp only
    split
    · rename_i heading set
      rw [set]
      rfl
    · rename_i none
      rw [none]
      rfl
  have thrust (b : Bullet) : b.advanceThrust = { b with
      acceleration := (b.thrust.advance.2.map fun (h, v) => b.plane.embed h v).getD b.acceleration
      thrust := b.thrust.advance.1 } := by
    unfold advanceThrust
    dsimp only
    split
    · rename_i h v set
      rw [set]
      rfl
    · rename_i none
      rw [none]
      rfl
  rw [thrust, direction]
  rfl

/-- A frame of an active bullet takes its changes further, and moves it if it is seen. -/
theorem tick_of_active {b : Bullet} (active : b.active = true) (dt multiplier : Binary32) :
    ∃ position accumulated, b.tick dt multiplier = { b.changed with position, accumulated } ∧
      (b.visible = false → position = b.position ∧ accumulated = b.accumulated) := by
  rw [tick, if_pos active]
  dsimp only
  rw [advance_eq_changed]
  split
  · rename_i seen
    refine ⟨_, _, rfl, fun unseen => ?_⟩
    rw [show b.changed.visible = b.visible from rfl, unseen] at seen
    cases seen
  · exact ⟨b.position, b.accumulated, rfl, fun _ => ⟨rfl, rfl⟩⟩

/-- A frame takes every change one frame further, and changes the motion only. A heading that it
sets is normalized. -/
theorem tick_cases (b : Bullet) (dt multiplier : Binary32) :
    b.tick dt multiplier = b ∨ ∃ heading position speed acceleration accumulated,
      (heading = b.heading ∨ ∃ x, heading = Heading.normalize x) ∧
      b.tick dt multiplier = { b with
        heading, position, speed, acceleration, accumulated
        headingRamp := b.headingRamp.advance.1
        speedRamp := b.speedRamp.advance.1
        thrust := b.thrust.advance.1 } := by
  by_cases active : b.active = true
  · right
    obtain ⟨position, accumulated, eq, -⟩ := tick_of_active active dt multiplier
    refine ⟨_, position, _, _, accumulated, ?_, eq⟩
    rw [changed]
    cases b.headingRamp.advance.2 with
    | none => exact .inl rfl
    | some x => exact .inr ⟨x, rfl⟩
  · left
    rw [tick, if_neg active]

theorem tick_active (b : Bullet) (dt multiplier : Binary32) :
    (b.tick dt multiplier).active = b.active := by
  rcases b.tick_cases dt multiplier with eq | ⟨_, _, _, _, _, -, eq⟩
  · rw [eq]
  · rw [eq]

end Bullet

/-! ## Vanished bullets -/

/-- If the bullet has vanished, it has no actions. -/
def Bullet.Settled (b : Bullet) : Prop := b.active = false → b.stack = []

theorem Bullet.Makes.active {source b : Bullet} (h : source.Makes b) : b.active = true := by
  obtain ⟨heading, speed, stack, rfl⟩ := h
  rfl

theorem Bullet.Born.active {b : Bullet} (h : b.Born) : b.active = true := by
  cases h with
  | shooter => rfl
  | fired h => exact (Engine.step_fired h).active

theorem Bullet.settled_of_active {b : Bullet} (h : b.active = true) : b.Settled := by
  intro gone
  rw [h] at gone
  cases gone

theorem Bullet.Born.settled {b : Bullet} (h : b.Born) : b.Settled := settled_of_active h.active

theorem Engine.step_settled (e : Engine) {b : Bullet} (h : b.Settled) :
    (e.step b).2.1.1.Settled := by
  cases active : b.active with
  | false =>
    rw [e.step_idle (h active)]
    exact h
  | true =>
    intro gone
    have takes := e.step_takes b
    generalize (e.step b).2.1 = result at takes gone
    cases takes with
    | on =>
      rw [active] at gone
      cases gone
    | vanish => rfl

theorem Engine.integrate_settled (e : Engine) {b : Bullet} (h : b.Settled) (dt : Binary32) :
    (e.integrate b dt).Settled := by
  intro gone
  rw [integrate, Bullet.tick_active] at gone
  rw [integrate, Bullet.tick_stack]
  exact h gone

namespace Host

theorem Treats.settled {e : Engine} {b b' : Bullet} (treats : Treats e b b') (h : b.Settled) :
    b'.Settled := by
  cases treats with
  | keep => exact h
  | step => exact e.step_settled h
  | integrate dt => exact e.integrate_settled h dt

theorem Treats.inactive {e : Engine} {b b' : Bullet} (treats : Treats e b b')
    (gone : b.active = false) : b'.active = false := by
  cases treats with
  | keep => exact gone
  | step => exact e.step_inactive gone
  | integrate dt => rwa [Engine.integrate, Bullet.tick_active]

/-- Whatever a host does, a bullet that has vanished has no actions. -/
theorem run_settled {h : Host} (start : ∀ b ∈ h.bullets, b.Settled) (deeds : List Deed) :
    ∀ b ∈ (h.run deeds).1.bullets, b.Settled := by
  apply run_keeps (P := fun h => ∀ b ∈ h.bullets, b.Settled)
  · intro h deed settled b' mem
    obtain ⟨b, hb, treats | fired⟩ := mem_act mem
    · exact treats.settled (settled b hb)
    · exact Bullet.settled_of_active (Engine.step_fired fired).active
  · exact start

/-- Whatever a host does, a bullet that has vanished does not come back. -/
theorem run_inactive {h : Host} {i : Nat} {b : Bullet} (found : h.bullets[i]? = some b)
    (gone : b.active = false) (deeds : List Deed) :
    ∃ b', (h.run deeds).1.bullets[i]? = some b' ∧ b'.active = false := by
  apply run_keeps (P := fun h => ∃ b, h.bullets[i]? = some b ∧ b.active = false)
  · intro h deed stays
    obtain ⟨b, found, gone⟩ := stays
    obtain ⟨b', found', treats⟩ := act_treats found deed
    exact ⟨b', found', treats.inactive gone⟩
  · exact ⟨b, found, gone⟩

end Host

end Danmaku
