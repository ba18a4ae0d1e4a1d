import Danmaku.Proofs.Binary32.Overflow
import Danmaku.Proofs.Engine.Courses
import Danmaku.Proofs.Engine.Failures
import Danmaku.Proofs.Engine.Session

/-!
# Finite values, and where they end

The text of an element never gives a value that is not finite. What a command does with the value is
another matter: a speed or a component of an acceleration may be added to the one before, and the
sum is not looked at. So what is finite stays finite in a step if and only if these sums do not
overflow (`Engine.step_finite_iff`), and in a session if and only if they do not in any of its steps
(`Engine.serveAll_finite_iff`).
-/

namespace Danmaku

structure Vec3.Finite (v : Vec3) : Prop where
  x : v.x.isFinite = true
  y : v.y.isFinite = true
  z : v.z.isFinite = true

theorem Vec3.zero_finite : zero.Finite := ⟨rfl, rfl, rfl⟩

theorem Vec3.Finite.components {v : Vec3} (h : v.Finite) (p : Plane) :
    (p.components v).1.isFinite = true ∧ (p.components v).2.isFinite = true := by
  cases p with
  | xy => exact ⟨h.x, h.y⟩
  | yz => exact ⟨h.z, h.y⟩

structure Ramp.Finite (r : Ramp) : Prop where
  start : r.start.isFinite = true
  target : r.target.isFinite = true

structure Thrust.Finite (t : Thrust) : Prop where
  horizontal : t.horizontal.isFinite = true
  vertical : t.vertical.isFinite = true

structure Bullet.Finite (b : Bullet) : Prop where
  position : b.position.Finite
  heading : b.heading.isFinite = true
  speed : b.speed.isFinite = true
  acceleration : b.acceleration.Finite
  headingRamp : b.headingRamp.Finite
  speedRamp : b.speedRamp.Finite
  thrust : b.thrust.Finite

structure Sequences.Finite (last : Sequences) : Prop where
  direction : last.direction.isFinite = true
  speed : last.speed.isFinite = true
  horizontal : last.horizontal.isFinite = true
  vertical : last.vertical.isFinite = true
  changeSpeed : ∀ x ∈ last.changeSpeed, x.isFinite = true

structure Settings.Finite (s : Settings) : Prop where
  rank : s.rank.isFinite = true
  defaultSpeed : s.defaultSpeed.isFinite = true
  waitMultiplier : s.waitMultiplier.isFinite = true
  angleOffset : s.angleOffset.isFinite = true
  speedMultiplier : s.speedMultiplier.isFinite = true

structure Engine.Finite (e : Engine) : Prop where
  settings : e.settings.Finite
  target : e.setup.target.Finite
  sequences : e.memory.sequences.Finite

theorem Engine.make_finite (document : Document) {settings : Settings} (h : settings.Finite) :
    (make document settings).Finite where
  settings := h
  target := Vec3.zero_finite
  sequences := ⟨rfl, rfl, rfl, rfl, fun _ mem => nomatch mem⟩

/-- All that a step leaves behind is finite. -/
structure Engine.StepFinite (e : Engine) (b : Bullet) : Prop where
  engine : (e.step b).1.Finite
  bullet : (e.step b).2.1.1.Finite
  fired : ∀ made ∈ (e.step b).2.2.filterMap Event.bullet?, made.Finite

/-- A change that an effect sets off is finite. -/
def Effect.Finite : Effect → Prop
  | turn ramp => ramp.Finite
  | changeSpeed ramp => ramp.Finite
  | accelerate thrust => thrust.Finite
  | _ => True

theorem Effect.finite_of_courseless {effect : Effect} (none : effect.course? = none) :
    effect.Finite := by
  cases effect with
  | turn | changeSpeed | accelerate => cases none
  | _ => trivial

theorem Effect.apply_finite_iff {b : Bullet} (h : b.Finite) (effect : Effect) (top : Cursor)
    (rest : List Cursor) : (effect.apply b top rest).1.Finite ↔ effect.Finite := by
  cases effect with
  | turn ramp => exact ⟨Bullet.Finite.headingRamp, fun ramp => { h with headingRamp := ramp }⟩
  | changeSpeed ramp => exact ⟨Bullet.Finite.speedRamp, fun ramp => { h with speedRamp := ramp }⟩
  | accelerate thrust => exact ⟨Bullet.Finite.thrust, fun thrust => { h with thrust }⟩
  | _ => exact iff_of_true { h with } trivial

/-- The sum that an element of this value means, if it means one. -/
def Element.sum? (e : Element) (x last current : Binary32) : Option (Binary32 × Binary32) :=
  match e.valueType with
  | .absolute => none
  | .relative => some (current, x)
  | .sequence => some (last, x)

/-- None of the sums overflows. -/
def Fit (sums : List (Binary32 × Binary32)) : Prop := ∀ sum ∈ sums, sum.1.Fits sum.2

instance (sums : List (Binary32 × Binary32)) : Decidable (Fit sums) :=
  inferInstanceAs (Decidable (∀ sum ∈ sums, sum.1.Fits sum.2))

theorem fit_nil : Fit [] := fun _ mem => absurd mem List.not_mem_nil

theorem fit_singleton (x y : Binary32) : Fit [(x, y)] ↔ x.Fits y :=
  List.forall_mem_singleton

theorem fit_append {sums sums' : List (Binary32 × Binary32)} :
    Fit (sums ++ sums') ↔ Fit sums ∧ Fit sums' :=
  List.forall_mem_append

namespace Read

def Finite (read : Option (Element × Binary32)) : Prop := ∀ r ∈ read, r.2.isFinite = true

def sums (read : Option (Element × Binary32)) (last current : Binary32) :
    List (Binary32 × Binary32) :=
  (read.bind fun r => r.1.sum? r.2 last current).toList

variable {read : Option (Element × Binary32)} {last current other : Binary32}

theorem finite_none : Finite none := by
  intro r mem
  cases mem

theorem finite_some {r : Element × Binary32} (h : r.2.isFinite = true) : Finite (some r) := by
  intro r' mem
  cases mem
  exact h

/-- What comes of what is read, or else another value, is finite if its sum does not overflow. -/
theorem amount_isFinite_iff (finite : Finite read) (hlast : last.isFinite = true)
    (hcurrent : current.isFinite = true) (hother : other.isFinite = true) :
    ((read.map fun r => r.1.amount r.2 last current).getD other).isFinite = true ↔
      Fit (sums read last current) := by
  rcases read with _ | ⟨e, x⟩
  · exact iff_of_true hother fit_nil
  have hx : x.isFinite = true := finite (e, x) rfl
  rw [Option.map_some, Option.getD_some, sums, Option.bind_some, Element.amount, Element.sum?]
  cases e.valueType with
  | absolute => exact iff_of_true hx fit_nil
  | relative => exact (Binary32.add_isFinite_iff hcurrent hx).trans (fit_singleton current x).symm
  | sequence => exact (Binary32.add_isFinite_iff hlast hx).trans (fit_singleton last x).symm

end Read

namespace Play

/-- The values that are read for a speed or an acceleration are finite. -/
def Finite : Play → Prop
  | fire c => Read.Finite c.own.speed ∧ Read.Finite c.inner.speed
  | changeSpeed speed => Read.Finite (some speed)
  | accelerate h v => Read.Finite h ∧ Read.Finite v
  | _ => True

/-- The sums that are formed of them. Those of a turn do not count, for it is normalized. -/
def sums (last : Sequences) (b : Bullet) : Play → List (Binary32 × Binary32)
  | fire c => Read.sums (c.inner.speed.or c.own.speed) last.speed b.speed
  | changeSpeed speed => Read.sums (some speed) (last.changeSpeed.getD b.speed) b.speed
  | accelerate h v =>
    Read.sums h last.horizontal (b.plane.components b.acceleration).1 ++
      Read.sums v last.vertical (b.plane.components b.acceleration).2
  | _ => []

end Play

namespace Exec

variable {s : Setup}

theorem giving_finite (e : Element) (kind : Kind) (p : Parameters) :
    Gives s Read.Finite (fun _ => True) (giving e kind p) := by
  unfold giving
  split
  · rename_i child _
    apply (value_gives child p).forget.bind
    intro x finite
    exact .pure (Read.finite_some finite)
  · exact .pure Read.finite_none

theorem given_finite (e : Element) (p : Parameters) :
    Gives s (fun g => Read.Finite g.speed) (fun _ => True) (given e p) := by
  apply (Gives.any _).bind
  intro direction _
  apply (giving_finite e .speed p).bind
  intro speed finite
  exact .pure finite

theorem charge_finite (fire : Element) (p : Parameters) :
    Gives s (fun c => (Play.fire c).Finite) (fun _ => True) (charge fire p) := by
  unfold charge
  apply (given_finite fire p).bind
  intro own finite
  apply (Gives.any _).bind
  intro template? _
  split
  · apply (Gives.any _).bind
    intro stack _
    apply (given_finite _ _).bind
    intro inner finite'
    exact .pure ⟨finite, finite'⟩
  · exact .pure ⟨finite, Read.finite_none⟩

theorem changing_finite (command : Element) (kind : Kind) (p : Parameters) :
    Gives s Read.Finite (fun _ => True) (changing command kind p) := by
  unfold changing
  split
  · exact giving_finite command kind p
  · exact .pure Read.finite_none

theorem playUnfired_finite (command : Element) (p : Parameters) :
    Gives s Play.Finite (fun _ => True) (playUnfired command p) := by
  unfold playUnfired
  split
  · apply (Gives.any _).bind
    intro read _
    cases read <;> exact .pure trivial
  · apply (changing_finite command .speed p).bind
    intro read finite
    cases read with
    | none => exact .pure trivial
    | some speed => exact .pure finite
  · split
    · apply (giving_finite command .horizontal p).bind
      intro h finite
      apply (giving_finite command .vertical p).bind
      intro v finite'
      exact .pure ⟨finite, finite'⟩
    · exact .pure trivial
  · exact .pure trivial

theorem play_finite (command : Element) (p : Parameters) :
    Gives s Play.Finite (fun _ => True) (play command p) := by
  unfold play
  apply (Gives.any _).bind
  intro fire? _
  split
  · rename_i fire q
    apply (charge_finite fire q).bind
    intro c finite
    exact .pure finite
  · exact playUnfired_finite command p

theorem changing_complete {command : Element} {kind : Kind} (p : Parameters) (m : Memory)
    (child : (command.child? kind).isSome = true) (term : (command.child? .term).isSome = true) :
    ∃ read, (changing command kind p s m).value = some read := by
  obtain ⟨e, found⟩ := Option.isSome_iff_exists.1 child
  exact ⟨(e, (value e p s m).value), by simp [changing, giving, term, found, bind_run, pure_run]⟩

/-- A command that reads nothing for a change sets none off. -/
theorem command_other {command : Element} (b : Bullet) (f : Frame) (m : Memory)
    (other : (play command f.parameters s m).value = .other) :
    (Exec.command command b f s m).value.course? = none := by
  cases missing : command.kind.needs.find? (fun k => (command.child? k).isNone) with
  | some child =>
    rw [(command_missing b missing).value]
    rfl
  | none =>
    -- With all that it needs a change would have been read.
    have complete (k : Kind) (needs : k ∈ command.kind.needs) :
        (command.child? k).isSome = true := by
      have given := List.find?_eq_none.1 missing k needs
      exact Option.isSome_iff_ne_none.2 (by simpa using given)
    have unfired (own : command.kind ≠ .fire) (reference : command.kind ≠ .fireRef) :
        (playUnfired command f.parameters s m).value = .other := by
      rw [play, fireOf_other own reference] at other
      exact other
    have of := (command_gives command b f m (s := s)).1
    generalize (Exec.command command b f s m).value = effect at of
    cases of with
    | turn kind ramp =>
      have child := complete .direction (by simp [kind, Kind.needs])
      have term := complete .term (by simp [kind, Kind.needs])
      have read := unfired (by simp [kind]) (by simp [kind])
      obtain ⟨direction, some⟩ := changing_complete (s := s) f.parameters m child term
      simp [playUnfired, kind, bind_run, pure_run, some] at read
    | changeSpeed kind ramp =>
      have child := complete .speed (by simp [kind, Kind.needs])
      have term := complete .term (by simp [kind, Kind.needs])
      have read := unfired (by simp [kind]) (by simp [kind])
      obtain ⟨speed, some⟩ := changing_complete (s := s) f.parameters m child term
      simp [playUnfired, kind, bind_run, pure_run, some] at read
    | accelerate kind thrust =>
      have term := complete .term (by simp [kind, Kind.needs])
      have read := unfired (by simp [kind]) (by simp [kind])
      simp only [playUnfired, kind, term, ↓reduceIte, bind_run, pure_run] at read
      cases read
    | _ => rfl

end Exec

/-! ## What a command leaves behind -/

theorem Element.headingOf_isFinite (e : Element) (x : Binary32) (s : Setup) (last : Sequences)
    (b : Bullet) : (e.headingOf x s last b).isFinite = true := by
  rw [← e.headingOf_normal]
  exact (Heading.normalize_inRange _).finite

theorem Sequences.Finite.goneOn {last : Sequences} (h : last.Finite)
    (read : Option (Element × Binary32)) : (last.goneOn read).Finite := by
  rcases read with _ | ⟨e, x⟩
  · exact h
  · unfold Sequences.goneOn
    dsimp only
    split
    · exact { h with direction := (Heading.normalize_inRange _).finite }
    · exact h

/-- What a sequence of components goes on to is what the acceleration changes to. -/
theorem Play.goneOn_isFinite {read : Option (Element × Binary32)} {last current : Binary32}
    (hlast : last.isFinite = true)
    (finite : (Play.component read last current).isFinite = true) :
    (((goingOn? read).map (last + ·)).getD last).isFinite = true := by
  cases goesOn : goingOn? read with
  | none => exact hlast
  | some x =>
    rw [Play.component_goesOn goesOn] at finite
    exact finite

section

variable {s : Setup} {last : Sequences} {b : Bullet} (hs : s.settings.Finite)
  (hlast : last.Finite) (hb : b.Finite)

theorem Charge.bullet_speed (c : Charge) :
    (c.bullet s last b).speed =
      ((c.inner.speed.or c.own.speed).map fun r => r.1.amount r.2 last.speed b.speed).getD
        (if (0 : Binary32).lt b.speed then b.speed else s.settings.defaultSpeed) := by
  rw [bullet, Given.speed?, Given.speed?]
  cases c.inner.speed with
  | none => rfl
  | some r => rfl

include hb in
theorem Charge.bullet_finite {c : Charge} (speed : (c.bullet s last b).speed.isFinite = true) :
    (c.bullet s last b).Finite where
  position := hb.position
  heading := by
    rw [← c.bullet_normal]
    exact (Heading.normalize_inRange _).finite
  speed := speed
  acceleration := Vec3.zero_finite
  headingRamp := ⟨rfl, rfl⟩
  speedRamp := ⟨rfl, rfl⟩
  thrust := ⟨rfl, rfl⟩

include hlast

theorem Play.after_changeSpeed_finite {speed : Element × Binary32}
    (sum : (speed.1.amount speed.2 (last.changeSpeed.getD b.speed) b.speed).isFinite = true) :
    ((Play.changeSpeed speed).after s last b).Finite := by
  cases goesOn : goingOn? (some speed) with
  | none =>
    simp only [Play.after, goesOn]
    exact hlast
  | some x =>
    simp only [Play.after, goesOn]
    obtain ⟨e, same, amount⟩ := goingOn?_eq_some goesOn
    cases same
    rw [amount] at sum
    refine { hlast with changeSpeed := fun y mem => ?_ }
    cases mem
    exact sum

include hb

theorem Play.speed_isFinite_iff {speed : Element × Binary32}
    (read : (Play.changeSpeed speed).Finite) :
    (speed.1.amount speed.2 (last.changeSpeed.getD b.speed) b.speed).isFinite = true ↔
      Fit ((Play.changeSpeed speed).sums last b) := by
  apply Read.amount_isFinite_iff read _ hb.speed hb.speed
  cases same : last.changeSpeed with
  | none => exact hb.speed
  | some x => exact hlast.changeSpeed x same

include hs

theorem Charge.speed_isFinite_iff {c : Charge} (read : (Play.fire c).Finite) :
    (c.bullet s last b).speed.isFinite = true ↔ Fit ((Play.fire c).sums last b) := by
  have either : Read.Finite (c.inner.speed.or c.own.speed) := by
    cases inner : c.inner.speed with
    | none => exact read.1
    | some r =>
      rw [Option.some_or, ← inner]
      exact read.2
  rw [c.bullet_speed]
  apply Read.amount_isFinite_iff either hlast.speed hb.speed
  split
  · exact hb.speed
  · exact hs.defaultSpeed

/-- All that a command leaves behind is finite if and only if it does not overflow. -/
theorem Play.finite_iff {play : Play} {effect : Effect} (read : play.Finite)
    (does : play.Does s last b effect) (other : play = .other → effect.Finite) :
    (play.after s last b).Finite ∧ effect.Finite ∧
        (∀ made ∈ play.bullet? s last b, made.Finite) ↔
      Fit (play.sums last b) := by
  cases play with
  | fire c =>
    have speed := Charge.speed_isFinite_iff hs hlast hb read
    rw [← speed]
    constructor
    · rintro ⟨-, -, made⟩
      exact (made _ rfl).speed
    · intro finite
      refine ⟨?_, ?_, ?_⟩
      · exact { hlast with direction := (Heading.normalize_inRange _).finite, speed := finite }
      · rw [does]
        trivial
      · rintro made ⟨⟩
        exact Charge.bullet_finite hb finite
  | turn direction =>
    -- Where its sums overflow, the heading is normalized to zero.
    obtain ⟨n, rfl⟩ := does
    refine iff_of_true ⟨hlast.goneOn (some direction), ⟨hb.heading, ?_⟩, ?_⟩ fit_nil
    · exact direction.1.headingOf_isFinite direction.2 s last b
    · rintro made ⟨⟩
  | changeSpeed speed =>
    obtain ⟨n, rfl⟩ := does
    rw [← Play.speed_isFinite_iff hlast hb read]
    constructor
    · rintro ⟨-, ramp, -⟩
      exact ramp.target
    · intro finite
      refine ⟨Play.after_changeSpeed_finite hlast finite, ⟨hb.speed, finite⟩, ?_⟩
      rintro made ⟨⟩
  | accelerate h v =>
    obtain ⟨n, rfl⟩ := does
    obtain ⟨current, current'⟩ := hb.acceleration.components b.plane
    have horizontal := Read.amount_isFinite_iff read.1 hlast.horizontal current current
    have vertical := Read.amount_isFinite_iff read.2 hlast.vertical current' current'
    rw [Play.sums, fit_append, ← horizontal, ← vertical]
    constructor
    · rintro ⟨-, thrust, -⟩
      exact ⟨thrust.horizontal, thrust.vertical⟩
    · rintro ⟨finite, finite'⟩
      refine ⟨?_, ⟨finite, finite'⟩, ?_⟩
      · exact { hlast with
          horizontal := Play.goneOn_isFinite hlast.horizontal finite
          vertical := Play.goneOn_isFinite hlast.vertical finite' }
      · rintro made ⟨⟩
  | other =>
    refine iff_of_true ⟨hlast, other rfl, ?_⟩ fit_nil
    rintro made ⟨⟩

end

namespace Engine

variable {e : Engine} {b : Bullet}

/-- The sums that the next step of a bullet forms. -/
def sums (e : Engine) (b : Bullet) : List (Binary32 × Binary32) :=
  (e.play b).sums e.memory.sequences b

theorem play_finite (e : Engine) (b : Bullet) : (e.play b).Finite := by
  unfold play
  split
  · exact (Exec.play_finite _ _ e.memory).1
  · trivial

/-- The effect of a step, with what it makes of the bullet. -/
theorem step_effective (e : Engine) (h : b.Finite) :
    ∃ effect, (e.play b).Does e.setup e.memory.sequences b effect ∧
      (e.play b = .other → effect.Finite) ∧ ((e.step b).2.1.1.Finite ↔ effect.Finite) := by
  rcases e.step_cases b with ⟨still, stack, eq⟩ | ⟨top, rest, command, runs⟩
  · rw [play_still still, eq]
    exact ⟨.nothing, trivial, fun _ => trivial, iff_of_true { h with } trivial⟩
  · have explained := Exec.command_explained (s := e.setup) command b top.frame e.memory
    rw [play_runs runs, e.step_runs runs]
    refine ⟨_, explained.does, fun other => ?_, Effect.apply_finite_iff h _ top rest⟩
    exact Effect.finite_of_courseless (Exec.command_other b top.frame e.memory other)

/-- A step leaves finite values behind if and only if its sums do not overflow. -/
theorem step_finite_iff (he : e.Finite) (hb : b.Finite) : e.StepFinite b ↔ Fit (e.sums b) := by
  obtain ⟨effect, does, other, bullet⟩ := e.step_effective hb
  have left := Play.finite_iff he.settings he.sequences hb (e.play_finite b) does other
  rw [sums, ← left, ← bullet, ← e.step_sequences b]
  constructor
  · intro done
    refine ⟨done.engine.sequences, done.bullet, fun made mem => done.fired made ?_⟩
    rw [e.step_bullets b]
    exact Option.mem_toList.2 mem
  · rintro ⟨sequences, bullet, fired⟩
    refine ⟨⟨he.settings, he.target, sequences⟩, bullet, fun made mem => fired made ?_⟩
    rw [e.step_bullets b] at mem
    exact Option.mem_toList.1 mem

end Engine

/-! ## Sessions -/

/-- What is given is finite. -/
def Adjustment.Finite : Adjustment → Prop
  | target position => position.Finite
  | plane _ => True
  | rank x => x.isFinite = true
  | defaultSpeed x => x.isFinite = true
  | waitMultiplier x => x.isFinite = true
  | angleOffset x => x.isFinite = true
  | speedMultiplier x => x.isFinite = true

theorem Engine.Finite.adjust {e : Engine} (h : e.Finite) {adjustment : Adjustment}
    (finite : adjustment.Finite) : (e.adjust adjustment).Finite := by
  obtain ⟨settings, target, sequences⟩ := h
  cases adjustment with
  | target position => exact ⟨settings, finite, sequences⟩
  | plane plane => exact ⟨{ settings with }, target, sequences⟩
  | rank x => exact ⟨{ settings with rank := finite }, target, sequences⟩
  | defaultSpeed x => exact ⟨{ settings with defaultSpeed := finite }, target, sequences⟩
  | waitMultiplier x => exact ⟨{ settings with waitMultiplier := finite }, target, sequences⟩
  | angleOffset x => exact ⟨{ settings with angleOffset := finite }, target, sequences⟩
  | speedMultiplier x => exact ⟨{ settings with speedMultiplier := finite }, target, sequences⟩

namespace Engine

def Call.Finite : Call → Prop
  | step b => b.Finite
  | adjust adjustment => adjustment.Finite

/-- A session leaves finite values behind, all the way, if and only if no step overflows. -/
theorem serveAll_finite_iff {e : Engine} (he : e.Finite) {calls : List Call}
    (finite : ∀ call ∈ calls, call.Finite) :
    (e.serveAll calls).Finite ∧ (∀ m ∈ e.moments calls, m.1.StepFinite m.2) ↔
      ∀ m ∈ e.moments calls, Fit (m.1.sums m.2) := by
  induction calls generalizing e with
  | nil =>
    refine iff_of_true ⟨he, fun m mem => ?_⟩ fun m mem => ?_
    · cases mem
    · cases mem
  | cons call rest ih =>
    obtain ⟨first, others⟩ := List.forall_mem_cons.1 finite
    cases call with
    | step b =>
      -- The rest is played by the engine that this step leaves behind, if that is finite.
      have step := step_finite_iff he first
      have later (done : e.StepFinite b) := ih done.engine others
      rw [moments, List.forall_mem_cons, List.forall_mem_cons, ← step]
      constructor
      · rintro ⟨whole, done, steps⟩
        exact ⟨done, (later done).1 ⟨whole, steps⟩⟩
      · rintro ⟨done, fits⟩
        obtain ⟨whole, steps⟩ := (later done).2 fits
        exact ⟨whole, done, steps⟩
    | adjust adjustment => exact ih (he.adjust first) others

end Engine

/-- A text whose value is not finite is reported, and counts as 0. -/
theorem Exec.value_of_infinite {s : Setup} {m : Memory} {element : Element} {p : Parameters}
    {x : Binary32} (of : (evaluate element.body p s m).value = .ok x)
    (infinite : x.isFinite = false) :
    (value element p s m).value = 0 ∧
      .fault (.nonFinite element.kind x) ∈ (value element p s m).events := by
  unfold value
  rw [bind_run, of]
  dsimp only
  rw [infinite]
  exact ⟨rfl, List.mem_append_right _ (List.mem_singleton.2 rfl)⟩

/-- **Values are finite unless a sum overflows.** Every text gives a finite value: one that is not is
reported, and counts as 0. From there on nothing is looked at: if an engine and a bullet are finite,
what a step leaves behind of them, and what it fires, is finite if and only if what the step adds up
does not overflow. So it is with all the steps of a session in which nothing but what is finite is
given to the engine. -/
theorem finite_unless_overflow {e : Engine} (he : e.Finite) :
    (∀ (m : Memory) (element : Element) (p : Parameters),
      (Exec.value element p e.setup m).value.isFinite = true ∧
        ∀ x, (Exec.evaluate element.body p e.setup m).value = .ok x → x.isFinite = false →
          (Exec.value element p e.setup m).value = 0 ∧
            .fault (.nonFinite element.kind x) ∈ (Exec.value element p e.setup m).events) ∧
    (∀ b : Bullet, b.Finite → (e.StepFinite b ↔ Fit (e.sums b))) ∧
    ∀ calls : List Engine.Call, (∀ call ∈ calls, call.Finite) →
      ((e.serveAll calls).Finite ∧ (∀ m ∈ e.moments calls, m.1.StepFinite m.2) ↔
        ∀ m ∈ e.moments calls, Fit (m.1.sums m.2)) := by
  refine ⟨fun m element p => ⟨?_, fun x of infinite => ?_⟩, fun b hb => ?_, fun calls finite => ?_⟩
  · exact (Exec.value_gives element p m).1
  · exact Exec.value_of_infinite of infinite
  · exact Engine.step_finite_iff he hb
  · exact Engine.serveAll_finite_iff he finite

/-- An acceleration by a value that is finite, but not twice. -/
def pile : Element :=
  .make .accel [] none
    [.make .horizontal [("type", "sequence")] (some "300000000000000000000000000000000000000") [],
      .leaf .term "1"]

/-- An action that accelerates so twice. -/
def piling : Element := .make .action [("label", "top")] none [pile, pile, .leaf .wait "1"]

/-- The engine that plays it. -/
def piler : Engine := .make (.ofRoot (.make .bulletml [] none [piling]) []) {}

/-- What the first step comes to. -/
def piledOnce : Engine × (Bullet × Bool) × List Event := piler.step (piler.shooter piling .zero)

/-- What the second step comes to. -/
def piledTwice : Engine × (Bullet × Bool) × List Event := piledOnce.1.step piledOnce.2.1.1

theorem piler_finite : piler.Finite ∧ (piler.shooter piling .zero).Finite := by
  constructor
  · exact Engine.make_finite _ ⟨rfl, rfl, rfl, rfl, rfl⟩
  · exact ⟨Vec3.zero_finite, rfl, rfl, Vec3.zero_finite, ⟨rfl, rfl⟩, ⟨rfl, rfl⟩, ⟨rfl, rfl⟩⟩

theorem piler_fits : Fit (piler.sums (piler.shooter piling .zero)) := by decide +kernel

theorem piledOnce_finite : piledOnce.1.Finite ∧ piledOnce.2.1.1.Finite := by
  have done := (Engine.step_finite_iff piler_finite.1 piler_finite.2).2 piler_fits
  exact ⟨done.engine, done.bullet⟩

/-- A text that divides by zero counts as 0. Of two steps that are alike the first is finite and the
second is not, and neither is a session of both. -/
theorem piling_overflows :
    let calls : List Engine.Call :=
      [.step (piler.shooter piling .zero), .step piledOnce.2.1.1]
    (Exec.value (.leaf .term "1/0") .empty piler.setup piler.memory).value = 0 ∧
      piler.StepFinite (piler.shooter piling .zero) ∧
      ¬ piledOnce.1.StepFinite piledOnce.2.1.1 ∧
      ¬ ((piler.serveAll calls).Finite ∧ ∀ m ∈ piler.moments calls, m.1.StepFinite m.2) := by
  intro calls
  obtain ⟨he, hb⟩ := piler_finite
  obtain ⟨he', hb'⟩ := piledOnce_finite
  obtain ⟨texts, steps, sessions⟩ := finite_unless_overflow he
  obtain ⟨-, steps', -⟩ := finite_unless_overflow he'
  have overflows : ¬ Fit (piledOnce.1.sums piledOnce.2.1.1) := by decide +kernel
  have finite : ∀ call ∈ calls, call.Finite := by simp [calls, Engine.Call.Finite, hb, hb']
  refine ⟨?_, (steps _ hb).2 piler_fits, fun done => ?_, fun done => ?_⟩
  · have infinite : (Exec.evaluate (Element.leaf .term "1/0").body .empty piler.setup
        piler.memory).value = .ok (.infinite false) := by decide +kernel
    exact ((texts _ _ _).2 _ infinite rfl).1
  · exact overflows ((steps' _ hb').1 done)
  · have all := (sessions calls finite).1 done
    have moment : (piledOnce.1, piledOnce.2.1.1) ∈ piler.moments calls := by
      simp [calls, Engine.moments, piledOnce]
    exact overflows (all (piledOnce.1, piledOnce.2.1.1) moment)

/-- The second step leaves infinity behind, and reports nothing. -/
theorem piledTwice_infinite :
    (piledOnce.1.Finite ∧ piledOnce.2.1.1.Finite) ∧
      ¬ piledOnce.1.StepFinite piledOnce.2.1.1 ∧
      piledTwice.1.memory.sequences.horizontal = .infinite false ∧
      piledTwice.2.1.1.thrust.horizontal = .infinite false ∧
      piledTwice.2.2.filterMap Event.fault? = [] := by
  have infinite : piledTwice.1.memory.sequences.horizontal = .infinite false ∧
      piledTwice.2.1.1.thrust.horizontal = .infinite false ∧
      piledTwice.2.2.filterMap Event.fault? = [] := by decide +kernel
  refine ⟨piledOnce_finite, fun done => ?_, infinite⟩
  have finite : piledTwice.2.1.1.thrust.horizontal.isFinite = true := done.bullet.thrust.horizontal
  rw [infinite.2.1] at finite
  cases finite

end Danmaku
