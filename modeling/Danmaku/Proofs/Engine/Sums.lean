import Danmaku.Proofs.Engine.Session

/-!
# Values that add up

Four of the sequences go on by addition. Each has its own commands, and none of them hears of the
others: the changes of speed add up from the speed of the bullet that made the first of them, the
speed of a fire goes on from the bullet that was fired last, and the components of an acceleration
add up apart from each other. `sums_apart` says so of every step of every session.
-/

namespace Danmaku

namespace Play

/-- The value by which a change of speed goes on from the one before. -/
def speedChange? : Play → Option Binary32
  | changeSpeed speed => goingOn? (some speed)
  | _ => none

/-- The value by which the speed of a bullet that is fired goes on from the one before. The
template counts before the fire. -/
def firedSpeed? : Play → Option Binary32
  | fire c => goingOn? (c.inner.speed.or c.own.speed)
  | _ => none

/-- The value by which the horizontal component goes on from the one before. -/
def horizontal? : Play → Option Binary32
  | accelerate h _ => goingOn? h
  | _ => none

/-- The value by which the vertical component goes on from the one before. -/
def vertical? : Play → Option Binary32
  | accelerate _ v => goingOn? v
  | _ => none

end Play

/-- A change of speed by a value, of a bullet that has a speed of its own. -/
def changeOn (last : Option Binary32) (change : Binary32 × Binary32) : Option Binary32 :=
  some (last.getD change.1 + change.2)

/-- The changes add up from the speed of the first bullet. -/
theorem foldl_changeOn (changes : List (Binary32 × Binary32)) (last : Binary32) :
    changes.foldl changeOn (some last) = some ((changes.map Prod.snd).foldl (· + ·) last) := by
  induction changes generalizing last with
  | nil => rfl
  | cons change rest ih => exact ih (last + change.2)

theorem changeOn_total (changes : List (Binary32 × Binary32)) (speed x : Binary32) :
    ∃ first, (changes ++ [(speed, x)]).head? = some first ∧
      (changes.foldl changeOn none).getD speed + x =
        ((changes ++ [(speed, x)]).map Prod.snd).foldl (· + ·) first.1 := by
  cases changes with
  | nil => exact ⟨(speed, x), rfl, rfl⟩
  | cons change rest =>
    refine ⟨change, rfl, ?_⟩
    rw [List.foldl_cons, changeOn, Option.getD_none, foldl_changeOn, Option.getD_some]
    simp

/-- Each of the four goes on by what concerns it. -/
structure Play.Adds (play : Play) (s : Setup) (last : Sequences) (b : Bullet)
    (next : Sequences) : Prop where
  changeSpeed : next.changeSpeed =
    (play.speedChange?.map (b.speed, ·)).toList.foldl changeOn last.changeSpeed
  speed : next.speed = (play.bullet? s last b).toList.foldl (fun _ made => made.speed) last.speed
  horizontal : next.horizontal = play.horizontal?.toList.foldl (· + ·) last.horizontal
  vertical : next.vertical = play.vertical?.toList.foldl (· + ·) last.vertical

theorem Play.after_adds (play : Play) (s : Setup) (last : Sequences) (b : Bullet) :
    play.Adds s last b (play.after s last b) := by
  cases play with
  | fire c => exact ⟨rfl, rfl, rfl, rfl⟩
  | turn direction =>
    obtain ⟨heading, eq⟩ := last.goneOn_eq (some direction)
    rw [after, eq]
    exact ⟨rfl, rfl, rfl, rfl⟩
  | changeSpeed speed =>
    cases read : goingOn? (some speed) with
    | none => constructor <;> simp [after, speedChange?, bullet?, horizontal?, vertical?, read]
    | some x =>
      constructor <;> simp [after, speedChange?, bullet?, horizontal?, vertical?, read, changeOn]
  | accelerate h v =>
    constructor
    · rfl
    · rfl
    · cases read : goingOn? h <;> simp [after, horizontal?, read]
    · cases read : goingOn? v <;> simp [after, vertical?, read]
  | other => exact ⟨rfl, rfl, rfl, rfl⟩

namespace Engine

variable {e : Engine} {b : Bullet}

theorem step_adds (e : Engine) (b : Bullet) :
    (e.play b).Adds e.setup e.memory.sequences b (e.step b).1.memory.sequences := by
  rw [e.step_sequences b]
  exact (e.play b).after_adds e.setup e.memory.sequences b

theorem step_speedChange? {x : Binary32} (goesOn : (e.play b).speedChange? = some x) :
    (e.step b).2.1.1.speedRamp.target = e.memory.sequences.changeSpeed.getD b.speed + x := by
  cases play : e.play b with
  | changeSpeed speed =>
    rw [play, Play.speedChange?] at goesOn
    obtain ⟨_, eq, amount⟩ := goingOn?_eq_some goesOn
    cases eq
    rw [e.step_changeSpeed play, amount]
  | _ =>
    rw [play] at goesOn
    cases goesOn

theorem step_firedSpeed? {x : Binary32} (goesOn : (e.play b).firedSpeed? = some x) :
    ∃ made, (e.step b).2.2.filterMap Event.bullet? = [made] ∧
      made.speed = e.memory.sequences.speed + x := by
  cases play : e.play b with
  | fire c =>
    rw [play, Play.firedSpeed?] at goesOn
    refine ⟨c.bullet e.setup e.memory.sequences b, ?_, Charge.bullet_goesOn goesOn _ _ _⟩
    rw [e.step_bullets b, play]
    rfl
  | _ =>
    rw [play] at goesOn
    cases goesOn

theorem step_horizontal? {x : Binary32} (goesOn : (e.play b).horizontal? = some x) :
    (e.step b).2.1.1.thrust.horizontal = e.memory.sequences.horizontal + x := by
  cases play : e.play b with
  | accelerate h v =>
    rw [play, Play.horizontal?] at goesOn
    rw [(e.step_accelerate play).1, Play.component_goesOn goesOn]
  | _ =>
    rw [play] at goesOn
    cases goesOn

theorem step_vertical? {x : Binary32} (goesOn : (e.play b).vertical? = some x) :
    (e.step b).2.1.1.thrust.vertical = e.memory.sequences.vertical + x := by
  cases play : e.play b with
  | accelerate h v =>
    rw [play, Play.vertical?] at goesOn
    rw [(e.step_accelerate play).2, Play.component_goesOn goesOn]
  | _ =>
    rw [play] at goesOn
    cases goesOn

variable (e : Engine) (calls : List Call)

/-- The changes of speed that go on from the one before: the speed of the bullet at that moment,
and the value. -/
def speedChanges : List (Binary32 × Binary32) :=
  e.gather (fun e b => ((e.play b).speedChange?.map (b.speed, ·)).toList) calls

/-- The bullets that are fired. -/
def fired : List Bullet := e.gather (fun e b => (e.step b).2.2.filterMap Event.bullet?) calls

/-- The values by which the horizontal component goes on. -/
def horizontals : List Binary32 := e.gather (fun e b => (e.play b).horizontal?.toList) calls

/-- The values by which the vertical component goes on. -/
def verticals : List Binary32 := e.gather (fun e b => (e.play b).vertical?.toList) calls

/-- The speed from which a fire goes on: that of the bullet that was fired last. -/
def lastSpeed : Binary32 := ((e.fired calls).getLast?.map (·.speed)).getD 0

theorem foldl_speed (made : List Bullet) (speed : Binary32) :
    made.foldl (fun _ b => b.speed) speed = (made.getLast?.map (·.speed)).getD speed := by
  induction made generalizing speed with
  | nil => rfl
  | cons b rest ih =>
    rw [List.foldl_cons, ih, List.getLast?_cons]
    cases rest.getLast? <;> rfl

/-- After a session of an engine that is new, each of the four has gone on by all that concerns
it. -/
theorem serveAll_sums (fresh : e.memory.sequences = .start) :
    let last := (e.serveAll calls).memory.sequences
    last.changeSpeed = (e.speedChanges calls).foldl changeOn none ∧
    last.speed = e.lastSpeed calls ∧
    last.horizontal = (e.horizontals calls).foldl (· + ·) 0 ∧
    last.vertical = (e.verticals calls).foldl (· + ·) 0 := by
  have speed (e : Engine) (b : Bullet) : (e.step b).1.memory.sequences.speed =
      ((e.step b).2.2.filterMap Event.bullet?).foldl (fun _ made => made.speed)
        e.memory.sequences.speed := by
    rw [e.step_bullets b]
    exact (e.step_adds b).speed
  have changes := serveAll_gathers _ (fun e b => (e.step_adds b).changeSpeed) e calls
  have speeds := serveAll_gathers _ speed e calls
  have horizontals := serveAll_gathers _ (fun e b => (e.step_adds b).horizontal) e calls
  have verticals := serveAll_gathers _ (fun e b => (e.step_adds b).vertical) e calls
  rw [fresh] at changes speeds horizontals verticals
  rw [foldl_speed] at speeds
  exact ⟨changes, speeds, horizontals, verticals⟩

end Engine

/-- **Values add up apart from each other.** After any session of a new engine, the next step of
any bullet is as follows.

- A change of speed that goes on from the one before comes to the sum of all such changes, from
  the speed that the bullet of the first of them had.
- A speed that goes on from the one before, of a fire or of its template, is added to the speed of
  the bullet that was fired last. Unless the template gives another speed, that of the fire counts
  for the bullet.
- A component of an acceleration that goes on from the one before comes to the sum of all such
  values of that component. -/
theorem sums_apart (document : Document) (settings : Settings) (calls : List Engine.Call)
    (b : Bullet) :
    let start := Engine.make document settings
    let e := start.serveAll calls
    let done := calls ++ [.step b]
    (∀ x, (e.play b).speedChange? = some x →
      ∃ first, (start.speedChanges done).head? = some first ∧
        (e.step b).2.1.1.speedRamp.target =
          ((start.speedChanges done).map Prod.snd).foldl (· + ·) first.1) ∧
    (∀ c, e.play b = .fire c → ∀ g ∈ [c.own, c.inner], ∀ x, goingOn? g.speed = some x →
      g.speed? e.memory.sequences b = some (start.lastSpeed calls + x)) ∧
    (∀ x, (e.play b).firedSpeed? = some x →
      ∃ made, (e.step b).2.2.filterMap Event.bullet? = [made] ∧
        made.speed = start.lastSpeed calls + x) ∧
    (∀ x, (e.play b).horizontal? = some x →
      (e.step b).2.1.1.thrust.horizontal = (start.horizontals done).foldl (· + ·) 0) ∧
    (∀ x, (e.play b).vertical? = some x →
      (e.step b).2.1.1.thrust.vertical = (start.verticals done).foldl (· + ·) 0) := by
  intro start e done
  obtain ⟨changes, speed, horizontals, verticals⟩ := start.serveAll_sums calls rfl
  have given (g : Given) {x : Binary32} (goesOn : goingOn? g.speed = some x) :
      g.speed? e.memory.sequences b = some (start.lastSpeed calls + x) := by
    rw [← speed]
    exact Given.speed?_goesOn goesOn e.memory.sequences b
  refine ⟨fun x goesOn => ?_, fun c _ g _ x goesOn => given g goesOn, fun x goesOn => ?_,
    fun x goesOn => ?_, fun x goesOn => ?_⟩
  · obtain ⟨first, head, total⟩ := changeOn_total (start.speedChanges calls) b.speed x
    have snoc : start.speedChanges done = start.speedChanges calls ++ [(b.speed, x)] := by
      rw [Engine.speedChanges, Engine.gather_step, goesOn]
      rfl
    rw [snoc]
    refine ⟨first, head, ?_⟩
    rw [e.step_speedChange? goesOn, changes, total]
  · obtain ⟨made, fired, sum⟩ := e.step_firedSpeed? goesOn
    rw [speed] at sum
    exact ⟨made, fired, sum⟩
  · have snoc : start.horizontals done = start.horizontals calls ++ [x] := by
      rw [Engine.horizontals, Engine.gather_step, goesOn]
      rfl
    rw [e.step_horizontal? goesOn, horizontals, snoc, List.foldl_append]
    rfl
  · have snoc : start.verticals done = start.verticals calls ++ [x] := by
      rw [Engine.verticals, Engine.gather_step, goesOn]
      rfl
    rw [e.step_vertical? goesOn, verticals, snoc, List.foldl_append]
    rfl

/-- An action in which the four take turns. -/
def gains : Element :=
  .make .action [("label", "top")] none
    [.make .changeSpeed [] none
        [.make .speed [("type", "sequence")] (some "2") [], .leaf .term "1"],
      .make .fire [] none
        [.make .speed [("type", "sequence")] (some "3") [], .make .bullet [] none []],
      .make .changeSpeed [] none [.leaf .speed "9", .leaf .term "1"],
      .make .accel [] none
        [.make .horizontal [("type", "sequence")] (some "4") [], .leaf .vertical "1",
          .leaf .term "1"],
      .make .fire [] none
        [.leaf .speed "1",
          .make .bullet [] none [.make .speed [("type", "sequence")] (some "5") []]],
      .make .changeSpeed [] none
        [.make .speed [("type", "sequence")] (some "5") [], .leaf .term "1"],
      .make .accel [] none
        [.make .horizontal [("type", "sequence")] (some "6") [],
          .make .vertical [("type", "sequence")] (some "7") [], .leaf .term "1"]]

/-- The document that plays it. -/
def gaining : Document := .ofRoot (.make .bulletml [] none [gains]) []

/-- A bullet at one of its commands. -/
def gainer (i : Nat) : Bullet :=
  { Bullet.shooter .zero .xy with
    speed := 10
    stack := [{ Cursor.enter gains .empty 0 with next := i }] }

/-- The steps up to one of them. -/
def gained (n : Nat) : List Engine.Call := (List.range n).map fun i => .step (gainer i)

theorem gains_apart :
    let after n := (Engine.make gaining {}).serveAll (gained n)
    ((after 5).step (gainer 5)).2.1.1.speedRamp.target = 10 + 2 + 5 ∧
    (∃ made, ((after 4).step (gainer 4)).2.2.filterMap Event.bullet? = [made] ∧
      made.speed = 3 + 5) ∧
    ((after 6).step (gainer 6)).2.1.1.thrust.horizontal = 0 + 4 + 6 ∧
    ((after 6).step (gainer 6)).2.1.1.thrust.vertical = 0 + 7 := by
  intro after
  refine ⟨?_, ?_, ?_, ?_⟩
  · obtain ⟨first, head, target⟩ :=
      (sums_apart gaining {} (gained 5) (gainer 5)).1 5 (by decide +kernel)
    have changes : (Engine.make gaining {}).speedChanges (gained 5 ++ [.step (gainer 5)]) =
        [(10, 2), (10, 5)] := by decide +kernel
    rw [changes] at head target
    cases head
    exact target
  · obtain ⟨made, fired, speed⟩ :=
      (sums_apart gaining {} (gained 4) (gainer 4)).2.2.1 5 (by decide +kernel)
    have last : (Engine.make gaining {}).lastSpeed (gained 4) = 3 := by decide +kernel
    rw [last] at speed
    exact ⟨made, fired, speed⟩
  · have horizontal :=
      (sums_apart gaining {} (gained 6) (gainer 6)).2.2.2.1 6 (by decide +kernel)
    have values : (Engine.make gaining {}).horizontals (gained 6 ++ [.step (gainer 6)]) =
        [4, 6] := by decide +kernel
    rw [values] at horizontal
    exact horizontal
  · have vertical :=
      (sums_apart gaining {} (gained 6) (gainer 6)).2.2.2.2 7 (by decide +kernel)
    have values : (Engine.make gaining {}).verticals (gained 6 ++ [.step (gainer 6)]) =
        [7] := by decide +kernel
    rw [values] at vertical
    exact vertical

end Danmaku
