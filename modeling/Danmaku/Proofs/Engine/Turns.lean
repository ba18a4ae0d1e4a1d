import Danmaku.Proofs.Binary32.Integer
import Danmaku.Proofs.Engine.Session

/-!
# Directions that add up

Directions that go on from the one before are normalized at every command, with the offset of all
angles and, after a fire, without it again. As long as they are integers nothing is rounded, and
what has been added up is known up to whole turns (`Engine.serveAll_onTurn`), whatever the offset
was in the meantime (`directions_add_up`).
-/

namespace Danmaku

namespace Binary32

/-- The integer that a number is, if it is one. -/
def integer (x : Binary32) : Int := x.toUnits?.getD 0 / unitsPerOne

/-- An integer that is so small that sums with headings are exact. -/
structure Moderate (x : Binary32) : Prop where
  whole : x.Whole x.integer
  small : x.integer.natAbs < 2 ^ 20

instance (x : Binary32) : Decidable x.Moderate :=
  decidable_of_iff (x.Whole x.integer ∧ x.integer.natAbs < 2 ^ 20)
    ⟨fun h => ⟨h.1, h.2⟩, fun h => ⟨h.whole, h.small⟩⟩

end Binary32

namespace Heading

open Binary32

/-- What an integer is normalized to. -/
def reduce (z : Int) : Int :=
  if 360 < z then (if z.tmod 360 = 0 then 360 else z.tmod 360)
  else if z ≤ -360 then z.tmod 360
  else z

theorem reduce_range (z : Int) : -360 < reduce z ∧ reduce z ≤ 360 := by
  have above : -360 < z.tmod 360 := Int.lt_tmod_of_pos z (by decide)
  have below : z.tmod 360 < 360 := Int.tmod_lt_of_pos z (by decide)
  unfold reduce
  split
  · split <;> omega
  · split <;> omega

theorem reduce_emod (z : Int) : reduce z % 360 = z % 360 := by
  have rest := Int.mul_tdiv_add_tmod z 360
  unfold reduce
  split
  · split <;> omega
  · split <;> omega

theorem normalize_whole {x : Binary32} {z : Int} (h : x.Whole z) :
    (normalize x).Whole (reduce z) := by
  have pos := unitsPerOne_pos
  have turn_eq : turn = 360 * unitsPerOne := Int.natCast_mul 360 unitsPerOne
  have rest : (z * unitsPerOne).tmod turn = z.tmod 360 * unitsPerOne := by
    rw [turn_eq, Int.mul_comm, Int.mul_comm 360, Int.mul_tmod_mul_of_pos _ _ pos, Int.mul_comm]
  have zero : z.tmod 360 * unitsPerOne = 0 ↔ z.tmod 360 = 0 := by
    rw [Int.mul_eq_zero, or_iff_left (Int.ne_of_gt pos)]
  have above : turn < z * unitsPerOne ↔ 360 < z := by
    rw [turn_eq, Int.mul_lt_mul_right pos]
  have below : z * unitsPerOne ≤ -turn ↔ z ≤ -360 := by
    rw [turn_eq, ← Int.neg_mul, Int.mul_le_mul_right pos]
  rw [Whole, normalize_units h]
  simp only [rest, zero, above, below, reduce]
  split
  · split
    · rw [turn_eq]
    · rfl
  · split <;> rfl

/-- The heading is in the range, and it is this integer up to whole turns. -/
def OnTurn (x : Binary32) (z : Int) : Prop :=
  ∃ w, x.Whole w ∧ -360 < w ∧ w ≤ 360 ∧ w % 360 = z % 360

namespace OnTurn

variable {x y : Binary32} {z : Int}

theorem of_zero (h : x.Whole 0) : OnTurn x 0 := ⟨0, h, by decide, by decide, rfl⟩

theorem of_whole {w : Int} (h : x.Whole w) (same : w % 360 = z % 360) :
    OnTurn (normalize x) z := by
  obtain ⟨above, below⟩ := reduce_range w
  exact ⟨reduce w, normalize_whole h, above, below, (reduce_emod w).trans same⟩

theorem add (h : OnTurn x z) (moderate : y.Moderate) :
    OnTurn (normalize (x + y)) (z + y.integer) := by
  obtain ⟨w, whole, above, below, same⟩ := h
  have small := moderate.small
  apply of_whole (whole.add moderate.whole (by omega))
  rw [Int.add_emod, same, ← Int.add_emod]

theorem sub (h : OnTurn x z) (moderate : y.Moderate) :
    OnTurn (normalize (x - y)) (z - y.integer) := by
  obtain ⟨w, whole, above, below, same⟩ := h
  have small := moderate.small
  apply of_whole (whole.sub moderate.whole (by omega))
  rw [Int.sub_emod, same, ← Int.sub_emod]

end OnTurn

end Heading

open Heading (OnTurn)

/-- The direction that goes on from the one before, if it does. -/
def turningOn? : Option (Element × Binary32) → Option Binary32
  | some (e, x) => if e.directionType = .sequence then some x else none
  | none => none

namespace Play

/-- The value by which a fire or a change of direction goes on from the direction before. -/
def turned? : Play → Option Binary32
  | fire c => turningOn? c.own.direction
  | turn direction => turningOn? (some direction)
  | _ => none

/-- A fire goes on from the direction before by an integer, and its template has no direction. A
change of direction that goes on does so by an integer, too. -/
def Orderly (offset : Binary32) : Play → Prop
  | fire c => c.inner.direction = none ∧
      ∃ x ∈ turningOn? c.own.direction, x.Moderate ∧ offset.Moderate
  | turn direction => ∀ x ∈ turningOn? (some direction), x.Moderate ∧ offset.Moderate
  | _ => True

instance (offset : Binary32) (play : Play) : Decidable (play.Orderly offset) :=
  match play with
  | fire c => inferInstanceAs (Decidable (c.inner.direction = none ∧
      ∃ x ∈ turningOn? c.own.direction, x.Moderate ∧ offset.Moderate))
  | turn direction => inferInstanceAs (Decidable
      (∀ x ∈ turningOn? (some direction), x.Moderate ∧ offset.Moderate))
  | changeSpeed _ => .isTrue trivial
  | accelerate _ _ => .isTrue trivial
  | other => .isTrue trivial

end Play

section

variable {s : Setup} {last : Sequences} {b : Bullet} {z : Int}

theorem turningOn?_eq_some {read : Option (Element × Binary32)} {x : Binary32}
    (goesOn : turningOn? read = some x) :
    ∃ e, read = some (e, x) ∧ e.directionType = .sequence := by
  rcases read with _ | ⟨e, y⟩
  · cases goesOn
  · by_cases sequence : e.directionType = .sequence
    · rw [turningOn?, if_pos sequence] at goesOn
      cases goesOn
      exact ⟨e, rfl, sequence⟩
    · rw [turningOn?, if_neg sequence] at goesOn
      cases goesOn

theorem Element.headingOf_onTurn {e : Element} {x : Binary32}
    (sequence : e.directionType = .sequence) (start : OnTurn last.direction z) (value : x.Moderate)
    (offset : s.settings.angleOffset.Moderate) :
    OnTurn (e.headingOf x s last b) (z + x.integer + s.settings.angleOffset.integer) := by
  rw [headingOf, sequence]
  exact (start.add value).add offset

theorem Charge.bullet_heading {c : Charge} (bare : c.inner.direction = none) {e : Element}
    {x : Binary32} (own : c.own.direction = some (e, x)) :
    (c.bullet s last b).heading = e.headingOf x s last b := by
  rw [bullet, Given.heading?, bare, Given.heading?, own]
  rfl

theorem Sequences.goneOn_onTurn {direction : Element × Binary32} (start : OnTurn last.direction z)
    (moderate : ∀ x ∈ turningOn? (some direction), x.Moderate) :
    OnTurn (last.goneOn (some direction)).direction
      (((turningOn? (some direction)).toList.map Binary32.integer).foldl (· + ·) z) := by
  cases goesOn : turningOn? (some direction) with
  | some x =>
    obtain ⟨e, eq, sequence⟩ := turningOn?_eq_some goesOn
    cases eq
    simp only [goneOn, sequence]
    exact start.add (moderate x goesOn)
  | none =>
    have still : last.goneOn (some direction) = last := by
      unfold goneOn
      dsimp only
      split
      · rename_i sequence
        rw [turningOn?, if_pos sequence] at goesOn
        cases goesOn
      · rfl
    rw [still]
    exact start

theorem Charge.after_onTurn {c : Charge} (start : OnTurn last.direction z)
    (bare : c.inner.direction = none) {x : Binary32} (goesOn : turningOn? c.own.direction = some x)
    (value : x.Moderate) (offset : s.settings.angleOffset.Moderate) :
    OnTurn (c.bullet s last b).heading (z + x.integer + s.settings.angleOffset.integer) ∧
      OnTurn (c.after s last b).direction (z + x.integer) := by
  obtain ⟨e, own, sequence⟩ := turningOn?_eq_some goesOn
  have made := Element.headingOf_onTurn (b := b) sequence start value offset
  rw [← Charge.bullet_heading bare own] at made
  -- The offset goes off again in one more rounding to the range, which may end a whole turn away.
  have based := made.sub offset
  rw [Int.add_sub_cancel] at based
  exact ⟨made, based⟩

/-- Whatever a command does with the direction, it has gone on by what it adds. -/
theorem Play.after_onTurn {play : Play} (orderly : play.Orderly s.settings.angleOffset)
    (start : OnTurn last.direction z) :
    OnTurn (play.after s last b).direction
      ((play.turned?.toList.map Binary32.integer).foldl (· + ·) z) := by
  cases play with
  | fire c =>
    obtain ⟨bare, x, goesOn, value, offset⟩ := orderly
    rw [turned?, goesOn]
    exact (Charge.after_onTurn start bare goesOn value offset).2
  | turn direction => exact Sequences.goneOn_onTurn start fun x mem => (orderly x mem).1
  | changeSpeed speed =>
    unfold after
    dsimp only
    split
    · exact start
    · exact start
  | accelerate h v => exact start
  | other => exact start

end

/-! ## Sessions -/

namespace Engine

/-- The next step goes on from the direction before by an integer, if it does so. -/
def Orderly (e : Engine) (b : Bullet) : Prop := (e.play b).Orderly e.settings.angleOffset

instance (e : Engine) (b : Bullet) : Decidable (e.Orderly b) :=
  inferInstanceAs (Decidable ((e.play b).Orderly e.settings.angleOffset))

/-- The integers by which the directions have gone on. -/
def turned (e : Engine) (calls : List Call) : List Int :=
  e.gather (fun e b => (e.play b).turned?.toList.map Binary32.integer) calls

theorem step_onTurn {e : Engine} {b : Bullet} {z : Int} (orderly : e.Orderly b)
    (start : OnTurn e.memory.sequences.direction z) :
    OnTurn (e.step b).1.memory.sequences.direction
      (((e.play b).turned?.toList.map Binary32.integer).foldl (· + ·) z) := by
  rw [e.step_sequences b]
  exact Play.after_onTurn orderly start

/-- After a session the direction has gone on by all that has been added. What the offset was, and
how often it has changed, does not matter. -/
theorem serveAll_onTurn {e : Engine} {z : Int} (start : OnTurn e.memory.sequences.direction z)
    {calls : List Call} (orderly : ∀ m ∈ e.moments calls, m.1.Orderly m.2) :
    OnTurn (e.serveAll calls).memory.sequences.direction
      ((e.turned calls).foldl (· + ·) z) := by
  induction calls generalizing e z with
  | nil => exact start
  | cons call rest ih =>
    cases call with
    | step b =>
      have first := step_onTurn (orderly (e, b) List.mem_cons_self) start
      have later := ih first fun m mem => orderly m (List.mem_cons_of_mem _ mem)
      rw [turned, gather, moments, List.flatMap_cons, List.foldl_append]
      exact later
    | adjust adjustment =>
      rw [← e.adjust_sequences adjustment] at start
      exact ih start orderly

end Engine

/-- **Directions add up.** In a session of an engine with the direction 0, let every fire, and every
change of direction that goes on from the one before, do so by an integer of a magnitude below 2²⁰,
under an offset of that kind. Then the heading of a bullet that is fired, and the target of such a
change of direction, are all that has been added up to then together with the offset at that moment,
up to whole turns. The direction on which the sequences go on is what has been added, without any
offset. -/
theorem directions_add_up {e : Engine} (start : e.memory.sequences.direction.Whole 0)
    (calls : List Engine.Call) (b : Bullet)
    (orderly : ∀ m ∈ e.moments (calls ++ [.step b]), m.1.Orderly m.2) :
    let now := e.serveAll calls
    let total := (e.turned (calls ++ [.step b])).foldl (· + ·) 0
    let offset := now.settings.angleOffset.integer
    (∀ c, now.play b = .fire c →
      ∃ made, (now.step b).2.2.filterMap Event.bullet? = [made] ∧
        OnTurn made.heading (total + offset)) ∧
    (∀ direction, now.play b = .turn direction → direction.1.directionType = .sequence →
      OnTurn (now.step b).2.1.1.headingRamp.target (total + offset)) ∧
    OnTurn (now.step b).1.memory.sequences.direction total := by
  intro now total offset
  rw [Engine.moments_append] at orderly
  have before : OnTurn now.memory.sequences.direction ((e.turned calls).foldl (· + ·) 0) :=
    e.serveAll_onTurn (.of_zero start) fun m mem => orderly m (List.mem_append_left _ mem)
  have step : now.Orderly b := orderly (now, b) (List.mem_append_right _ (List.mem_singleton.2 rfl))
  have added : total = ((now.play b).turned?.toList.map Binary32.integer).foldl (· + ·)
      ((e.turned calls).foldl (· + ·) 0) := by
    rw [← List.foldl_append]
    exact congrArg (List.foldl (· + ·) 0) (Engine.gather_step _ e calls b)
  refine ⟨fun c play => ?_, fun direction play sequence => ?_, ?_⟩
  · rw [Engine.Orderly, play] at step
    obtain ⟨bare, x, goesOn, value, moderate⟩ := step
    refine ⟨c.bullet now.setup now.memory.sequences b, ?_, ?_⟩
    · rw [now.step_bullets b, play]
      rfl
    · rw [added, play, Play.turned?, goesOn]
      exact (Charge.after_onTurn before bare goesOn value moderate).1
  · rw [Engine.Orderly, play] at step
    have goesOn : turningOn? (some direction) = some direction.2 := by
      rw [turningOn?, if_pos sequence]
    obtain ⟨value, moderate⟩ := step direction.2 goesOn
    rw [now.step_turn play, added, play, Play.turned?, goesOn]
    exact Element.headingOf_onTurn sequence before value moderate
  · rw [added]
    exact now.step_onTurn step before

/-- An action that fires and turns. -/
def sweeps : Element :=
  .make .action [("label", "top")] none
    [.make .fire [] none
        [.make .direction [("type", "sequence")] (some "250") [], .make .bullet [] none []],
      .make .changeDirection [] none
        [.make .direction [("type", "sequence")] (some "-1000") [], .leaf .term "1"],
      .make .fire [] none
        [.make .direction [("type", "sequence")] (some "300") [], .make .bullet [] none []]]

/-- An engine that plays it. -/
def playsSweeps : Engine := .make (.ofRoot (.make .bulletml [] none [sweeps]) []) {}

/-- A bullet at one of its commands. -/
def sweeper (i : Nat) : Bullet :=
  { Bullet.shooter .zero .xy with stack := [{ Cursor.enter sweeps .empty 0 with next := i }] }

/-- A session that changes the offset in between. -/
def swept : List Engine.Call :=
  [.step (sweeper 0), .adjust (.angleOffset 500), .step (sweeper 1), .adjust (.angleOffset (-30))]

theorem sweeps_add_up :
    (∃ made, ((playsSweeps.serveAll swept).step (sweeper 2)).2.2.filterMap Event.bullet? = [made] ∧
      OnTurn made.heading (250 - 1000 + 300 - 30)) ∧
    OnTurn ((playsSweeps.serveAll (swept.take 2)).step (sweeper 1)).2.1.1.headingRamp.target
      (250 - 1000 + 500) := by
  constructor
  · have orderly := directions_add_up (e := playsSweeps) rfl swept (sweeper 2) (by decide +kernel)
    generalize now : playsSweeps.serveAll swept = e at orderly ⊢
    have fires : ((e.play (sweeper 2)).bullet? e.setup e.memory.sequences (sweeper 2)).isSome =
        true := by
      rw [← now]
      decide +kernel
    have total : (playsSweeps.turned (swept ++ [.step (sweeper 2)])).foldl (· + ·) 0 +
        e.settings.angleOffset.integer = 250 - 1000 + 300 - 30 := by
      rw [← now]
      decide +kernel
    rw [← total]
    cases play : e.play (sweeper 2) with
    | fire c => exact orderly.1 c play
    | _ =>
      rw [play] at fires
      cases fires
  · have orderly := directions_add_up (e := playsSweeps) rfl (swept.take 2) (sweeper 1)
      (by decide +kernel)
    generalize now : playsSweeps.serveAll (swept.take 2) = e at orderly ⊢
    have turns : (e.play (sweeper 1)).turned? = some (-1000) ∧
        ((e.play (sweeper 1)).bullet? e.setup e.memory.sequences (sweeper 1)).isNone = true := by
      rw [← now]
      decide +kernel
    have total : (playsSweeps.turned (swept.take 2 ++ [.step (sweeper 1)])).foldl (· + ·) 0 +
        e.settings.angleOffset.integer = 250 - 1000 + 500 := by
      rw [← now]
      decide +kernel
    rw [← total]
    cases play : e.play (sweeper 1) with
    | turn direction =>
      rw [play, Play.turned?] at turns
      obtain ⟨_, eq, sequence⟩ := turningOn?_eq_some turns.1
      cases eq
      exact orderly.2.1 _ play sequence
    | fire c =>
      rw [play] at turns
      cases turns.2
    | _ =>
      rw [play] at turns
      cases turns.1

end Danmaku
