import Danmaku.Proofs.Bullet.Quantity
import Danmaku.Proofs.Engine.Headings
import Danmaku.Proofs.Stage.Round

/-!
# Changes arrive on time

A bullet of a stage that sets off a change of its heading or speed in one update is already one
frame further after it. From then on each update is a frame of the change, whatever the bullet and
the others do besides, and the last of them puts the value on the target (`change_arrives`). An
update moves the bullets of a stage up to fill the places of those that have vanished, so a bullet
is followed from place to place (`placeAfter`).
-/

namespace Danmaku

/-- What a command changes from one value to another. -/
inductive Change where
  | direction
  | speed

namespace Change

def quantity : Change → Quantity
  | direction => .heading
  | speed => .speed

/-- The child of the command that gives the target. -/
def child : Change → Kind
  | direction => .direction
  | speed => .speed

/-- The target that the child means for a bullet. -/
def target : Change → Element → Bullet → Parameters → Exec Binary32
  | direction => Exec.direction
  | speed => Exec.changedSpeed

/-- What becomes of a value that a frame sets. -/
def write : Change → Binary32 → Binary32
  | direction, x => Heading.normalize x
  | speed, x => x

def effect : Change → Ramp → Effect
  | direction => .turn
  | speed => .changeSpeed

theorem effect_apply (c : Change) (ramp : Ramp) (b : Bullet) (top : Cursor) (rest : List Cursor) :
    let b' := ((c.effect ramp).apply b top rest).1
    c.quantity.value b' = c.quantity.value b ∧ c.quantity.course b' = ramp.course ∧
      ∀ progress, c.quantity.valueAt b' progress = c.write (ramp.valueAt progress) := by
  cases c with
  | direction => exact ⟨rfl, rfl, fun _ => rfl⟩
  | speed => exact ⟨rfl, rfl, fun _ => rfl⟩

/-- The target is written as it is. -/
theorem write_target (c : Change) (child : Element) (b : Bullet) (p : Parameters) (s : Setup)
    (m : Memory) : c.write (c.target child b p s m).value = (c.target child b p s m).value := by
  cases c with
  | direction => exact Heading.normalize_of_inRange (Exec.direction_inRange child b p (s := s) m).1
  | speed => rfl

/-- The command changes from what there is to the target that it reads, over the frames that it
reads then. -/
theorem command_run (c : Change) {command child term : Element}
    (kind : command.kind = c.quantity.command) (given : command.child? c.child = some child)
    (timed : command.child? .term = some term) (b : Bullet) (f : Frame) (s : Setup) (m : Memory) :
    let read := c.target child b f.parameters s m
    (Exec.command command b f s m).value =
      c.effect (.make (c.quantity.value b) read.value
        (Exec.frames term f.parameters s read.memory).value) := by
  cases c with
  | direction =>
    simp only [quantity, Quantity.command, Change.child] at kind given
    simp only [Exec.command, kind, Exec.changeDirection, Exec.withTerm, given, timed,
      Exec.bind_run, Exec.pure_run]
    rfl
  | speed =>
    simp only [quantity, Quantity.command, Change.child] at kind given
    simp only [Exec.command, kind, Exec.changeSpeed, Exec.withTerm, given, timed,
      Exec.bind_run, Exec.pure_run]
    rfl

end Change

theorem Engine.step_sets_off (c : Change) {e : Engine} {b : Bullet} {top : Cursor}
    {rest : List Cursor} {command child term : Element} (runs : b.Runs top rest command)
    (kind : command.kind = c.quantity.command) (given : command.child? c.child = some child)
    (timed : command.child? .term = some term) :
    let read := c.target child b top.parameters e.setup e.memory
    let stepped := (e.step b).2.1.1
    let ramp := Ramp.make (c.quantity.value b) read.value
      (Exec.frames term top.parameters e.setup read.memory).value
    c.quantity.value stepped = c.quantity.value b ∧ c.quantity.course stepped = ramp.course ∧
      ∀ progress, c.quantity.valueAt stepped progress = c.write (ramp.valueAt progress) := by
  intro read stepped ramp
  have effect := c.command_run kind given timed b top.frame e.setup e.memory
  have step : stepped = ((c.effect ramp).apply b top rest).1 := by
    rw [show stepped = _ from congrArg (·.2.1.1) (e.step_runs runs)]
    exact congrArg (fun effect => (Effect.apply b top rest effect).1) effect
  rw [step]
  exact c.effect_apply ramp b top rest

theorem Engine.step_stays {e : Engine} {b : Bullet} (active : b.active = true)
    (stays : ∀ command, b.next? = some command → command.kind ≠ .vanish) :
    (e.step b).2.1.1.active = true := by
  by_contra gone
  have changed : (e.step b).2.1.1.active ≠ b.active := by
    rw [active]
    exact gone
  obtain ⟨command, next, kind⟩ := (e.step_confines b).active changed
  exact stays command next kind

namespace Stage

/-- The engine that plays the bullet at place `i` in an update. -/
def turn (s : Stage) (dt : Binary32) (i : Nat) : Engine :=
  (playAll dt s.engine (s.bullets.take i)).1

/-- Where the bullet at place `i` is after an act: behind those before it that stay. -/
def place (s : Stage) (i : Nat) : Act → Nat
  | .update dt => ((playAll dt s.engine s.bullets).2.1.take i).countP (·.active)
  | _ => i

def placeAfter (s : Stage) (i : Nat) : List Act → Nat
  | [] => i
  | act :: rest => (s.act act).1.placeAfter (s.place i act) rest

def Act.isUpdate : Act → Bool
  | .update _ => true
  | _ => false

/-- In no update the bullet at place `i` executes a command of the quantity, or vanishes. -/
def Spares (q : Quantity) (s : Stage) (i : Nat) : List Act → Prop
  | [] => True
  | act :: rest =>
    (act.isUpdate = true → ∀ command ∈ s.bullets[i]?.bind Bullet.next?,
      command.kind ≠ q.command ∧ command.kind ≠ .vanish) ∧
    Spares q (s.act act).1 (s.place i act) rest

instance Spares.decidable (q : Quantity) :
    (s : Stage) → (i : Nat) → (acts : List Act) → Decidable (Spares q s i acts)
  | _, _, [] => isTrue trivial
  | s, i, act :: rest =>
    have := decidable q (s.act act).1 (s.place i act) rest
    inferInstanceAs (Decidable ((act.isUpdate = true →
      ∀ command ∈ s.bullets[i]?.bind Bullet.next?,
        command.kind ≠ q.command ∧ command.kind ≠ .vanish) ∧
      Spares q (s.act act).1 (s.place i act) rest))

theorem getElem?_playAll (dt : Binary32) (e : Engine) {bullets : List Bullet} {i : Nat}
    {b : Bullet} (found : bullets[i]? = some b) :
    (playAll dt e bullets).2.1[i]? =
      some (play dt (playAll dt e (bullets.take i)).1 b).2.1 := by
  induction bullets generalizing e i with
  | nil => cases found
  | cons first rest ih =>
    cases i with
    | zero =>
      cases found
      rfl
    | succ i => exact ih _ found

theorem getElem?_filter {α : Type} {p : α → Bool} {l : List α} {i : Nat} {x : α}
    (found : l[i]? = some x) (kept : p x = true) :
    (l.filter p)[(l.take i).countP p]? = some x := by
  obtain ⟨lt, rfl⟩ := List.getElem?_eq_some_iff.1 found
  have split : l.filter p = (l.take i).filter p ++ l[i] :: (l.drop (i + 1)).filter p := by
    rw [← List.filter_cons_of_pos kept, ← List.drop_eq_getElem_cons lt, ← List.filter_append,
      List.take_append_drop]
  rw [split, List.countP_eq_length_filter, List.getElem?_append_right (Nat.le_refl _),
    Nat.sub_self]
  rfl

/-- After an update a bullet that has not vanished has been taken a step and a frame further. -/
theorem update_follows {s : Stage} {i : Nat} {b : Bullet} (found : s.bullets[i]? = some b)
    (active : b.active = true)
    (stays : ∀ command, b.next? = some command → command.kind ≠ .vanish) (dt : Binary32) :
    let e := s.turn dt i
    let b' := (e.step b).1.integrate (e.step b).2.1.1 dt
    (s.update dt).1.bullets[s.place i (.update dt)]? = some b' ∧ b'.active = true := by
  intro e b'
  have active' : b'.active = true := by
    rw [show b' = Engine.integrate _ _ _ from rfl, Engine.integrate, Bullet.tick_active]
    exact Engine.step_stays active stays
  have played := getElem?_playAll dt s.engine found
  rw [play_active dt _ active] at played
  have kept := getElem?_filter (p := (·.active)) played active'
  have lt := (List.getElem?_eq_some_iff.1 kept).1
  refine ⟨?_, active'⟩
  rw [update]
  exact (List.getElem?_append_left lt).trans kept

theorem act_coasts {q : Quantity} {s : Stage} {i n : Nat} {b b' : Bullet}
    (found : s.bullets[i]? = some b') (active : b'.active = true) (h : q.Coasts b n b') {act : Act}
    (spares : act.isUpdate = true → ∀ command ∈ b'.next?,
      command.kind ≠ q.command ∧ command.kind ≠ .vanish) :
    ∃ b'', (s.act act).1.bullets[s.place i act]? = some b'' ∧ b''.active = true ∧
      q.Coasts b (n + act.isUpdate.toNat) b'' := by
  cases act with
  | update dt =>
    have others := spares rfl
    have stays : ∀ command, b'.next? = some command → command.kind ≠ .vanish :=
      fun command next => (others command next).2
    obtain ⟨found', active'⟩ := update_follows found active stays dt
    refine ⟨_, found', active', ?_⟩
    have stepped := h.step (s.turn dt i) fun command next => (others command next).1
    exact stepped.tick (Engine.step_stays active stays) dt _
  | spawn position =>
    have lt := (List.getElem?_eq_some_iff.1 found).1
    exact ⟨b', (List.getElem?_append_left lt).trans found, active, h⟩
  | adjust adjustment => exact ⟨b', found, active, h⟩
  | takeFaults => exact ⟨b', found, active, h⟩

theorem run_coasts {q : Quantity} {s : Stage} {i n : Nat} {b b' : Bullet}
    (found : s.bullets[i]? = some b') (active : b'.active = true) (h : q.Coasts b n b')
    {acts : List Act} (spares : s.Spares q i acts) :
    ∃ b'', (s.run acts).1.bullets[s.placeAfter i acts]? = some b'' ∧ b''.active = true ∧
      q.Coasts b (n + acts.countP Act.isUpdate) b'' := by
  induction acts generalizing s i n b' with
  | nil => exact ⟨b', found, active, h⟩
  | cons act rest ih =>
    obtain ⟨here, later⟩ := spares
    rw [found, Option.bind_some] at here
    obtain ⟨b₁, found₁, active₁, h₁⟩ := act_coasts found active h here
    obtain ⟨b₂, found₂, active₂, h₂⟩ := ih found₁ active₁ h₁ later
    refine ⟨b₂, found₂, active₂, ?_⟩
    have count : n + act.isUpdate.toNat + rest.countP Act.isUpdate =
        n + (act :: rest).countP Act.isUpdate := by
      rw [List.countP_cons]
      cases act.isUpdate with
      | true => simp; omega
      | false => simp
    rw [← count]
    exact h₂

/-! ## Arriving -/

/-- **A change arrives when it should, and where.** In an update a bullet executes a command that
changes its heading or speed: from `x`, to the `target` that it reads in its turn, and over the
`duration` that it reads then. After this update and any further acts with `n` updates in all, in
which it executes no command of that kind and does not vanish, it has come that part of the way, a
heading being normalized. From update `duration` on it is exactly at its target, and the change is
over. -/
theorem change_arrives (c : Change) {s : Stage} {i : Nat} {b : Bullet} {top : Cursor}
    {rest : List Cursor} {command child term : Element} (found : s.bullets[i]? = some b)
    (active : b.active = true) (runs : b.Runs top rest command)
    (kind : command.kind = c.quantity.command) (given : command.child? c.child = some child)
    (timed : command.child? .term = some term) (dt : Binary32) :
    let q := c.quantity
    let e := s.turn dt i
    let read := c.target child b top.parameters e.setup e.memory
    let x := q.value b
    let target := read.value
    let duration := (Exec.frames term top.parameters e.setup read.memory).value
    let update := Act.update dt
    1 ≤ duration ∧ ∀ acts, (s.act update).1.Spares q (s.place i update) acts →
      let n := 1 + acts.countP Act.isUpdate
      ∃ b', (s.run (update :: acts)).1.bullets[s.placeAfter i (update :: acts)]? = some b' ∧
        b'.active = true ∧
        q.value b' =
          (if n < duration then c.write (x + (target - x) * (.ofNat n / .ofNat duration))
            else target) ∧
        ((q.course b').active = true ↔ n < duration) := by
  intro q e read x target duration update
  have one : 1 ≤ duration := Exec.one_le_frames term top.parameters e.setup read.memory
  obtain ⟨kept, course, valueAt⟩ := e.step_sets_off c runs kind given timed
  refine ⟨one, fun acts spares => ?_⟩
  have stays : ∀ next, b.next? = some next → next.kind ≠ .vanish := by
    intro next isNext
    rw [runs.next?] at isNext
    cases isNext
    rw [kind]
    cases c <;> decide
  -- The frame of the same update is the first of the change.
  obtain ⟨found₁, active₁⟩ := update_follows found active stays dt
  have first : q.Coasts (e.step b).2.1.1 1 ((e.step b).1.integrate (e.step b).2.1.1 dt) :=
    Quantity.Coasts.start.tick (Engine.step_stays active stays) dt _
  obtain ⟨b', found', active', coasts⟩ := run_coasts found₁ active₁ first spares
  have sets : q.course (e.step b).2.1.1 = .reached duration 0 := by
    rw [course, Ramp.make, Course.start_eq_reached, Nat.max_eq_left one]
  obtain ⟨value, course', -⟩ := coasts.come one sets
  refine ⟨b', found', active', ?_, ?_⟩
  · rw [value, Course.come, if_neg (by omega), valueAt, valueAt]
    exact if_congr Iff.rfl rfl (c.write_target child b top.parameters e.setup e.memory)
  · rw [course', Course.reached_active]

/-- An action that ends its bullet. -/
def ending : Element := .make .action [("label", "top1")] none [.leaf .vanish ""]

/-- An action that turns its bullet, and then accelerates it. -/
def turning : Element :=
  .make .action [("label", "top2")] none
    [.make .changeDirection [] none
        [.make .direction [("type", "absolute")] (some "90") [], .leaf .term "4"],
      .make .changeSpeed [] none [.leaf .speed "3", .leaf .term "2"]]

/-- A stage on which two shooters play them. -/
def turners : Stage :=
  ((make (.ofRoot (.make .bulletml [] none [ending, turning]) []) {}).spawn .zero).1

/-- The first shooter leaves, and the other is turned by halves and then all the way. -/
theorem turners_arrive :
    let acts : List Act := [.update 1, .spawn .zero, .update 1, .adjust (.angleOffset 7), .update 1]
    (∃ b, (turners.run [.update 1, .update 1]).1.bullets[0]? = some b ∧ b.heading = 45) ∧
      ∃ b, (turners.run (.update 1 :: acts)).1.bullets[0]? = some b ∧ b.heading = 90 ∧
        b.headingRamp.course.active = false := by
  intro acts
  let b := turners.engine.shooter turning .zero
  have found : turners.bullets[1]? = some b := rfl
  have runs : b.Runs (.enter turning .empty 0) []
      (.make .changeDirection [] none
        [.make .direction [("type", "absolute")] (some "90") [], .leaf .term "4"]) :=
    ⟨rfl, rfl, rfl⟩
  obtain ⟨-, arrives⟩ := change_arrives .direction found rfl runs rfl rfl rfl 1
  have place₁ : turners.placeAfter 1 [.update 1, .update 1] = 0 := by decide +kernel
  have place₂ : turners.placeAfter 1 (.update 1 :: acts) = 0 := by decide +kernel
  obtain ⟨b₁, found₁, -, value₁, -⟩ := arrives [.update 1] (by decide +kernel)
  obtain ⟨b₂, found₂, -, value₂, active⟩ := arrives acts (by decide +kernel)
  rw [place₁] at found₁
  rw [place₂] at found₂
  refine ⟨⟨b₁, found₁, value₁.trans (by decide +kernel)⟩,
    b₂, found₂, value₂.trans (by decide +kernel), ?_⟩
  rw [Bool.eq_false_iff]
  intro goesOn
  exact absurd (active.1 goesOn) (by decide +kernel)

end Stage

end Danmaku
