import Danmaku.Proofs.Binary32.Integer
import Danmaku.Proofs.Engine.Interleaving
import Danmaku.Proofs.Engine.Locality

/-!
# Waits

A wait leaves a number of frames on the topmost cursor, and each step of the bullet takes one of
them away and does nothing else. Nobody but the bullet's own steps touches the cursor, so this is
so whatever a host does in between (`Host.wait_lasts`).
-/

namespace Danmaku

/-- The whole frames that a number stands for, up to a limit: it is rounded, and a NaN is none. -/
inductive Binary32.Frames (limit : Nat) : Binary32 → Nat → Prop
  | nan : Frames limit .nan 0
  | below : Frames limit (.infinite true) 0
  | above : Frames limit (.infinite false) limit
  | finite {x : Binary32} {z : Int} (whole : x.round.Whole z) : Frames limit x (min z.toNat limit)

theorem Binary32.frames_clipped (limit : Nat) (x : Binary32) :
    Frames limit x ((x.round.maximum 0).toNatClipped limit) := by
  cases x with
  | nan => exact .nan
  | infinite negative =>
    cases negative with
    | true => exact .below
    | false => exact .above
  | finite negative units onGrid =>
    obtain ⟨z, whole⟩ := whole_round (x := .finite negative units onGrid) rfl
    rw [whole.clipped limit]
    exact .finite whole

/-- The frames that a wait of this value lasts. -/
def Settings.waitFrames (s : Settings) (x : Binary32) : Nat :=
  ((x * s.waitMultiplier).round.maximum 0).toNatClipped Exec.maxFrames

theorem Exec.wait_run (command : Element) (frame : Frame) (s : Setup) (m : Memory) :
    wait command frame s m =
      let read := value command frame.parameters s m
      ⟨.wait (s.settings.waitFrames read.value), read.memory, read.events⟩ := by
  unfold wait Settings.waitFrames
  generalize maxFrames = most
  rw [bind_run, bind_run, setup, pure_run, List.append_nil, List.append_nil]

namespace Engine

variable {b : Bullet} {top : Cursor} {rest : List Cursor} {command : Element}

/-- The step that executes a wait. -/
theorem step_wait (e : Engine) (runs : b.Runs top rest command) (kind : command.kind = .wait) :
    e.step b =
      let read := e.run (Exec.value command top.parameters)
      let wait := e.settings.waitFrames read.2.1
      (read.1, ({ b with stack := { top.advance with wait } :: rest }, true), read.2.2) := by
  have done : Exec.command command b top.frame = Exec.wait command top.frame := by
    simp only [Exec.command, kind]
  rw [e.step_runs runs, done, Exec.wait_run]
  simp only [Effect.apply, Effect.event?, Option.toList_none, List.append_nil, Cursor.frame, run,
    settings]

/-- A step of a bullet that waits. -/
theorem step_waiting (e : Engine) {n : Nat} (stack : b.stack = { top with wait := n + 1 } :: rest) :
    e.step b = (e, ({ b with stack := { top with wait := n } :: rest }, true), []) := by
  simp only [step, run, Exec.step, stack, Nat.zero_lt_succ, ↓reduceIte, Nat.add_sub_cancel]
  rfl

end Engine

/-- The deed is a step of the bullet at a place. -/
def Deed.stepsAt (i : Nat) : Deed → Bool
  | .step j => j == i
  | _ => false

namespace Host

variable {h : Host} {i : Nat} {b : Bullet}

/-- The stack of a bullet changes by its own steps only. -/
theorem act_stack (found : h.bullets[i]? = some b) (deed : Deed) :
    ∃ b', (h.act deed).1.bullets[i]? = some b' ∧
      b'.stack = if deed.stepsAt i then (h.engine.step b).2.1.1.stack else b.stack := by
  cases deed with
  | step j =>
    have turn := getElem?_act found ⟨j, .step⟩
    refine ⟨_, turn, ?_⟩
    by_cases own : j = i
    · simp only [own, Deed.stepsAt, BEq.rfl, ↓reduceIte]
      rfl
    · have other : (j == i) = false := beq_eq_false_iff_ne.2 own
      simp only [own, Deed.stepsAt, other, Bool.false_eq_true, ↓reduceIte]
  | integrate j dt =>
    have turn := getElem?_act found ⟨j, .integrate dt⟩
    refine ⟨_, turn, ?_⟩
    by_cases own : j = i
    · simp only [own, Deed.stepsAt, Bool.false_eq_true, ↓reduceIte]
      exact b.tick_stack dt h.engine.settings.speedMultiplier
    · simp only [own, Deed.stepsAt, Bool.false_eq_true, ↓reduceIte]
  | adjust => exact ⟨b, found, rfl⟩

/-- After so many of its steps a bullet has so many frames fewer to wait. -/
theorem run_waiting {top : Cursor} {rest : List Cursor} {n : Nat}
    (found : h.bullets[i]? = some b) (stack : b.stack = { top with wait := n } :: rest)
    (deeds : List Deed) (few : deeds.countP (Deed.stepsAt i) ≤ n) :
    ∃ b', (h.run deeds).1.bullets[i]? = some b' ∧
      b'.stack = { top with wait := n - deeds.countP (Deed.stepsAt i) } :: rest := by
  induction deeds generalizing h b n with
  | nil => exact ⟨b, found, stack⟩
  | cons deed later ih =>
    obtain ⟨b', found', stack'⟩ := act_stack found deed
    show ∃ b', ((h.act deed).1.run later).1.bullets[i]? = some b' ∧ _
    by_cases own : deed.stepsAt i = true
    · rw [List.countP_cons_of_pos own] at few ⊢
      obtain ⟨m, rfl⟩ : ∃ m, n = m + 1 := ⟨n - 1, by omega⟩
      have counted : b'.stack = { top with wait := m } :: rest := by
        rw [stack', if_pos own, h.engine.step_waiting stack]
      rw [Nat.succ_sub_succ]
      exact ih found' counted (by omega)
    · rw [List.countP_cons_of_neg own] at few ⊢
      rw [if_neg own] at stack'
      exact ih found' (stack'.trans stack) few

/-- **A wait lasts as many steps as it has frames.** The step that executes it goes past it and
leaves the frames on the cursor: the value times the multiplier, as `Binary32.Frames` says. After
that, whatever the host does, each of so many steps of the bullet takes one frame away and leaves
everything else as it is, and the step after them goes on with the action. -/
theorem wait_lasts {top : Cursor} {rest : List Cursor} {command : Element}
    (found : h.bullets[i]? = some b) (runs : b.Runs top rest command)
    (kind : command.kind = .wait) :
    let read := h.engine.run (Exec.value command top.parameters)
    let w := h.engine.settings.waitFrames read.2.1
    Binary32.Frames (2 ^ 32 - 1) (read.2.1 * h.engine.settings.waitMultiplier) w ∧
    h.engine.step b =
      (read.1, ({ b with stack := { top.advance with wait := w } :: rest }, true), read.2.2) ∧
    ∀ deeds : List Deed, deeds.countP (Deed.stepsAt i) ≤ w →
      let k := deeds.countP (Deed.stepsAt i)
      let h' := ((h.act (.step i)).1.run deeds).1
      ∃ b', h'.bullets[i]? = some b' ∧ b'.stack = { top.advance with wait := w - k } :: rest ∧
        (k < w → h'.engine.step b' = (h'.engine,
          ({ b' with stack := { top.advance with wait := w - (k + 1) } :: rest }, true), [])) ∧
        (k = w → b'.Proceeds top rest) := by
  intro read w
  have step := h.engine.step_wait runs kind
  refine ⟨Binary32.frames_clipped _ _, step, fun deeds few => ?_⟩
  intro k h'
  obtain ⟨b₁, found₁, stack₁⟩ := act_stack found (.step i)
  have set : b₁.stack = { top.advance with wait := w } :: rest := by
    rw [stack₁, step]
    simp only [Deed.stepsAt, BEq.rfl, ↓reduceIte]
    rfl
  obtain ⟨b', found', stack'⟩ := run_waiting found₁ set deeds few
  refine ⟨b', found', stack', fun more => ?_, fun ended => ?_⟩
  · obtain ⟨n, left⟩ : ∃ n, w - k = n + 1 := ⟨w - (k + 1), by omega⟩
    have rest_ : w - (k + 1) = n := by omega
    rw [rest_]
    apply h'.engine.step_waiting
    rw [stack', ← left]
  · apply runs.proceeds
    have idle : top.advance.wait = 0 := runs.idle
    have none : w - k = 0 := by omega
    rw [stack', none, ← idle]

end Host

/-- An action that waits for two frames, and then ends its bullet. -/
def pausing : Element :=
  .make .action [("label", "top")] none [.leaf .wait "2", .leaf .vanish ""]

/-- A host with two shooters that play it. -/
def pausers : Host :=
  let e := Engine.make (.ofRoot (.make .bulletml [] none [pausing]) []) {}
  ⟨e, [e.shooter pausing .zero, e.shooter pausing .zero]⟩

theorem pausing_lasts :
    let started := (pausers.act (.step 0)).1
    let c := (Cursor.enter pausing .empty 0).advance
    let meanwhile : List Deed := [.step 1, .step 0, .adjust (.waitMultiplier 5), .step 1]
    (∃ b, (started.run meanwhile).1.bullets[0]? = some b ∧ b.stack = [{ c with wait := 1 }]) ∧
      ∃ b, (started.run (meanwhile ++ [.integrate 0 1, .step 0])).1.bullets[0]? = some b ∧
        b.Runs c [] (.leaf .vanish "") := by
  intro started c meanwhile
  have frames : pausers.engine.settings.waitFrames
      (pausers.engine.run (Exec.value (.leaf .wait "2") .empty)).2.1 = 2 := by decide +kernel
  have found : pausers.bullets[0]? = some (pausers.engine.shooter pausing .zero) := rfl
  have runs : (pausers.engine.shooter pausing .zero).Runs (.enter pausing .empty 0) []
      (.leaf .wait "2") := ⟨rfl, rfl, rfl⟩
  obtain ⟨-, -, lasts⟩ := Host.wait_lasts found runs rfl
  simp only [Cursor.enter] at lasts
  rw [frames] at lasts
  constructor
  · obtain ⟨b, found, stack, -⟩ := lasts meanwhile (by decide)
    exact ⟨b, found, stack⟩
  · obtain ⟨b, found, -, -, ended⟩ := lasts (meanwhile ++ [.integrate 0 1, .step 0]) (by decide)
    exact ⟨b, found, (ended rfl).next _ rfl⟩

end Danmaku
