import Danmaku.Proofs.Engine.Life
import Danmaku.Stage

/-!
# Rounds

What a host does with a stage, and what it gets from it. An update of a stage is a round of deeds: a
step and a frame of each bullet, in their order, and of none of those that are fired meanwhile
(`playAll_eq_run`). So nothing is lost on the way (`update_plays_round`).
-/

namespace Danmaku

namespace Stage

/-- What a host may do with a stage. -/
inductive Act where
  | spawn (position : Vec3)
  | update (dt : Binary32)
  | adjust (adjustment : Adjustment)
  | takeFaults

/-- What has come of acts: what the updates have told, the faults that were handed over, and the
events. -/
structure Yield where
  answers : List Bool
  taken : List Fault
  events : List Event

/-- First one, then another. -/
def Yield.append (y y' : Yield) : Yield where
  answers := y.answers ++ y'.answers
  taken := y.taken ++ y'.taken
  events := y.events ++ y'.events

def act (s : Stage) : Act → Stage × Yield
  | .spawn position => ((s.spawn position).1, ⟨[], [], []⟩)
  | .update dt => ((s.update dt).1, ⟨[(s.update dt).2.1], [], (s.update dt).2.2⟩)
  | .adjust adjustment => ({ s with engine := s.engine.adjust adjustment }, ⟨[], [], []⟩)
  | .takeFaults => (s.takeFaults.1, ⟨[], s.takeFaults.2, []⟩)

def run (s : Stage) : List Act → Stage × Yield
  | [] => (s, ⟨[], [], []⟩)
  | act :: rest =>
    (((s.act act).1.run rest).1, (s.act act).2.append ((s.act act).1.run rest).2)

/-- A step and a frame of `count` bullets, from the bullet at place `first` on. -/
def round (dt : Binary32) (first count : Nat) : List Deed :=
  (List.range' first count).flatMap fun i => [.step i, .integrate i dt]

/-- What every act keeps holds after every run. -/
theorem run_keeps {P : Stage → Prop} (keeps : ∀ s act, P s → P (s.act act).1) {s : Stage}
    (start : P s) (acts : List Act) : P (s.run acts).1 := by
  induction acts generalizing s with
  | nil => exact start
  | cons act rest ih => exact ih (keeps s act start)

theorem round_succ (dt : Binary32) (first count : Nat) :
    round dt first (count + 1) =
      .step first :: .integrate first dt :: round dt (first + 1) count := by
  rw [round, List.range'_succ, List.flatMap_cons]
  rfl

theorem act_step (e : Engine) (front : List Bullet) (b : Bullet) (rest : List Bullet) :
    (⟨e, front ++ b :: rest⟩ : Host).act (.step front.length) =
      (⟨(e.step b).1,
        front ++ (e.step b).2.1.1 :: (rest ++ (e.step b).2.2.filterMap Event.bullet?)⟩,
        (e.step b).2.2) := by
  simp [Host.act]

theorem act_integrate (e : Engine) (front : List Bullet) (b : Bullet) (rest : List Bullet)
    (dt : Binary32) :
    (⟨e, front ++ b :: rest⟩ : Host).act (.integrate front.length dt) =
      (⟨e, front ++ e.integrate b dt :: rest⟩, []) := by
  simp [Host.act]

theorem play_active (dt : Binary32) (e : Engine) {b : Bullet} (active : b.active = true) :
    play dt e b =
      ((e.step b).1, (e.step b).1.integrate (e.step b).2.1.1 dt, (e.step b).2.2) := by
  simp only [play, active, ↓reduceIte]

theorem playAll_cons (dt : Binary32) (e : Engine) (b : Bullet) (rest : List Bullet) :
    playAll dt e (b :: rest) =
      let first := play dt e b
      let later := playAll dt first.1 rest
      (later.1, first.2.1 :: later.2.1, first.2.2 ++ later.2.2) := rfl

/-- To play all bullets is a round of deeds; what is fired waits behind them. -/
theorem playAll_eq_run (dt : Binary32) (e : Engine) (front bullets fired : List Bullet)
    (active : ∀ b ∈ bullets, b.active = true) :
    let played := playAll dt e bullets
    (⟨e, front ++ (bullets ++ fired)⟩ : Host).run (round dt front.length bullets.length) =
      (⟨played.1, front ++ (played.2.1 ++ (fired ++ played.2.2.filterMap Event.bullet?))⟩,
        played.2.2) := by
  induction bullets generalizing e front fired with
  | nil => simp [round, Host.run, playAll]
  | cons b rest ih =>
    intro played
    have here : play dt e b =
        ((e.step b).1, (e.step b).1.integrate (e.step b).2.1.1 dt, (e.step b).2.2) :=
      play_active dt e (active b List.mem_cons_self)
    have others : ∀ b' ∈ rest, b'.active = true :=
      fun b' mem => active b' (List.mem_cons_of_mem b mem)
    have later := ih (e.step b).1 (front ++ [(e.step b).1.integrate (e.step b).2.1.1 dt])
      (fired ++ (e.step b).2.2.filterMap Event.bullet?) others
    simp only [List.length_append, List.length_singleton, List.append_assoc,
      List.singleton_append] at later
    simp only [List.length_cons, round_succ, List.cons_append, Host.run, act_step, act_integrate]
    simp only [List.append_assoc, later, played, playAll_cons, here, List.filterMap_append,
      List.cons_append, List.nil_append]

theorem playAll_length (dt : Binary32) (e : Engine) (bullets : List Bullet) :
    (playAll dt e bullets).2.1.length = bullets.length := by
  induction bullets generalizing e with
  | nil => rfl
  | cons b rest ih => rw [playAll_cons, List.length_cons, List.length_cons, ih]

/-- What is fired while all bullets are played is fired by a step of one of them. -/
theorem playAll_born {dt : Binary32} {e : Engine} {bullets : List Bullet} {b : Bullet}
    (fired : .fired b ∈ (playAll dt e bullets).2.2) : b.Born := by
  induction bullets generalizing e with
  | nil => cases fired
  | cons source rest ih =>
    rw [playAll_cons] at fired
    rcases List.mem_append.1 fired with here | later
    · by_cases active : source.active = true
      · rw [play_active dt e active] at here
        exact .fired here
      · simp [play, active] at here
    · exact ih later

/-- All bullets of a stage are active. -/
def Active (s : Stage) : Prop := ∀ b ∈ s.bullets, b.active = true

theorem spawn_active {s : Stage} (h : s.Active) (position : Vec3) :
    (s.spawn position).1.Active := by
  intro b mem
  rcases List.mem_append.1 mem with old | new
  · exact h b old
  · obtain ⟨d, -, rfl⟩ := List.mem_map.1 new
    rfl

theorem update_active (s : Stage) (dt : Binary32) : (s.update dt).1.Active := by
  intro b mem
  rcases List.mem_append.1 mem with old | new
  · exact (List.mem_filter.1 old).2
  · obtain ⟨event, mem, isFired⟩ := List.mem_filterMap.1 new
    cases event <;> cases isFired
    exact (playAll_born mem).active

theorem act_active {s : Stage} (h : s.Active) (act : Act) : (s.act act).1.Active := by
  cases act with
  | spawn position => exact spawn_active h position
  | update dt => exact update_active s dt
  | adjust adjustment => exact h
  | takeFaults => exact h

theorem run_active (document : Document) (settings : Settings) (acts : List Act) :
    ((make document settings).run acts).1.Active := by
  apply run_keeps (P := Active)
  · intro s act active
    exact act_active active act
  · intro b mem
    cases mem

/-- The faults that were held and those that came are those taken and those still held. -/
theorem act_faults (s : Stage) (act : Act) :
    s.faults ++ (s.act act).2.events.filterMap Event.fault? =
      (s.act act).2.taken ++ (s.act act).1.faults := by
  cases act with
  | spawn position => exact List.append_nil _
  | update dt => rfl
  | adjust adjustment => exact List.append_nil _
  | takeFaults => rfl

theorem run_faults (s : Stage) (acts : List Act) :
    s.faults ++ (s.run acts).2.events.filterMap Event.fault? =
      (s.run acts).2.taken ++ (s.run acts).1.faults := by
  induction acts generalizing s with
  | nil => simp [run]
  | cons act rest ih =>
    simp only [run, Yield.append, List.filterMap_append]
    rw [← List.append_assoc, act_faults, List.append_assoc, ih, List.append_assoc]

/-- **An update loses nothing.** Whatever has been done with a stage before, its bullets are active,
and an update takes each of them, in their order and with one engine, a step and then a frame
further. Those that are active afterwards stay, and those that were fired join behind them as they
were made. The faults join those that are held, and the answer tells whether a bullet of the stage
has actions left. Of all faults that ever came, some were taken and the others are held, in their
order. -/
theorem update_plays_round (document : Document) (settings : Settings) (acts : List Act)
    (dt : Binary32) :
    let before := (make document settings).run acts
    let s := before.1
    let after := s.update dt
    let played := (⟨s.engine, s.bullets⟩ : Host).run (round dt 0 s.bullets.length)
    let made := played.2.filterMap Event.bullet?
    (∀ b ∈ s.bullets, b.active = true) ∧
    after.1.engine = played.1.engine ∧ after.2.2 = played.2 ∧
    played.1.bullets.drop s.bullets.length = made ∧
    after.1.bullets = (played.1.bullets.take s.bullets.length).filter (·.active) ++ made ∧
    after.1.faults = s.faults ++ played.2.filterMap Event.fault? ∧
    (after.2.1 = true ↔ ∃ b ∈ after.1.bullets, b.hasActions = true) ∧
    before.2.taken ++ s.faults = before.2.events.filterMap Event.fault? := by
  intro before s after played made
  have active : s.Active := run_active document settings acts
  have length := playAll_length dt s.engine s.bullets
  have round := playAll_eq_run dt s.engine [] s.bullets [] active
  simp only [List.append_nil, List.nil_append, List.length_nil] at round
  refine ⟨active, ?_, ?_, ?_, ?_, ?_, List.any_eq_true, ?_⟩
  · simp only [played, round]
    rfl
  · simp only [played, round]
    rfl
  · simp only [made, played, round]
    exact List.drop_left' length
  · simp only [made, played, round]
    rw [List.take_left' length]
    rfl
  · simp only [played, round]
    rfl
  · exact (run_faults (make document settings) acts).symm

end Stage

end Danmaku
