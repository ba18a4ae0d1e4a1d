import Danmaku.Proofs.Stage.Round

/-!
# Idle stages

Once no bullet of a stage has actions left, updates do nothing but move the bullets on
(`update_idle`), and no act but to spawn shooters gives one of them something to do.
-/

namespace Danmaku

/-- Frames of a bullet, one after the other: how long each lasts, and the multiplier of speed. -/
def Bullet.drift (b : Bullet) (frames : List (Binary32 × Binary32)) : Bullet :=
  frames.foldl (fun b frame => b.tick frame.1 frame.2) b

theorem Bullet.drift_stack (b : Bullet) (frames : List (Binary32 × Binary32)) :
    (b.drift frames).stack = b.stack := by
  induction frames generalizing b with
  | nil => rfl
  | cons frame rest ih => exact (ih _).trans (b.tick_stack frame.1 frame.2)

theorem Bullet.drift_active (b : Bullet) (frames : List (Binary32 × Binary32)) :
    (b.drift frames).active = b.active := by
  induction frames generalizing b with
  | nil => rfl
  | cons frame rest ih => exact (ih _).trans (b.tick_active frame.1 frame.2)

namespace Stage

/-- No bullet has actions left. -/
def Idle (s : Stage) : Prop := ∀ b ∈ s.bullets, b.stack = []

def Act.spawns : Act → Bool
  | spawn _ => true
  | _ => false

theorem idle_of_update {s : Stage} {dt : Binary32} (h : (s.update dt).2.1 = false) :
    (s.update dt).1.Idle := by
  intro b mem
  have none : b.hasActions = false := by
    have all := List.any_eq_false.1 h b mem
    simpa using all
  simpa [Bullet.hasActions] using none

theorem play_idle (dt : Binary32) (e : Engine) {b : Bullet} (active : b.active = true)
    (idle : b.stack = []) : play dt e b = (e, e.integrate b dt, []) := by
  have step : e.step b = (e, (b, false), []) := by
    simp only [Engine.step, Engine.run, Exec.step_nil idle, Exec.pure_run]
  rw [play_active dt e active, step]

theorem playAll_idle (dt : Binary32) (e : Engine) {bullets : List Bullet}
    (active : ∀ b ∈ bullets, b.active = true) (idle : ∀ b ∈ bullets, b.stack = []) :
    playAll dt e bullets = (e, bullets.map (e.integrate · dt), []) := by
  induction bullets with
  | nil => rfl
  | cons b rest ih =>
    rw [List.forall_mem_cons] at active idle
    rw [playAll_cons, play_idle dt e active.1 idle.1]
    simp only [ih active.2 idle.2, List.map_cons, List.append_nil]

/-- An update of an idle stage moves its bullets on. -/
theorem update_idle {s : Stage} (active : s.Active) (idle : s.Idle) (dt : Binary32) :
    s.update dt = ({ s with bullets := s.bullets.map (s.engine.integrate · dt) }, false, []) := by
  have kept : (s.bullets.map (s.engine.integrate · dt)).filter (·.active) =
      s.bullets.map (s.engine.integrate · dt) := by
    rw [List.filter_eq_self, List.forall_mem_map]
    intro b mem
    rw [Engine.integrate, Bullet.tick_active]
    exact active b mem
  have none : (s.bullets.map (s.engine.integrate · dt)).any (·.hasActions) = false := by
    rw [List.any_eq_false, List.forall_mem_map]
    intro b mem
    rw [Bullet.hasActions, Engine.integrate, Bullet.tick_stack, idle b mem]
    decide
  simp only [update, playAll_idle dt s.engine active idle, kept, none, List.filterMap_nil,
    List.append_nil]

/-- What can come of a stage while nothing happens: each of its bullets has drifted on, by a frame
for each update. -/
structure Rests (s after : Stage) (y : Yield) : Prop where
  answers : ∀ more ∈ y.answers, more = false
  events : y.events = []
  random : after.engine.memory.random = s.engine.memory.random
  sequences : after.engine.memory.sequences = s.engine.memory.sequences
  bullets : ∃ frames, frames.length = y.answers.length ∧
    after.bullets = s.bullets.map (·.drift frames)

theorem Rests.refl (s : Stage) : s.Rests s ⟨[], [], []⟩ where
  answers _ mem := absurd mem List.not_mem_nil
  events := rfl
  random := rfl
  sequences := rfl
  bullets := ⟨[], rfl, (List.map_id _).symm⟩

theorem Rests.trans {s s' s'' : Stage} {y y' : Yield} (h : s.Rests s' y) (h' : s'.Rests s'' y') :
    s.Rests s'' (y.append y') where
  answers := by
    intro more mem
    rcases List.mem_append.1 mem with mem | mem
    · exact h.answers more mem
    · exact h'.answers more mem
  events := by rw [Yield.append, h.events, h'.events, List.append_nil]
  random := h'.random.trans h.random
  sequences := h'.sequences.trans h.sequences
  bullets := by
    obtain ⟨frames, length, eq⟩ := h.bullets
    obtain ⟨frames', length', eq'⟩ := h'.bullets
    refine ⟨frames ++ frames', ?_, ?_⟩
    · rw [List.length_append, length, length', Yield.append, List.length_append]
    · simp only [eq', eq, List.map_map, Function.comp_def, Bullet.drift, List.foldl_append]

theorem Rests.active {s after : Stage} {y : Yield} (h : s.Rests after y) (active : s.Active) :
    after.Active := by
  obtain ⟨frames, -, eq⟩ := h.bullets
  rw [Active, eq, List.forall_mem_map]
  intro b mem
  rw [Bullet.drift_active]
  exact active b mem

theorem Rests.idle {s after : Stage} {y : Yield} (h : s.Rests after y) (idle : s.Idle) :
    after.Idle := by
  obtain ⟨frames, -, eq⟩ := h.bullets
  rw [Idle, eq, List.forall_mem_map]
  intro b mem
  rw [Bullet.drift_stack]
  exact idle b mem

theorem act_rests {s : Stage} (active : s.Active) (idle : s.Idle) {act : Act}
    (spawnless : act.spawns = false) : s.Rests (s.act act).1 (s.act act).2 := by
  cases act with
  | spawn position => cases spawnless
  | takeFaults => exact { Rests.refl s with }
  | adjust adjustment =>
    cases adjustment <;> exact { Rests.refl s with }
  | update dt =>
    have eq := update_idle active idle dt
    simp only [act, eq]
    constructor
    · intro more mem
      exact List.mem_singleton.1 mem
    · rfl
    · rfl
    · rfl
    · exact ⟨[(dt, s.engine.settings.speedMultiplier)], rfl, rfl⟩

theorem run_rests {s : Stage} (active : s.Active) (idle : s.Idle) {acts : List Act}
    (spawnless : ∀ act ∈ acts, act.spawns = false) : s.Rests (s.run acts).1 (s.run acts).2 := by
  induction acts generalizing s with
  | nil => exact .refl s
  | cons act rest ih =>
    rw [List.forall_mem_cons] at spawnless
    have first := act_rests active idle spawnless.1
    exact first.trans (ih (first.active active) (first.idle idle) spawnless.2)

end Stage

/-- **Idle stages stay idle.** Once an update of a stage has told that no bullet has actions left,
it can be updated, adjusted and relieved of its faults any number of times: as long as no shooter is
spawned, every update tells the same, there is no event, the random numbers and the sequences stay
as they are, and the bullets are those that there were, moved on by a frame for each update. A step
of a bullet always tells whether the bullet has actions left; and, whatever a host does, a bullet
that has vanished has none, and never comes back. -/
theorem idle_absorbing (document : Document) (settings : Settings) :
    (∀ (earlier : List Stage.Act) (dt : Binary32) (later : List Stage.Act),
      let updated := (((Stage.make document settings).run earlier).1).update dt
      updated.2.1 = false → (∀ act ∈ later, act.spawns = false) →
        updated.1.Rests (updated.1.run later).1 (updated.1.run later).2) ∧
    (∀ (e : Engine) (b : Bullet), (e.step b).2.1.2 = (e.step b).2.1.1.hasActions) ∧
    ∀ (h : Host), (∀ b ∈ h.bullets, b.Born) → ∀ (deeds : List Deed) (i : Nat) (b : Bullet),
      (h.run deeds).1.bullets[i]? = some b → b.active = false → b.stack = [] ∧
        ∀ more : List Deed, ∃ b', ((h.run deeds).1.run more).1.bullets[i]? = some b' ∧
          b'.active = false ∧ b'.stack = [] := by
  refine ⟨?_, Engine.step_tells, ?_⟩
  · intro earlier dt later updated told spawnless
    exact Stage.run_rests (Stage.update_active _ dt) (Stage.idle_of_update told) spawnless
  · intro h born deeds i b found gone
    have settled := Host.run_settled (fun b mem => (born b mem).settled) deeds
    refine ⟨settled b (List.mem_of_getElem? found) gone, ?_⟩
    intro more
    obtain ⟨b', found', gone'⟩ := Host.run_inactive found gone more
    have later := Host.run_settled settled more b' (List.mem_of_getElem? found')
    exact ⟨b', found', gone', later gone'⟩

/-- An action that fires a bullet without actions and vanishes. -/
def parting : Element :=
  .make .action [("label", "top")] none
    [.make .fire [] none [.make .bullet [] none []], .make .vanish [] none []]

/-- The pattern of that action. -/
def partings : Document := .ofRoot (.make .bulletml [] none [parting]) []

theorem parting_idle :
    let before := ((Stage.make partings {}).run [.spawn .zero, .update 1]).1
    let updated := before.update 1
    let later : List Stage.Act := [.adjust (.rank 2), .update 1, .takeFaults, .update 3]
    let e := Engine.make partings {}
    let h := ((⟨e, [e.shooter parting .zero]⟩ : Host).run [.step 0, .step 0]).1
    (updated.2.1 = false ∧ before.bullets.length = 2 ∧ updated.1.bullets.length = 1) ∧
      updated.1.Rests (updated.1.run later).1 (updated.1.run later).2 ∧
      ∃ b, (h.run [.integrate 0 1, .step 0]).1.bullets[0]? = some b ∧ b.active = false := by
  intro before updated later e h
  obtain ⟨rests, -, gone⟩ := idle_absorbing partings {}
  have idle : updated.2.1 = false := by decide +kernel
  have spawnless : ∀ act ∈ later, act.spawns = false := by decide
  have born : ∀ b ∈ [e.shooter parting .zero], b.Born := by
    intro b mem
    rw [List.mem_singleton.1 mem]
    exact .shooter e parting .zero
  obtain ⟨b, found, inactive⟩ : ∃ b, h.bullets[0]? = some b ∧ b.active = false := by
    refine ⟨_, rfl, ?_⟩
    decide +kernel
  obtain ⟨-, stays⟩ := gone ⟨e, [e.shooter parting .zero]⟩ born [.step 0, .step 0] 0 b found inactive
  obtain ⟨b', found', inactive', -⟩ := stays [.integrate 0 1, .step 0]
  refine ⟨⟨idle, by decide +kernel, by decide +kernel⟩, ?_, b', found', inactive'⟩
  exact rests [.spawn .zero, .update 1] 1 later idle spawnless

end Danmaku
