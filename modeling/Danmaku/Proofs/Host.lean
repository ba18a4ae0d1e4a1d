import Danmaku.Engine.Basic

/-!
# Hosts

A host holds an engine and the bullets that play on it. It does what it likes with them in any
order: a step or a frame of one of them, or a change of a setting. What the bullets fire joins
them, so that each keeps its place.
-/

namespace Danmaku

/-- A setting that may be changed while a pattern plays. -/
inductive Adjustment where
  | target (position : Vec3)
  | plane (plane : Plane)
  | rank (value : Binary32)
  | defaultSpeed (value : Binary32)
  | waitMultiplier (value : Binary32)
  | angleOffset (value : Binary32)
  | speedMultiplier (value : Binary32)

def Engine.adjust (e : Engine) : Adjustment → Engine
  | .target position => e.setTarget position
  | .plane plane => e.setPlane plane
  | .rank value => e.setRank value
  | .defaultSpeed value => e.setDefaultSpeed value
  | .waitMultiplier value => e.setWaitMultiplier value
  | .angleOffset value => e.setAngleOffset value
  | .speedMultiplier value => e.setSpeedMultiplier value

structure Host where
  engine : Engine
  bullets : List Bullet

inductive Deed where
  | step (i : Nat)
  | integrate (i : Nat) (dt : Binary32)
  | adjust (adjustment : Adjustment)

namespace Host

/-- A deed on a bullet that is not there does nothing. -/
def act (h : Host) : Deed → Host × List Event
  | .step i =>
    match h.bullets[i]? with
    | some b =>
      let (engine, (b, _), events) := h.engine.step b
      (⟨engine, h.bullets.set i b ++ events.filterMap Event.bullet?⟩, events)
    | none => (h, [])
  | .integrate i dt =>
    match h.bullets[i]? with
    | some b => (⟨h.engine, h.bullets.set i (h.engine.integrate b dt)⟩, [])
    | none => (h, [])
  | .adjust adjustment => (⟨h.engine.adjust adjustment, h.bullets⟩, [])

def run (h : Host) : List Deed → Host × List Event
  | [] => (h, [])
  | deed :: rest =>
    let (h, events) := h.act deed
    let (h, later) := h.run rest
    (h, events ++ later)

/-- What every deed keeps holds after every run. -/
theorem run_keeps {P : Host → Prop} (keeps : ∀ h deed, P h → P (h.act deed).1) {h : Host}
    (start : P h) (deeds : List Deed) : P (h.run deeds).1 := by
  induction deeds generalizing h with
  | nil => exact start
  | cons deed rest ih => exact ih (keeps h deed start)

end Host

/-- Two engines play the same document within the same limits. -/
structure Engine.Alike (e e' : Engine) : Prop where
  document : e'.setup.document = e.setup.document
  maxDepth : e'.settings.maxDepth = e.settings.maxDepth
  maxRepeat : e'.settings.maxRepeat = e.settings.maxRepeat

theorem Engine.Alike.refl (e : Engine) : e.Alike e := ⟨rfl, rfl, rfl⟩

theorem Engine.Alike.trans {e e' e'' : Engine} (h : e.Alike e') (h' : e'.Alike e'') :
    e.Alike e'' where
  document := h'.document.trans h.document
  maxDepth := h'.maxDepth.trans h.maxDepth
  maxRepeat := h'.maxRepeat.trans h.maxRepeat

theorem Engine.step_alike (e : Engine) (b : Bullet) : e.Alike (e.step b).1 := ⟨rfl, rfl, rfl⟩

theorem Engine.adjust_alike (e : Engine) (a : Adjustment) : e.Alike (e.adjust a) := by
  cases a <;> exact ⟨rfl, rfl, rfl⟩

theorem Engine.adjust_sequences (e : Engine) (adjustment : Adjustment) :
    (e.adjust adjustment).memory.sequences = e.memory.sequences := by
  cases adjustment <;> rfl

namespace Host

theorem act_alike (h : Host) (deed : Deed) : h.engine.Alike (h.act deed).1.engine := by
  cases deed with
  | step i =>
    simp only [act]
    split
    · exact h.engine.step_alike _
    · exact .refl _
  | integrate i dt =>
    simp only [act]
    split <;> exact .refl _
  | adjust a => exact h.engine.adjust_alike a

/-- What a deed of a host with the engine `e` can do to a bullet. -/
inductive Treats (e : Engine) (b : Bullet) : Bullet → Prop
  | keep : Treats e b b
  | step : Treats e b (e.step b).2.1.1
  | integrate (dt : Binary32) : Treats e b (e.integrate b dt)

theorem act_treats {h : Host} {i : Nat} {b : Bullet} (found : h.bullets[i]? = some b)
    (deed : Deed) : ∃ b', (h.act deed).1.bullets[i]? = some b' ∧ Treats h.engine b b' := by
  have lt := (List.getElem?_eq_some_iff.1 found).1
  cases deed with
  | adjust => exact ⟨b, found, .keep⟩
  | step j =>
    simp only [act]
    by_cases eq : j = i
    · subst eq
      refine ⟨_, ?_, .step⟩
      simp only [found]
      rw [List.getElem?_append_left (by simpa using lt), List.getElem?_set_self lt]
    · refine ⟨b, ?_, .keep⟩
      split
      · rw [List.getElem?_append_left (by simpa using lt), List.getElem?_set_ne eq, found]
      · exact found
  | integrate j dt =>
    simp only [act]
    by_cases eq : j = i
    · subst eq
      refine ⟨_, ?_, .integrate dt⟩
      simp only [found]
      rw [List.getElem?_set_self lt]
    · refine ⟨b, ?_, .keep⟩
      split
      · rw [List.getElem?_set_ne eq, found]
      · exact found

/-- A bullet of the host after a deed was there before, or has been fired by one. -/
theorem mem_act {h : Host} {deed : Deed} {b' : Bullet} (mem : b' ∈ (h.act deed).1.bullets) :
    ∃ b ∈ h.bullets, Treats h.engine b b' ∨ .fired b' ∈ (h.engine.step b).2.2 := by
  cases deed with
  | adjust => exact ⟨b', mem, .inl .keep⟩
  | step i =>
    simp only [act] at mem
    split at mem
    · rename_i b found
      have hb := List.mem_of_getElem? found
      rcases List.mem_append.1 mem with mem | mem
      · rcases List.mem_or_eq_of_mem_set mem with mem | rfl
        · exact ⟨b', mem, .inl .keep⟩
        · exact ⟨b, hb, .inl .step⟩
      · obtain ⟨event, mem, isFired⟩ := List.mem_filterMap.1 mem
        cases event <;> cases isFired
        exact ⟨b, hb, .inr mem⟩
    · exact ⟨b', mem, .inl .keep⟩
  | integrate i dt =>
    simp only [act] at mem
    split at mem
    · rename_i b found
      rcases List.mem_or_eq_of_mem_set mem with mem | rfl
      · exact ⟨b', mem, .inl .keep⟩
      · exact ⟨b, List.mem_of_getElem? found, .inl (.integrate dt)⟩
    · exact ⟨b', mem, .inl .keep⟩

end Host

theorem Bullet.tick_stack (b : Bullet) (dt multiplier : Binary32) :
    (b.tick dt multiplier).stack = b.stack := by
  have direction : b.advanceDirection.stack = b.stack := by
    unfold advanceDirection
    dsimp only
    split <;> rfl
  have speed : b.advanceDirection.advanceSpeed.stack = b.stack := direction
  have thrust : b.advanceDirection.advanceSpeed.advanceThrust.stack = b.stack := by
    rw [← speed]
    unfold advanceThrust
    dsimp only
    split <;> rfl
  unfold tick
  dsimp only
  split
  · split
    · exact thrust
    · exact thrust
  · rfl

end Danmaku
