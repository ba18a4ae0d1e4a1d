import Danmaku.Proofs.Engine.Play
import Danmaku.Proofs.Host

/-!
# Sessions

An engine does not know the bullets that play on it: it is asked for steps, of one bullet or
another, and its settings change in between. What a host does comes down to such a session
(`Host.run_session`). What the sequences have come to in the end is gathered from its steps
(`Engine.serveAll_gathers`).
-/

namespace Danmaku

namespace Engine

/-- What an engine is asked for: a step of any bullet, or another setting. -/
inductive Call where
  | step (b : Bullet)
  | adjust (adjustment : Adjustment)

def serve (e : Engine) : Call → Engine
  | .step b => (e.step b).1
  | .adjust adjustment => e.adjust adjustment

def serveAll (e : Engine) (calls : List Call) : Engine := calls.foldl serve e

/-- The steps of a session: the engine as it is asked for each, and the bullet. -/
def moments : Engine → List Call → List (Engine × Bullet)
  | _, [] => []
  | e, .step b :: rest => (e, b) :: (e.step b).1.moments rest
  | e, .adjust adjustment :: rest => (e.adjust adjustment).moments rest

theorem moments_append (e : Engine) (calls later : List Call) :
    e.moments (calls ++ later) = e.moments calls ++ (e.serveAll calls).moments later := by
  induction calls generalizing e with
  | nil => rfl
  | cons call rest ih =>
    cases call with
    | step b => exact congrArg ((e, b) :: ·) (ih (e.step b).1)
    | adjust adjustment => exact ih (e.adjust adjustment)

/-- What is read of each step of a session, in order. -/
def gather {α : Type} (read : Engine → Bullet → List α) (e : Engine) (calls : List Call) :
    List α :=
  (e.moments calls).flatMap fun m => read m.1 m.2

section

variable {α β : Type} (read : Engine → Bullet → List α)

theorem gather_append (e : Engine) (calls later : List Call) :
    e.gather read (calls ++ later) =
      e.gather read calls ++ (e.serveAll calls).gather read later := by
  rw [gather, moments_append, List.flatMap_append]
  rfl

theorem gather_step (e : Engine) (calls : List Call) (b : Bullet) :
    e.gather read (calls ++ [.step b]) = e.gather read calls ++ read (e.serveAll calls) b := by
  rw [gather_append]
  exact congrArg _ (List.append_nil _)

/-- If each step brings a part of the sequences on by what is read of it, a session brings it on by
all that is gathered from it. -/
theorem serveAll_gathers {part : Sequences → β} {next : β → α → β}
    (goes : ∀ (e : Engine) b, part (e.step b).1.memory.sequences =
      (read e b).foldl next (part e.memory.sequences)) (e : Engine) (calls : List Call) :
    part (e.serveAll calls).memory.sequences =
      (e.gather read calls).foldl next (part e.memory.sequences) := by
  induction calls generalizing e with
  | nil => rfl
  | cons call rest ih =>
    cases call with
    | step b =>
      rw [gather, moments, List.flatMap_cons, List.foldl_append, ← goes]
      exact ih (e.step b).1
    | adjust adjustment =>
      rw [← e.adjust_sequences adjustment]
      exact ih (e.adjust adjustment)

end

end Engine

/-- What has happened during a session. -/
def Engine.eventsOf (e : Engine) (calls : List Call) : List Event :=
  e.gather (fun e b => (e.step b).2.2) calls

theorem Host.act_session (h : Host) (deed : Deed) :
    ∃ calls, (h.act deed).1.engine = h.engine.serveAll calls ∧
      (h.act deed).2 = h.engine.eventsOf calls := by
  cases deed with
  | step i =>
    simp only [act]
    split
    · rename_i b _
      exact ⟨[.step b], rfl, (List.append_nil _).symm⟩
    · exact ⟨[], rfl, rfl⟩
  | integrate i dt =>
    simp only [act]
    split
    · exact ⟨[], rfl, rfl⟩
    · exact ⟨[], rfl, rfl⟩
  | adjust adjustment => exact ⟨[.adjust adjustment], rfl, rfl⟩

/-- What a host does is a session with its engine, and what has happened are the events of its
steps. -/
theorem Host.run_session (h : Host) (deeds : List Deed) :
    ∃ calls, (h.run deeds).1.engine = h.engine.serveAll calls ∧
      (h.run deeds).2 = h.engine.eventsOf calls := by
  induction deeds generalizing h with
  | nil => exact ⟨[], rfl, rfl⟩
  | cons deed rest ih =>
    obtain ⟨calls, engine, events⟩ := h.act_session deed
    obtain ⟨later, engine', events'⟩ := ih (h.act deed).1
    refine ⟨calls ++ later, ?_, ?_⟩
    · show ((h.act deed).1.run rest).1.engine = _
      rw [engine', engine, Engine.serveAll, Engine.serveAll, Engine.serveAll, List.foldl_append]
    · show (h.act deed).2 ++ ((h.act deed).1.run rest).2 = _
      rw [events', events, engine, Engine.eventsOf, Engine.eventsOf, Engine.eventsOf,
        Engine.gather_append]

end Danmaku
