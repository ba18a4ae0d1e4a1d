import Danmaku.Proofs.Engine.Life
import Danmaku.Proofs.Engine.Trailing

/-!
# What stands below in a stack

A step looks at the topmost cursor of a stack only. Whatever cursors stand below some others, they
stay where they are, and the step does what it would do without them (`Engine.step_below`), unless
it makes the bullet vanish. So a run that brings some cursors to their end can be put on top of
others as it is (`Engine.Unwinds.onTop`).
-/

namespace Danmaku

/-- The next step makes the bullet vanish. -/
def Bullet.Vanishes (b : Bullet) : Prop :=
  ∃ command, b.next? = some command ∧ command.kind = .vanish

theorem Bullet.next?_below (b : Bullet) {t : List Cursor} (nonempty : t ≠ [])
    (base : List Cursor) :
    ({ b with stack := t ++ base } : Bullet).next? = ({ b with stack := t } : Bullet).next? := by
  cases t with
  | nil => exact absurd rfl nonempty
  | cons top rest => rfl

theorem Bullet.vanishes_below (b : Bullet) {t : List Cursor} (nonempty : t ≠ [])
    (base : List Cursor) :
    ({ b with stack := t ++ base } : Bullet).Vanishes ↔
      ({ b with stack := t } : Bullet).Vanishes := by
  simp only [Vanishes, b.next?_below nonempty]

/-- There is more to do if there is above or below. -/
theorem more_below (rest base : List Cursor) :
    (!(rest ++ base).isEmpty) = (!rest.isEmpty || !base.isEmpty) := by
  cases rest <;> rfl

namespace Effect

theorem apply_restack (effect : Effect) (b : Bullet) (stack : List Cursor) (top : Cursor)
    (rest : List Cursor) : effect.apply { b with stack } top rest = effect.apply b top rest := by
  cases effect <;> rfl

/-- All effects but one leave what stands below. -/
theorem apply_below {effect : Effect} (stays : effect ≠ .vanish) (b : Bullet) (top : Cursor)
    (rest base : List Cursor) :
    effect.apply b top (rest ++ base) =
      let after := effect.apply b top rest
      ({ after.1 with stack := after.1.stack ++ base }, after.2 || !base.isEmpty) := by
  cases effect with
  | vanish => exact absurd rfl stays
  | finish => rw [apply, apply, more_below]
  | enter count cursor => simp [apply]
  | _ => rfl

end Effect

namespace Exec

theorem command_of_vanish {e : Element} (h : e.kind = .vanish) (b : Bullet) (f : Frame) :
    command e b f = pure .vanish := by
  simp only [command, h]

/-- Only `vanish` makes a bullet vanish. -/
theorem command_stays {e : Element} (h : e.kind ≠ .vanish) (b : Bullet) (f : Frame) (s : Setup)
    (m : Memory) : (command e b f s m).value ≠ .vanish := by
  intro vanishes
  have of := (command_gives (s := s) e b f m).1
  rw [vanishes] at of
  cases of with
  | vanish kind => exact h kind

end Exec

namespace Engine

theorem step_vanishes (e : Engine) {b : Bullet} (h : b.Vanishes) :
    e.step b = (e, (b.vanish, false), []) := by
  obtain ⟨command, next, kind⟩ := h
  rcases e.step_cases b with ⟨none, -⟩ | ⟨top, rest, command', runs⟩
  · rw [none] at next
    cases next
  · have same : command' = command := Option.some.inj (runs.next?.symm.trans next)
    rw [e.step_runs (same ▸ runs), Exec.command_of_vanish kind]
    rfl

/-- An action that is over is left. -/
theorem step_over (e : Engine) {b : Bullet} {top : Cursor} {rest : List Cursor}
    (stack : b.stack = top :: rest) (idle : top.wait = 0) (ended : top.command? = none) :
    e.step b = (e, ({ b with stack := rest }, !rest.isEmpty), []) := by
  simp only [step, run, Exec.step, stack, idle, ended, Nat.lt_irrefl, ↓reduceIte]
  rfl

end Engine

/-- The next step executes the command after the one at `top`, or leaves the action if that was its
last one. -/
structure Bullet.Proceeds (b : Bullet) (top : Cursor) (rest : List Cursor) : Prop where
  next : ∀ command, top.action.children[top.next + 1]? = some command →
    b.Runs top.advance rest command
  ended : top.action.children[top.next + 1]? = none →
    ∀ e : Engine, e.step b = (e, ({ b with stack := rest }, !rest.isEmpty), [])

theorem Cursor.command?_advance {top : Cursor} {command : Element}
    (at_ : top.command? = some command) :
    top.advance.command? = top.action.children[top.next + 1]? := by
  unfold command? at at_
  split at at_
  · cases at_
  · rename_i unfinished
    exact if_neg unfinished

theorem Bullet.Runs.proceeds {b b' : Bullet} {top : Cursor} {rest : List Cursor}
    {command : Element} (h : b.Runs top rest command) (stack : b'.stack = top.advance :: rest) :
    b'.Proceeds top rest := by
  have after := Cursor.command?_advance h.command
  constructor
  · intro next at_
    exact ⟨stack, h.idle, after.trans at_⟩
  · intro ended e
    exact e.step_over stack h.idle (after.trans ended)

namespace Engine

/-- But for a bullet that vanishes, a step on cursors that stand on top of others does what it does
without those below, and leaves them there. -/
theorem step_below (e : Engine) (b : Bullet) {t : List Cursor} (nonempty : t ≠ [])
    (stays : ¬ ({ b with stack := t } : Bullet).Vanishes) (base : List Cursor) :
    e.step { b with stack := t ++ base } =
      let alone := e.step { b with stack := t }
      (alone.1, ({ alone.2.1.1 with stack := alone.2.1.1.stack ++ base },
        alone.2.1.2 || !base.isEmpty), alone.2.2) := by
  cases t with
  | nil => exact absurd rfl nonempty
  | cons top rest =>
    by_cases waiting : 0 < top.wait
    · simp only [step, run, Exec.step, List.cons_append, waiting, ↓reduceIte]
      rfl
    have idle : top.wait = 0 := by omega
    cases at_ : top.command? with
    | none =>
      rw [List.cons_append, e.step_over rfl idle at_, e.step_over rfl idle at_, more_below]
    | some command =>
      have alone : ({ b with stack := top :: rest } : Bullet).Runs top rest command :=
        ⟨rfl, idle, at_⟩
      have above : ({ b with stack := top :: (rest ++ base) } : Bullet).Runs top (rest ++ base)
          command := ⟨rfl, idle, at_⟩
      have kind : command.kind ≠ .vanish := fun kind => stays ⟨command, alone.next?, kind⟩
      rw [List.cons_append, e.step_runs above, e.step_runs alone]
      simp only [Exec.command_restack, Effect.apply_restack]
      rw [Effect.apply_below (Exec.command_stays kind b top.frame e.setup e.memory)]

end Engine

/-- A step does with cursors on top of others what it does with them alone. What stands below stays
there, and counts as more to do; only a bullet that vanishes loses it too. -/
structure Engine.Local (e : Engine) (b : Bullet) (t base : List Cursor) : Prop where
  vanishes : ({ b with stack := t } : Bullet).Vanishes →
    e.step { b with stack := t } = (e, (b.vanish, false), []) ∧
      e.step { b with stack := t ++ base } = (e, (b.vanish, false), [])
  stays : ¬ ({ b with stack := t } : Bullet).Vanishes →
    e.step { b with stack := t ++ base } =
      let alone := e.step { b with stack := t }
      (alone.1, ({ alone.2.1.1 with stack := alone.2.1.1.stack ++ base },
        alone.2.1.2 || !base.isEmpty), alone.2.2)

theorem Engine.step_local (e : Engine) (b : Bullet) {t : List Cursor} (nonempty : t ≠ [])
    (base : List Cursor) : e.Local b t base where
  vanishes h := ⟨e.step_vanishes h, e.step_vanishes ((b.vanishes_below nonempty base).2 h)⟩
  stays h := e.step_below b nonempty h base

/-! ## Runs -/

/-- The cursors above `base` come to their end in a number of steps, one at least as long as there
are any, and the bullet does not vanish: what is left of the engine and the bullet, and the events. -/
inductive Engine.Unwinds (base : List Cursor) :
    Engine → Bullet → Nat → Engine × Bullet × List Event → Prop
  | done {e : Engine} {b : Bullet} (h : b.stack = base) : Unwinds base e b 0 (e, b, [])
  | step {e : Engine} {b : Bullet} {t : List Cursor} {k : Nat} {r : Engine × Bullet × List Event}
      (above : b.stack = t ++ base) (nonempty : t ≠ []) (stays : ¬ b.Vanishes)
      (later : Unwinds base (e.step b).1 (e.step b).2.1.1 k r) :
      Unwinds base e b (k + 1) (r.1, r.2.1, (e.step b).2.2 ++ r.2.2)

namespace Engine.Unwinds

variable {base : List Cursor} {e : Engine} {b : Bullet} {k : Nat}
  {r : Engine × Bullet × List Event}

theorem setup (h : Unwinds base e b k r) : r.1.setup = e.setup := by
  induction h with
  | done => rfl
  | step _ _ _ _ ih => exact ih

/-- What comes of so many steps. -/
theorem run (h : Unwinds base e b k r) : e.run (Exec.steps Cursor.frame k b) = r := by
  induction h with
  | done => rfl
  | step _ _ _ _ ih =>
    rw [← ih]
    rfl

/-- Cursors that come to their end do so on top of others too. -/
theorem onTop (h : Unwinds base e b k r) (base' : List Cursor) :
    Unwinds (base ++ base') e { b with stack := b.stack ++ base' } k
      (r.1, { r.2.1 with stack := base ++ base' }, r.2.2) := by
  induction h with
  | done h =>
    rw [h]
    exact .done rfl
  | @step e b t k r above nonempty stays later ih =>
    have some_left : b.stack ≠ [] := by simp [above, nonempty]
    have alone : ¬ ({ b with stack := b.stack } : Bullet).Vanishes := stays
    have step := e.step_below b some_left alone base'
    have stays' := mt (b.vanishes_below some_left base').1 alone
    have above' : ({ b with stack := b.stack ++ base' } : Bullet).stack = t ++ (base ++ base') := by
      rw [← List.append_assoc, ← above]
    -- The step on the longer stack leaves the bullet of the shorter one with `base'` below.
    have last := Unwinds.step (e := e) above' nonempty stays' (k := k)
      (r := (r.1, { r.2.1 with stack := base ++ base' }, r.2.2))
    rw [step] at last
    exact last ih

/-- One run after the other, as far as the cursors go that the first one leaves. -/
theorem trans {t : List Cursor} {k' : Nat} {r' : Engine × Bullet × List Event}
    (h : Unwinds (t ++ base) e b k r) (h' : Unwinds base r.1 r.2.1 k' r') :
    Unwinds base e b (k + k') (r'.1, r'.2.1, r.2.2 ++ r'.2.2) := by
  induction h with
  | done => simpa using h'
  | @step e b t' k r above nonempty stays later ih =>
    rw [Nat.succ_add, List.append_assoc]
    have above' : b.stack = (t' ++ t) ++ base := by rw [above, List.append_assoc]
    exact .step above' (by simp [nonempty]) stays (ih h')

end Engine.Unwinds

end Danmaku
