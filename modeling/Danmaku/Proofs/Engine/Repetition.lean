import Danmaku.Proofs.Engine.Locality

/-!
# Repetitions

A repetition is no loop: it puts as many cursors on the stack as there are repetitions. Each of
them comes to its end where the one before has left the engine and the bullet, and the action that
repeats goes on after the last one (`repetition_rounds`).
-/

namespace Danmaku

namespace Binary32

theorem not_le_of_lt {x y : Binary32} (h : x.lt y = true) : y.le x = false := by
  unfold lt at h
  unfold le
  cases hx : x.place? <;> cases hy : y.place? <;> simp_all

end Binary32

/-- The next step executes a repetition, whose times and whose body are these. -/
def Bullet.Repeats (b : Bullet) (top : Cursor) (rest : List Cursor) (times body : Element) : Prop :=
  ∃ command, b.Runs top rest command ∧ command.kind = .repetition ∧
    command.child? .times = some times ∧ command.children.find? (·.kind.isAction) = some body

namespace Exec

/-- The command is to repeat something a positive number of times. -/
def again (command : Element) (p : Parameters) : Exec Bool := do
  match command.kind, command.child? .times with
  | .repetition, some times => return (0 : Binary32).lt (← value times p).round
  | _, _ => return false

section

variable {e : Element} {s : Setup} {m : Memory}

theorem again_run {times : Element} (kind : e.kind = .repetition)
    (given : e.child? .times = some times) (p : Parameters) :
    (again e p s m).value = (0 : Binary32).lt (value times p s m).value.round := by
  simp only [again, kind, given, bind_run, pure_run]

theorem again_other (kind : e.kind ≠ .repetition) (p : Parameters) :
    again e p = pure false := by
  unfold again
  split
  · contradiction
  · rfl

theorem repeats_of_again {p : Parameters} (h : (again e p s m).value = true) :
    e.kind = .repetition ∧ ∃ times, e.child? .times = some times ∧
      (0 : Binary32).lt (value times p s m).value.round = true := by
  by_cases kind : e.kind = .repetition
  · cases given : e.child? .times with
    | none =>
      simp only [again, kind, given, pure_run, Bool.false_eq_true] at h
    | some times =>
      rw [again_run kind given] at h
      exact ⟨kind, times, rfl, h⟩
  · rw [again_other kind] at h
    cases h

end

/-- What a repetition reads: how often, and what. -/
def toRepeat (times body : Element) (p : Parameters) :
    Exec (Nat × Option (Element × Parameters)) := do
  let x ← value times p
  let count ← repetitions x.round
  let called ← actionOf body p
  return (count, called)

theorem toRepeat_called {body : Element} (inline : body.kind ≠ .actionRef) (times : Element)
    (p : Parameters) (s : Setup) (m : Memory) :
    (toRepeat times body p s m).value.2 = some (body, p) := by
  -- This is so whatever counts; the count itself must not be computed.
  have general (counts : Binary32 → Exec Nat) :
      ((do
        let x ← value times p
        let count ← counts x.round
        let called ← actionOf body p
        return (count, called) : Exec (Nat × Option (Element × Parameters))) s m).value.2 =
      some (body, p) := by
    simp only [actionOf, bind_run, pure_run, if_neg inline]
  exact general repetitions

theorem repetition_run {command times body action : Element} {p q : Parameters} {depth n : Nat}
    (last : Bool) {s : Setup} {m : Memory} (given : command.child? .times = some times)
    (first : command.children.find? (·.kind.isAction) = some body)
    (positive : (0 : Binary32).lt (value times p s m).value.round = true)
    (found : (toRepeat times body p s m).value = (n, some (action, q)))
    (shallow : depth + 1 ≤ s.settings.maxDepth) :
    repetition command ⟨p, depth, last⟩ s m =
      let read := toRepeat times body p s m
      ⟨.enter n (.enter action q (depth + 1)), read.memory, read.events ++ [.repeating n]⟩ := by
  have more := Binary32.not_le_of_lt positive
  simp only [toRepeat, bind_run, pure_run] at found ⊢
  obtain ⟨count, called⟩ := Prod.mk.inj found
  simp only [repetition, given, first, cursorOf, bind_run, more, Bool.false_eq_true, ↓reduceIte,
    called, entered_run, Nat.not_lt.2 shallow, count]
  simp [emit, pure_run, List.append_assoc]

end Exec

namespace Engine

theorem run_toRepeat_called (e : Engine) {body : Element} (inline : body.kind ≠ .actionRef)
    (times : Element) (p : Parameters) :
    (e.run (Exec.toRepeat times body p)).2.1.2 = some (body, p) :=
  Exec.toRepeat_called inline times p e.setup e.memory

theorem step_repeats {e : Engine} {b : Bullet} {top : Cursor} {rest : List Cursor}
    {times body action : Element} {q : Parameters} {n : Nat} (repeats : b.Repeats top rest times body)
    (positive : (0 : Binary32).lt (e.run (Exec.value times top.parameters)).2.1.round = true)
    (found : (e.run (Exec.toRepeat times body top.parameters)).2.1 = (n, some (action, q)))
    (shallow : top.depth + 1 ≤ e.settings.maxDepth) :
    e.step b =
      let read := e.run (Exec.toRepeat times body top.parameters)
      let stack := List.replicate n (.enter action q (top.depth + 1)) ++ top.advance :: rest
      (read.1, ({ b with stack }, true), read.2.2 ++ [.repeating n, .entering n]) := by
  obtain ⟨command, runs, kind, given, first⟩ := repeats
  have done : Exec.command command b top.frame = Exec.repetition command top.frame := by
    simp only [Exec.command, kind]
  simp only [run] at positive found ⊢
  rw [e.step_runs runs, done, Cursor.frame,
    Exec.repetition_run top.atLast given first positive found shallow]
  simp only [Effect.apply, Effect.event?, List.append_assoc, Option.toList_some,
    List.singleton_append]

end Engine

/-! ## Rounds -/

/-- An action is played to its end a number of times, each time alone, on the bullet and by the
engine that the time before has left: what is left in the end, after how many steps, and all the
events. -/
inductive Engine.Rounds (c : Cursor) :
    Nat → Engine → Bullet → Nat → Engine × Bullet × List Event → Prop
  | none (e : Engine) (b : Bullet) : Rounds c 0 e b 0 (e, b, [])
  | round {n : Nat} {e : Engine} {b : Bullet} {k k' : Nat} {r r' : Engine × Bullet × List Event}
      (one : Unwinds [] e { b with stack := [c] } k r) (more : Rounds c n r.1 r.2.1 k' r') :
      Rounds c (n + 1) e b (k + k') (r'.1, r'.2.1, r.2.2 ++ r'.2.2)

namespace Engine.Rounds

variable {c : Cursor} {n : Nat} {e : Engine} {b : Bullet} {k : Nat}
  {r : Engine × Bullet × List Event}

/-- So many cursors on a stack are so many rounds. -/
theorem unwinds (h : Rounds c n e b k r) (base : List Cursor) :
    Unwinds base e { b with stack := List.replicate n c ++ base } k
      (r.1, { r.2.1 with stack := base }, r.2.2) := by
  induction h with
  | none e b => exact .done rfl
  | @round n e b k k' r r' one more ih =>
    -- For the first round the cursors of the others are a part of what stands below.
    have first : Unwinds (List.replicate n c ++ base) e
        { b with stack := c :: (List.replicate n c ++ base) } k
        (r.1, { r.2.1 with stack := List.replicate n c ++ base }, r.2.2) :=
      one.onTop (List.replicate n c ++ base)
    exact first.trans ih

/-- If the action comes to its end whenever it is played alone, it does so any number of times. -/
theorem exist {s : Setup} (ends : ∀ (e : Engine) (b : Bullet), e.setup = s →
      ∃ k r, Unwinds [] e { b with stack := [c] } k r) (n : Nat) :
    ∀ (e : Engine) (b : Bullet), e.setup = s → ∃ k r, Rounds c n e b k r := by
  induction n with
  | zero => exact fun e b _ => ⟨0, _, .none e b⟩
  | succ n ih =>
    intro e b setup
    obtain ⟨k, r, one⟩ := ends e b setup
    obtain ⟨k', r', more⟩ := ih r.1 r.2.1 (one.setup.trans setup)
    exact ⟨k + k', _, .round one more⟩

end Engine.Rounds

/-- **A repetition plays its body so many times, one after the other.** The step that repeats reads
the times and the parameters once, goes past the repetition and puts `n` equal cursors on top. Any
`i` rounds of the body, each played alone, are what comes of stepping the whole bullet until the
other `j` cursors are left on top of the caller, which is not touched; and if the body always comes
to its end when it is played alone, there are `n` of them. Then the caller executes its next
command, or is left. All of this is a matter of what is on top of a stack, as every step is. -/
theorem Engine.repetition_rounds {e : Engine} {b : Bullet} {top : Cursor} {rest : List Cursor}
    {times body action : Element} {q : Parameters} {n : Nat}
    (repeating : b.Repeats top rest times body)
    (positive : (0 : Binary32).lt (e.run (Exec.value times top.parameters)).2.1.round = true)
    (found : (e.run (Exec.toRepeat times body top.parameters)).2.1 = (n, some (action, q)))
    (shallow : top.depth + 1 ≤ e.settings.maxDepth) :
    let read := e.run (Exec.toRepeat times body top.parameters)
    let c := Cursor.enter action q (top.depth + 1)
    let caller := top.advance :: rest
    let entered := { b with stack := List.replicate n c ++ caller }
    e.step b = (read.1, (entered, true), read.2.2 ++ [.repeating n, .entering n]) ∧
      (∀ i j, n = i + j → ∀ k r, Rounds c i read.1 b k r →
        Unwinds (List.replicate j c ++ caller) read.1 entered k
          (r.1, { r.2.1 with stack := List.replicate j c ++ caller }, r.2.2)) ∧
      ((∀ (e' : Engine) (b' : Bullet), e'.setup = e.setup →
          ∃ k r, Unwinds [] e' { b' with stack := [c] } k r) →
        ∃ k r, Rounds c n read.1 b k r ∧ read.1.run (Exec.steps Cursor.frame k entered) =
          (r.1, { r.2.1 with stack := caller }, r.2.2)) ∧
      (∀ (e' : Engine) (b' : Bullet), b'.stack = caller →
        (∀ next, top.advance.command? = some next → b'.Runs top.advance rest next) ∧
        (top.advance.command? = none →
          e'.step b' = (e', ({ b' with stack := rest }, !rest.isEmpty), []))) ∧
      ∀ (e' : Engine) (b' : Bullet) (t base : List Cursor), t ≠ [] → e'.Local b' t base := by
  intro read c caller entered
  have idle : top.advance.wait = 0 := by
    obtain ⟨_, runs, -⟩ := repeating
    exact runs.idle
  refine ⟨step_repeats repeating positive found shallow, ?_, ?_, ?_, ?_⟩
  · rintro i j rfl k r rounds
    have whole := rounds.unwinds (List.replicate j c ++ caller)
    rw [← List.append_assoc, List.replicate_append_replicate] at whole
    exact whole
  · intro ends
    obtain ⟨k, r, rounds⟩ := Rounds.exist ends n read.1 b rfl
    exact ⟨k, r, rounds, (rounds.unwinds caller).run⟩
  · intro e' b' stack
    exact ⟨fun next at_ => ⟨stack, idle, at_⟩, fun ended => e'.step_over stack idle ended⟩
  · intro e' b' t base nonempty
    exact e'.step_local b' nonempty base

/-- An action that fires. -/
def shot : Element :=
  .make .action [] none [.make .fire [] none [.make .bullet [] none []]]

/-- An action that fires twice, and then waits. -/
def twice : Element :=
  .make .action [("label", "top")] none
    [.make .repetition [] none [.leaf .times "2", shot], .leaf .wait "1"]

/-- An engine that plays it. -/
def playsTwice : Engine := .make (.ofRoot (.make .bulletml [] none [twice]) []) {}

/-- Whatever plays the action that fires, it ends after two steps. -/
theorem shot_ends (e : Engine) (b : Bullet) (p : Parameters) (depth : Nat) :
    ∃ r, e.Unwinds [] { b with stack := [.enter shot p depth] } 2 r := by
  let c := Cursor.enter shot p depth
  let fire := Element.make .fire [] none [.make .bullet [] none []]
  have runs : ({ b with stack := [c] } : Bullet).Runs c [] fire := ⟨rfl, rfl, rfl⟩
  have stays : ¬ ({ b with stack := [c] } : Bullet).Vanishes := by
    rintro ⟨command, next, kind⟩
    rw [← Option.some.inj (runs.next?.symm.trans next)] at kind
    cases kind
  have fired : (e.step { b with stack := [c] }).2.1.1.stack = [c.advance] := by
    rw [e.step_runs runs]
    rfl
  refine ⟨_, .step (t := [c]) rfl (List.cons_ne_nil _ _) stays
    (.step (t := [c.advance]) fired (List.cons_ne_nil _ _) ?_ (.done ?_))⟩
  · rintro ⟨command, next, -⟩
    rw [Bullet.next?, fired] at next
    cases next
  · rw [Engine.step_over _ fired rfl rfl]

theorem twice_rounds :
    let b := playsTwice.shooter twice .zero
    let c := Cursor.enter shot .empty 1
    let caller := (Cursor.enter twice .empty 0).advance
    (playsTwice.step b).2.1.1.stack = [c, c, caller] ∧
      ∃ k r, Engine.Rounds c 2 (playsTwice.step b).1 b k r ∧
        (playsTwice.step b).1.run (Exec.steps Cursor.frame k (playsTwice.step b).2.1.1) =
          (r.1, { r.2.1 with stack := [caller] }, r.2.2) := by
  intro b c caller
  have repeating : b.Repeats (.enter twice .empty 0) [] (.leaf .times "2") shot :=
    ⟨.make .repetition [] none [.leaf .times "2", shot], ⟨rfl, rfl, rfl⟩, rfl, rfl, rfl⟩
  have positive : (0 : Binary32).lt
      (playsTwice.run (Exec.value (.leaf .times "2") .empty)).2.1.round = true := by
    decide +kernel
  have count : (playsTwice.run (Exec.toRepeat (.leaf .times "2") shot .empty)).2.1.1 = 2 := by
    decide +kernel
  have found : (playsTwice.run (Exec.toRepeat (.leaf .times "2") shot .empty)).2.1 =
      (2, some (shot, .empty)) :=
    Prod.ext count (playsTwice.run_toRepeat_called (by decide) _ _)
  obtain ⟨step, -, rounds, -⟩ := Engine.repetition_rounds repeating positive found (by decide)
  rw [step]
  refine ⟨rfl, rounds fun e b' _ => ?_⟩
  obtain ⟨r, ends⟩ := shot_ends e b' .empty 1
  exact ⟨2, r, ends⟩

end Danmaku
