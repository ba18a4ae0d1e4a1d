import Danmaku.Proofs.Engine.Run

/-!
# Making room and nesting

An action that is the last command of the running one takes its place. Were it put on top instead,
as any other action is, nothing would change but the depths and the finished callers that stay
below: a run that makes room is matched by one that nests, with some more steps to take the
finished callers away. `step_follows` is the correspondence of one step, `steps_follow` that of
whole runs.
-/

namespace Danmaku

/-- The frame in which no command makes room for an action. -/
def Cursor.nested (c : Cursor) : Frame := ⟨c.parameters, c.depth, false⟩

/-- Past its commands, with nothing to wait for. -/
def Cursor.exhausted (c : Cursor) : Bool :=
  decide (c.action.children.length ≤ c.next) && c.wait == 0

/-- An event that reaches the host: a bullet or a fault. -/
def Event.handed : Event → Bool
  | .fired _ => true
  | .fault _ => true
  | _ => false

/-- No action was too deep. -/
def Shallow (events : List Event) : Prop :=
  ∀ label depth, Event.fault (.tooDeep label depth) ∉ events

theorem shallow_append {before after : List Event} :
    Shallow (before ++ after) ↔ Shallow before ∧ Shallow after := by
  simp only [Shallow, List.mem_append, not_or]
  exact ⟨fun h => ⟨fun l d => (h l d).1, fun l d => (h l d).2⟩, fun h l d => ⟨h.1 l d, h.2 l d⟩⟩

/-- The same cursor, perhaps deeper. -/
def Cursor.Alike (c c' : Cursor) : Prop := ∃ depth, c.depth ≤ depth ∧ c' = { c with depth }

theorem Cursor.Alike.refl (c : Cursor) : c.Alike c := ⟨c.depth, Nat.le_refl _, rfl⟩

/-- The same effect, except that an action may be put on top instead of taking the place. -/
inductive Effect.Alike (last : Bool) : Effect → Effect → Prop
  | same (effect : Effect) : Effect.Alike last effect effect
  | enter (count : Nat) {c c' : Cursor} (alike : c.Alike c') :
      Effect.Alike last (.enter count c) (.enter count c')
  | replace {c c' : Cursor} (h : last = true) (alike : c.Alike c') :
      Effect.Alike last (.replace c) (.enter 1 c')

/-- A stack and one that has finished callers in it besides. -/
inductive Padded : List Cursor → List Cursor → Prop
  | nil : Padded [] []
  | cons {c c' : Cursor} {stack padded : List Cursor} (alike : c.Alike c')
      (h : Padded stack padded) : Padded (c :: stack) (c' :: padded)
  | done {c : Cursor} {stack padded : List Cursor} (done : c.exhausted = true)
      (h : Padded stack padded) : Padded stack (c :: padded)

namespace Padded

theorem refl (stack : List Cursor) : Padded stack stack := by
  induction stack with
  | nil => exact .nil
  | cons c rest ih => exact .cons (.refl c) ih

theorem replicate_append {c c' : Cursor} {stack padded : List Cursor} (alike : c.Alike c')
    (h : Padded stack padded) (count : Nat) :
    Padded (List.replicate count c ++ stack) (List.replicate count c' ++ padded) := by
  induction count with
  | zero => exact h
  | succ count ih => exact .cons alike ih

theorem length_le {stack padded : List Cursor} (h : Padded stack padded) :
    stack.length ≤ padded.length := by
  induction h with
  | nil => exact Nat.le_refl _
  | cons _ _ ih => exact Nat.succ_le_succ ih
  | done _ _ ih => exact Nat.le_succ_of_le ih

end Padded

namespace Exec

variable {α β γ δ : Type} {s : Setup}

/-- Unless `y` finds an action too deep, `x` does with the memory what `y` does, leaves the same
events behind and has a related value. -/
def Mirrors (s : Setup) (R : α → β → Prop) (x : Exec α) (y : Exec β) : Prop :=
  ∀ m, Shallow (y s m).events →
    R (x s m).value (y s m).value ∧ (x s m).memory = (y s m).memory ∧
      (x s m).events = (y s m).events

namespace Mirrors

theorem refl {R : α → α → Prop} (h : ∀ a, R a a) (x : Exec α) : Mirrors s R x x :=
  fun _ _ => ⟨h _, rfl, rfl⟩

theorem bind {R : α → β → Prop} {S : γ → δ → Prop} {x : Exec α} {y : Exec β} {f : α → Exec γ}
    {g : β → Exec δ} (h : Mirrors s R x y) (hf : ∀ a b, R a b → Mirrors s S (f a) (g b)) :
    Mirrors s S (x >>= f) (y >>= g) := by
  intro m shallow
  rw [bind_run] at shallow
  obtain ⟨shallow, shallow'⟩ := shallow_append.1 shallow
  obtain ⟨value, memory, events⟩ := h m shallow
  obtain ⟨value', memory', events'⟩ := hf _ _ value _ shallow'
  simp only [bind_run, memory, events]
  exact ⟨value', memory', by rw [events']⟩

/-- After the same beginning. -/
theorem bind_same {S : γ → δ → Prop} (x : Exec α) {f : α → Exec γ} {g : α → Exec δ}
    (h : ∀ a, Mirrors s S (f a) (g a)) : Mirrors s S (x >>= f) (x >>= g) :=
  (refl (fun _ => rfl) x).bind fun a _ eq => eq ▸ h a

theorem pure {R : α → β → Prop} {a : α} {b : β} (h : R a b) :
    Mirrors s R (Pure.pure a) (Pure.pure b) :=
  fun _ _ => ⟨h, rfl, rfl⟩

end Mirrors

theorem entered_run (action : Element) (p : Parameters) (depth : Nat) (s : Setup) (m : Memory) :
    entered action p depth s m =
      if s.settings.maxDepth < depth then
        ⟨none, m, [.fault (.tooDeep (action.label?.getD "") depth)]⟩
      else ⟨some (.enter action p depth), m, []⟩ := by
  by_cases deep : s.settings.maxDepth < depth
  · simp only [entered, bind_run, setup, deep, ↓reduceIte]
    rfl
  · simp only [entered, bind_run, setup, deep, ↓reduceIte]
    rfl

/-- What is entered at a depth is entered at a smaller one too. -/
theorem entered_mirrors (action : Element) (p : Parameters) {depth depth' : Nat}
    (h : depth ≤ depth') :
    Mirrors s (Option.Rel Cursor.Alike) (entered action p depth) (entered action p depth') := by
  intro m shallow
  rw [entered_run] at shallow
  split at shallow
  · exact absurd (List.mem_singleton.2 rfl) (shallow _ _)
  · rename_i inside
    rw [entered_run, entered_run, if_neg (by omega), if_neg inside]
    exact ⟨.some ⟨depth', h, rfl⟩, rfl, rfl⟩

theorem cursorOf_mirrors (e : Element) (p : Parameters) {depth depth' : Nat}
    (h : depth ≤ depth') :
    Mirrors s (Option.Rel Cursor.Alike) (cursorOf e p depth) (cursorOf e p depth') := by
  refine .bind_same _ fun called => ?_
  cases called with
  | some called => exact entered_mirrors called.1 called.2 h
  | none => exact .pure .none

theorem action_mirrors (e : Element) (p : Parameters) {depth depth' : Nat} (h : depth ≤ depth')
    (last : Bool) :
    Mirrors s (Effect.Alike last) (action e ⟨p, depth, last⟩) (action e ⟨p, depth', false⟩) := by
  have deeper : (if last then depth else depth + 1) ≤ depth' + 1 := by split <;> omega
  refine (cursorOf_mirrors e p deeper).bind fun c? c'? alike => ?_
  cases alike with
  | none => exact .pure (.same .nothing)
  | some alike =>
    cases last with
    | true => exact .pure (.replace rfl alike)
    | false => exact .pure (.enter 1 alike)

theorem repetition_mirrors (e : Element) (p : Parameters) {depth depth' : Nat}
    (h : depth ≤ depth') (last : Bool) :
    Mirrors s (Effect.Alike last) (repetition e ⟨p, depth, last⟩)
      (repetition e ⟨p, depth', false⟩) := by
  unfold repetition
  split
  · exact .refl .same _
  · refine .bind_same _ fun times => ?_
    dsimp only
    split
    · exact .pure (.same .finish)
    · refine .bind_same _ fun count => ?_
      split
      · exact .refl .same _
      · rename_i body _
        refine (cursorOf_mirrors body p (Nat.succ_le_succ h)).bind fun c? c'? alike => ?_
        cases alike with
        | none => exact .pure (.same .nothing)
        | some alike => exact .bind_same _ fun _ => .pure (.enter count alike)

/-- Only what enters an action looks at more of its frame than the parameters. -/
theorem command_mirrors (e : Element) (b : Bullet) (p : Parameters) {depth depth' : Nat}
    (h : depth ≤ depth') (last : Bool) :
    Mirrors s (Effect.Alike last) (command e b ⟨p, depth, last⟩)
      (command e b ⟨p, depth', false⟩) := by
  unfold command
  cases e.kind with
  | repetition => exact repetition_mirrors e p h last
  | action => exact action_mirrors e p h last
  | actionRef => exact action_mirrors e p h last
  | _ => exact .refl .same _

/-- No command looks at the stack. -/
theorem command_restack (e : Element) (b : Bullet) (stack : List Cursor) (f : Frame) :
    command e { b with stack } f = command e b f := rfl

/-! ## Steps -/

theorem step_exhausted {b : Bullet} {c : Cursor} {rest : List Cursor} (h : b.stack = c :: rest)
    (done : c.exhausted = true) (frame : Cursor → Frame) :
    step frame b = pure ({ b with stack := rest }, !rest.isEmpty) := by
  simp only [Cursor.exhausted, Bool.and_eq_true, decide_eq_true_eq, beq_iff_eq] at done
  have none : c.command? = none := by
    unfold Cursor.command?
    split
    · rfl
    · exact List.getElem?_eq_none done.1
  simp only [step, h, done.2, none, Nat.lt_irrefl, ↓reduceIte]

/-- The finished callers above a cursor are taken away one by one. -/
theorem steps_drain {top : Cursor} {rest padded : List Cursor} (h : Padded (top :: rest) padded) :
    ∃ k top' rest', padded.length = k + 1 + rest'.length ∧ top.Alike top' ∧ Padded rest rest' ∧
      ∀ b : Bullet, steps Cursor.nested k { b with stack := padded } =
        pure { b with stack := top' :: rest' } := by
  generalize hs : top :: rest = stack at h
  induction h with
  | nil => cases hs
  | @cons c c' stack padded alike h =>
    obtain ⟨rfl, rfl⟩ := List.cons.inj hs
    exact ⟨0, c', padded, by simp; omega, alike, h, fun b => rfl⟩
  | @done c stack padded done h ih =>
    obtain ⟨k, top', rest', length, alike, h', drained⟩ := ih hs
    refine ⟨k + 1, top', rest', by simp; omega, alike, h', fun b => ?_⟩
    have pop := step_exhausted (b := { b with stack := c :: padded }) rfl done Cursor.nested
    rw [steps, pop, pure_bind]
    exact drained b

end Exec

/-- `b'` is `b` with finished callers in its stack besides. -/
def Bullet.Pads (b b' : Bullet) : Prop := ∃ stack, Padded b.stack stack ∧ b' = { b with stack }

theorem Effect.Alike.apply {effect effect' : Effect} {top top' : Cursor} {rest rest' : List Cursor}
    (h : Effect.Alike top.atLast effect effect') (idle : top.wait = 0) (alike : top.Alike top')
    (padded : Padded rest rest') (b : Bullet) :
    let after := (effect.apply b top rest).1
    let after' := (effect'.apply { b with stack := top' :: rest' } top' rest').1
    after.Pads after' ∧
      after'.stack.length + rest.length ≤ after.stack.length + rest'.length + 1 := by
  have advanced : Padded (top.advance :: rest) (top'.advance :: rest') := by
    obtain ⟨depth, le, rfl⟩ := alike
    exact .cons ⟨depth, le, rfl⟩ padded
  have shorter := padded.length_le
  cases h with
  | same effect =>
    cases effect with
    | wait frames =>
      have waiting : Padded ({ top.advance with wait := frames } :: rest)
          ({ top'.advance with wait := frames } :: rest') := by
        obtain ⟨depth, le, rfl⟩ := alike
        exact .cons ⟨depth, le, rfl⟩ padded
      exact ⟨⟨_, waiting, rfl⟩, by simp [Effect.apply]; omega⟩
    | finish => exact ⟨⟨_, padded, rfl⟩, by simp [Effect.apply]; omega⟩
    | vanish => exact ⟨⟨_, .nil, rfl⟩, by simp [Effect.apply, Bullet.vanish]; omega⟩
    | enter count c =>
      exact ⟨⟨_, .replicate_append (.refl c) advanced count, rfl⟩, by simp [Effect.apply]; omega⟩
    | replace c => exact ⟨⟨_, .cons (.refl c) padded, rfl⟩, by simp [Effect.apply]; omega⟩
    | _ => exact ⟨⟨_, advanced, rfl⟩, by simp [Effect.apply]; omega⟩
  | enter count alike =>
    exact ⟨⟨_, .replicate_append alike advanced count, rfl⟩, by simp [Effect.apply]; omega⟩
  | replace last alike' =>
    -- The caller that nests stays below, with nothing left to do.
    have done : top'.advance.exhausted = true := by
      obtain ⟨depth, -, rfl⟩ := alike
      simpa [Cursor.exhausted, Cursor.advance, Cursor.atLast, idle] using last
    exact ⟨⟨_, .cons alike' (.done done padded), rfl⟩, by simp [Effect.apply]; omega⟩

theorem Effect.event?_handed (effect : Effect) :
    effect.event?.toList.filter Event.handed = [] := by
  cases effect <;> rfl

/-- The run that nests has come to the same: the same memory, the same events for the host, and a
bullet with finished callers in its stack besides. -/
structure Follows (o o' : Outcome Bullet) : Prop where
  bullet : o.value.Pads o'.value
  memory : o.memory = o'.memory
  handed : o.events.filter Event.handed = o'.events.filter Event.handed

namespace Exec

variable {s : Setup}

/-- One step of cursors that are alike. -/
theorem step_follows {b : Bullet} {top top' : Cursor} {rest rest' : List Cursor}
    (hs : b.stack = top :: rest) (alike : top.Alike top') (padded : Padded rest rest')
    (m : Memory) (shallow : Shallow
      (steps Cursor.nested 1 { b with stack := top' :: rest' } s m).events) :
    let o := steps Cursor.frame 1 b s m
    let o' := steps Cursor.nested 1 { b with stack := top' :: rest' } s m
    Follows o o' ∧
      o'.value.stack.length + rest.length ≤ o.value.stack.length + rest'.length + 1 := by
  have shorter := padded.length_le
  simp only [steps_one_run] at shallow ⊢
  by_cases waiting : 0 < top.wait
  · obtain ⟨depth, le, rfl⟩ := alike
    simp only [step, hs, waiting, ↓reduceIte, pure_run]
    exact ⟨⟨⟨_, .cons ⟨depth, le, rfl⟩ padded, rfl⟩, rfl, rfl⟩, by simp; omega⟩
  have idle : top.wait = 0 := by omega
  have idle' : top'.wait = 0 := by
    obtain ⟨depth, -, rfl⟩ := alike
    exact idle
  have command' : top'.command? = top.command? := by
    obtain ⟨depth, -, rfl⟩ := alike
    rfl
  cases at_ : top.command? with
  | none =>
    simp only [step, hs, idle, idle', command', at_, Nat.lt_irrefl, ↓reduceIte, pure_run]
    exact ⟨⟨⟨_, padded, rfl⟩, rfl, rfl⟩, by omega⟩
  | some e =>
    have frame' : ∃ depth, top.depth ≤ depth ∧ top'.nested = ⟨top.parameters, depth, false⟩ := by
      obtain ⟨depth, le, rfl⟩ := alike
      exact ⟨depth, le, rfl⟩
    obtain ⟨depth, le, frame'⟩ := frame'
    rw [step_perform (b := { b with stack := top' :: rest' }) rfl idle' (command'.trans at_),
      perform_run, frame', command_restack] at shallow ⊢
    rw [step_perform hs idle at_, perform_run]
    obtain ⟨effects, memory, events⟩ :=
      command_mirrors e b top.parameters le top.atLast m (shallow_append.1 shallow).1
    obtain ⟨pads, length⟩ := effects.apply idle alike padded b
    refine ⟨⟨pads, memory, ?_⟩, length⟩
    simp only [List.filter_append, Effect.event?_handed]
    exact congrArg (List.filter Event.handed · ++ []) events

theorem shallow_of_le {frame : Cursor → Frame} {n k : Nat} (h : n ≤ k) {b : Bullet} {m : Memory}
    (shallow : Shallow (steps frame k b s m).events) :
    Shallow (steps frame n b s m).events := by
  obtain ⟨more, rfl⟩ := Nat.exists_eq_add_of_le h
  rw [steps_add, bind_run] at shallow
  exact (shallow_append.1 shallow).1

/-- Steps that make room are matched by steps that nest: by two for each, and by one for each
finished caller that is in the stack already. -/
theorem steps_follow (n : Nat) : ∀ {b b' : Bullet} (m : Memory), b.Pads b' →
    Shallow (steps Cursor.nested (2 * n + (b'.stack.length - b.stack.length)) b' s m).events →
    ∃ k, k ≤ 2 * n + (b'.stack.length - b.stack.length) ∧
      Follows (steps Cursor.frame n b s m) (steps Cursor.nested k b' s m) := by
  induction n with
  | zero => exact fun m pads _ => ⟨0, Nat.zero_le _, ⟨pads, rfl, rfl⟩⟩
  | succ n ih =>
    rintro b _ m ⟨padded, h, rfl⟩ shallow
    cases hs : b.stack with
    | nil =>
      rw [steps_nil hs]
      exact ⟨0, Nat.zero_le _, ⟨⟨padded, h, rfl⟩, rfl, rfl⟩⟩
    | cons top rest =>
      rw [hs] at h shallow
      obtain ⟨k, top', rest', length, alike, h', drained⟩ := steps_drain h
      have shorter := h'.length_le
      have after_drain (j : Nat) : steps Cursor.nested (k + j) { b with stack := padded } =
          steps Cursor.nested j { b with stack := top' :: rest' } := by
        rw [steps_add, drained b, pure_bind]
      have budget : 2 * (n + 1) + (padded.length - (top :: rest).length) =
          k + (1 + (2 * n + 1 + (rest'.length - rest.length))) := by
        simp only [List.length_cons]
        omega
      simp only [budget, after_drain, steps_add Cursor.nested 1] at shallow
      rw [bind_run] at shallow
      obtain ⟨shallow_one, shallow_rest⟩ := shallow_append.1 shallow
      obtain ⟨one, grown⟩ := step_follows hs alike h' m shallow_one
      rw [← one.memory] at shallow_rest
      obtain ⟨k', le, rest_follows⟩ :=
        ih _ one.bullet (shallow_of_le (by omega) shallow_rest)
      refine ⟨k + (1 + k'), by simp only [List.length_cons]; omega, ?_⟩
      rw [Nat.add_comm n 1, steps_add, after_drain, steps_add, bind_run, bind_run, ← one.memory]
      refine ⟨rest_follows.bullet, rest_follows.memory, ?_⟩
      simp only [List.filter_append, one.handed, rest_follows.handed]

end Exec

/-! ## Runs -/

/-- All of a bullet but its stack. -/
def Bullet.unstacked (b : Bullet) : Bullet := { b with stack := [] }

/-- The cursors of a stack that are not finished, whatever their depths. -/
def Bullet.pending (b : Bullet) : List Cursor :=
  (b.stack.filter fun c => !c.exhausted).map fun c => { c with depth := 0 }

theorem Padded.pending {stack padded : List Cursor} (h : Padded stack padded) :
    (stack.filter fun c => !c.exhausted).map (fun c => ({ c with depth := 0 } : Cursor)) =
      (padded.filter fun c => !c.exhausted).map fun c => { c with depth := 0 } := by
  induction h with
  | nil => rfl
  | @cons c c' stack padded alike h ih =>
    obtain ⟨depth, -, rfl⟩ := alike
    have same : ({ c with depth } : Cursor).exhausted = c.exhausted := rfl
    cases done : c.exhausted <;> simp [same, done, ih]
  | done done h ih => simp [done, ih]

/-- Two runs have come to the same: the engine, the bullets and faults handed over in their order,
all of the bullet but its stack, and what is pending in its stack. -/
structure Corresponds (r r' : Engine × Bullet × List Event) : Prop where
  engine : r.1 = r'.1
  handed : r.2.2.filter Event.handed = r'.2.2.filter Event.handed
  unstacked : r.2.1.unstacked = r'.2.1.unstacked
  pending : r.2.1.pending = r'.2.1.pending

/-- No action is too deep when the limit leaves room for one level a step. -/
theorem steps_shallow {frame : Cursor → Frame} (keeps : ∀ c, (frame c).depth = c.depth) (n : Nat) :
    ∀ {b : Bullet} {s : Setup} (m : Memory),
      (∀ c ∈ b.stack, c.depth + n ≤ s.settings.maxDepth) →
      Shallow (Exec.steps frame n b s m).events := by
  induction n with
  | zero => exact fun m _ label depth mem => absurd mem List.not_mem_nil
  | succ n ih =>
    intro b s m room
    rw [Exec.steps, Exec.bind_run, shallow_append]
    refine ⟨fun label depth mem => ?_, ih _ fun c mem => ?_⟩
    · obtain ⟨top, rest, e, hs, -, -, of⟩ := Exec.step_events mem
      have top_room := room top (hs ▸ List.mem_cons_self)
      cases of with
      | aside aside => exact aside
      | tooDeep _ deep =>
        have target : (frame top).target e ≤ top.depth + 1 := by
          rw [← keeps top, Frame.target]
          split <;> omega
        omega
    · cases hs : b.stack with
      | nil => simp [Exec.step_nil hs, Exec.pure_run, hs] at mem
      | cons top rest =>
        have top_room := room top (hs ▸ List.mem_cons_self)
        have rest_room := fun c (h : c ∈ rest) => room c (hs ▸ List.mem_cons_of_mem _ h)
        rcases (Exec.step_move hs frame s m).depth_le (keeps top) c mem with h | h
        · have := rest_room c h
          omega
        · omega

/-- **Making room comes to the same as nesting.** As long as the run that nests finds no action too
deep, whatever `n` steps do is what some number of steps does that put every action on top of its
caller; and no action is too deep in the first run either. -/
theorem trailing_nests (e : Engine) (b : Bullet) (n : Nat)
    (shallow : Shallow (e.run (Exec.steps Cursor.nested (2 * n) b)).2.2) :
    Shallow (e.run (Exec.steps Cursor.frame n b)).2.2 ∧ ∃ k, k ≤ 2 * n ∧
      Corresponds (e.run (Exec.steps Cursor.frame n b)) (e.run (Exec.steps Cursor.nested k b)) := by
  simp only [Engine.run] at shallow ⊢
  have start : b.Pads b := ⟨b.stack, .refl _, rfl⟩
  obtain ⟨k, le, follows⟩ := Exec.steps_follow n e.memory start
    (by simpa only [Nat.sub_self, Nat.add_zero] using shallow)
  rw [Nat.sub_self, Nat.add_zero] at le
  refine ⟨fun label depth mem => ?_, k, le, ?_⟩
  · have handed : Event.fault (.tooDeep label depth) ∈
        (Exec.steps Cursor.frame n b e.setup e.memory).events.filter Event.handed :=
      List.mem_filter.2 ⟨mem, rfl⟩
    rw [follows.handed] at handed
    exact Exec.shallow_of_le le shallow label depth (List.mem_filter.1 handed).1
  · obtain ⟨padded, h, eq⟩ := follows.bullet
    have pending := h.pending
    refine ⟨?_, follows.handed, ?_, ?_⟩
    · simp only [follows.memory]
    · simp only [eq]
      rfl
    · simp only [eq]
      exact pending

/-- A pattern that fires and starts again. -/
def looping : Document :=
  .ofRoot (.make .bulletml [] none
    [.make .action [("label", "top")] none
      [.make .fire [] none [.make .bullet [] none []],
        .make .actionRef [("label", "top")] none []]]) []

/-- The shooter of the pattern that starts again, and the engine that plays it. -/
def loopingShooter : Bullet :=
  (Engine.make looping {}).shooter ((looping.top?.map (·.element)).getD default) .zero

theorem looping_nests :
    Shallow ((Engine.make looping {}).run (Exec.steps Cursor.nested (2 * 20) loopingShooter)).2.2 ∧
      ∃ k, k ≤ 2 * 20 ∧
        Corresponds ((Engine.make looping {}).run (Exec.steps Cursor.frame 20 loopingShooter))
          ((Engine.make looping {}).run (Exec.steps Cursor.nested k loopingShooter)) := by
  have shallow : Shallow
      ((Engine.make looping {}).run (Exec.steps Cursor.nested (2 * 20) loopingShooter)).2.2 := by
    refine steps_shallow (fun _ => rfl) _ _ fun c mem => ?_
    rw [List.mem_singleton.1 mem]
    decide
  exact ⟨shallow, (trailing_nests _ _ 20 shallow).2⟩

end Danmaku
