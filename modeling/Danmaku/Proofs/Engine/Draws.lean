import Mathlib.Algebra.Ring.Nat
import Mathlib.Logic.Function.Iterate
import Danmaku.Proofs.Engine.Ceiling
import Danmaku.Proofs.Engine.Changes
import Danmaku.Proofs.Engine.Session

/-!
# Random numbers

A number is drawn for every text that is evaluated, whatever the text is and whether it has a value
or not. So how many numbers a command draws can be told from the document (`Document.draws`); of all
values only one matters, the sign of the times of a repetition. The generator after a step, and
after any number of steps, is the one before after so many draws (`Engine.step_draws`).
-/

namespace Danmaku

/-- The generator after one draw. -/
def Random.draw (r : Random) : Random := r.nextUnit.2

/-- One if the element has a child of a kind. -/
def Element.gives (e : Element) (kind : Kind) : Nat := if (e.child? kind).isSome then 1 else 0

namespace Document

variable (d : Document)

/-- The number of parameters that a reference passes on, if it names a definition. -/
def passes (reference : Element) : Nat :=
  if (d.resolve? reference).isSome then (reference.childrenOf .param).length else 0

/-- What a fire makes its bullet from. -/
def template? (fire : Element) : Option Element :=
  match fire.child? .bullet with
  | some bullet => some bullet
  | none => (fire.child? .bulletRef).bind fun reference => (d.resolve? reference).map (·.element)

def templateDraws (template : Element) : Nat :=
  ((template.children.filter (·.kind.isAction)).map d.passes).sum +
    (template.gives .direction + template.gives .speed)

def fireDraws (fire : Element) : Nat :=
  fire.gives .direction + fire.gives .speed +
    ((if (fire.child? .bullet).isSome then 0 else (fire.child? .bulletRef).elim 0 d.passes) +
      (d.template? fire).elim 0 d.templateDraws)

/-- The random numbers that a command draws; `again` tells that a repetition is to repeat something
a positive number of times. -/
def draws (again : Bool) (command : Element) : Nat :=
  match command.kind with
  | .wait => 1
  | .changeDirection =>
    if (command.child? .direction).isSome && (command.child? .term).isSome then 2 else 0
  | .changeSpeed =>
    if (command.child? .speed).isSome && (command.child? .term).isSome then 2 else 0
  | .accel =>
    if (command.child? .term).isSome then command.gives .horizontal + command.gives .vertical + 1
    else 0
  | .actionRef => d.passes command
  | .repetition =>
    if (command.child? .times).isSome then
      1 + if again then (command.children.find? (·.kind.isAction)).elim 0 d.passes else 0
    else 0
  | .fire => d.fireDraws command
  | .fireRef => (d.resolve? command).elim 0 fun fire => d.passes command + d.fireDraws fire.element
  | _ => 0

/-- The definitions that references name are a matter of the labels. -/
theorem resolve?_labels {d d' : Document} (same : d'.labels = d.labels) :
    d'.resolve? = d.resolve? := by
  funext reference
  simp only [resolve?, bullet?, action?, fire?, same]

/-- What is drawn is a matter of the labels. -/
theorem draws_labels {d d' : Document} (same : d'.labels = d.labels) : d'.draws = d.draws := by
  have resolve := resolve?_labels same
  have passes : d'.passes = d.passes := by
    funext reference
    simp only [Document.passes, resolve]
  have template : d'.templateDraws = d.templateDraws := by
    funext template
    simp only [templateDraws, passes]
  have fire : d'.fireDraws = d.fireDraws := by
    funext fire
    simp only [fireDraws, template?, resolve, passes, template]
  funext again command
  simp only [draws, passes, fire, resolve]

theorem passes_own {e : Element} (kind : e.kind ≠ .actionRef) (isAction : e.kind.isAction = true) :
    d.passes e = 0 := by
  have none : d.resolve? e = none := by
    unfold resolve?
    cases h : e.kind <;> simp_all [Kind.isAction]
  rw [passes, none]
  rfl

end Document

/-! ## Executions -/

namespace Exec

variable {α β : Type} {s : Setup} {m : Memory}

/-- From this memory the execution draws so many random numbers. -/
def Draws (s : Setup) (m : Memory) (n : Nat) (x : Exec α) : Prop :=
  (x s m).memory.random = Random.draw^[n] m.random

namespace Draws

theorem none {x : Exec α} (h : (x s m).memory = m) : Draws s m 0 x := congrArg Memory.random h

theorem pure (a : α) : Draws s m 0 (Pure.pure a : Exec α) := .none rfl

theorem setup : Draws s m 0 setup := .none rfl

theorem emit (event : Event) (a : α) : Draws s m 0 (emit event >>= fun _ => Pure.pure a) :=
  .none rfl

theorem report (cause : Fault) (a : α) : Draws s m 0 (report cause >>= fun _ => Pure.pure a) :=
  .emit _ _

/-- The sequences have nothing to do with it. -/
theorem sequenced {n : Nat} {x : Exec α} {a : α} {after : Memory} {last : Sequences}
    {events : List Event} (run : x s m = ⟨a, after.withSequences last, events⟩)
    (drawn : after.random = Random.draw^[n] m.random) : Draws s m n x := by
  rw [Draws, run]
  exact drawn

theorem bind {n k : Nat} {x : Exec α} {f : α → Exec β} (hx : Draws s m n x)
    (hf : Draws s (x s m).memory k (f (x s m).value)) : Draws s m (n + k) (x >>= f) := by
  unfold Draws at hx hf ⊢
  rw [bind_run, hf, hx, ← Function.iterate_add_apply, Nat.add_comm]

/-- What follows draws nothing. -/
theorem ending {n : Nat} {x : Exec α} {f : α → Exec β} (hx : Draws s m n x)
    (rest : Draws s (x s m).memory 0 (f (x s m).value)) : Draws s m n (x >>= f) := hx.bind rest

/-- What comes first draws nothing. -/
theorem after {n : Nat} {x : Exec α} {f : α → Exec β} (first : Draws s m 0 x)
    (hf : Draws s (x s m).memory n (f (x s m).value)) : Draws s m n (x >>= f) := by
  have both := first.bind hf
  rwa [Nat.zero_add] at both

end Draws

theorem evaluate_draws (text : String) (p : Parameters) : Draws s m 1 (evaluate text p) :=
  (evaluate_drawn text p).random

/-- Every text draws one number. -/
theorem value_draws (e : Element) (p : Parameters) : Draws s m 1 (value e p) := by
  apply (evaluate_draws e.body p).ending
  split
  · split
    · exact .pure _
    · exact .report _ _
  · exact .report _ _

theorem frames_draws (e : Element) (p : Parameters) : Draws s m 1 (frames e p) :=
  (value_draws e p).ending (.pure _)

theorem values_draws (p : Parameters) (es : List Element) : Draws s m es.length (values p es) := by
  induction es generalizing m with
  | nil => exact .pure _
  | cons e rest ih =>
    rw [List.length_cons, Nat.add_comm]
    exact (value_draws e p).bind (ih.ending (.pure _))

theorem resolve_draws (reference : Element) : Draws s m 0 (resolve reference) := by
  unfold resolve
  apply Draws.setup.after
  split
  · exact .pure _
  · exact .report _ _

theorem arguments_draws (reference : Element) (p : Parameters) :
    Draws s m (reference.childrenOf .param).length (arguments reference p) :=
  (values_draws p _).ending (.pure _)

/-- A reference that names a definition passes its parameters on. -/
theorem passing_draws {reference : Element} {f : Element → Parameters → α} {other : α}
    (p : Parameters) :
    Draws s m (s.document.passes reference) (do
      match ← resolve reference with
      | some d => return f d (← arguments reference p)
      | none => return other) := by
  apply (resolve_draws reference).after
  rw [resolve_value, Document.passes]
  cases s.document.resolve? reference with
  | none => exact .pure _
  | some d => exact (arguments_draws reference p).ending (.pure _)

theorem actionOf_draws {e : Element} (isAction : e.kind.isAction = true) (p : Parameters) :
    Draws s m (s.document.passes e) (actionOf e p) := by
  unfold actionOf
  split
  · exact passing_draws (f := fun action q => some (action, q)) p
  · rename_i own
    rw [s.document.passes_own own isAction]
    exact .pure _

theorem cursorOf_draws {e : Element} (isAction : e.kind.isAction = true) (p : Parameters)
    (depth : Nat) : Draws s m (s.document.passes e) (cursorOf e p depth) := by
  unfold cursorOf
  apply (actionOf_draws isAction p).ending
  split
  · apply Draws.none
    rw [entered_run]
    split
    · rfl
    · rfl
  · exact .pure _

theorem change_draws {command : Element} {kind : Kind} {p : Parameters}
    {read : Element → Exec Binary32} {effect : Binary32 → Nat → Effect}
    (each : ∀ child, Draws s m 1 (read child)) :
    Draws s m (if (command.child? kind).isSome && (command.child? .term).isSome then 2 else 0)
      (do
        match ← withTerm command kind with
        | none => return .nothing
        | some (e, term) =>
          let target ← read e
          let duration ← frames term p
          return effect target duration : Exec Effect) := by
  unfold withTerm
  cases command.child? kind with
  | none => exact .report _ _
  | some e =>
    cases command.child? .term with
    | none => exact .report _ _
    | some term =>
      simp only [pure_bind, Option.isSome_some, Bool.and_self, ↓reduceIte]
      exact (each e).bind (k := 1) ((frames_draws term p).ending (.pure _))

theorem direction_draws (e : Element) (source : Bullet) (p : Parameters) :
    Draws s m 1 (direction e source p) :=
  .sequenced (direction_run e source p m) (value_draws e p)

theorem changedSpeed_draws (e : Element) (source : Bullet) (p : Parameters) :
    Draws s m 1 (changedSpeed e source p) :=
  .sequenced (changedSpeed_run e source p m) (value_draws e p)

theorem giving_draws (e : Element) (kind : Kind) (p : Parameters) :
    Draws s m (e.gives kind) (giving e kind p) := by
  unfold giving Element.gives
  cases e.child? kind with
  | none => exact .pure _
  | some child => exact (value_draws child p).ending (.pure _)

theorem component_draws (axis : Axis) (command : Element) (current : Binary32) (p : Parameters) :
    Draws s m (command.gives axis.child) (component axis command current p) :=
  .sequenced (component_run axis command current p m) (giving_draws command _ p)

theorem accel_draws (command : Element) (b : Bullet) (p : Parameters) :
    Draws s m (if (command.child? .term).isSome then
      command.gives .horizontal + command.gives .vertical + 1 else 0) (accel command b p) := by
  unfold accel
  cases command.child? .term with
  | none => exact .report _ _
  | some term =>
    rw [if_pos (Option.isSome_some), Nat.add_assoc]
    apply (component_draws .horizontal command _ p).bind
    apply (component_draws .vertical command _ p).bind
    exact (frames_draws term p).ending (.pure _)

theorem given_draws (e : Element) (p : Parameters) :
    Draws s m (e.gives .direction + e.gives .speed) (given e p) :=
  (giving_draws e _ p).bind ((giving_draws e _ p).ending (.pure _))

theorem template_value (fire : Element) (p : Parameters) (m : Memory) :
    (template fire p s m).value.map Prod.fst = s.document.template? fire := by
  unfold template Document.template?
  cases fire.child? .bullet with
  | some bullet => rfl
  | none =>
    cases fire.child? .bulletRef with
    | none => rfl
    | some reference =>
      simp only [bind_run, resolve_value, Option.bind_some]
      cases s.document.resolve? reference with
      | none => rfl
      | some d => rfl

theorem template_draws (fire : Element) (p : Parameters) :
    Draws s m (if (fire.child? .bullet).isSome then 0
      else (fire.child? .bulletRef).elim 0 s.document.passes) (template fire p) := by
  unfold template
  cases fire.child? .bullet with
  | some bullet => exact .pure _
  | none =>
    cases fire.child? .bulletRef with
    | none => exact .report _ _
    | some reference => exact passing_draws (f := fun bullet q => some (bullet, q)) p

theorem templateCursors_draws (p : Parameters) (es : List Element) :
    Draws s m ((es.filter (·.kind.isAction)).map s.document.passes).sum (templateCursors p es) := by
  induction es generalizing m with
  | nil => exact .pure _
  | cons e rest ih =>
    unfold templateCursors
    by_cases isAction : e.kind.isAction = true
    · rw [List.filter_cons, if_pos isAction, if_pos isAction, List.map_cons, List.sum_cons]
      apply (actionOf_draws isAction p).bind
      split
      · exact ih.ending (.pure _)
      · exact ih
    · rw [List.filter_cons, if_neg isAction, if_neg isAction]
      exact ih

theorem charge_draws (fire : Element) (p : Parameters) :
    Draws s m (s.document.fireDraws fire) (charge fire p) := by
  unfold charge
  apply (given_draws fire p).bind
  apply (template_draws fire p).bind
  rw [← template_value fire p]
  split
  · rename_i template found
    rw [found]
    exact (templateCursors_draws _ _).bind ((given_draws _ _).ending (.pure _))
  · rename_i none
    rw [none]
    exact .pure _

theorem fire_draws (fire : Element) (source : Bullet) (p : Parameters) :
    Draws s m (s.document.fireDraws fire) (Exec.fire fire source p) :=
  .sequenced (fire_run fire source p m) (charge_draws fire p)

/-! ## Commands -/

/-- What a value is rounded to is positive, or else it is zero or below. -/
theorem value_sign (e : Element) (p : Parameters) (s : Setup) (m : Memory) :
    (value e p s m).value.round.le 0 = !(0 : Binary32).lt (value e p s m).value.round := by
  obtain ⟨z, whole⟩ := Binary32.whole_round (value_gives (s := s) e p m).1
  exact whole.le_eq_not_lt Binary32.whole_zero

/-- A repetition evaluates its times, and if they are positive the parameters for its body. -/
theorem repetition_draws {e times : Element} {f : Frame} {more : Bool}
    (given : e.child? .times = some times)
    (sign : (value times f.parameters s m).value.round.le 0 = !more) :
    Draws s m (1 + if more then (e.children.find? (·.kind.isAction)).elim 0 s.document.passes else 0)
      (repetition e f) := by
  unfold repetition
  rw [given]
  apply (value_draws times f.parameters).bind
  cases more with
  | false =>
    simp only [sign, Bool.not_false, ↓reduceIte]
    exact .pure _
  | true =>
    simp only [sign, Bool.not_true, Bool.false_eq_true, ↓reduceIte]
    apply Draws.after (.none (repetitions_quiet _ s _).1)
    cases first : e.children.find? (·.kind.isAction) with
    | none => exact .report _ _
    | some body =>
      have isAction : body.kind.isAction = true :=
        List.find?_some (p := fun child : Element => child.kind.isAction) first
      apply (cursorOf_draws isAction _ _).ending
      split
      · exact .emit _ _
      · exact .pure _

theorem action_draws {e : Element} (isAction : e.kind.isAction = true) (f : Frame) :
    Draws s m (s.document.passes e) (action e f) := by
  unfold action
  apply (cursorOf_draws isAction _ _).ending
  cases (cursorOf e f.parameters _ s m).value with
  | none => exact .pure _
  | some cursor => exact .pure _

theorem command_draws (e : Element) (b : Bullet) (f : Frame) :
    Draws s m (s.document.draws (again e f.parameters s m).value e) (command e b f) := by
  unfold command Document.draws
  cases kind : e.kind with
  | wait => exact (value_draws e _).ending (.ending .setup (.pure _))
  | vanish => exact .pure _
  | repetition =>
    cases given : e.child? .times with
    | none =>
      rw [repetition, given]
      exact .report _ _
    | some times =>
      apply repetition_draws given
      have sign := value_sign times f.parameters s m
      rwa [← again_run kind given] at sign
  | fire => exact (fire_draws e b _).ending (.pure _)
  | fireRef =>
    apply (resolve_draws e).after
    rw [resolve_value]
    cases named : s.document.resolve? e with
    | none => exact .pure _
    | some d =>
      have passes : s.document.passes e = (e.childrenOf .param).length := by
        rw [Document.passes, named]
        rfl
      simp only [Option.map_some, Option.elim_some, passes]
      exact (arguments_draws e _).bind ((fire_draws d.element b _).ending (.pure _))
  | changeDirection => exact change_draws (direction_draws · b _)
  | changeSpeed => exact change_draws (changedSpeed_draws · b _)
  | accel => exact accel_draws e b _
  | action =>
    have isAction : e.kind.isAction = true := by rw [kind]; rfl
    have passes : s.document.passes e = 0 :=
      s.document.passes_own (by rw [kind]; exact Kind.noConfusion) isAction
    rw [← passes]
    exact action_draws isAction f
  | actionRef =>
    have isAction : e.kind.isAction = true := by rw [kind]; rfl
    exact action_draws isAction f
  | _ => exact .report _ _

end Exec

namespace Engine

/-- The next step of a bullet is to repeat something a positive number of times. -/
def again (e : Engine) (b : Bullet) : Bool :=
  match b.stack, b.next? with
  | top :: _, some command => (e.run (Exec.again command top.parameters)).2.1
  | _, _ => false

/-- The random numbers that the next step of a bullet draws. -/
def draws (e : Engine) (b : Bullet) : Nat :=
  b.next?.elim 0 (e.setup.document.draws (e.again b))

/-- The draws are the same if the labels and the commands are, and for a repetition the sign of its
times. -/
theorem draws_alike {e e' : Engine} {b b' : Bullet}
    (labels : e'.setup.document.labels = e.setup.document.labels) (next : b'.next? = b.next?)
    (times : b.NextIs (·.kind = .repetition) → e'.again b' = e.again b) :
    e'.draws b' = e.draws b := by
  rw [draws, draws, next, Document.draws_labels labels]
  cases at_ : b.next? with
  | none => rfl
  | some command =>
    by_cases kind : command.kind = .repetition
    · rw [times ⟨command, at_, kind⟩]
    · have none (e : Engine) {b : Bullet} (at_ : b.next? = some command) : e.again b = false := by
        unfold again
        rw [at_]
        split
        · rename_i eq
          cases eq
          rw [Exec.again_other kind]
          rfl
        · rfl
      rw [none e at_, none e' (next.trans at_)]

theorem value_random (e : Engine) (element : Element) (p : Parameters) :
    (e.run (Exec.value element p)).1.memory.random = e.memory.random.draw := by
  have drawn := Exec.value_draws (s := e.setup) (m := e.memory) element p
  rw [Exec.Draws, Function.iterate_one] at drawn
  simp only [run]
  exact drawn

theorem step_random (e : Engine) (b : Bullet) :
    (e.step b).1.memory.random = Random.draw^[e.draws b] e.memory.random := by
  rcases e.step_cases b with ⟨idle, stack, eq⟩ | ⟨top, rest, command, runs⟩
  · rw [eq, draws, idle]
    rfl
  · rw [e.step_runs runs, draws, runs.next?, again, runs.stack, runs.next?]
    exact Exec.command_draws command b top.frame

theorem adjust_random (e : Engine) (adjustment : Adjustment) :
    (e.adjust adjustment).memory.random = e.memory.random := by
  cases adjustment <;> rfl

theorem serveAll_random (e : Engine) (calls : List Call) :
    (e.serveAll calls).memory.random =
      Random.draw^[((e.moments calls).map fun m => m.1.draws m.2).sum] e.memory.random := by
  induction calls generalizing e with
  | nil => rfl
  | cons call rest ih =>
    cases call with
    | step b =>
      rw [moments, List.map_cons, List.sum_cons, Nat.add_comm, Function.iterate_add_apply,
        ← e.step_random b]
      exact ih (e.step b).1
    | adjust adjustment =>
      rw [moments, ← e.adjust_random adjustment]
      exact ih (e.adjust adjustment)

/-- **Random numbers are a matter of structure.** Every text draws one number, whatever it is. So a
step draws as many as `Document.draws` says of its command: the same for any engine and bullet with
the same labels and command, and for a repetition the same sign of its times. A whole session, of any
bullets in any order, draws as many as its steps do. -/
theorem step_draws (e : Engine) (b : Bullet) :
    (∀ element p, (e.run (Exec.value element p)).1.memory.random = e.memory.random.draw) ∧
    (e.step b).1.memory.random = Random.draw^[e.draws b] e.memory.random ∧
    (∀ (e' : Engine) (b' : Bullet), e'.setup.document.labels = e.setup.document.labels →
      b'.next? = b.next? → (b.NextIs (·.kind = .repetition) → e'.again b' = e.again b) →
      e'.draws b' = e.draws b ∧ (e'.memory.random = e.memory.random →
        (e'.step b').1.memory.random = (e.step b).1.memory.random)) ∧
    ∀ calls, (e.serveAll calls).memory.random =
      Random.draw^[((e.moments calls).map fun m => m.1.draws m.2).sum] e.memory.random := by
  refine ⟨e.value_random, e.step_random b, ?_, e.serveAll_random⟩
  intro e' b' labels next times
  have same := draws_alike labels next times
  refine ⟨same, fun random => ?_⟩
  rw [step_random, step_random, same, random]

end Engine

/-- An action that fires a bullet by reference, with texts that have no value. -/
def careless : Element :=
  .make .action [("label", "top")] none
    [.make .fire [] none
      [.leaf .direction "90 +", .leaf .speed "1 / 0",
        .make .bulletRef [("label", "careless")] none [.leaf .param "", .leaf .param "$7"]]]

/-- The bullet that it fires. -/
def carelessBullet : Element :=
  .make .bullet [("label", "careless")] none
    [.leaf .speed "$rand", .make .actionRef [("label", "top")] none [.leaf .param "$1"]]

/-- An engine that plays it. -/
def playsCareless (settings : Settings) : Engine :=
  .make (.ofRoot (.make .bulletml [] none [careless, carelessBullet]) []) settings

/-- Six numbers are drawn, two of them for the template. -/
theorem careless_draws :
    let easy := playsCareless {}
    let hard := playsCareless { rank := 1, speedMultiplier := 2 }
    let b := easy.shooter careless .zero
    (easy.step b).1.memory.random = Random.draw^[6] easy.memory.random ∧
      (hard.step b).1.memory.random = Random.draw^[6] easy.memory.random := by
  intro easy hard b
  obtain ⟨-, draws, alike, -⟩ := easy.step_draws b
  have six : easy.draws b = 6 := by decide +kernel
  obtain ⟨-, same⟩ := alike hard b rfl rfl fun _ => rfl
  rw [six] at draws
  exact ⟨draws, (same rfl).trans draws⟩

end Danmaku
