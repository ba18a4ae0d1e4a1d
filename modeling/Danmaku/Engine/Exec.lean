import Danmaku.Engine.Event
import Danmaku.Engine.Settings
import Danmaku.Pattern.Document
import Danmaku.Random

/-!
# Executions

A command is executed in a setup that it cannot change, on a memory that all bullets of an engine
share, and leaves events behind in their order.
-/

namespace Danmaku

/-- What an engine plays, and under which settings. -/
structure Setup where
  document : Document
  settings : Settings
  target : Vec3

/-- What the values of type `sequence` build on. `changeSpeed` is none before the first change of
speed of that type. -/
structure Sequences where
  direction : Binary32
  speed : Binary32
  horizontal : Binary32
  vertical : Binary32
  changeSpeed : Option Binary32
deriving DecidableEq

/-- One of the axes of the plane of movement. -/
inductive Axis where
  | horizontal
  | vertical

/-- The child of an `accel` that gives the component on an axis. -/
def Axis.child : Axis → Kind
  | horizontal => .horizontal
  | vertical => .vertical

namespace Sequences

def start : Sequences := ⟨0, 0, 0, 0, none⟩

/-- The component of an acceleration that the next one on the axis builds on. -/
def component (last : Sequences) : Axis → Binary32
  | .horizontal => last.horizontal
  | .vertical => last.vertical

def setComponent (last : Sequences) (axis : Axis) (x : Binary32) : Sequences :=
  match axis with
  | .horizontal => { last with horizontal := x }
  | .vertical => { last with vertical := x }

variable (last : Sequences) (axis : Axis) (x : Binary32)

@[simp] theorem setComponent_direction : (last.setComponent axis x).direction = last.direction := by
  cases axis <;> rfl

@[simp] theorem setComponent_speed : (last.setComponent axis x).speed = last.speed := by
  cases axis <;> rfl

@[simp] theorem setComponent_changeSpeed :
    (last.setComponent axis x).changeSpeed = last.changeSpeed := by
  cases axis <;> rfl

@[simp] theorem setComponent_component : last.setComponent axis (last.component axis) = last := by
  cases axis <;> rfl

theorem component_setComponent_of_ne {other : Axis} (h : axis ≠ other) :
    (last.setComponent other x).component axis = last.component axis := by
  cases axis <;> cases other <;> first | rfl | exact absurd rfl h

end Sequences

/-- What the commands of all bullets share. -/
structure Memory where
  evaluator : Evaluator
  random : Random
  sequences : Sequences

/-- The result of an execution, the memory after it, and its events. -/
structure Outcome (α : Type) where
  value : α
  memory : Memory
  events : List Event

def Exec (α : Type) : Type := Setup → Memory → Outcome α

namespace Exec

variable {α β : Type}

protected def pure (a : α) : Exec α := fun _ m => ⟨a, m, []⟩

protected def bind (x : Exec α) (f : α → Exec β) : Exec β := fun s m =>
  let first := x s m
  let second := f first.value s first.memory
  ⟨second.value, second.memory, first.events ++ second.events⟩

instance : Monad Exec where
  pure := Exec.pure
  bind := Exec.bind

theorem pure_run (a : α) (s : Setup) (m : Memory) : (pure a : Exec α) s m = ⟨a, m, []⟩ := rfl

theorem bind_run (x : Exec α) (f : α → Exec β) (s : Setup) (m : Memory) :
    (x >>= f) s m =
      ⟨(f (x s m).value s (x s m).memory).value, (f (x s m).value s (x s m).memory).memory,
        (x s m).events ++ (f (x s m).value s (x s m).memory).events⟩ := rfl

instance : LawfulMonad Exec :=
  LawfulMonad.mk' Exec
    (fun x => funext fun s => funext fun m => by
      show (⟨(x s m).value, (x s m).memory, (x s m).events ++ []⟩ : Outcome _) = x s m
      rw [List.append_nil])
    (fun _ _ => rfl)
    (fun _ _ _ => funext fun _ => funext fun _ => by simp only [bind_run, List.append_assoc])

def setup : Exec Setup := fun s m => ⟨s, m, []⟩

def sequences : Exec Sequences := fun _ m => ⟨m.sequences, m, []⟩

def setSequences (sequences : Sequences) : Exec Unit := fun _ m => ⟨(), { m with sequences }, []⟩

def emit (e : Event) : Exec Unit := fun _ m => ⟨(), m, [e]⟩

def report (cause : Fault) : Exec Unit := emit (.fault cause)

/-- The value of a text under parameters. One random number is drawn for every text. -/
def evaluate (text : String) (parameters : Parameters) : Exec (Except ExpressionError Binary32) :=
  fun _ m =>
    let (random, generator) := m.random.nextUnit
    let (result, evaluator) := { m.evaluator with parameters, random }.evaluate text
    ⟨result.value, { m with evaluator, random := generator }, result.defaulted.map .defaulted⟩

end Exec

end Danmaku
