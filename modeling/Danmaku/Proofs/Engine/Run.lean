import Danmaku.Proofs.Engine.Move

/-!
# Runs

Steps of one bullet, one after the other.
-/

namespace Danmaku

namespace Exec

/-- A number of steps of a bullet, one after the other. -/
def steps (frame : Cursor → Frame) : Nat → Bullet → Exec Bullet
  | 0, b => return b
  | n + 1, b => do
    let (b, _) ← step frame b
    steps frame n b

theorem steps_add (frame : Cursor → Frame) (n k : Nat) (b : Bullet) :
    steps frame (n + k) b = steps frame n b >>= steps frame k := by
  induction n generalizing b with
  | zero => simp [steps]
  | succ n ih =>
    rw [Nat.succ_add]
    simp only [steps, ih, bind_assoc]

theorem steps_one_run (frame : Cursor → Frame) (b : Bullet) (s : Setup) (m : Memory) :
    steps frame 1 b s m =
      ⟨(step frame b s m).value.1, (step frame b s m).memory, (step frame b s m).events⟩ := by
  rw [steps, bind_run]
  simp only [steps, pure_run, List.append_nil]

theorem steps_nil {b : Bullet} (h : b.stack = []) (frame : Cursor → Frame) (n : Nat) :
    steps frame n b = pure b := by
  induction n with
  | zero => rfl
  | succ n ih =>
    rw [steps, step_nil h, pure_bind]
    exact ih

end Exec

end Danmaku
