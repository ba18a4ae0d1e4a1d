import Danmaku.Proofs.Engine.Move
import Danmaku.Proofs.Host

/-!
# Sound stacks

Every cursor that a command makes is at the start of an action of the document, under parameters
that a reference passed on in full; afterwards it only moves on. A cursor waits only while it is on
top, since a command that puts others above it does not wait.
-/

namespace Danmaku

/-- Finite values for the indices from 1 to some number, and for no others. -/
structure Parameters.Positional (p : Parameters) : Prop where
  keys : ∃ k, p.bindings.map (·.1) = List.range' 1 k
  finite : ∀ binding ∈ p.bindings, binding.2.isFinite = true

structure Cursor.Sound (d : Document) (c : Cursor) : Prop where
  action : c.action ∈ d.actions
  next : c.next ≤ c.action.children.length
  unfinished : c.finished = false
  parameters : c.parameters.Positional

/-- All cursors are sound, and none but the topmost waits. -/
structure SoundStack (d : Document) (stack : List Cursor) : Prop where
  cursors : ∀ c ∈ stack, c.Sound d
  idle : ∀ c ∈ stack.tail, c.wait = 0

theorem SoundStack.of_idle {d : Document} {stack : List Cursor}
    (h : ∀ c ∈ stack, c.Sound d ∧ c.wait = 0) : SoundStack d stack where
  cursors c mem := (h c mem).1
  idle c mem := (h c (List.mem_of_mem_tail mem)).2

theorem Parameters.empty_positional : Parameters.empty.Positional where
  keys := ⟨0, rfl⟩
  finite _ mem := absurd mem List.not_mem_nil

theorem Parameters.ofValues_positional {xs : List Binary32}
    (h : ∀ x ∈ xs, x.isFinite = true) : (ofValues xs).Positional where
  keys := ⟨xs.length, List.map_fst_zip (by simp)⟩
  finite _ mem := h _ (List.of_mem_zip mem).2

theorem Passes.positional {reference : Element} {q : Parameters} (h : Passes reference q) :
    q.Positional := by
  obtain ⟨xs, -, finite, rfl⟩ := h
  exact Parameters.ofValues_positional finite

section Made

variable {root : Element} {warnings : List Warning} {p q : Parameters} {e : Element}

theorem Calls.sound {action : Element} (h : Calls (.ofRoot root warnings) p e action q)
    (node : e ∈ root.nodes) (positional : p.Positional) (depth : Nat) :
    (Cursor.enter action q depth).Sound (.ofRoot root warnings) where
  action := h.mem_actions node
  next := Nat.zero_le _
  unfinished := rfl
  parameters := by
    cases h with
    | inline => exact positional
    | reference _ _ passes => exact passes.positional

theorem Fires.sound {fire : Element} (h : Fires (.ofRoot root warnings) p e fire q)
    (node : e ∈ root.nodes) (positional : p.Positional) : fire ∈ root.nodes ∧ q.Positional := by
  cases h with
  | own => exact ⟨node, positional⟩
  | reference _ named passes => exact ⟨(Document.resolve?_mem named).2, passes.positional⟩

theorem Templates.sound {fire template : Element}
    (h : Templates (.ofRoot root warnings) p fire template q) (node : fire ∈ root.nodes)
    (positional : p.Positional) : template ∈ root.nodes ∧ q.Positional := by
  cases h with
  | own child =>
    have mem := List.mem_of_find?_eq_some child
    exact ⟨Element.child_mem_nodes mem _ node, positional⟩
  | reference _ named passes => exact ⟨(Document.resolve?_mem named).2, passes.positional⟩

theorem Arms.sound {template : Element} {c : Cursor}
    (h : Arms (.ofRoot root warnings) q template.children c) (node : template ∈ root.nodes)
    (positional : q.Positional) : c.Sound (.ofRoot root warnings) ∧ c.wait = 0 := by
  cases h with
  | start mem calls =>
    exact ⟨calls.sound (Element.child_mem_nodes mem _ node) positional 0, rfl⟩

theorem Cursor.Sound.node {c : Cursor} (h : c.Sound (.ofRoot root warnings))
    (at_ : c.command? = some e) : e ∈ root.nodes :=
  Cursor.command?_mem_nodes at_ (Document.mem_actions.1 h.action).1

end Made

section Steps

variable {root : Element} {warnings : List Warning}

theorem Cursor.Sound.advance {c : Cursor} {e : Element} (h : c.Sound (.ofRoot root warnings))
    (at_ : c.command? = some e) (frames : Nat) :
    ({ c.advance with wait := frames } : Cursor).Sound (.ofRoot root warnings) :=
  { h with next := Cursor.next_lt_of_command? at_ }

theorem Move.sound {settings : Settings} {f : Frame} {top : Cursor} {rest after : List Cursor}
    (h : Move (.ofRoot root warnings) settings f top rest after)
    (keeps : f.parameters = top.parameters)
    (sound : SoundStack (.ofRoot root warnings) (top :: rest)) :
    SoundStack (.ofRoot root warnings) after := by
  have own := sound.cursors top List.mem_cons_self
  have others : ∀ c ∈ rest, c.Sound (.ofRoot root warnings) :=
    fun c mem => sound.cursors c (List.mem_cons_of_mem _ mem)
  have idle : ∀ c ∈ rest, c.wait = 0 := sound.idle
  -- Instead of the topmost cursor another sound one.
  have swap : ∀ c : Cursor, c.Sound (.ofRoot root warnings) →
      SoundStack (.ofRoot root warnings) (c :: rest) :=
    fun c hc => ⟨List.forall_mem_cons.2 ⟨hc, others⟩, idle⟩
  cases h with
  | countDown => exact swap _ { own with }
  | leave => exact .of_idle fun c mem => ⟨others c mem, idle c mem⟩
  | vanish => exact ⟨by simp, by simp⟩
  | advance _ at_ frames => exact swap _ (own.advance at_ frames)
  | @enter e body action q count still at_ mem calls =>
    have node := Element.body_mem_nodes mem (own.node at_)
    have entered := calls.sound node (keeps ▸ own.parameters) (f.depth + 1)
    refine .of_idle fun c mem => ?_
    rcases List.mem_append.1 mem with mem | mem
    · rw [(List.mem_replicate.1 mem).2]
      exact ⟨entered, rfl⟩
    · rcases List.mem_cons.1 mem with rfl | mem
      · exact ⟨own.advance at_ top.wait, still⟩
      · exact ⟨others c mem, idle c mem⟩
  | replace _ at_ _ calls =>
    exact swap _ (calls.sound (own.node at_) (keeps ▸ own.parameters) f.depth)

variable {e : Engine} {b : Bullet}

theorem Engine.step_sound (plays : e.setup.document = .ofRoot root warnings)
    (h : SoundStack (.ofRoot root warnings) b.stack) :
    SoundStack (.ofRoot root warnings) (e.step b).2.1.1.stack := by
  cases hs : b.stack with
  | nil => rwa [e.step_idle hs]
  | cons top rest =>
    have move := e.step_move hs
    rw [plays] at move
    exact move.sound rfl (hs ▸ h)

/-- What a bullet with a sound stack fires has a sound stack. -/
theorem Engine.fired_sound (plays : e.setup.document = .ofRoot root warnings)
    (h : SoundStack (.ofRoot root warnings) b.stack) {bullet : Bullet}
    (fired : .fired bullet ∈ (e.step b).2.2) :
    SoundStack (.ofRoot root warnings) bullet.stack := by
  obtain ⟨top, rest, command, hs, -, at_, of⟩ := Engine.step_events fired
  have own := h.cursors top (hs ▸ List.mem_cons_self)
  cases of with
  | aside aside => exact aside.elim
  | fired fires armed =>
    rw [plays] at fires armed
    obtain ⟨fireNode, given⟩ := fires.sound (own.node at_) own.parameters
    refine .of_idle fun c mem => ?_
    obtain ⟨template, q, templates, arms⟩ := armed c mem
    obtain ⟨node, positional⟩ := templates.sound fireNode given
    exact arms.sound node positional

theorem Host.Treats.sound {b' : Bullet} (treats : Treats e b b')
    (plays : e.setup.document = .ofRoot root warnings)
    (h : SoundStack (.ofRoot root warnings) b.stack) :
    SoundStack (.ofRoot root warnings) b'.stack := by
  cases treats with
  | keep => exact h
  | step => exact Engine.step_sound plays h
  | integrate dt =>
    rw [Engine.integrate, Bullet.tick_stack]
    exact h

end Steps

/-! ## Hosts -/

/-- A host that plays a document with nothing but sound stacks. -/
structure Host.Sound (d : Document) (h : Host) : Prop where
  plays : h.engine.setup.document = d
  bullets : ∀ b ∈ h.bullets, SoundStack d b.stack

theorem Host.Sound.act {root : Element} {warnings : List Warning} {h : Host}
    (sound : h.Sound (.ofRoot root warnings)) (deed : Deed) :
    (h.act deed).1.Sound (.ofRoot root warnings) where
  plays := (h.act_alike deed).document.trans sound.plays
  bullets b' mem := by
    obtain ⟨b, hb, treats | fired⟩ := Host.mem_act mem
    · exact treats.sound sound.plays (sound.bullets b hb)
    · exact Engine.fired_sound sound.plays (sound.bullets b hb) fired

theorem Engine.shooter_sound {e : Engine} {action : Element}
    (mem : action ∈ e.setup.document.actions) (position : Vec3) :
    SoundStack e.setup.document (e.shooter action position).stack where
  cursors c inStack := by
    rw [List.mem_singleton.1 inStack]
    exact ⟨mem, Nat.zero_le _, rfl, Parameters.empty_positional⟩
  idle _ inTail := absurd inTail List.not_mem_nil

/-- **Stacks stay sound.** Whatever a host does with a shooter and with all that comes of it, every
cursor of every bullet is within an action of the document, under finite values for its positional
parameters, and only the topmost one of a stack waits. -/
theorem stacks_sound {e : Engine} {root : Element} {warnings : List Warning}
    (plays : e.setup.document = .ofRoot root warnings) {action : Element}
    (mem : action ∈ e.setup.document.actions) (position : Vec3) (deeds : List Deed) :
    ∀ b ∈ ((⟨e, [e.shooter action position]⟩ : Host).run deeds).1.bullets,
      SoundStack e.setup.document b.stack := by
  have start : Host.Sound (.ofRoot root warnings) ⟨e, [e.shooter action position]⟩ := by
    refine ⟨plays, fun b hb => ?_⟩
    rw [List.mem_singleton.1 hb, ← plays]
    exact Engine.shooter_sound mem position
  rw [plays]
  exact (Host.run_keeps (fun _ deed sound => sound.act deed) start deeds).bullets

/-- An action that fires twice, and passes a wait on to what it fires. -/
def passer : Element :=
  .make .action [("label", "top")] none
    [.make .repetition [] none [.leaf .times "2", .make .action [] none
      [.make .fire [] none [.make .bulletRef [("label", "shot")] none [.leaf .param "5"]]]]]

/-- The pattern of the action that passes a wait on. -/
def passing : Document :=
  .ofRoot (.make .bulletml [] none
    [passer, .make .bullet [("label", "shot")] none
      [.make .action [] none [.leaf .wait "$1"]]]) []

/-- The pattern after the first bullet has been fired and has executed its wait. -/
def passed : Host :=
  ((⟨.make passing {}, [(Engine.make passing {}).shooter passer .zero]⟩ : Host).run
    [.step 0, .step 0, .integrate 0 1, .step 1, .step 0]).1

theorem passed_sound :
    passed.bullets.length = 2 ∧ ∀ b ∈ passed.bullets, SoundStack passing b.stack := by
  refine ⟨by decide +kernel, stacks_sound (e := .make passing {}) rfl ?_ _ _⟩
  exact Document.mem_actions.2 ⟨List.mem_cons_of_mem _ List.mem_cons_self, rfl⟩

end Danmaku
