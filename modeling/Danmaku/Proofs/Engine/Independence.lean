import Danmaku.Proofs.Engine.Leftovers

/-!
# Independent bullets

The bullets of an engine share its random numbers and its sequences. A pattern that names the
random number nowhere and goes on from no sequence reads neither (`Steps.unshared`), so a step of
one of its bullets comes to the same in every engine that plays it (`Engine.step_alone`).
-/

namespace Danmaku

namespace Element

/-- Neither names the random number nor goes on from a sequence. -/
def Unshared (e : Element) : Prop :=
  ¬ "$rand".toList <:+: e.body.toList ∧ ¬ e.GoesOn

instance : DecidablePred Unshared := fun e =>
  inferInstanceAs (Decidable (¬ "$rand".toList <:+: e.body.toList ∧
    ¬ (e.kind.hasValueType = true ∧ e.attribute? "type" = some "sequence")))

/-- No node of the tree reads what bullets share. -/
def Independent (e : Element) : Prop := ∀ node ∈ e.nodes, node.Unshared

instance : DecidablePred Independent := fun e =>
  inferInstanceAs (Decidable (∀ node ∈ e.nodes, node.Unshared))

theorem Independent.self {e : Element} (h : e.Independent) : e.Unshared :=
  h e e.self_mem_nodes

theorem Independent.node {e node : Element} (h : e.Independent) (mem : node ∈ e.nodes) :
    node.Independent :=
  fun a ha => h a (nodes_subset node mem a ha)

theorem Independent.child {e child : Element} (h : e.Independent) (mem : child ∈ e.children) :
    child.Independent :=
  h.node (child_mem_nodes mem e e.self_mem_nodes)

theorem Independent.firsts {e : Element} (h : e.Independent) (kinds : List Kind) :
    ∀ child ∈ e.firsts kinds, child.Unshared := by
  intro child mem
  obtain ⟨kind, -, found⟩ := List.mem_filterMap.1 mem
  exact (h.child (List.mem_of_find?_eq_some found)).self

theorem Independent.changing {e : Element} (h : e.Independent) (kind : Kind) :
    ∀ child ∈ e.changing kind, child.Unshared := by
  intro child mem
  unfold Element.changing at mem
  split at mem
  · rename_i first term found found'
    have first := (h.child (List.mem_of_find?_eq_some found)).self
    have second := (h.child (List.mem_of_find?_eq_some found')).self
    rcases List.mem_cons.1 mem with rfl | mem
    · exact first
    · rwa [List.mem_singleton.1 mem]
  · cases mem

theorem Independent.bodies {e : Element} (h : e.Independent) {es : List Element}
    (bodies : e.bodies? = some es) : ∀ child ∈ es, child.Unshared := by
  unfold bodies? at bodies
  split at bodies <;> cases bodies
  · simpa using h.self
  · exact h.changing _
  · exact h.changing _
  · split
    · exact h.firsts _
    · simp
  · simp

end Element

/-- A reading that is not of what bullets share. -/
def Access.Unshared : Access → Prop
  | .value e _ _ => ¬ "$rand".toList <:+: e.body.toList
  | .resume _ => False

/-- Every action that the bullet has still to play is independent. -/
def Bullet.Independent (b : Bullet) : Prop := ∀ c ∈ b.stack, c.action.Independent

theorem Effect.Enters.independent {effect : Effect} {called : Option (Element × Parameters)}
    (h : effect.Enters called)
    (independent : ∀ action q, called = some (action, q) → action.Independent) :
    ∀ c, effect.cursor? = some c → c.action.Independent := by
  intro c eq
  obtain ⟨action, q, depth, isCalled, rfl⟩ := h c eq
  exact independent action q isCalled

theorem Effect.mem_apply {effect : Effect} {b : Bullet} {top c : Cursor} {rest : List Cursor}
    (mem : c ∈ (effect.apply b top rest).1.stack) :
    c ∈ rest ∨ c.action = top.action ∨ effect.cursor? = some c := by
  -- The running cursor moves on, or waits, and stays in its action.
  have moved {moved : Cursor} (mem : c ∈ moved :: rest) (same : moved.action = top.action) :
      c ∈ rest ∨ c.action = top.action ∨ effect.cursor? = some c := by
    rcases List.mem_cons.1 mem with rfl | mem
    · exact .inr (.inl same)
    · exact .inl mem
  cases effect with
  | finish => exact .inl mem
  | vanish => cases mem
  | enter count cursor =>
    rcases List.mem_append.1 mem with mem | mem
    · exact .inr (.inr (by rw [(List.mem_replicate.1 mem).2]; rfl))
    · exact moved mem rfl
  | replace cursor =>
    rcases List.mem_cons.1 mem with rfl | mem
    · exact .inr (.inr rfl)
    · exact .inl mem
  | _ => exact moved mem rfl

namespace Lexical

theorem Under.unshared {p : Parameters} {es : List Element} {trace : List Access}
    (h : Under p es trace) (free : ∀ e ∈ es, e.Unshared) : ∀ access ∈ trace, access.Unshared := by
  induction h with
  | nil => simp
  | @value e es trace x _ ih =>
    obtain ⟨first, rest⟩ := List.forall_mem_cons.1 free
    exact List.forall_mem_cons.2 ⟨first.1, ih rest⟩
  | @goOn e es trace x goesOn _ ih => exact absurd goesOn (free e List.mem_cons_self).2

theorem Binds.unshared {p q : Parameters} {reference : Element} {trace : List Access}
    (h : Binds p reference trace q) (free : reference.Independent) :
    ∀ access ∈ trace, access.Unshared := by
  obtain ⟨xs, -, rfl, -⟩ := h
  intro access mem
  obtain ⟨⟨child, x⟩, inZip, rfl⟩ := List.mem_map.1 mem
  have param := (List.of_mem_zip inZip).1
  exact (free.child (List.mem_filter.1 param).1).self.1

section Document

variable {root : Element} {warnings : List Warning} (free : root.Independent)
include free

theorem resolve?_independent {reference : Element} {definition : Definition}
    (named : (Document.ofRoot root warnings).resolve? reference = some definition) :
    definition.element.Independent :=
  free.node (Document.resolve?_mem named).2

theorem Calls.unshared {p : Parameters} {e : Element} {trace : List Access}
    {called : Option (Element × Parameters)}
    (h : Calls (.ofRoot root warnings) p e trace called) (he : e.Independent) :
    (∀ access ∈ trace, access.Unshared) ∧
      ∀ action q, called = some (action, q) → action.Independent := by
  cases h with
  | inline =>
    refine ⟨by simp, fun action q eq => ?_⟩
    cases eq
    exact he
  | reference _ named binds =>
    refine ⟨binds.unshared he, fun action q eq => ?_⟩
    cases eq
    exact resolve?_independent free named
  | dangling => exact ⟨by simp, by simp⟩

theorem Templates.unshared {p : Parameters} {fire : Element} {trace : List Access}
    {called : Option (Element × Parameters)}
    (h : Templates (.ofRoot root warnings) p fire trace called) (hf : fire.Independent) :
    (∀ access ∈ trace, access.Unshared) ∧
      ∀ template q, called = some (template, q) → template.Independent := by
  cases h with
  | own found =>
    refine ⟨by simp, fun template q eq => ?_⟩
    cases eq
    exact hf.child (List.mem_of_find?_eq_some found)
  | reference _ found named binds =>
    refine ⟨binds.unshared (hf.child (List.mem_of_find?_eq_some found)), fun template q eq => ?_⟩
    cases eq
    exact resolve?_independent free named
  | dangling => exact ⟨by simp, by simp⟩
  | missing => exact ⟨by simp, by simp⟩

theorem Arms.unshared {q : Parameters} {es : List Element} {trace : List Access}
    {cursors : List Cursor} (h : Arms (.ofRoot root warnings) q es trace cursors)
    (hes : ∀ e ∈ es, e.Independent) :
    (∀ access ∈ trace, access.Unshared) ∧ ∀ c ∈ cursors, c.action.Independent := by
  induction h with
  | nil => exact ⟨by simp, by simp⟩
  | other _ _ ih => exact ih (List.forall_mem_cons.1 hes).2
  | action calls _ ih =>
    obtain ⟨first, rest⟩ := List.forall_mem_cons.1 hes
    obtain ⟨reads, called⟩ := calls.unshared free first
    obtain ⟨later, cursors⟩ := ih rest
    exact ⟨List.forall_mem_append.2 ⟨reads, later⟩,
      List.forall_mem_cons.2 ⟨called _ _ rfl, cursors⟩⟩
  | dangling calls _ ih =>
    obtain ⟨first, rest⟩ := List.forall_mem_cons.1 hes
    obtain ⟨later, cursors⟩ := ih rest
    exact ⟨List.forall_mem_append.2 ⟨(calls.unshared free first).1, later⟩, cursors⟩

theorem Fires.unshared {p : Parameters} {fire : Element} {trace : List Access}
    {cursors : List Cursor} (h : Fires (.ofRoot root warnings) p fire trace cursors)
    (hf : fire.Independent) :
    (∀ access ∈ trace, access.Unshared) ∧ ∀ c ∈ cursors, c.action.Independent := by
  cases h with
  | templated reads templates arms gives =>
    obtain ⟨passed, found⟩ := templates.unshared free hf
    have template := found _ _ rfl
    obtain ⟨armed, cursors⟩ := arms.unshared free fun e mem => template.child mem
    have own := reads.unshared (hf.firsts _)
    have given := gives.unshared (template.firsts _)
    simp only [List.forall_mem_append]
    exact ⟨⟨own, passed, armed, given⟩, cursors⟩
  | bare reads templates =>
    have own := reads.unshared (hf.firsts _)
    exact ⟨List.forall_mem_append.2 ⟨own, (templates.unshared free hf).1⟩, by simp⟩

theorem Repeats.unshared {f : Frame} {e : Element} {trace : List Access} {effect : Effect}
    (h : Repeats (.ofRoot root warnings) f e trace effect) (he : e.Independent) :
    (∀ access ∈ trace, access.Unshared) ∧
      ∀ c, effect.cursor? = some c → c.action.Independent := by
  -- The count is read first, if there is one.
  have times {times : Element} (found : e.child? .times = some times) (x : Binary32) :
      (Access.value times f.parameters x).Unshared :=
    (he.child (List.mem_of_find?_eq_some found)).self.1
  cases h with
  | timeless => exact ⟨by simp, by simp [Effect.cursor?]⟩
  | never found => exact ⟨by simpa using times found _, by simp [Effect.cursor?]⟩
  | bodiless found => exact ⟨by simpa using times found _, by simp [Effect.cursor?]⟩
  | again found _ body calls enters =>
    obtain ⟨reads, called⟩ := calls.unshared free (he.child (List.mem_of_find?_eq_some body))
    exact ⟨List.forall_mem_cons.2 ⟨times found _, reads⟩, enters.independent called⟩

theorem Commands.unshared {f : Frame} {e : Element} {trace : List Access}
    {fired : List (List Cursor)} {effect : Effect}
    (h : Commands (.ofRoot root warnings) f e trace fired effect) (he : e.Independent) :
    (∀ access ∈ trace, access.Unshared) ∧
      (∀ stack ∈ fired, ∀ c ∈ stack, c.action.Independent) ∧
      ∀ c, effect.cursor? = some c → c.action.Independent := by
  cases h with
  | own bodies reads stays => exact ⟨reads.unshared (he.bodies bodies), by simp, by simp [stays]⟩
  | repetition _ repeats =>
    obtain ⟨reads, entered⟩ := repeats.unshared free he
    exact ⟨reads, by simp, entered⟩
  | action calls enters =>
    obtain ⟨reads, called⟩ := calls.unshared free he
    exact ⟨reads, by simp, enters.independent called⟩
  | fire _ fires =>
    obtain ⟨reads, cursors⟩ := fires.unshared free he
    exact ⟨reads, by simpa using cursors, by simp [Effect.cursor?]⟩
  | fireRef _ named binds fires =>
    obtain ⟨reads, cursors⟩ := fires.unshared free (resolve?_independent free named)
    refine ⟨List.forall_mem_append.2 ⟨binds.unshared he, reads⟩, ?_, by simp [Effect.cursor?]⟩
    simpa using cursors
  | dangling => exact ⟨by simp, by simp, by simp [Effect.cursor?]⟩

/-- A step of an independent bullet reads nothing that bullets share, and makes independent
bullets. -/
theorem Steps.unshared {b : Bullet} {trace : List Access} {fired : List (List Cursor)}
    {result : Bullet × Bool} (h : Steps (.ofRoot root warnings) b trace fired result)
    (hb : b.Independent) :
    (∀ access ∈ trace, access.Unshared) ∧
      (∀ stack ∈ fired, ∀ c ∈ stack, c.action.Independent) ∧ result.1.Independent := by
  cases h with
  | still _ keeps =>
    refine ⟨by simp, by simp, fun c mem => ?_⟩
    obtain ⟨c', mem', eq⟩ := List.mem_map.1 (keeps.subset (List.mem_map_of_mem mem))
    have action : c'.action = c.action := congrArg Prod.fst eq
    rw [← action]
    exact hb c' mem'
  | @command top rest e _ _ effect stack _ at_ commands =>
    have own : top.action.Independent := hb top (by simp [stack])
    obtain ⟨reads, made, entered⟩ :=
      commands.unshared free (own.child (Cursor.command?_mem at_))
    refine ⟨reads, made, fun c mem => ?_⟩
    rcases Effect.mem_apply mem with mem | action | eq
    · exact hb c (by simp [stack, mem])
    · rwa [action]
    · exact entered c eq

end Document

end Lexical

namespace Exec

/-- What bullets share is not read by those that are independent. -/
theorem hides_shared {s : Setup} : Hides s Access.Unshared Memory.Akin where
  value {m m' e p x} free h := by
    have same : m'.evaluation e p = m.evaluation e p := by
      unfold Memory.evaluation Memory.under
      rw [Evaluator.within_congr h.rank h.policy, Evaluator.within_random free]
    have drawn := value_drawn (s := s) h.faithful e p
    exact value_same h same (h.drawn drawn (value_drawn h.faithful' e p))
  resume ok _ := ok.elim
  store _ h := { h with }

end Exec

namespace Engine

variable {root : Element} {warnings : List Warning} {e e' : Engine} {b : Bullet}

/-- The same pattern, settings and target, and memories with the same rules of evaluation. -/
structure Akin (e e' : Engine) : Prop where
  setup : e'.setup = e.setup
  memory : e.memory.Akin e'.memory

theorem Akin.refl (faithful : e.memory.evaluator.Faithful) : e.Akin e :=
  ⟨rfl, rfl, rfl, faithful, faithful⟩

theorem Akin.trans {e'' : Engine} (h : e.Akin e') (h' : e'.Akin e'') : e.Akin e'' where
  setup := h'.setup.trans h.setup
  memory :=
    ⟨h'.memory.rank.trans h.memory.rank, h'.memory.policy.trans h.memory.policy,
      h.memory.faithful, h'.memory.faithful'⟩

theorem Akin.symm (h : e.Akin e') : e'.Akin e where
  setup := h.setup.symm
  memory := ⟨h.memory.rank.symm, h.memory.policy.symm, h.memory.faithful', h.memory.faithful⟩

theorem step_akin (faithful : e.memory.evaluator.Faithful) (b : Bullet) : e.Akin (e.step b).1 :=
  ⟨rfl, Exec.step_keeps b faithful⟩

/-- What an independent bullet comes to and leaves behind does not depend on the engine. -/
theorem step_alone (free : root.Independent) (plays : e.setup.document = .ofRoot root warnings)
    (hb : b.Independent) (h : e.Akin e') : (e'.step b).2 = (e.step b).2 := by
  have traced := Exec.step_traced (s := e.setup) b
  rw [plays] at traced
  have same := traced.agree Exec.hides_shared
    (fun _ _ _ steps => (steps.unshared free hb).1) h.memory
  simp only [step, run, h.setup, same.value, same.events]

/-- The bullets that come of an independent one are independent. -/
theorem step_independent (free : root.Independent)
    (plays : e.setup.document = .ofRoot root warnings) (faithful : e.memory.evaluator.Faithful)
    (hb : b.Independent) : (e.step b).2.1.1.Independent ∧
      ∀ fired, .fired fired ∈ (e.step b).2.2 → fired.Independent := by
  have traced := Exec.step_traced (s := e.setup) b
  rw [plays] at traced
  obtain ⟨trace, -, steps⟩ := traced.run faithful
  obtain ⟨-, made, after⟩ := steps.unshared free hb
  refine ⟨after, fun fired mem => made fired.stack (List.mem_map_of_mem ?_)⟩
  exact List.mem_filterMap.2 ⟨_, mem, rfl⟩

end Engine

end Danmaku
