import Danmaku.Proofs.Engine.Independence

/-!
# Interleavings

A host that leaves the settings alone gives its bullets turns, in any order. When nothing that the
pattern reads is shared, what a bullet comes to is what it would come to by its own turns alone with
the engine (`play_alone`): the others make no difference, nor does what the engine has done before.
-/

namespace Danmaku

/-- What a host can do with a bullet. -/
inductive Operation where
  | step
  | integrate (dt : Binary32)

/-- An operation on the bullet at a place. -/
structure Turn where
  place : Nat
  operation : Operation

namespace Turn

def deed : Turn → Deed
  | ⟨i, .step⟩ => .step i
  | ⟨i, .integrate dt⟩ => .integrate i dt

/-- The operations on one of the bullets. -/
def own (i : Nat) (turns : List Turn) : List Operation :=
  (turns.filter (·.place == i)).map (·.operation)

end Turn

namespace Engine

def operate (e : Engine) (b : Bullet) : Operation → Engine × Bullet × List Event
  | .step =>
    let (e, (b, _), events) := e.step b
    (e, b, events)
  | .integrate dt => (e, e.integrate b dt, [])

/-- What a bullet that is alone comes to, and the events. -/
def operateAll (e : Engine) (b : Bullet) : List Operation → Bullet × List Event
  | [] => (b, [])
  | operation :: rest =>
    let (e, b, events) := e.operate b operation
    let (b, later) := e.operateAll b rest
    (b, events ++ later)

end Engine

namespace Host

/-- The host after turns. -/
def play (h : Host) (turns : List Turn) : Host := (h.run (turns.map Turn.deed)).1

/-- The events of the turns of one of the bullets. -/
def eventsOf (i : Nat) : Host → List Turn → List Event
  | _, [] => []
  | h, turn :: rest =>
    (if turn.place = i then (h.act turn.deed).2 else []) ++ eventsOf i (h.act turn.deed).1 rest

theorem play_cons (h : Host) (turn : Turn) (rest : List Turn) :
    h.play (turn :: rest) = (h.act turn.deed).1.play rest := rfl

/-- A turn does its operation, and what the bullet fires joins the others. -/
theorem act_turn {h : Host} {turn : Turn} {b : Bullet} (found : h.bullets[turn.place]? = some b) :
    h.act turn.deed =
      (⟨(h.engine.operate b turn.operation).1,
        h.bullets.set turn.place (h.engine.operate b turn.operation).2.1 ++
          (h.engine.operate b turn.operation).2.2.filterMap Event.bullet?⟩,
        (h.engine.operate b turn.operation).2.2) := by
  obtain ⟨i, operation⟩ := turn
  cases operation with
  | step => simp only [Turn.deed, act, found, Engine.operate]
  | integrate dt =>
    simp only [Turn.deed, act, found, Engine.operate, List.filterMap_nil, List.append_nil]

theorem act_absent {h : Host} {turn : Turn} (absent : h.bullets[turn.place]? = none) :
    h.act turn.deed = (h, []) := by
  obtain ⟨i, operation⟩ := turn
  cases operation <;> simp only [Turn.deed, act, absent]

/-- A bullet keeps its place, and changes at its own turns only. -/
theorem getElem?_act {h : Host} {i : Nat} {b : Bullet} (found : h.bullets[i]? = some b)
    (turn : Turn) : (h.act turn.deed).1.bullets[i]? =
      some (if turn.place = i then (h.engine.operate b turn.operation).2.1 else b) := by
  have lt : i < h.bullets.length := (List.getElem?_eq_some_iff.1 found).1
  by_cases mine : turn.place = i
  · subst mine
    rw [act_turn found, if_pos rfl, List.getElem?_append_left (by simpa using lt),
      List.getElem?_set_self lt]
  · rw [if_neg mine]
    cases other : h.bullets[turn.place]? with
    | none => rw [act_absent other, found]
    | some b' =>
      rw [act_turn other, List.getElem?_append_left (by simpa using lt),
        List.getElem?_set_ne mine, found]

end Host

section Independent

variable {root : Element} {warnings : List Warning}

/-- A host whose bullets share nothing that they read. -/
structure Host.Independent (root : Element) (warnings : List Warning) (h : Host) : Prop where
  plays : h.engine.setup.document = .ofRoot root warnings
  faithful : h.engine.memory.evaluator.Faithful
  bullets : ∀ b ∈ h.bullets, b.Independent

theorem Bullet.Independent.integrate {b : Bullet} (h : b.Independent) (e : Engine)
    (dt : Binary32) : (e.integrate b dt).Independent := by
  intro c mem
  rw [Engine.integrate, Bullet.tick_stack] at mem
  exact h c mem

theorem Engine.shooter_independent {action : Element} (h : action.Independent) (e : Engine)
    (position : Vec3) : (e.shooter action position).Independent := by
  intro c mem
  rw [List.mem_singleton.1 mem]
  exact h

theorem Engine.operate_akin {e : Engine} (faithful : e.memory.evaluator.Faithful) (b : Bullet)
    (operation : Operation) : e.Akin (e.operate b operation).1 := by
  cases operation with
  | step => exact step_akin faithful b
  | integrate => exact .refl faithful

variable (free : root.Independent)
include free

theorem Engine.operate_alone {e e' : Engine} {b : Bullet}
    (plays : e.setup.document = .ofRoot root warnings) (hb : b.Independent) (h : e.Akin e')
    (operation : Operation) : (e'.operate b operation).2 = (e.operate b operation).2 := by
  cases operation with
  | step =>
    have same := step_alone free plays hb h
    simp only [operate, same]
  | integrate dt => simp only [operate, integrate, settings, h.setup]

theorem Engine.operate_independent {e : Engine} {b : Bullet}
    (plays : e.setup.document = .ofRoot root warnings) (faithful : e.memory.evaluator.Faithful)
    (hb : b.Independent) (operation : Operation) :
    (e.operate b operation).2.1.Independent := by
  cases operation with
  | step => exact (step_independent free plays faithful hb).1
  | integrate dt => exact hb.integrate e dt

theorem Host.Independent.act {h : Host} (independent : h.Independent root warnings) (turn : Turn) :
    (h.act turn.deed).1.Independent root warnings ∧ h.engine.Akin (h.act turn.deed).1.engine := by
  have akin : h.engine.Akin (h.act turn.deed).1.engine := by
    cases found : h.bullets[turn.place]? with
    | none =>
      rw [Host.act_absent found]
      exact .refl independent.faithful
    | some b =>
      rw [Host.act_turn found]
      exact Engine.operate_akin independent.faithful b turn.operation
  refine ⟨⟨?_, akin.memory.faithful', fun b' mem => ?_⟩, akin⟩
  · rw [akin.setup, independent.plays]
  · obtain ⟨b, hb, treats | fired⟩ := Host.mem_act mem
    · have old := independent.bullets b hb
      cases treats with
      | keep => exact old
      | step =>
        exact (Engine.step_independent free independent.plays independent.faithful old).1
      | integrate dt => exact old.integrate h.engine dt
    · exact (Engine.step_independent free independent.plays independent.faithful
        (independent.bullets b hb)).2 b' fired

theorem Engine.operateAll_alone {e e' : Engine} {b : Bullet}
    (plays : e.setup.document = .ofRoot root warnings) (hb : b.Independent) (h : e.Akin e')
    (operations : List Operation) : e'.operateAll b operations = e.operateAll b operations := by
  induction operations generalizing e e' b with
  | nil => rfl
  | cons operation rest ih =>
    have same := operate_alone free plays hb h operation
    have akin := operate_akin h.memory.faithful b operation
    have akin' := operate_akin h.memory.faithful' b operation
    have after := operate_independent free plays h.memory.faithful hb operation
    have later := ih (akin.setup ▸ plays) after (akin.symm.trans (h.trans akin'))
    simp only [operateAll, same, later]

theorem Host.Independent.play {h : Host} (independent : h.Independent root warnings)
    (turns : List Turn) :
    (h.play turns).Independent root warnings ∧ h.engine.Akin (h.play turns).engine := by
  induction turns generalizing h with
  | nil => exact ⟨independent, .refl independent.faithful⟩
  | cons turn rest ih =>
    obtain ⟨next, akin⟩ := independent.act free turn
    obtain ⟨last, akin'⟩ := ih next
    exact ⟨last, akin.trans akin'⟩

/-- A bullet comes to what its own turns make of it. -/
theorem Host.Independent.play_alone {h : Host} (independent : h.Independent root warnings) {i : Nat}
    {b : Bullet} (found : h.bullets[i]? = some b) (turns : List Turn) :
    (h.play turns).bullets[i]? = some (h.engine.operateAll b (Turn.own i turns)).1 ∧
      h.eventsOf i turns = (h.engine.operateAll b (Turn.own i turns)).2 := by
  induction turns generalizing h b with
  | nil => exact ⟨found, rfl⟩
  | cons turn rest ih =>
    obtain ⟨next, akin⟩ := independent.act free turn
    obtain ⟨bullet, events⟩ := ih next (Host.getElem?_act found turn)
    rw [Host.play_cons, Host.eventsOf, bullet, events]
    by_cases mine : turn.place = i
    · have own : Turn.own i (turn :: rest) = turn.operation :: Turn.own i rest := by
        simp [Turn.own, mine]
      rw [own, if_pos mine, if_pos mine, Host.act_turn (by rwa [mine])]
      exact ⟨rfl, rfl⟩
    · -- Another's turn changes the engine, but not what this bullet comes to with it.
      have own : Turn.own i (turn :: rest) = Turn.own i rest := by simp [Turn.own, mine]
      have hb := independent.bullets b (List.mem_of_getElem? found)
      have alone := Engine.operateAll_alone free independent.plays hb akin (Turn.own i rest)
      rw [own, if_neg mine, if_neg mine, alone]
      exact ⟨rfl, rfl⟩

end Independent

/-- **Bullets that share nothing do not interfere.** Where a pattern neither names the random number
nor goes on from a sequence, then, whatever a host has done with the engine before, and in whatever
order it takes bullets further that play such actions, as all actions of the pattern are, each of
them and of those that they fire comes to what its own turns make of it when it is alone with the
engine, with the same events; and two steps of two bullets come to the same in either order. -/
theorem bullets_independent {root : Element} (free : root.Independent) (warnings : List Warning)
    (settings : Settings) (earlier bullets : List Bullet) (deeds : List Deed)
    (independent : ∀ b ∈ bullets, b.Independent) :
    let e := ((⟨.make (.ofRoot root warnings) settings, earlier⟩ : Host).run deeds).1.engine
    (∀ (before after : List Turn) (i : Nat) (b : Bullet),
      let h := (⟨e, bullets⟩ : Host).play before
      h.bullets[i]? = some b →
      (h.play after).bullets[i]? = some (e.operateAll b (Turn.own i after)).1 ∧
        h.eventsOf i after = (e.operateAll b (Turn.own i after)).2) ∧
    ∀ a ∈ bullets, ∀ b ∈ bullets,
      ((e.step b).1.step a).2 = (e.step a).2 ∧ ((e.step a).1.step b).2 = (e.step b).2 := by
  intro e
  have plays : e.setup.document = .ofRoot root warnings :=
    Host.run_keeps (P := fun h => h.engine.setup.document = .ofRoot root warnings)
      (fun h deed plays => (h.act_alike deed).document.trans plays) rfl deeds
  have faithful : e.memory.evaluator.Faithful :=
    Host.run_faithful (Engine.make_faithful _ _) deeds
  constructor
  · intro before after i b h found
    have start : Host.Independent root warnings ⟨e, bullets⟩ := ⟨plays, faithful, independent⟩
    obtain ⟨now, akin⟩ := start.play free before
    have hb := now.bullets b (List.mem_of_getElem? found)
    rw [← Engine.operateAll_alone free plays hb akin]
    exact now.play_alone free found after
  · intro a ha b hb
    constructor
    · exact Engine.step_alone free plays (independent a ha) (Engine.step_akin faithful b)
    · exact Engine.step_alone free plays (independent b hb) (Engine.step_akin faithful a)

/-- An action that fires on a heading that goes with the difficulty, and waits. -/
def volley : Element :=
  .make .action [("label", "top")] none
    [.make .fire [] none
      [.make .direction [("type", "relative")] (some "$rank * 10") [],
        .make .bulletRef [("label", "shot")] none [.leaf .param "3 / 0"]],
      .leaf .wait "1"]

/-- The pattern of that action. -/
def volleys : Element :=
  .make .bulletml [] none
    [volley, .make .bullet [("label", "shot")] none
      [.make .action [] none [.leaf .wait "$1", .make .vanish [] none []]]]

/-- Two shooters take turns with the bullet that the first of them has fired. -/
theorem volleys_independent :
    let e := ((⟨.make (.ofRoot volleys []) {}, []⟩ : Host).run [.adjust (.rank 2)]).1.engine
    let a := e.shooter volley .zero
    let h := (⟨e, [a, a]⟩ : Host).play [⟨0, .step⟩]
    let after : List Turn := [⟨1, .step⟩, ⟨2, .step⟩, ⟨0, .integrate 1⟩, ⟨2, .step⟩, ⟨0, .step⟩]
    volleys.Independent ∧
      (∃ b, h.bullets[2]? = some b ∧
        (h.play after).bullets[2]? = some (e.operateAll b [.step, .step]).1 ∧
        h.eventsOf 2 after = (e.operateAll b [.step, .step]).2) ∧
      ((e.step a).1.step a).2 = (e.step a).2 := by
  intro e a h after
  have free : volleys.Independent := by decide +kernel
  have action : volley.Independent := free.child List.mem_cons_self
  have bullets : ∀ b ∈ [a, a], b.Independent := by
    intro b mem
    have eq : b = a := by simpa using mem
    rw [eq]
    exact e.shooter_independent action .zero
  obtain ⟨alone, commute⟩ :=
    bullets_independent free [] {} [] [a, a] [.adjust (.rank 2)] bullets
  obtain ⟨b, found⟩ : ∃ b, h.bullets[2]? = some b :=
    Option.isSome_iff_exists.1 (by decide +kernel)
  exact ⟨free, ⟨b, found, alone [⟨0, .step⟩] after 2 b found⟩,
    (commute a List.mem_cons_self a List.mem_cons_self).1⟩

end Danmaku
