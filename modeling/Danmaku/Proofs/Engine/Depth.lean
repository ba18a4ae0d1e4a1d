import Danmaku.Proofs.Engine.Move
import Danmaku.Proofs.Host
import Mathlib.Data.List.Basic

/-!
# Bounded stacks

Actions are put on top of a stack one level above the running one, which is the deepest. So the
depths of a stack never grow downwards, and of each level there are no more cursors than one
command puts there.
-/

namespace Danmaku

/-- The depths of a stack, the upper ones first: none is above `maxDepth`, of each there are at
most `most`, and of depth 0 at most `first`. -/
structure Layered (maxDepth most first : Nat) (depths : List Nat) : Prop where
  sorted : depths.Pairwise (· ≥ ·)
  shallow : ∀ d ∈ depths, d ≤ maxDepth
  few : ∀ d, 1 ≤ d → depths.count d ≤ most
  ground : depths.count 0 ≤ first

namespace Layered

variable {maxDepth most first : Nat}

theorem nil : Layered maxDepth most first [] where
  sorted := .nil
  shallow := by simp
  few := by simp
  ground := by simp

theorem tail {d : Nat} {depths : List Nat} (h : Layered maxDepth most first (d :: depths)) :
    Layered maxDepth most first depths where
  sorted := (List.pairwise_cons.1 h.sorted).2
  shallow d' mem := h.shallow d' (List.mem_cons_of_mem _ mem)
  few d' le := Nat.le_trans List.count_le_count_cons (h.few d' le)
  ground := Nat.le_trans List.count_le_count_cons h.ground

/-- The level above the topmost is free. -/
theorem enter {d count : Nat} {depths : List Nat}
    (h : Layered maxDepth most first (d :: depths)) (shallow : d + 1 ≤ maxDepth)
    (le : count ≤ most) :
    Layered maxDepth most first (List.replicate count (d + 1) ++ d :: depths) := by
  have below : ∀ d' ∈ d :: depths, d' ≤ d := by
    intro d' mem
    rcases List.mem_cons.1 mem with rfl | mem
    · exact Nat.le_refl _
    · exact (List.pairwise_cons.1 h.sorted).1 d' mem
  have free : (d :: depths).count (d + 1) = 0 :=
    List.count_eq_zero.2 fun mem => Nat.not_succ_le_self d (below _ mem)
  refine ⟨?_, ?_, ?_, ?_⟩
  · refine List.pairwise_append.2 ⟨List.pairwise_replicate.2 (.inr (Nat.le_refl _)), h.sorted, ?_⟩
    intro upper hu lower hl
    rw [(List.mem_replicate.1 hu).2]
    exact Nat.le_succ_of_le (below lower hl)
  · intro d' mem
    rcases List.mem_append.1 mem with mem | mem
    · rw [(List.mem_replicate.1 mem).2]
      exact shallow
    · exact h.shallow d' mem
  · intro d' pos
    rw [List.count_append, List.count_replicate]
    by_cases eq : d' = d + 1
    · subst eq
      simp [free, le]
    · have few := h.few d' pos
      rw [if_neg (by simpa using Ne.symm eq)]
      omega
  · rw [List.count_append, List.count_replicate, if_neg (by simp)]
    have ground := h.ground
    omega

/-- All cursors of a new stack are at depth 0. -/
theorem start {depths : List Nat} (h : ∀ d ∈ depths, d = 0) :
    Layered maxDepth most depths.length depths where
  sorted := List.pairwise_of_forall_mem_list fun upper hu lower hl => by simp [h _ hu, h _ hl]
  shallow d mem := h d mem ▸ Nat.zero_le _
  few d pos := by
    have absent : d ∉ depths := fun mem => by
      have zero := h d mem
      omega
    rw [List.count_eq_zero.2 absent]
    exact Nat.zero_le _
  ground := List.count_le_length

/-- Level for level, there is only so much room. -/
theorem length_le_of_count_le {most first : Nat} : ∀ (maxDepth : Nat) {depths : List Nat},
    (∀ d ∈ depths, d ≤ maxDepth) → (∀ d, 1 ≤ d → depths.count d ≤ most) →
    depths.count 0 ≤ first → depths.length ≤ first + maxDepth * most
  | 0, depths, shallow, _, ground => by
    have all : depths.count 0 = depths.length :=
      List.count_eq_length.2 fun d mem => (Nat.le_zero.1 (shallow d mem)).symm
    omega
  | maxDepth + 1, depths, shallow, few, ground => by
    have lower : (depths.filter (!· == maxDepth + 1)).length ≤ first + maxDepth * most := by
      refine length_le_of_count_le maxDepth ?_ ?_ ?_
      · intro d mem
        obtain ⟨mem, ne⟩ := List.mem_filter.1 mem
        have le := shallow d mem
        simp only [Bool.not_eq_true', beq_eq_false_iff_ne] at ne
        omega
      · intro d pos
        exact Nat.le_trans (List.filter_sublist.count_le d) (few d pos)
      · exact Nat.le_trans (List.filter_sublist.count_le 0) ground
    have upper := few (maxDepth + 1) (Nat.succ_le_succ (Nat.zero_le _))
    rw [List.count_eq_length_filter] at upper
    rw [depths.length_eq_length_filter_add (· == maxDepth + 1), Nat.succ_mul]
    omega

theorem length_le {depths : List Nat} (h : Layered maxDepth most first depths) :
    depths.length ≤ first + maxDepth * most :=
  length_le_of_count_le maxDepth h.shallow h.few h.ground

end Layered

/-- The depths of the cursors of a bullet, from the top of its stack to the bottom. -/
def Bullet.depths (b : Bullet) : List Nat := b.stack.map (·.depth)

theorem Move.layered {d : Document} {settings : Settings} {f : Frame} {top : Cursor}
    {rest after : List Cursor} {first : Nat} (h : Move d settings f top rest after)
    (keeps : f.depth = top.depth) (small : settings.maxRepeat ≤ 2 ^ 24)
    (layered : Layered settings.maxDepth (max 1 settings.maxRepeat) first
      ((top :: rest).map (·.depth))) :
    Layered settings.maxDepth (max 1 settings.maxRepeat) first (after.map (·.depth)) := by
  cases h with
  | countDown => exact layered
  | leave => exact layered.tail
  | vanish => exact .nil
  | advance => exact layered
  | @enter e body action q count idle at_ mem calls shallow few =>
    rw [keeps] at shallow
    rw [List.map_append, List.map_replicate]
    simp only [Cursor.enter, keeps]
    exact layered.enter shallow (few small)
  | replace =>
    simp only [List.map_cons, Cursor.enter, keeps]
    exact layered

theorem Engine.step_layered {e : Engine} {b : Bullet} {first : Nat}
    (small : e.settings.maxRepeat ≤ 2 ^ 24)
    (h : Layered e.settings.maxDepth (max 1 e.settings.maxRepeat) first b.depths) :
    Layered e.settings.maxDepth (max 1 e.settings.maxRepeat) first (e.step b).2.1.1.depths := by
  cases hs : b.stack with
  | nil => rwa [e.step_idle hs]
  | cons top rest =>
    rw [Bullet.depths, hs] at h
    exact (e.step_move hs).layered rfl small h

theorem Host.Treats.layered {e : Engine} {b b' : Bullet} {first : Nat} (h : Treats e b b')
    (small : e.settings.maxRepeat ≤ 2 ^ 24)
    (layered : Layered e.settings.maxDepth (max 1 e.settings.maxRepeat) first b.depths) :
    Layered e.settings.maxDepth (max 1 e.settings.maxRepeat) first b'.depths := by
  cases h with
  | keep => exact layered
  | step => exact Engine.step_layered small layered
  | integrate dt =>
    rw [Bullet.depths, Engine.integrate, Bullet.tick_stack]
    exact layered

/-- An action is too deep by one level, and not as the last command of its caller. -/
theorem Engine.step_tooDeep {e : Engine} {b : Bullet} {label : String} {depth : Nat}
    (shallow : ∀ d ∈ b.depths, d ≤ e.settings.maxDepth)
    (mem : .fault (.tooDeep label depth) ∈ (e.step b).2.2) :
    depth = e.settings.maxDepth + 1 ∧ ∃ top rest command, b.stack = top :: rest ∧
      top.command? = some command ∧ ¬ (command.kind.isAction ∧ top.atLast) := by
  obtain ⟨top, rest, command, hs, -, at_, of⟩ := Engine.step_events mem
  have own : top.depth ≤ e.settings.maxDepth :=
    shallow _ (List.mem_map.2 ⟨top, hs ▸ List.mem_cons_self, rfl⟩)
  cases of with
  | aside aside => exact aside.elim
  | tooDeep _ deep =>
    have target : top.frame.target command =
        if command.kind.isAction && top.atLast then top.depth else top.depth + 1 := rfl
    rw [target] at deep ⊢
    split at deep
    · omega
    · rename_i notTrailing
      rw [if_neg notTrailing]
      refine ⟨by omega, top, rest, command, hs, at_, ?_⟩
      simpa using notTrailing

/-- A bullet as an engine makes it: a shooter, or what a bullet has fired. -/
inductive Bullet.Born : Bullet → Prop
  | shooter (e : Engine) (action : Element) (position : Vec3) : Born (e.shooter action position)
  | fired {e : Engine} {source b : Bullet} (h : .fired b ∈ (e.step source).2.2) : Born b

theorem Bullet.Born.depths_eq_zero {b : Bullet} (h : b.Born) : ∀ d ∈ b.depths, d = 0 := by
  intro d mem
  obtain ⟨c, inStack, rfl⟩ := List.mem_map.1 mem
  cases h with
  | shooter =>
    rw [List.mem_singleton.1 inStack]
    rfl
  | fired h =>
    obtain ⟨top, rest, command, -, -, -, of⟩ := Engine.step_events h
    cases of with
    | aside aside => exact aside.elim
    | fired _ armed =>
      obtain ⟨template, q, -, arms⟩ := armed c inStack
      cases arms
      rfl

/-! ## What a host keeps -/

/-- The host `h'` plays as `h` does, and its bullet of number `i` is within the limits, with `first`
cursors at depth 0. -/
def Host.Within (h : Host) (i first : Nat) (h' : Host) : Prop :=
  h.engine.Alike h'.engine ∧ ∃ b, h'.bullets[i]? = some b ∧
    Layered h.engine.settings.maxDepth (max 1 h.engine.settings.maxRepeat) first b.depths

theorem Host.Within.act {h h' : Host} {i first : Nat}
    (small : h.engine.settings.maxRepeat ≤ 2 ^ 24) (within : h.Within i first h') (deed : Deed) :
    h.Within i first (h'.act deed).1 := by
  obtain ⟨alike, b, found, layered⟩ := within
  obtain ⟨b', found', treats⟩ := Host.act_treats found deed
  refine ⟨alike.trans (h'.act_alike deed), b', found', ?_⟩
  rw [← alike.maxDepth, ← alike.maxRepeat] at layered ⊢
  exact treats.layered (alike.maxRepeat ▸ small) layered

/-- **Stacks are bounded.** Whatever a host does, a bullet that came into the world with `m` cursors
never holds more than `m + maxDepth * max 1 maxRepeat` of them: their depths do not grow downwards,
none is above `maxDepth`, and the levels above the ground have room for one repetition each. What is
found too deep is so by one level, and is never the last command of its action. -/
theorem stack_bounded {h : Host} {i : Nat} {b : Bullet} (born : b.Born)
    (found : h.bullets[i]? = some b) (small : h.engine.settings.maxRepeat ≤ 2 ^ 24)
    (deeds : List Deed) :
    ∃ b', (h.run deeds).1.bullets[i]? = some b' ∧
      Layered h.engine.settings.maxDepth (max 1 h.engine.settings.maxRepeat) b.stack.length
        b'.depths ∧
      b'.stack.length ≤
        b.stack.length + h.engine.settings.maxDepth * max 1 h.engine.settings.maxRepeat ∧
      ∀ label depth, .fault (.tooDeep label depth) ∈ ((h.run deeds).1.engine.step b').2.2 →
        depth = h.engine.settings.maxDepth + 1 ∧ ∃ top rest command, b'.stack = top :: rest ∧
          top.command? = some command ∧ ¬ (command.kind.isAction ∧ top.atLast) := by
  have start : h.Within i b.stack.length h := by
    have length : b.depths.length = b.stack.length := List.length_map _
    exact ⟨.refl _, b, found, length ▸ .start born.depths_eq_zero⟩
  obtain ⟨alike, b', found', layered⟩ :=
    Host.run_keeps (fun _ deed within => within.act small deed) start deeds
  refine ⟨b', found', layered, ?_, fun label depth mem => ?_⟩
  · simpa only [Bullet.depths, List.length_map] using layered.length_le
  · rw [← alike.maxDepth]
    exact Engine.step_tooDeep (alike.maxDepth ▸ layered.shallow) mem

/-- An action that plays itself twice before it waits. -/
def doubler : Element :=
  .make .action [("label", "top")] none
    [.make .repetition [] none [.leaf .times "2", .make .actionRef [("label", "top")] none []],
      .leaf .wait "1"]

/-- A host at the start of the pattern that doubles. -/
def doubling : Host :=
  let e := Engine.make (.ofRoot (.make .bulletml [] none [doubler]) []) {}
  ⟨e, [e.shooter doubler .zero]⟩

example : (doubling.run [.step 0, .integrate 0 1, .step 0]).1.bullets.map Bullet.depths =
    [[2, 2, 1, 1, 0]] := by
  decide +kernel

theorem doubling_bounded :
    let deeds := [.step 0, .integrate 0 1, .adjust (.rank 1), .step 0]
    ∃ b, (doubling.run deeds).1.bullets[0]? = some b ∧ Layered 64 65536 1 b.depths ∧
      b.stack.length ≤ 1 + 64 * 65536 := by
  have born : (doubling.engine.shooter doubler .zero).Born := .shooter _ _ _
  obtain ⟨b, found, layered, length, -⟩ :=
    stack_bounded (h := doubling) (i := 0) born rfl (by decide)
      [.step 0, .integrate 0 1, .adjust (.rank 1), .step 0]
  exact ⟨b, found, layered, length⟩

end Danmaku
