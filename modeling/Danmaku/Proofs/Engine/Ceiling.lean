import Danmaku.Proofs.Binary32.Integer
import Danmaku.Proofs.Engine.Readings
import Danmaku.Proofs.Engine.Repetition

/-!
# The ceiling of repetitions

The times of a repetition are compared with the limit in single precision, where a limit above 2²⁴
may be rounded. A limit that is rounded down does no harm, since no number of the format lies
between. A limit that is rounded up is exceeded by the number that it is rounded to, and nothing is
reported (`roundedLimit_exceeded`). This is the only exception (`repetition_limited`).
-/

namespace Danmaku

/-- The limit of repetitions lies below a number, but is rounded up to it. -/
def Settings.RoundsUpTo (s : Settings) (times : Binary32) (k : Nat) : Prop :=
  s.maxRepeat < k ∧ times = .ofNat s.maxRepeat

instance (s : Settings) (times : Binary32) (k : Nat) : Decidable (s.RoundsUpTo times k) :=
  inferInstanceAs (Decidable (_ ∧ _))

namespace Exec

variable {α : Type} {s : Setup}

theorem choice_run (test : Setup → Bool) (x y : Setup → Exec α) (m : Memory) :
    (do let s' ← setup
        if test s' then x s' else y s' : Exec α) s m = if test s then x s s m else y s s m := by
  rw [bind_run]
  cases h : test s with
  | true => simp only [setup, h, ↓reduceIte, List.nil_append]
  | false => simp only [setup, h, Bool.false_eq_true, ↓reduceIte, List.nil_append]

/-- The times are compared with the limit; what is compared is large, and must not be computed. -/
theorem repetitions_branch (times : Binary32) (m : Memory) :
    repetitions times s m =
      if (Binary32.ofNat s.settings.maxRepeat).lt times then
        ⟨s.settings.maxRepeat, m, [.fault (.repeatLimit times s.settings.maxRepeat)]⟩
      else ⟨times.toNatClipped maxCount, m, []⟩ :=
  choice_run (fun s => (Binary32.ofNat s.settings.maxRepeat).lt times)
    (fun s => do
      report (.repeatLimit times s.settings.maxRepeat)
      return s.settings.maxRepeat)
    (fun _ => return times.toNatClipped maxCount) m

/-- To count the repetitions draws nothing and hands nothing over. -/
theorem repetitions_quiet (times : Binary32) (s : Setup) (m : Memory) :
    (repetitions times s m).memory = m ∧
      (repetitions times s m).events.filterMap Event.bullet? = [] := by
  rw [repetitions_branch]
  generalize maxCount = most
  split
  · exact ⟨rfl, rfl⟩
  · exact ⟨rfl, rfl⟩

/-- How often an action is repeated that is to be repeated `k` times, and what is reported. -/
theorem repetitions_run {times : Binary32} {k : Nat} (whole : times.Whole k) (pos : 0 < k)
    (small : s.settings.maxRepeat < 2 ^ 64) (m : Memory) :
    (s.settings.RoundsUpTo times k → repetitions times s m = ⟨min k maxCount, m, []⟩) ∧
    (¬ s.settings.RoundsUpTo times k →
      repetitions times s m = ⟨min k s.settings.maxRepeat, m,
        if s.settings.maxRepeat < k then [.fault (.repeatLimit times s.settings.maxRepeat)]
        else []⟩) := by
  have exceeds := whole.ofNat_lt_iff pos (Nat.le_of_lt small)
  have few (within : k ≤ s.settings.maxRepeat) : min k maxCount = k :=
    Nat.min_eq_left (Nat.le_trans within (Nat.le_sub_one_of_lt small))
  rw [repetitions_branch, whole.toNatClipped pos maxCount]
  generalize maxCount = most at few ⊢
  generalize (Binary32.ofNat s.settings.maxRepeat).lt times = exceeding at exceeds ⊢
  constructor
  · rintro ⟨below, same⟩
    rw [if_neg fun exceeding => (exceeds.1 exceeding).2 same]
  · intro unrounded
    by_cases below : s.settings.maxRepeat < k
    · rw [if_pos (exceeds.2 ⟨below, fun same => unrounded ⟨below, same⟩⟩), if_pos below,
        Nat.min_eq_right (Nat.le_of_lt below)]
    · have within : k ≤ s.settings.maxRepeat := Nat.le_of_not_lt below
      rw [if_neg fun exceeding => below (exceeds.1 exceeding).1, if_neg below, few within,
        Nat.min_eq_left within]

theorem toRepeat_count (times body : Element) (p : Parameters) (s : Setup) (m : Memory) :
    (toRepeat times body p s m).value.1 =
      (repetitions (value times p s m).value.round s (value times p s m).memory).value := by
  -- This is so whatever counts; the count itself must not be computed.
  have general (counts : Binary32 → Exec Nat) :
      ((do
        let x ← value times p
        let count ← counts x.round
        let called ← actionOf body p
        return (count, called) : Exec (Nat × Option (Element × Parameters))) s m).value.1 =
      (counts (value times p s m).value.round s (value times p s m).memory).value := rfl
  exact general repetitions

/-- What a repetition does after its times have been compared with the limit. -/
theorem repetition_given {command times : Element} (given : command.child? .times = some times)
    (frame : Frame) :
    ∃ after : Nat → Exec Effect, (∀ count, Reading (after count)) ∧
      repetition command frame = (do
        let x ← value times frame.parameters
        if x.round.le 0 then return .finish
        let count ← repetitions x.round
        after count) := by
  unfold repetition
  rw [given]
  refine ⟨_, fun count => ?_, rfl⟩
  split
  · exact (Reading.report _ rfl).bind fun _ => .pure _
  · apply (cursorOf_reading _ _ _).bind
    intro entered
    split
    · exact (Reading.emit _ rfl rfl).bind fun _ => .pure _
    · exact .pure _

/-- Of a repetition only the comparison of its times tells that it is limited. -/
theorem repetition_limits {command times : Element} {frame : Frame} {m : Memory}
    (given : command.child? .times = some times)
    (positive : (0 : Binary32).lt (value times frame.parameters s m).value.round = true) :
    let read := value times frame.parameters s m
    (repetition command frame s m).events.filter Event.limits =
      (repetitions read.value.round s read.memory).events.filter Event.limits := by
  intro read
  have more : (value times frame.parameters s m).value.round.le 0 = false :=
    Binary32.not_le_of_lt positive
  obtain ⟨after, reading, eq⟩ := repetition_given given frame
  rw [eq, bind_run, List.filter_append, ((value_reading times _).events s m).2, List.nil_append]
  simp only [more, Bool.false_eq_true, ↓reduceIte]
  rw [bind_run, List.filter_append, ((reading _).events s _).2, List.append_nil]

end Exec

/-- Up to 2²⁴ no limit is rounded. -/
theorem Settings.RoundsUpTo.large {s : Settings} {times : Binary32} {k : Nat}
    (h : s.RoundsUpTo times k) (whole : times.Whole k) : 2 ^ 24 < s.maxRepeat := by
  apply Nat.lt_of_not_le
  intro exact_
  have limit : times.Whole s.maxRepeat := by
    rw [h.2]
    exact Binary32.toUnits?_ofNat exact_
  exact Nat.ne_of_gt h.1 (Int.ofNat.inj (whole.unique limit))

namespace Engine

variable {e : Engine} {b : Bullet} {top : Cursor} {rest : List Cursor} {command times : Element}

theorem run_value {α : Type} (e : Engine) (x : Exec α) :
    (e.run x).2.1 = (x e.setup e.memory).value := rfl

/-- The step of a repetition tells that it is limited as the comparison of its times does. -/
theorem step_limits (runs : b.Runs top rest command) (kind : command.kind = .repetition)
    (given : command.child? .times = some times)
    (positive : (0 : Binary32).lt (e.run (Exec.value times top.parameters)).2.1.round = true) :
    let read := Exec.value times top.parameters e.setup e.memory
    (e.step b).2.2.filter Event.limits =
      (Exec.repetitions read.value.round e.setup read.memory).events.filter Event.limits := by
  intro read
  have done : Exec.command command b top.frame = Exec.repetition command top.frame := by
    simp only [Exec.command, kind]
  have silent (effect : Effect) : effect.event?.toList.filter Event.limits = [] := by
    cases effect <;> rfl
  simp only [run] at positive
  rw [e.step_runs runs, done]
  simp only [List.filter_append, silent, List.append_nil]
  exact Exec.repetition_limits given positive

/-- **A repetition is limited, unless its times are what the limit is rounded up to.** The times
that are asked for are an integer `k`. Whether the limit is exceeded, and so reported, is a matter
of `k` and the limit, with the one exception of a limit that is rounded up to `k`; as many cursors
are put on the stack as the smaller of the two says, with the same exception, in which there are `k`
of them. No limit up to 2²⁴ is rounded. -/
theorem repetition_limited (runs : b.Runs top rest command) (kind : command.kind = .repetition)
    (given : command.child? .times = some times)
    (positive : (0 : Binary32).lt (e.run (Exec.value times top.parameters)).2.1.round = true)
    (small : e.settings.maxRepeat < 2 ^ 64) :
    let asked := (e.run (Exec.value times top.parameters)).2.1.round
    let limit := e.settings.maxRepeat
    ∃ k : Nat, asked.Whole k ∧ 0 < k ∧ (e.settings.RoundsUpTo asked k → 2 ^ 24 < limit) ∧
      (e.settings.RoundsUpTo asked k → (e.step b).2.2.filter Event.limits = []) ∧
      (¬ e.settings.RoundsUpTo asked k → (e.step b).2.2.filter Event.limits =
        if limit < k then [.fault (.repeatLimit asked limit)] else []) ∧
      ∀ body action q, command.children.find? (·.kind.isAction) = some body →
        (e.run (Exec.toRepeat times body top.parameters)).2.1.2 = some (action, q) →
        top.depth + 1 ≤ e.settings.maxDepth →
        ∃ n, (e.step b).2.1.1.stack =
            List.replicate n (.enter action q (top.depth + 1)) ++ top.advance :: rest ∧
          (e.settings.RoundsUpTo asked k → n = min k Exec.maxCount) ∧
          (¬ e.settings.RoundsUpTo asked k → n = min k limit) := by
  intro asked limit
  have finite : (e.run (Exec.value times top.parameters)).2.1.isFinite = true := by
    rw [run_value]
    exact (Exec.value_gives times top.parameters e.memory).1
  obtain ⟨z, whole⟩ := Binary32.whole_round finite
  have above : 0 < z := (Binary32.whole_zero.lt_iff whole).1 positive
  obtain ⟨k, rfl⟩ := Int.eq_ofNat_of_zero_le (Int.le_of_lt above)
  have pos : 0 < k := Int.ofNat_lt.1 above
  have limits := step_limits runs kind given positive
  have counted (m : Memory) := Exec.repetitions_run (s := e.setup) whole pos small m
  have filter_limit {exceeding : Prop} [Decidable exceeding] :
      (if exceeding then [Event.fault (.repeatLimit asked limit)] else []).filter Event.limits =
        if exceeding then [Event.fault (.repeatLimit asked limit)] else [] := by
    split
    · rfl
    · rfl
  refine ⟨k, whole, pos, fun rounded => rounded.large whole, fun rounded => ?_,
    fun unrounded => ?_, fun body action q first called shallow => ?_⟩
  · rw [limits, ← run_value, (counted _).1 rounded]
    rfl
  · rw [limits, ← run_value, (counted _).2 unrounded]
    exact filter_limit
  · have count : (e.run (Exec.toRepeat times body top.parameters)).2.1.1 =
        (Exec.repetitions asked e.setup
          (Exec.value times top.parameters e.setup e.memory).memory).value := by
      rw [run_value, Exec.toRepeat_count, ← run_value e (Exec.value times top.parameters)]
    refine ⟨_, by rw [step_repeats ⟨command, runs, kind, given, first⟩ positive
      (Prod.ext count called) shallow], fun rounded => ?_, fun unrounded => ?_⟩
    · rw [(counted _).1 rounded]
    · rw [(counted _).2 unrounded]
      rfl

end Engine

/-- An action that fires a number of times, and then waits. -/
def often (times : String) : Element :=
  .make .action [("label", "top")] none
    [.make .repetition [] none [.leaf .times times, shot], .leaf .wait "1"]

/-- An engine that plays it, and whose limit lies halfway between two numbers of the format. -/
def playsOften (times : String) : Engine :=
  .make (.ofRoot (.make .bulletml [] none [often times]) []) { maxRepeat := 16777219 }

theorem often_runs (times : String) :
    ((playsOften times).shooter (often times) .zero).Runs (.enter (often times) .empty 0) []
      (.make .repetition [] none [.leaf .times times, shot]) :=
  ⟨rfl, rfl, rfl⟩

theorem tooOften_limited :
    let e := playsOften "16777222"
    let b := e.shooter (often "16777222") .zero
    let caller := (Cursor.enter (often "16777222") .empty 0).advance
    (e.step b).2.2.filter Event.limits = [.fault (.repeatLimit (.ofNat 16777222) 16777219)] ∧
      (e.step b).2.1.1.stack = List.replicate 16777219 (.enter shot .empty 1) ++ [caller] := by
  intro e b caller
  have runs : b.Runs (.enter (often "16777222") .empty 0) []
      (.make .repetition [] none [.leaf .times "16777222", shot]) := often_runs "16777222"
  have asked : (e.run (Exec.value (.leaf .times "16777222") .empty)).2.1.round =
      .ofNat 16777222 := by
    decide +kernel
  have positive : (0 : Binary32).lt
      (e.run (Exec.value (.leaf .times "16777222") .empty)).2.1.round = true := by
    rw [asked]
    decide +kernel
  have unrounded : ¬ e.settings.RoundsUpTo (.ofNat 16777222) 16777222 := by decide +kernel
  obtain ⟨k, whole, -, -, -, limits, pushes⟩ :=
    Engine.repetition_limited (e := e) runs rfl rfl positive (by decide +kernel)
  have asked' : (e.run (Exec.value (.leaf .times "16777222")
      (Cursor.enter (often "16777222") .empty 0).parameters)).2.1.round = .ofNat 16777222 := asked
  rw [asked'] at whole limits pushes
  obtain rfl : k = 16777222 := by
    have same : (Binary32.ofNat 16777222).Whole (16777222 : Nat) := by decide +kernel
    exact Int.ofNat.inj (whole.unique same)
  obtain ⟨n, stack, -, few⟩ :=
    pushes shot shot .empty rfl (e.run_toRepeat_called (by decide) _ _) (by decide +kernel)
  have count : n = 16777219 := (few unrounded).trans (by decide +kernel)
  rw [count] at stack
  exact ⟨limits unrounded, stack⟩

/-- With a limit of 16777219 an action is repeated once more than that, and nothing is reported. -/
theorem roundedLimit_exceeded :
    let e := playsOften "16777220"
    let b := e.shooter (often "16777220") .zero
    let caller := (Cursor.enter (often "16777220") .empty 0).advance
    e.settings.maxRepeat = 16777219 ∧ (e.step b).2.2.filter Event.limits = [] ∧
      (e.step b).2.1.1.stack = List.replicate 16777220 (.enter shot .empty 1) ++ [caller] := by
  intro e b caller
  have positive : (0 : Binary32).lt
      (e.run (Exec.value (.leaf .times "16777220") .empty)).2.1.round = true := by
    decide +kernel
  have read : (e.run (Exec.toRepeat (.leaf .times "16777220") shot .empty)).2.1.1 = 16777220 := by
    decide +kernel
  have repeats : b.Repeats (.enter (often "16777220") .empty 0) [] (.leaf .times "16777220") shot :=
    ⟨_, often_runs "16777220", rfl, rfl, rfl⟩
  have step := Engine.step_repeats (e := e) repeats positive
    (Prod.ext read (e.run_toRepeat_called (by decide) _ _)) (by decide +kernel)
  have limits := Engine.step_limits (e := e) (b := b) (often_runs "16777220") rfl rfl positive
  refine ⟨rfl, limits.trans ?_, ?_⟩
  · decide +kernel
  · rw [step]
    rfl

end Danmaku
