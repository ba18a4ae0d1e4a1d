import Danmaku.Proofs.Expression.Backtracking
import Danmaku.Proofs.Expression.Folding

/-!
# The variables that a text names

In a text that can be read, a dollar sign stands in front of every variable and nowhere else. So
what a text names can be told without reading it (`mentioned`), and it is what occurs in its
expression, in the same order (`Derives.mentioned`). Evaluation goes through the variables in this
order, and stops at the first that has no value (`unbound_first`).
-/

namespace Danmaku

namespace Scope

/-- All parameters among the variables have values. -/
def Supplies (scope : Scope) (vs : List Variable) : Prop :=
  ∀ i, .parameter i ∈ vs → scope.parameter? i ≠ none

/-- The first parameter among the variables that has no value is the one with index `i`. -/
def MissesFirst (scope : Scope) (vs : List Variable) (i : Nat) : Prop :=
  ∃ before after, vs = before ++ .parameter i :: after ∧ scope.parameter? i = none ∧
    scope.Supplies before

/-- The index of a parameter without a value. -/
def lacks? (scope : Scope) : Variable → Option Nat
  | .parameter index => if (scope.parameter? index).isNone then some index else none
  | _ => none

theorem lacks?_eq_some_iff {scope : Scope} {v : Variable} {i : Nat} :
    scope.lacks? v = some i ↔ v = .parameter i ∧ scope.parameter? i = none := by
  cases v with
  | rank | random => simp [lacks?]
  | parameter index =>
    rw [lacks?, Option.ite_none_right_eq_some, Option.isNone_iff_eq_none]
    constructor
    · rintro ⟨missing, eq⟩
      cases eq
      exact ⟨rfl, missing⟩
    · rintro ⟨eq, missing⟩
      cases eq
      exact ⟨missing, rfl⟩

theorem supplies_iff {scope : Scope} {vs : List Variable} :
    scope.Supplies vs ↔ ∀ v ∈ vs, scope.lacks? v = none := by
  constructor
  · intro supplies v mem
    cases lacks : scope.lacks? v with
    | none => rfl
    | some i =>
      obtain ⟨rfl, missing⟩ := lacks?_eq_some_iff.1 lacks
      exact absurd missing (supplies i mem)
  · intro all i mem missing
    have lacks := lacks?_eq_some_iff.2 ⟨rfl, missing⟩
    rw [all _ mem] at lacks
    cases lacks

theorem missesFirst_iff {scope : Scope} {vs : List Variable} {i : Nat} :
    scope.MissesFirst vs i ↔ vs.findSome? scope.lacks? = some i := by
  rw [List.findSome?_eq_some_iff]
  constructor
  · rintro ⟨before, after, eq, missing, supplies⟩
    exact ⟨before, _, after, eq, lacks?_eq_some_iff.2 ⟨rfl, missing⟩, supplies_iff.1 supplies⟩
  · rintro ⟨before, v, after, eq, lacks, earlier⟩
    obtain ⟨rfl, missing⟩ := lacks?_eq_some_iff.1 lacks
    exact ⟨before, after, eq, missing, supplies_iff.2 earlier⟩

theorem MissesFirst.not_supplies {scope : Scope} {vs : List Variable} {i : Nat}
    (h : scope.MissesFirst vs i) : ¬ scope.Supplies vs := by
  obtain ⟨before, after, rfl, missing, -⟩ := h
  intro supplies
  exact supplies i (by simp) missing

end Scope

namespace Expression

/-- The variable whose name follows a dollar sign. -/
def nameAt : List Char → Variable
  | 'r' :: 'a' :: 'n' :: 'd' :: _ => .random
  | 'r' :: 'a' :: 'n' :: 'k' :: _ => .rank
  | s => .parameter (naturalOfDigits (s.takeWhile Char.isDigit))

/-- What a text names, from left to right: a variable at each dollar sign. -/
def mentioned : List Char → List Variable
  | [] => []
  | c :: s => if c = '$' then nameAt s :: mentioned s else mentioned s

theorem mentioned_cons {c : Char} (plain : c ≠ '$') (s : List Char) :
    mentioned (c :: s) = mentioned s := by
  rw [mentioned, if_neg plain]

theorem mentioned_append {w : List Char} (plain : '$' ∉ w) (s : List Char) :
    mentioned (w ++ s) = mentioned s := by
  induction w with
  | nil => rfl
  | cons c w ih =>
    have first : c ≠ '$' := fun eq => plain (by simp [eq])
    have later : '$' ∉ w := fun mem => plain (List.mem_cons_of_mem c mem)
    rw [List.cons_append, mentioned_cons first, ih later]

theorem Blank.plain {w : List Char} (h : Blank w) : '$' ∉ w := by
  intro mem
  rcases h '$' mem with eq | eq | eq | eq <;> exact absurd eq (by decide)

theorem Digits.plain {w : List Char} (h : Digits w) : '$' ∉ w := by
  intro mem
  exact absurd (h '$' mem) (by decide)

theorem Numeral.plain {t : List Char} {x : Binary32} (h : Numeral t x) : '$' ∉ t := by
  cases h with
  | whole _ digits => exact digits.plain
  | pointed _ digits fraction =>
    intro mem
    rcases List.mem_append.1 mem with before | after
    · exact digits.plain before
    · exact fraction.plain ((List.mem_cons.1 after).resolve_left (by decide))
  | fraction _ fraction =>
    intro mem
    exact fraction.plain ((List.mem_cons.1 mem).resolve_left (by decide))

theorem Scales.plain {c : Char} {operator : Operator} (h : Scales c operator) : c ≠ '$' := by
  cases h <;> decide

theorem Shifts.plain {c : Char} {operator : Operator} (h : Shifts c operator) : c ≠ '$' := by
  cases h <;> decide

/-- The digits of an index are neither of the two words. -/
theorem nameAt_digits {w r : List Char} (some : w ≠ []) (digits : Digits w) (apart : Apart r) :
    nameAt (w ++ r) = .parameter (naturalOfDigits w) := by
  obtain ⟨c, s, rfl⟩ := List.exists_cons_of_ne_nil some
  have digit := digits c List.mem_cons_self
  have word : c ≠ 'r' := by
    rintro rfl
    exact absurd digit (by decide)
  unfold nameAt
  split
  · rename_i eq
    exact absurd (List.cons.inj eq).1 word
  · rename_i eq
    exact absurd (List.cons.inj eq).1 word
  · rw [takeWhile_digits digits, apart.takeWhile, List.append_nil]

theorem Names.mentioned {t r : List Char} {v : Variable} (h : Names t v) (apart : Apart r) :
    mentioned (t ++ r) = v :: mentioned r := by
  cases h with
  | random => rfl
  | rank => rfl
  | parameter some digits small =>
    rw [List.cons_append, Expression.mentioned, if_pos rfl, nameAt_digits some digits apart,
      mentioned_append digits.plain]

/-- A text names the variables of its expression, and then those of what follows. -/
theorem Spells.mentioned {level : Level} {t r : List Char} {e : Expression} (h : Spells level t e)
    (apart : Apart r) : mentioned (t ++ r) = e.occurring ++ mentioned r := by
  induction h generalizing r with
  | number h => rw [mentioned_append h.plain, occurring, List.nil_append]
  | «variable» h => rw [h.mentioned apart, occurring, List.singleton_append]
  | @group w t w' e before _ after ih =>
    have inner : Apart (w' ++ ')' :: r) :=
      .blank_append after (apart_cons (by decide) (by decide) r)
    have text : '(' :: (w ++ (t ++ (w' ++ [')']))) ++ r =
        '(' :: (w ++ (t ++ (w' ++ ')' :: r))) := by simp
    rw [text, mentioned_cons (by decide), mentioned_append before.plain, ih inner,
      mentioned_append after.plain, mentioned_cons (by decide)]
  | negate before _ ih =>
    rw [List.cons_append, List.append_assoc, mentioned_cons (by decide),
      mentioned_append before.plain, ih apart, occurring]
  | atom _ ih | factor _ ih | product _ ih => exact ih apart
  | @scale t w w' t' sign _ _ _ _ before means after _ ihl ihr =>
    have first : Apart (w ++ sign :: (w' ++ (t' ++ r))) := .blank_append before (means.apart _)
    have text : t ++ (w ++ sign :: (w' ++ t')) ++ r = t ++ (w ++ sign :: (w' ++ (t' ++ r))) := by
      simp
    rw [text, ihl first, mentioned_append before.plain, mentioned_cons means.plain,
      mentioned_append after.plain, ihr apart, occurring, List.append_assoc]
  | @shift t w w' t' sign _ _ _ _ before means after _ ihl ihr =>
    have first : Apart (w ++ sign :: (w' ++ (t' ++ r))) := .blank_append before (means.apart _)
    have text : t ++ (w ++ sign :: (w' ++ t')) ++ r = t ++ (w ++ sign :: (w' ++ (t' ++ r))) := by
      simp
    rw [text, ihl first, mentioned_append before.plain, mentioned_cons means.plain,
      mentioned_append after.plain, ihr apart, occurring, List.append_assoc]

theorem Derives.mentioned {t : List Char} {e : Expression} (h : Derives t e) :
    mentioned t = e.occurring := by
  obtain ⟨before, spells, after⟩ := h
  rename_i w t w'
  have apart : Apart w' := by simpa using apart_nil.blank_append after
  have none : Expression.mentioned w' = [] := by
    simpa [Expression.mentioned] using mentioned_append after.plain []
  rw [mentioned_append before.plain, spells.mentioned apart, none, List.append_nil]

theorem parse_mentioned {text : String} {e : Expression} (h : parse text = .ok e) :
    mentioned text.toList = e.occurring := by
  unfold parse at h
  split at h
  · rename_i e' read
    cases h
    rw [occurring_fold]
    exact (readAll_sound read).mentioned
  · cases h

/-! ## Evaluation -/

/-- An expression has a value, or misses that of the first of its parameters that has none. -/
theorem eval_cases (scope : Scope) (e : Expression) :
    (∃ x, e.eval scope = .ok x ∧ e.occurring.findSome? scope.lacks? = none) ∨
      ∃ i, e.eval scope = .error i ∧ e.occurring.findSome? scope.lacks? = some i := by
  induction e with
  | number value => exact .inl ⟨value, rfl, rfl⟩
  | var name =>
    cases name with
    | rank => exact .inl ⟨scope.rank, rfl, rfl⟩
    | random => exact .inl ⟨scope.random, rfl, rfl⟩
    | parameter index =>
      cases value : scope.parameter? index with
      | some x =>
        exact .inl ⟨x, by simp [eval, Scope.value, value], by simp [occurring, Scope.lacks?, value]⟩
      | none =>
        exact .inr
          ⟨index, by simp [eval, Scope.value, value], by simp [occurring, Scope.lacks?, value]⟩
  | negate operand ih =>
    rcases ih with ⟨x, value, none⟩ | ⟨i, short, first⟩
    · refine .inl ⟨-x, ?_, none⟩
      rw [eval, value]
      rfl
    · refine .inr ⟨i, ?_, first⟩
      rw [eval, short]
      rfl
  | binary operator l r ihl ihr =>
    rw [occurring, List.findSome?_append]
    rcases ihl with ⟨x, value, none⟩ | ⟨i, short, first⟩
    · rw [none, Option.none_or]
      rcases ihr with ⟨y, value', none'⟩ | ⟨i, short, first⟩
      · refine .inl ⟨operator.apply x y, ?_, none'⟩
        rw [eval, value, value']
        rfl
      · refine .inr ⟨i, ?_, first⟩
        rw [eval, value, short]
        rfl
    · rw [first, Option.some_or]
      refine .inr ⟨i, ?_, rfl⟩
      rw [eval, short]
      rfl

/-- Only the values of the variables that occur count. -/
theorem eval_congr {scope scope' : Scope} {e : Expression}
    (same : ∀ v ∈ e.occurring, scope'.value v = scope.value v) :
    e.eval scope' = e.eval scope := by
  induction e with
  | number value => rfl
  | var name => exact same name List.mem_cons_self
  | negate operand ih => rw [eval, ih same, eval]
  | binary operator l r ihl ihr =>
    obtain ⟨left, right⟩ := List.forall_mem_append.1 same
    rw [eval, ihl left, ihr right, eval]

/-- **What is missed is what comes first in the text.** If a text can be read, its expression misses
a value exactly if the text names a parameter that has none, and then it is the leftmost of these.
Otherwise it has a value, which depends on nothing that the text does not name. -/
theorem unbound_first (text : String) {e : Expression} (h : parse text = .ok e) (scope : Scope) :
    let named := mentioned text.toList
    ((∃ i, e.eval scope = .error i) ↔ ∃ i, .parameter i ∈ named ∧ scope.parameter? i = none) ∧
    (∀ i, e.eval scope = .error i ↔ scope.MissesFirst named i) ∧
    (scope.Supplies named → ∃ x, ∀ scope' : Scope,
      (∀ v ∈ named, scope'.value v = scope.value v) → e.eval scope' = .ok x) := by
  intro named
  have names : named = e.occurring := parse_mentioned h
  have first (i : Nat) : e.eval scope = .error i ↔ scope.MissesFirst named i := by
    rw [Scope.missesFirst_iff, names]
    rcases eval_cases scope e with ⟨x, value, none⟩ | ⟨j, short, first⟩
    · simp [value, none]
    · simp [short, first]
  refine ⟨⟨?_, ?_⟩, first, fun supplies => ?_⟩
  · rintro ⟨i, short⟩
    obtain ⟨before, after, eq, missing, -⟩ := (first i).1 short
    exact ⟨i, by simp [eq], missing⟩
  · rintro ⟨i, mem, missing⟩
    rcases eval_cases scope e with ⟨x, -, none⟩ | ⟨j, short, -⟩
    · rw [← names, List.findSome?_eq_none_iff, ← Scope.supplies_iff] at none
      exact absurd missing (none i mem)
    · exact ⟨j, short⟩
  · rcases eval_cases scope e with ⟨x, value, -⟩ | ⟨i, short, -⟩
    · refine ⟨x, fun scope' same => ?_⟩
      rw [← value]
      exact eval_congr (by rwa [← names])
    · exact absurd supplies ((first i).1 short).not_supplies

/-- Of two parameters without a value the one that comes first is missed, although the other is
needed for a product. -/
theorem product_misses_first :
    let text := "2 * 3 + $3 - ($7 - $rank) * $2"
    let e : Expression :=
      .binary .sub (.binary .add (.number 6) (.var (.parameter 3)))
        (.binary .mul (.binary .sub (.var (.parameter 7)) (.var .rank)) (.var (.parameter 2)))
    let scope : Scope := ⟨fun i => if i = 3 then some 1 else none, 0, 0⟩
    parse text = .ok e ∧ e.eval scope = .error 7 ∧
      e.eval { scope with parameter? := fun _ => some 1, random := .nan } = .ok 6 := by
  intro text e scope
  have read : parse text = .ok e := by decide +kernel
  have named : mentioned text.toList =
      [.parameter 3] ++ .parameter 7 :: [.rank, .parameter 2] := by decide +kernel
  have earlier : scope.Supplies [.parameter 3] := by
    intro i mem
    cases List.mem_singleton.1 mem
    exact Option.some_ne_none 1
  refine ⟨read, ?_, ?_⟩
  · obtain ⟨-, first, -⟩ := unbound_first text read scope
    exact (first 7).2 ⟨_, _, named, rfl, earlier⟩
  · obtain ⟨-, -, whole⟩ := unbound_first text read ⟨fun _ => some 1, 0, 0⟩
    obtain ⟨x, value⟩ := whole fun i _ => Option.some_ne_none 1
    have here : e.eval ⟨fun _ => some 1, 0, 0⟩ = .ok 6 := by decide +kernel
    have six : x = 6 := Except.ok.inj ((value _ fun _ _ => rfl).symm.trans here)
    rw [← six]
    apply value
    rw [named]
    decide +kernel

end Expression

end Danmaku
