import Danmaku.Expression.Basic

/-!
# Folding

Computing the constant parts of an expression at once changes neither its value nor the variables
that it reads, in whatever scope it is evaluated later (`eval_fold`, `occurring_fold`). It leaves
nothing to compute (`fold_reduced`), and only what has no variables becomes a number
(`fold_normalizes`).
-/

namespace Danmaku.Expression

/-- The variables that occur, from left to right. -/
def occurring : Expression → List Variable
  | number _ => []
  | var name => [name]
  | negate operand => operand.occurring
  | binary _ left right => left.occurring ++ right.occurring

/-- An expression, and all those that it is made of. -/
def parts : Expression → List Expression
  | negate operand => negate operand :: operand.parts
  | binary operator left right => binary operator left right :: (left.parts ++ right.parts)
  | e => [e]

/-- An operator that has nothing but numbers to work on. -/
inductive Ready : Expression → Prop
  | negate (x : Binary32) : Ready (negate (number x))
  | binary (operator : Operator) (x y : Binary32) : Ready (binary operator (number x) (number y))

/-- No operator in it can be computed before the variables have values. -/
def Reduced (e : Expression) : Prop := ∀ part ∈ e.parts, ¬ part.Ready

theorem eval_foldNegate (scope : Scope) (e : Expression) :
    (foldNegate e).eval scope = (negate e).eval scope := by
  cases e <;> rfl

theorem eval_foldBinary (scope : Scope) (operator : Operator) (l r : Expression) :
    (foldBinary operator l r).eval scope = (binary operator l r).eval scope := by
  unfold foldBinary
  split
  · rfl
  · rfl

/-- An expression has the same value, or wants the same parameter, before and after folding. -/
theorem eval_fold (scope : Scope) (e : Expression) : e.fold.eval scope = e.eval scope := by
  induction e with
  | number value => rfl
  | var name => rfl
  | negate operand ih =>
    rw [fold, eval_foldNegate]
    simp only [eval, ih]
  | binary operator l r ihl ihr =>
    rw [fold, eval_foldBinary]
    simp only [eval, ihl, ihr]

theorem occurring_foldNegate (e : Expression) : (foldNegate e).occurring = e.occurring := by
  cases e <;> rfl

theorem occurring_foldBinary (operator : Operator) (l r : Expression) :
    (foldBinary operator l r).occurring = l.occurring ++ r.occurring := by
  unfold foldBinary
  split
  · rfl
  · rfl

/-- Folding neither drops a variable nor changes their order. -/
theorem occurring_fold (e : Expression) : e.fold.occurring = e.occurring := by
  induction e with
  | number value => rfl
  | var name => rfl
  | negate operand ih => rw [fold, occurring_foldNegate, ih, occurring]
  | binary operator l r ihl ihr => rw [fold, occurring_foldBinary, ihl, ihr, occurring]

/-- The parameters are some of the variables. -/
theorem parameters_eq (e : Expression) :
    e.parameters = e.occurring.flatMap fun name => (var name).parameters := by
  induction e with
  | number value => rfl
  | var name => rw [occurring, List.flatMap_singleton]
  | negate operand ih => rw [parameters, occurring, ih]
  | binary operator l r ihl ihr => rw [parameters, occurring, List.flatMap_append, ihl, ihr]

/-- Folding drops no parameter. -/
theorem parameters_fold (e : Expression) : e.fold.parameters = e.parameters := by
  rw [parameters_eq, parameters_eq, occurring_fold]

theorem ready_negate_iff {operand : Expression} :
    (negate operand).Ready ↔ ∃ x, operand = number x := by
  constructor
  · intro ready
    cases ready with
    | negate x => exact ⟨x, rfl⟩
  · rintro ⟨x, rfl⟩
    exact .negate x

theorem ready_binary_iff {operator : Operator} {l r : Expression} :
    (binary operator l r).Ready ↔ ∃ x y, l = number x ∧ r = number y := by
  constructor
  · intro ready
    cases ready with
    | binary _ x y => exact ⟨x, y, rfl, rfl⟩
  · rintro ⟨x, y, rfl, rfl⟩
    exact .binary operator x y

theorem reduced_number (x : Binary32) : (number x).Reduced := by
  intro part mem ready
  rw [List.mem_singleton.1 mem] at ready
  cases ready

theorem reduced_var (name : Variable) : (var name).Reduced := by
  intro part mem ready
  rw [List.mem_singleton.1 mem] at ready
  cases ready

theorem reduced_negate_iff {operand : Expression} :
    (negate operand).Reduced ↔ ¬ (negate operand).Ready ∧ operand.Reduced :=
  List.forall_mem_cons

theorem reduced_binary_iff {operator : Operator} {l r : Expression} :
    (binary operator l r).Reduced ↔ ¬ (binary operator l r).Ready ∧ l.Reduced ∧ r.Reduced := by
  rw [Reduced, parts, List.forall_mem_cons, List.forall_mem_append]
  rfl

theorem foldNegate_of_not_ready {e : Expression} (h : ¬ (negate e).Ready) :
    foldNegate e = negate e := by
  unfold foldNegate
  split
  · exact absurd (.negate _) h
  · rfl

theorem foldBinary_of_not_ready {operator : Operator} {l r : Expression}
    (h : ¬ (binary operator l r).Ready) : foldBinary operator l r = binary operator l r := by
  unfold foldBinary
  split
  · exact absurd (.binary operator _ _) h
  · rfl

theorem foldNegate_reduced {e : Expression} (h : e.Reduced) : (foldNegate e).Reduced := by
  by_cases ready : (negate e).Ready
  · obtain ⟨x, rfl⟩ := ready_negate_iff.1 ready
    exact reduced_number _
  · rw [foldNegate_of_not_ready ready]
    exact reduced_negate_iff.2 ⟨ready, h⟩

theorem foldBinary_reduced (operator : Operator) {l r : Expression} (hl : l.Reduced)
    (hr : r.Reduced) : (foldBinary operator l r).Reduced := by
  by_cases ready : (binary operator l r).Ready
  · obtain ⟨x, y, rfl, rfl⟩ := ready_binary_iff.1 ready
    exact reduced_number _
  · rw [foldBinary_of_not_ready ready]
    exact reduced_binary_iff.2 ⟨ready, hl, hr⟩

theorem fold_reduced (e : Expression) : e.fold.Reduced := by
  induction e with
  | number value => exact reduced_number value
  | var name => exact reduced_var name
  | negate operand ih => exact foldNegate_reduced ih
  | binary operator l r ihl ihr => exact foldBinary_reduced operator ihl ihr

/-- Folding leaves alone what has nothing to compute. -/
theorem fold_of_reduced {e : Expression} (h : e.Reduced) : e.fold = e := by
  induction e with
  | number value => rfl
  | var name => rfl
  | negate operand ih =>
    obtain ⟨still, inner⟩ := reduced_negate_iff.1 h
    rw [fold, ih inner, foldNegate_of_not_ready still]
  | binary operator l r ihl ihr =>
    obtain ⟨still, left, right⟩ := reduced_binary_iff.1 h
    rw [fold, ihl left, ihr right, foldBinary_of_not_ready still]

/-- Without variables there is nothing but a number left when all is computed. -/
theorem Reduced.eq_number {e : Expression} (h : e.Reduced) (closed : e.occurring = []) :
    ∃ x, e = number x := by
  induction e with
  | number value => exact ⟨value, rfl⟩
  | var name => cases closed
  | negate operand ih =>
    obtain ⟨still, inner⟩ := reduced_negate_iff.1 h
    exact absurd (ready_negate_iff.2 (ih inner closed)) still
  | binary operator l r ihl ihr =>
    obtain ⟨still, left, right⟩ := reduced_binary_iff.1 h
    obtain ⟨none, none'⟩ := List.append_eq_nil_iff.1 closed
    obtain ⟨x, hx⟩ := ihl left none
    obtain ⟨y, hy⟩ := ihr right none'
    exact absurd (ready_binary_iff.2 ⟨x, y, hx, hy⟩) still

/-- **Folding computes what can be computed, and nothing else changes.** In every scope a folded
expression has the value of the expression, or wants the same parameter first; it is a number if and
only if the expression has no variables; none of its operators has only numbers to work on; it has
the same variables in the same order; and folding it once more changes nothing. -/
theorem fold_normalizes (e : Expression) :
    (∀ scope : Scope, e.fold.eval scope = e.eval scope) ∧
      ((∃ value, e.fold = number value) ↔ e.occurring = []) ∧
      e.fold.Reduced ∧ e.fold.occurring = e.occurring ∧ e.fold.fold = e.fold := by
  have number_iff : (∃ value, e.fold = number value) ↔ e.occurring = [] := by
    constructor
    · rintro ⟨value, eq⟩
      rw [← occurring_fold, eq, occurring]
    · intro closed
      exact (fold_reduced e).eq_number (by rw [occurring_fold, closed])
  exact ⟨fun scope => eval_fold scope e, number_iff, fold_reduced e, occurring_fold e,
    fold_of_reduced (fold_reduced e)⟩

/-- Dividing by zero is computed as well; a product with zero waits for its parameter. -/
example :
    (binary .add (binary .mul (number 0) (var (.parameter 1)))
        (negate (binary .div (number 1) (number 0)))).fold =
      binary .add (binary .mul (number 0) (var (.parameter 1))) (number (.infinite true)) := by
  decide +kernel

end Danmaku.Expression
