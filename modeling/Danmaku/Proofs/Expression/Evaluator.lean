import Danmaku.Expression.Evaluator
import Danmaku.Proofs.Expression.Backtracking

/-!
# What the value of a text depends on

An evaluator remembers the expressions of the texts that it has read. As long as it remembers them
right, they make no difference to a value. The random number makes none either, unless the text
names it.
-/

namespace Danmaku

namespace Evaluator

/-- Whatever is remembered is the expression of its text. -/
def Faithful (v : Evaluator) : Prop :=
  ∀ entry ∈ v.cache, Expression.parse entry.1 = .ok entry.2

/-- The value of a text that is read anew. -/
def evaluateAnew (v : Evaluator) (text : String) : Evaluation :=
  if (Text.trim text).isEmpty then ⟨.ok 0, []⟩
  else
    match Expression.parse (Text.trim text) with
    | .error place => ⟨.error (.malformed place), []⟩
    | .ok e => v.evaluateExpression e

/-- The evaluator under parameters, with a random number. -/
def within (v : Evaluator) (p : Parameters) (random : Binary32) : Evaluator :=
  { v with parameters := p, random }

theorem Faithful.within {v : Evaluator} (h : v.Faithful) (p : Parameters) (random : Binary32) :
    (v.within p random).Faithful := h

theorem Faithful.lookup {v : Evaluator} (h : v.Faithful) {text : String} {e : Expression}
    (found : v.cache.lookup text = some e) : Expression.parse text = .ok e := by
  obtain ⟨before, after, eq, -⟩ := List.lookup_eq_some_iff.1 found
  exact h (text, e) (by simp [eq])

/-- What is remembered makes no difference. -/
theorem evaluate_anew {v : Evaluator} (h : v.Faithful) (text : String) :
    (v.evaluate text).1 = v.evaluateAnew text := by
  unfold evaluate evaluateAnew
  by_cases blank : (Text.trim text).isEmpty = true
  · simp only [blank, ↓reduceIte]
  · simp only [blank, Bool.false_eq_true, ↓reduceIte]
    cases found : v.cache.lookup (Text.trim text) with
    | some e => simp only [h.lookup found]
    | none => cases Expression.parse (Text.trim text) <;> rfl

/-- What was in an evaluator before makes no difference, but for the rules. -/
theorem within_congr {v v' : Evaluator} (rank : v'.rank = v.rank) (policy : v'.policy = v.policy)
    (p : Parameters) (random : Binary32) (text : String) :
    (v'.within p random).evaluateAnew text = (v.within p random).evaluateAnew text := by
  have expression (e : Expression) : (v'.within p random).evaluateExpression e =
      (v.within p random).evaluateExpression e := by
    obtain ⟨_, _, _, _, _⟩ := v
    obtain ⟨_, _, _, _, _⟩ := v'
    cases rank
    cases policy
    rfl
  simp only [evaluateAnew, expression]

theorem evaluate_faithful {v : Evaluator} (h : v.Faithful) (text : String) :
    (v.evaluate text).2.Faithful := by
  unfold evaluate
  dsimp only
  split
  · exact h
  · split
    · exact h
    · split
      · exact h
      · rename_i e parsed
        intro entry mem
        rcases List.mem_cons.1 mem with rfl | mem
        · exact parsed
        · exact h entry mem

/-- Evaluation changes nothing but what is remembered. -/
theorem evaluate_keeps (v : Evaluator) (text : String) :
    ∃ cache, (v.evaluate text).2 = { v with cache } := by
  unfold evaluate
  dsimp only
  split
  · exact ⟨_, rfl⟩
  · split
    · exact ⟨_, rfl⟩
    · split <;> exact ⟨_, rfl⟩

end Evaluator

namespace Expression

/-- The random number occurs. -/
def Chances : Expression → Prop
  | var .random => True
  | negate operand => operand.Chances
  | binary _ left right => left.Chances ∨ right.Chances
  | _ => False

theorem Names.chances {t : List Char} (h : Names t .random) : "$rand".toList <:+: t := by
  cases h
  exact List.infix_rfl

theorem Spells.chances {level : Level} {t : List Char} {e : Expression} (h : Spells level t e)
    (chances : e.Chances) : "$rand".toList <:+: t := by
  induction h with
  | number => exact chances.elim
  | @«variable» t v h =>
    cases v with
    | random => exact h.chances
    | rank | parameter => exact chances.elim
  | @group w t w' e _ _ _ ih =>
    have inner : t <:+: '(' :: (w ++ (t ++ (w' ++ [')']))) := ⟨'(' :: w, w' ++ [')'], by simp⟩
    exact (ih chances).trans inner
  | @negate w t e _ _ ih =>
    have inner : t <:+: '-' :: (w ++ t) := ⟨'-' :: w, [], by simp⟩
    exact (ih chances).trans inner
  | atom _ ih | factor _ ih | product _ ih => exact ih chances
  | @scale t w w' t' sign _ _ _ _ _ _ _ _ ihl ihr
  | @shift t w w' t' sign _ _ _ _ _ _ _ _ ihl ihr =>
    rcases chances with left | right
    · exact (ihl left).trans (List.prefix_append _ _).isInfix
    · have inner : t' <:+: t ++ (w ++ sign :: (w' ++ t')) :=
        ⟨t ++ (w ++ sign :: w'), [], by simp⟩
      exact (ihr right).trans inner

theorem Derives.chances {t : List Char} {e : Expression} (h : Derives t e) (chances : e.Chances) :
    "$rand".toList <:+: t := by
  obtain ⟨-, spells, -⟩ := h
  exact (spells.chances chances).trans (List.infix_append' _ _ _)

theorem foldNegate_chances {e : Expression} (h : (foldNegate e).Chances) : e.Chances := by
  cases e <;> exact h

theorem foldBinary_chances {operator : Operator} {l r : Expression}
    (h : (foldBinary operator l r).Chances) : l.Chances ∨ r.Chances := by
  unfold foldBinary at h
  split at h
  · exact h.elim
  · exact h

theorem fold_chances {e : Expression} (h : e.fold.Chances) : e.Chances := by
  induction e with
  | number | var => exact h
  | negate operand ih => exact ih (foldNegate_chances h)
  | binary operator l r ihl ihr =>
    rcases foldBinary_chances h with left | right
    · exact .inl (ihl left)
    · exact .inr (ihr right)

theorem parse_chances {text : String} {e : Expression} (h : parse text = .ok e)
    (chances : e.Chances) : "$rand".toList <:+: text.toList := by
  unfold parse at h
  split at h
  · rename_i e' read
    cases h
    exact (readAll_sound read).chances (fold_chances chances)
  · cases h

/-- Without the random number in it, an expression has the same value whatever that number is. -/
theorem eval_random {e : Expression} (h : ¬ e.Chances) (scope : Scope) (random : Binary32) :
    e.eval { scope with random } = e.eval scope := by
  induction e with
  | number => rfl
  | var name =>
    cases name with
    | random => exact absurd trivial h
    | rank | parameter => rfl
  | negate operand ih => simp only [eval, ih h]
  | binary operator l r ihl ihr =>
    have left : ¬ l.Chances := fun chances => h (.inl chances)
    have right : ¬ r.Chances := fun chances => h (.inr chances)
    simp only [eval, ihl left, ihr right]

end Expression

theorem Text.trim_infix (s : String) : (trim s).toList <:+: s.toList := by
  simp only [trim, String.toList_ofList, trimList]
  have back (cs : List Char) : (cs.reverse.dropWhile isBlank).reverse <+: cs := by
    have suffix := (List.dropWhile_suffix (p := isBlank) (l := cs.reverse))
    simpa using List.reverse_prefix.2 suffix
  exact (back _).isInfix.trans (List.dropWhile_suffix isBlank).isInfix

namespace Evaluator

theorem evaluateExpression_random {e : Expression} (h : ¬ e.Chances) (v : Evaluator)
    (random : Binary32) :
    ({ v with random } : Evaluator).evaluateExpression e = v.evaluateExpression e := by
  have eval : e.eval ({ v with random } : Evaluator).scope = e.eval v.scope :=
    Expression.eval_random h v.scope random
  simp only [evaluateExpression, eval]
  rfl

/-- A text that does not name the random number has the same value whatever that number is. -/
theorem evaluateAnew_random {text : String} (free : ¬ "$rand".toList <:+: text.toList)
    (v : Evaluator) (random : Binary32) :
    ({ v with random } : Evaluator).evaluateAnew text = v.evaluateAnew text := by
  unfold evaluateAnew
  split
  · rfl
  · cases parsed : Expression.parse (Text.trim text) with
    | error place => rfl
    | ok e =>
      have none : ¬ e.Chances := fun chances =>
        free ((Expression.parse_chances parsed chances).trans (Text.trim_infix text))
      exact evaluateExpression_random none v random

theorem within_random {text : String} (free : ¬ "$rand".toList <:+: text.toList) (v : Evaluator)
    (p : Parameters) (random random' : Binary32) :
    (v.within p random').evaluateAnew text = (v.within p random).evaluateAnew text :=
  evaluateAnew_random free (v.within p random) random'

end Evaluator

end Danmaku
