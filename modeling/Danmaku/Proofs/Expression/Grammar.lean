import Danmaku.Proofs.Expression.Reader
import Mathlib.Data.List.DropRight
import Mathlib.Data.List.TakeWhile

/-!
# The grammar of expressions

`Spells` is the grammar: sums of products of factors, with every chain of operators to the left.
`Spells.reads` shows that the reader takes all of a text that the grammar derives, whatever follows,
as long as it cannot be a continuation; `readSum_sound` that it takes nothing else. So the reader
gives the expressions that are derived from whole texts, and no others (`Derives.readWhole`,
`readWhole_sound`).
-/

namespace Danmaku.Expression

/-- A run of spaces, tabs and line ends. -/
def Blank (w : List Char) : Prop := ∀ c ∈ w, c = ' ' ∨ c = '\t' ∨ c = '\r' ∨ c = '\n'

/-- A run of decimal digits. -/
def Digits (w : List Char) : Prop := ∀ c ∈ w, c.isDigit = true

/-- Digits, perhaps with a point after or among them, or a point and digits. -/
inductive Numeral : List Char → Binary32 → Prop
  | whole {w : List Char} (some : w ≠ []) (digits : Digits w) :
      Numeral w (.ofDecimal (naturalOfDigits w) 0)
  | pointed {w f : List Char} (some : w ≠ []) (digits : Digits w) (fraction : Digits f) :
      Numeral (w ++ '.' :: f) (.ofDecimal (naturalOfDigits (w ++ f)) f.length)
  | fraction {f : List Char} (some : f ≠ []) (fraction : Digits f) :
      Numeral ('.' :: f) (.ofDecimal (naturalOfDigits f) f.length)

inductive Names : List Char → Variable → Prop
  | random : Names ['$', 'r', 'a', 'n', 'd'] .random
  | rank : Names ['$', 'r', 'a', 'n', 'k'] .rank
  | parameter {w : List Char} (some : w ≠ []) (digits : Digits w)
      (small : naturalOfDigits w < 2 ^ 64) : Names ('$' :: w) (.parameter (naturalOfDigits w))

/-- The signs within a product. -/
inductive Scales : Char → Operator → Prop
  | mul : Scales '*' .mul
  | div : Scales '/' .div
  | mod : Scales '%' .mod

/-- The signs within a sum. -/
inductive Shifts : Char → Operator → Prop
  | add : Shifts '+' .add
  | sub : Shifts '-' .sub

inductive Level where
  | sum
  | product
  | factor
  | atom

/-- The texts of each level, and the expressions that they stand for. -/
inductive Spells : Level → List Char → Expression → Prop
  | number {t : List Char} {x : Binary32} (h : Numeral t x) : Spells .atom t (.number x)
  | variable {t : List Char} {v : Variable} (h : Names t v) : Spells .atom t (.var v)
  | group {w t w' : List Char} {e : Expression} (before : Blank w) (h : Spells .sum t e)
      (after : Blank w') : Spells .atom ('(' :: (w ++ (t ++ (w' ++ [')'])))) e
  | negate {w t : List Char} {e : Expression} (before : Blank w) (h : Spells .atom t e) :
      Spells .factor ('-' :: (w ++ t)) (.negate e)
  | atom {t : List Char} {e : Expression} (h : Spells .atom t e) : Spells .factor t e
  | factor {t : List Char} {e : Expression} (h : Spells .factor t e) : Spells .product t e
  | scale {t w w' t' : List Char} {sign : Char} {operator : Operator} {l r : Expression}
      (left : Spells .product t l) (before : Blank w) (means : Scales sign operator)
      (after : Blank w') (right : Spells .factor t' r) :
      Spells .product (t ++ (w ++ sign :: (w' ++ t'))) (.binary operator l r)
  | product {t : List Char} {e : Expression} (h : Spells .product t e) : Spells .sum t e
  | shift {t w w' t' : List Char} {sign : Char} {operator : Operator} {l r : Expression}
      (left : Spells .sum t l) (before : Blank w) (means : Shifts sign operator)
      (after : Blank w') (right : Spells .product t' r) :
      Spells .sum (t ++ (w ++ sign :: (w' ++ t'))) (.binary operator l r)

/-- A whole text: a sum with blanks around it. -/
inductive Derives : List Char → Expression → Prop
  | sum {w t w' : List Char} {e : Expression} (before : Blank w) (h : Spells .sum t e)
      (after : Blank w') : Derives (w ++ (t ++ w')) e

theorem isSpace_eq_true_iff {c : Char} :
    isSpace c = true ↔ c = ' ' ∨ c = '\t' ∨ c = '\r' ∨ c = '\n' := by
  simp [isSpace, or_assoc]

theorem blank_takeWhile (s : List Char) : Blank (s.takeWhile isSpace) :=
  fun _ mem => isSpace_eq_true_iff.1 (List.mem_takeWhile_imp mem)

theorem digits_takeWhile (s : List Char) : Digits (s.takeWhile Char.isDigit) :=
  fun _ mem => List.mem_takeWhile_imp mem

theorem blank_nil : Blank [] := by
  intro c mem
  cases mem

theorem skipSpace_append {w : List Char} (h : Blank w) (s : List Char) :
    skipSpace (w ++ s) = skipSpace s :=
  List.dropWhile_append_of_pos fun c mem => isSpace_eq_true_iff.2 (h c mem)

theorem skipSpace_cons {c : Char} (h : isSpace c = false) (s : List Char) :
    skipSpace (c :: s) = c :: s := by
  simp [skipSpace, h]

theorem skipSpace_blank {w : List Char} (h : Blank w) : skipSpace w = [] := by
  simpa [skipSpace] using skipSpace_append h []

/-- A text is a run of blanks and what is left without them. -/
theorem exists_blank (s : List Char) : ∃ w, Blank w ∧ s = w ++ skipSpace s :=
  ⟨s.takeWhile isSpace, blank_takeWhile s, List.takeWhile_append_dropWhile.symm⟩

theorem skipSpace_skipSpace (s : List Char) : skipSpace (skipSpace s) = skipSpace s :=
  List.dropWhile_idempotent isSpace s

theorem length_skipSpace_le (s : List Char) : (skipSpace s).length ≤ s.length :=
  List.length_dropWhile_le isSpace s

theorem skipSpace_suffix (s : List Char) : skipSpace s <:+ s := List.dropWhile_suffix isSpace

/-- A text is a run of digits and what comes after the last of them. -/
theorem exists_digits (s : List Char) : ∃ w u, s = w ++ u ∧ s.takeWhile Char.isDigit = w ∧
    s.dropWhile Char.isDigit = u ∧ Digits w ∧ ∀ c t, u = c :: t → c.isDigit = false := by
  refine ⟨_, _, List.takeWhile_append_dropWhile.symm, rfl, rfl, digits_takeWhile s, ?_⟩
  intro c t rest
  have head := List.head?_dropWhile_not Char.isDigit s
  rw [rest] at head
  simpa using head

theorem isSpace_of_isDigit {c : Char} (h : c.isDigit = true) : isSpace c = false := by
  by_contra space
  rw [Bool.not_eq_false, isSpace_eq_true_iff] at space
  rcases space with rfl | rfl | rfl | rfl <;> exact absurd h (by decide)

theorem multiplicative?_eq_some_iff {c : Char} {operator : Operator} :
    multiplicative? c = some operator ↔ Scales c operator := by
  constructor
  · intro h
    unfold multiplicative? at h
    split at h <;> cases h <;> constructor
  · intro h
    cases h <;> rfl

theorem additive?_eq_some_iff {c : Char} {operator : Operator} :
    additive? c = some operator ↔ Shifts c operator := by
  constructor
  · intro h
    unfold additive? at h
    split at h <;> cases h <;> constructor
  · intro h
    cases h <;> rfl

theorem Scales.isSpace {c : Char} {operator : Operator} (h : Scales c operator) :
    isSpace c = false := by
  cases h <;> rfl

theorem Shifts.isSpace {c : Char} {operator : Operator} (h : Shifts c operator) :
    isSpace c = false := by
  cases h <;> rfl

theorem Shifts.multiplicative? {c : Char} {operator : Operator} (h : Shifts c operator) :
    multiplicative? c = none := by
  cases h <;> rfl

/-- No digit and no point comes next, so that a number is over. -/
def Apart (r : List Char) : Prop := ∀ c s, r = c :: s → c.isDigit = false ∧ c ≠ '.'

/-- No operator of these comes next, so that a chain is over. -/
def Halts (operator? : Char → Option Operator) (r : List Char) : Prop :=
  ∀ c s, skipSpace r = c :: s → operator? c = none

theorem apart_nil : Apart [] := by
  intro c s eq
  cases eq

theorem apart_cons {c : Char} (digit : c.isDigit = false) (point : c ≠ '.') (s : List Char) :
    Apart (c :: s) := by
  intro c' s' eq
  cases eq
  exact ⟨digit, point⟩

theorem Scales.apart {c : Char} {operator : Operator} (h : Scales c operator) (s : List Char) :
    Apart (c :: s) := by
  cases h <;> exact apart_cons (by decide) (by decide) s

theorem Shifts.apart {c : Char} {operator : Operator} (h : Shifts c operator) (s : List Char) :
    Apart (c :: s) := by
  cases h <;> exact apart_cons (by decide) (by decide) s

theorem Apart.blank_append {w s : List Char} (blank : Blank w) (h : Apart s) :
    Apart (w ++ s) := by
  cases w with
  | nil => exact h
  | cons c w =>
    have space := blank c List.mem_cons_self
    rcases space with rfl | rfl | rfl | rfl <;> exact apart_cons (by decide) (by decide) _

theorem Apart.takeWhile {r : List Char} (h : Apart r) : r.takeWhile Char.isDigit = [] := by
  cases r with
  | nil => rfl
  | cons c s => simp [(h c s rfl).1]

theorem Apart.dropWhile {r : List Char} (h : Apart r) : r.dropWhile Char.isDigit = r := by
  cases r with
  | nil => rfl
  | cons c s => simp [(h c s rfl).1]

theorem halts_blank {w : List Char} (blank : Blank w) (operator? : Char → Option Operator) :
    Halts operator? w := by
  intro c s eq
  rw [skipSpace_blank blank] at eq
  cases eq

theorem halts_cons {operator? : Char → Option Operator} {w : List Char} {c : Char}
    (blank : Blank w) (space : isSpace c = false) (none : operator? c = none) (s : List Char) :
    Halts operator? (w ++ c :: s) := by
  intro c' s' eq
  rw [skipSpace_append blank, skipSpace_cons space] at eq
  cases eq
  exact none

/-- A character that an atom begins with. -/
def Opens (c : Char) : Prop := c.isDigit = true ∨ c = '.' ∨ c = '(' ∨ c = '$'

theorem Numeral.head {t : List Char} {x : Binary32} (h : Numeral t x) :
    ∃ c s, t = c :: s ∧ (c.isDigit = true ∨ c = '.') := by
  cases h with
  | whole some digits =>
    obtain ⟨c, s, rfl⟩ := List.exists_cons_of_ne_nil some
    exact ⟨c, s, rfl, .inl (digits c List.mem_cons_self)⟩
  | @pointed w f some digits =>
    obtain ⟨c, s, rfl⟩ := List.exists_cons_of_ne_nil some
    exact ⟨c, s ++ '.' :: f, rfl, .inl (digits c List.mem_cons_self)⟩
  | @fraction f => exact ⟨'.', f, rfl, .inr rfl⟩

/-- Only a factor begins with a minus sign, and so do products and sums that begin with one. -/
theorem Spells.head {level : Level} {t : List Char} {e : Expression} (h : Spells level t e) :
    ∃ c s, t = c :: s ∧ (Opens c ∨ level ≠ .atom ∧ c = '-') := by
  induction h with
  | number h =>
    obtain ⟨c, s, rfl, digit | point⟩ := h.head
    · exact ⟨c, s, rfl, .inl (.inl digit)⟩
    · exact ⟨c, s, rfl, .inl (.inr (.inl point))⟩
  | «variable» h => cases h <;> exact ⟨_, _, rfl, .inl (.inr (.inr (.inr rfl)))⟩
  | group => exact ⟨_, _, rfl, .inl (.inr (.inr (.inl rfl)))⟩
  | negate => exact ⟨_, _, rfl, .inr ⟨by simp, rfl⟩⟩
  | atom _ ih =>
    obtain ⟨c, s, rfl, opens | ⟨atom, -⟩⟩ := ih
    · exact ⟨c, s, rfl, .inl opens⟩
    · exact absurd rfl atom
  | factor _ ih | product _ ih =>
    obtain ⟨c, s, rfl, opens | ⟨-, minus⟩⟩ := ih
    · exact ⟨c, s, rfl, .inl opens⟩
    · exact ⟨c, s, rfl, .inr ⟨by simp, minus⟩⟩
  | scale _ _ _ _ _ ih | shift _ _ _ _ _ ih =>
    obtain ⟨c, s, rfl, opens | ⟨-, minus⟩⟩ := ih
    · exact ⟨c, _, rfl, .inl opens⟩
    · exact ⟨c, _, rfl, .inr ⟨by simp, minus⟩⟩

theorem Spells.atom_head {t : List Char} {e : Expression} (h : Spells .atom t e) :
    ∃ c s, t = c :: s ∧ Opens c := by
  obtain ⟨c, s, rfl, opens | ⟨atom, -⟩⟩ := h.head
  · exact ⟨c, s, rfl, opens⟩
  · exact absurd rfl atom

theorem Opens.ne_minus {c : Char} (h : Opens c) : c ≠ '-' := by
  rintro rfl
  rcases h with h | h | h | h <;> exact absurd h (by decide)

theorem Opens.isSpace {c : Char} (h : Opens c) : isSpace c = false := by
  rcases h with digit | rfl | rfl | rfl
  · exact isSpace_of_isDigit digit
  all_goals rfl

theorem Spells.ne_nil {level : Level} {t : List Char} {e : Expression} (h : Spells level t e) :
    0 < t.length := by
  obtain ⟨c, s, rfl, -⟩ := h.head
  exact Nat.succ_pos _

theorem Spells.skipSpace {level : Level} {t : List Char} {e : Expression} (h : Spells level t e)
    (r : List Char) : Expression.skipSpace (t ++ r) = t ++ r := by
  obtain ⟨c, s, rfl, opens | ⟨-, rfl⟩⟩ := h.head
  · exact skipSpace_cons opens.isSpace _
  · exact skipSpace_cons rfl _

theorem takeWhile_digits {w : List Char} (h : Digits w) (r : List Char) :
    (w ++ r).takeWhile Char.isDigit = w ++ r.takeWhile Char.isDigit :=
  List.takeWhile_append_of_pos h

theorem dropWhile_digits {w : List Char} (h : Digits w) (r : List Char) :
    (w ++ r).dropWhile Char.isDigit = r.dropWhile Char.isDigit :=
  List.dropWhile_append_of_pos h

/-- After the digits, no point: the number is whole. -/
theorem readNumber_whole {w r : List Char} (some : w ≠ []) (digits : Digits w) (apart : Apart r) :
    readNumber (w ++ r) = .done (number (.ofDecimal (naturalOfDigits w) 0)) r := by
  unfold readNumber
  simp only [takeWhile_digits digits, dropWhile_digits digits, apart.takeWhile, apart.dropWhile,
    List.append_nil]
  split
  · rename_i s
    exact absurd rfl (apart '.' s rfl).2
  · simp [some]

theorem readNumber_pointed {w f r : List Char} (some : w ≠ [] ∨ f ≠ []) (digits : Digits w)
    (fraction : Digits f) (apart : Apart r) :
    readNumber (w ++ '.' :: (f ++ r)) =
      .done (number (.ofDecimal (naturalOfDigits (w ++ f)) f.length)) r := by
  have point : ('.' : Char).isDigit = false := by decide
  unfold readNumber
  simp only [takeWhile_digits digits, dropWhile_digits digits, takeWhile_digits fraction,
    dropWhile_digits fraction, apart.takeWhile, apart.dropWhile, List.append_nil,
    List.takeWhile_cons, List.dropWhile_cons, point, Bool.false_eq_true, ↓reduceIte]
  rw [if_neg (by simpa [imp_iff_not_or] using some)]

theorem Numeral.reads {t r : List Char} {x : Binary32} (h : Numeral t x) (apart : Apart r) :
    readNumber (t ++ r) = .done (number x) r := by
  cases h with
  | whole some digits => exact readNumber_whole some digits apart
  | pointed some digits fraction =>
    rw [List.append_assoc, List.cons_append]
    exact readNumber_pointed (.inl some) digits fraction apart
  | fraction some fraction =>
    have none : Digits [] := fun _ mem => absurd mem List.not_mem_nil
    exact readNumber_pointed (.inr some) none fraction apart

theorem readNumber_sound {s r : List Char} {e : Expression} (h : readNumber s = .done e r) :
    ∃ t x, s = t ++ r ∧ Numeral t x ∧ e = .number x := by
  have split_eq : s.takeWhile Char.isDigit ++ s.dropWhile Char.isDigit = s :=
    List.takeWhile_append_dropWhile
  have digits := digits_takeWhile s
  unfold readNumber at h
  generalize s.takeWhile Char.isDigit = w at *
  dsimp only at h
  split at h
  · rename_i after eq
    rw [eq] at split_eq
    have fraction := digits_takeWhile after
    have after_eq : after.takeWhile Char.isDigit ++ after.dropWhile Char.isDigit = after :=
      List.takeWhile_append_dropWhile
    generalize after.takeWhile Char.isDigit = f at *
    split at h
    · cases h
    · rename_i some
      cases h
      refine ⟨w ++ '.' :: f, _, by simp [← split_eq, after_eq], ?_, rfl⟩
      cases w with
      | nil => exact .fraction (by simpa using some) fraction
      | cons c w => exact .pointed (by simp) digits fraction
  · split at h
    · cases h
    · rename_i some
      cases h
      exact ⟨w, _, split_eq.symm, .whole (by simpa using some) digits, rfl⟩

theorem Names.reads {t r : List Char} {v : Variable} (h : Names ('$' :: t) v) (apart : Apart r) :
    readVariable (t ++ r) = .done (.var v) r := by
  cases h with
  | random => rfl
  | rank => rfl
  | parameter some digits small =>
    obtain ⟨c, w, rfl⟩ := List.exists_cons_of_ne_nil some
    have digit := digits c List.mem_cons_self
    unfold readVariable
    split
    · rename_i eq
      cases (List.cons.inj eq).1
      exact absurd digit (by decide)
    · rename_i eq
      cases (List.cons.inj eq).1
      exact absurd digit (by decide)
    · simp only [takeWhile_digits digits, dropWhile_digits digits, apart.takeWhile,
        apart.dropWhile, List.append_nil]
      have below : naturalOfDigits (c :: w) < indexBound := small
      rw [if_neg (by simpa using below)]

theorem readVariable_sound {s r : List Char} {e : Expression} (h : readVariable s = .done e r) :
    ∃ t v, s = t ++ r ∧ Names ('$' :: t) v ∧ e = .var v := by
  unfold readVariable at h
  split at h
  · cases h
    exact ⟨['r', 'a', 'n', 'd'], _, rfl, .random, rfl⟩
  · cases h
    exact ⟨['r', 'a', 'n', 'k'], _, rfl, .rank, rfl⟩
  · dsimp only at h
    split at h
    · cases h
    · rename_i small
      cases h
      simp only [Bool.or_eq_true, List.isEmpty_iff, decide_eq_true_eq, not_or, Nat.not_le] at small
      exact ⟨s.takeWhile Char.isDigit, _, List.takeWhile_append_dropWhile.symm,
        .parameter small.1 (digits_takeWhile s) small.2, rfl⟩

/-! ## What is read is derived -/

theorem Reading.andThen_eq_done {α β : Type} {x : Reading α} {f : α → List Char → Reading β}
    {b : β} {r : List Char} :
    x.andThen f = .done b r ↔ ∃ a s, x = .done a s ∧ f a s = .done b r := by
  cases x with
  | failed s => simp [Reading.andThen]
  | done a s =>
    constructor
    · exact fun h => ⟨a, s, rfl, h⟩
    · rintro ⟨a', s', eq, h⟩
      cases eq
      exact h

theorem Reading.andThen_eq_failed {α β : Type} {x : Reading α} {f : α → List Char → Reading β}
    {u : List Char} :
    x.andThen f = .failed u ↔ x = .failed u ∨ ∃ a s, x = .done a s ∧ f a s = .failed u := by
  cases x with
  | failed s => simp [Reading.andThen]
  | done a s =>
    constructor
    · exact fun h => .inr ⟨a, s, rfl, h⟩
    · rintro (h | ⟨a', s', eq, h⟩)
      · cases h
      · cases eq
        exact h

/-- What a reader takes is a text of the level, and stands for what it gives. -/
def Sound (level : Level) (read : List Char → Reading Expression) : Prop :=
  ∀ s e r, read s = .done e r → ∃ t, s = t ++ r ∧ Spells level t e

theorem Sound.length_lt {level : Level} {read : List Char → Reading Expression}
    (sound : Sound level read) {s r : List Char} {e : Expression} (h : read s = .done e r) :
    r.length < s.length := by
  obtain ⟨t, rfl, spells⟩ := sound _ _ _ h
  have some := spells.ne_nil
  rw [List.length_append]
  omega

section Sound

variable {nested : List Char → Reading Expression}

theorem readAtom_sound (sound : Sound .sum nested) : Sound .atom (readAtom nested) := by
  intro s e r h
  unfold readAtom at h
  split at h
  · rename_i s
    obtain ⟨e', s', inner, closing⟩ := Reading.andThen_eq_done.1 h
    obtain ⟨w, blank, eq⟩ := exists_blank s
    obtain ⟨t, eq', spells⟩ := sound _ _ _ inner
    obtain ⟨w', blank', eq''⟩ := exists_blank s'
    split at closing
    · rename_i after parenthesis
      cases closing
      rw [parenthesis] at eq''
      refine ⟨_, ?_, .group blank spells blank'⟩
      rw [eq, eq', eq'']
      simp
    · cases closing
  · obtain ⟨t, v, rfl, names, rfl⟩ := readVariable_sound h
    exact ⟨'$' :: t, rfl, .variable names⟩
  · obtain ⟨t, x, rfl, numeral, rfl⟩ := readNumber_sound h
    exact ⟨t, rfl, .number numeral⟩

theorem readFactor_sound (sound : Sound .sum nested) : Sound .factor (readFactor nested) := by
  intro s e r h
  unfold readFactor at h
  split at h
  · rename_i s
    obtain ⟨e', s', inner, negated⟩ := Reading.andThen_eq_done.1 h
    cases negated
    obtain ⟨w, blank, eq⟩ := exists_blank s
    obtain ⟨t, eq', spells⟩ := readAtom_sound sound _ _ _ inner
    refine ⟨_, ?_, .negate blank spells⟩
    rw [eq, eq']
    simp
  · obtain ⟨t, rfl, spells⟩ := readAtom_sound sound _ _ _ h
    exact ⟨t, rfl, .atom spells⟩

/-- A chain goes on as a text of its level does, if one more operand makes such a text. -/
theorem readChain_sound {level part : Level} {operator? : Char → Option Operator}
    {operand : List Char → Reading Expression} (sound : Sound part operand)
    (longer : ∀ {t w w' t' sign operator l r}, Spells level t l → Blank w →
      operator? sign = some operator → Blank w' → Spells part t' r →
      Spells level (t ++ (w ++ sign :: (w' ++ t'))) (.binary operator l r)) :
    ∀ (n : Nat) {t : List Char} {left : Expression}, Spells level t left → ∀ s e r,
      readChain operator? operand n left s = .done e r →
        ∃ t', s = t' ++ r ∧ Spells level (t ++ t') e := by
  intro n
  induction n with
  | zero =>
    intro t left spells s e r h
    cases h
    exact ⟨[], rfl, by simpa using spells⟩
  | succ n ih =>
    intro t left spells s e r h
    have stop : Reading.done left s = .done e r → ∃ t', s = t' ++ r ∧ Spells level (t ++ t') e := by
      intro h
      cases h
      exact ⟨[], rfl, by simpa using spells⟩
    obtain ⟨w, blank, eq⟩ := exists_blank s
    unfold readChain at h
    split at h
    · exact stop h
    · rename_i sign s' first
      split at h
      · exact stop h
      · rename_i operator means
        obtain ⟨right, s'', inner, more⟩ := Reading.andThen_eq_done.1 h
        obtain ⟨w', blank', eq'⟩ := exists_blank s'
        obtain ⟨t', eq'', spells'⟩ := sound _ _ _ inner
        obtain ⟨t'', rfl, whole⟩ := ih (longer spells blank means blank' spells') _ _ _ more
        -- With this operand the text so far is one of the level, from which the chain goes on.
        refine ⟨w ++ sign :: (w' ++ t') ++ t'', ?_, ?_⟩
        · rw [eq, first, eq', eq'']
          simp
        · simpa using whole

theorem readProduct_sound (sound : Sound .sum nested) (n : Nat) :
    Sound .product (readProduct nested n) := by
  intro s e r h
  obtain ⟨left, s', first, more⟩ := Reading.andThen_eq_done.1 h
  obtain ⟨t, rfl, spells⟩ := readFactor_sound sound _ _ _ first
  obtain ⟨t', rfl, whole⟩ := readChain_sound (readFactor_sound sound)
    (fun left before means after right =>
      .scale left before (multiplicative?_eq_some_iff.1 means) after right)
    n (.factor spells) _ _ _ more
  exact ⟨t ++ t', by simp, whole⟩

theorem readSum_sound (n : Nat) : Sound .sum (readSum n) := by
  induction n with
  | zero =>
    intro s e r h
    cases h
  | succ n ih =>
    intro s e r h
    obtain ⟨left, s', first, more⟩ := Reading.andThen_eq_done.1 h
    obtain ⟨t, rfl, spells⟩ := readProduct_sound ih n _ _ _ first
    obtain ⟨t', rfl, whole⟩ :=
      readChain_sound (readProduct_sound ih n)
        (fun left before means after right =>
          .shift left before (additive?_eq_some_iff.1 means) after right)
        n (.product spells) _ _ _ more
    exact ⟨t ++ t', by simp, whole⟩

end Sound

/-! ## What is derived is read -/

section Complete

variable {operator? : Char → Option Operator} {operand : List Char → Reading Expression}

theorem readChain_halts {r : List Char} (halts : Halts operator? r) (k : Nat) (e : Expression) :
    readChain operator? operand k e r = .done e r := by
  cases k with
  | zero => rfl
  | succ k =>
    unfold readChain
    split
    · rfl
    · rename_i c s first
      rw [halts c s first]

/-- One operator and its operand are taken at a time. -/
theorem readChain_step {w w' s r : List Char} {sign : Char} {operator : Operator}
    {right : Expression} (l : Expression) (blank : Blank w) (space : isSpace sign = false)
    (means : operator? sign = some operator) (blank' : Blank w') (starts : skipSpace s = s)
    (reads : operand s = .done right r) (k : Nat) :
    readChain operator? operand (k + 1) l (w ++ sign :: (w' ++ s)) =
      readChain operator? operand k (.binary operator l right) r := by
  simp only [readChain, skipSpace_append blank, skipSpace_cons space, means,
    skipSpace_append blank', starts, reads, Reading.andThen]

end Complete

/-- What the readers do with a text of a level when `r` follows. Of a product and of a sum, `j`
operators are taken before the chain goes on with `r`. -/
def Taken : Level → List Char → Expression → Prop
  | .atom, t, e => ∀ n r, t.length ≤ n + 1 → Apart r → readAtom (readSum n) (t ++ r) = .done e r
  | .factor, t, e =>
    ∀ n r, t.length ≤ n + 1 → Apart r → readFactor (readSum n) (t ++ r) = .done e r
  | .product, t, e => ∀ n r, t.length ≤ n + 1 → Apart r → ∃ j, j < t.length ∧ ∀ k,
      (readFactor (readSum n) (t ++ r)).andThen
          (readChain multiplicative? (readFactor (readSum n)) (j + k)) =
        readChain multiplicative? (readFactor (readSum n)) k e r
  | .sum, t, e => ∀ n r, t.length ≤ n + 1 → Apart r → Halts multiplicative? r →
      ∃ j, j < t.length ∧ ∀ k,
        (readProduct (readSum n) n (t ++ r)).andThen
            (readChain additive? (readProduct (readSum n) n) (j + k)) =
          readChain additive? (readProduct (readSum n) n) k e r

theorem Taken.readProduct {t r : List Char} {e : Expression} {n : Nat} (h : Taken .product t e)
    (le : t.length ≤ n + 1) (apart : Apart r) (halts : Halts multiplicative? r) :
    readProduct (readSum n) n (t ++ r) = .done e r := by
  obtain ⟨j, lt, taken⟩ := h n r le apart
  obtain ⟨k, rfl⟩ := Nat.exists_eq_add_of_le (show j ≤ n by omega)
  rw [Expression.readProduct, taken k, readChain_halts halts]

theorem Taken.readSum {t r : List Char} {e : Expression} {n : Nat} (h : Taken .sum t e)
    (le : t.length ≤ n + 1) (apart : Apart r) (product : Halts multiplicative? r)
    (sum : Halts additive? r) : readSum (n + 1) (t ++ r) = .done e r := by
  obtain ⟨j, lt, taken⟩ := h n r le apart product
  obtain ⟨k, eq⟩ := Nat.exists_eq_add_of_le (show j ≤ n by omega)
  have all := taken k
  rw [← eq] at all
  rw [Expression.readSum, all, readChain_halts sum]

theorem readAtom_number {nested : List Char → Reading Expression} {t r : List Char} {x : Binary32}
    (h : Numeral t x) (apart : Apart r) : readAtom nested (t ++ r) = .done (.number x) r := by
  have reads := h.reads apart
  obtain ⟨c, s, rfl, opens⟩ := h.head
  have parenthesis : c ≠ '(' := by
    rintro rfl
    rcases opens with h | h <;> exact absurd h (by decide)
  have dollar : c ≠ '$' := by
    rintro rfl
    rcases opens with h | h <;> exact absurd h (by decide)
  unfold readAtom
  split
  · rename_i eq
    exact absurd (List.cons.inj eq).1 parenthesis
  · rename_i eq
    exact absurd (List.cons.inj eq).1 dollar
  · exact reads

/-- What a level derives is taken, to its end. -/
theorem Spells.taken {level : Level} {t : List Char} {e : Expression} (h : Spells level t e) :
    Taken level t e := by
  induction h with
  | number h => exact fun n r _ apart => readAtom_number h apart
  | @«variable» t v h =>
    intro n r _ apart
    obtain ⟨s, rfl⟩ : ∃ s, t = '$' :: s := by cases h <;> exact ⟨_, rfl⟩
    exact h.reads apart
  | @group w t w' e before spells after ih =>
    intro n r le apart
    simp only [List.length_cons, List.length_append, List.length_nil] at le
    -- The parentheses are two characters, so one level less is enough for what is between them.
    obtain ⟨m, rfl⟩ : ∃ m, n = m + 1 := ⟨n - 1, by have := spells.ne_nil; omega⟩
    have closing : isSpace ')' = false := by decide
    have inner : readSum (m + 1) (t ++ (w' ++ ')' :: r)) = .done e (w' ++ ')' :: r) :=
      ih.readSum (by omega) (.blank_append after (apart_cons (by decide) (by decide) r))
        (halts_cons after closing rfl r) (halts_cons after closing rfl r)
    have text : '(' :: (w ++ (t ++ (w' ++ [')']))) ++ r =
        '(' :: (w ++ (t ++ (w' ++ ')' :: r))) := by simp
    rw [text]
    simp only [readAtom, skipSpace_append before, spells.skipSpace, inner, Reading.andThen,
      skipSpace_append after, skipSpace_cons closing]
  | @negate w t e before spells ih =>
    intro n r le apart
    simp only [List.length_cons, List.length_append] at le
    simp only [List.cons_append, List.append_assoc, readFactor, skipSpace_append before,
      spells.skipSpace, ih n r (by omega) apart, Reading.andThen]
  | atom spells ih =>
    intro n r le apart
    have reads := ih n r le apart
    obtain ⟨c, s, rfl, opens⟩ := spells.atom_head
    unfold readFactor
    split
    · rename_i eq
      exact absurd (List.cons.inj eq).1 opens.ne_minus
    · exact reads
  | factor spells ih =>
    intro n r le apart
    refine ⟨0, spells.ne_nil, fun k => ?_⟩
    rw [ih n r le apart, Nat.zero_add]
    rfl
  | @scale t w w' t' sign operator l r left before means after right ihl ihr =>
    intro n s le apart
    simp only [List.length_cons, List.length_append] at le
    obtain ⟨j, lt, taken⟩ := ihl n (w ++ sign :: (w' ++ (t' ++ s))) (by omega)
      (.blank_append before (means.apart _))
    -- The chain of the left part goes on with this operator, one of those that it had left.
    refine ⟨j + 1, by simp only [List.length_cons, List.length_append]; omega, fun k => ?_⟩
    have step := readChain_step l before means.isSpace (multiplicative?_eq_some_iff.2 means) after
      (right.skipSpace s) (ihr n s (by omega) apart) k
    rw [← step, ← taken (k + 1)]
    simp only [List.append_assoc, List.cons_append, Nat.add_assoc, Nat.add_comm 1 k]
  | product spells ih =>
    intro n r le apart halts
    refine ⟨0, spells.ne_nil, fun k => ?_⟩
    rw [ih.readProduct le apart halts, Nat.zero_add]
    rfl
  | @shift t w w' t' sign operator l r left before means after right ihl ihr =>
    intro n s le apart halts
    simp only [List.length_cons, List.length_append] at le
    have space := means.isSpace
    obtain ⟨j, lt, taken⟩ := ihl n (w ++ sign :: (w' ++ (t' ++ s))) (by omega)
      (.blank_append before (means.apart _))
      (halts_cons before space means.multiplicative? _)
    refine ⟨j + 1, by simp only [List.length_cons, List.length_append]; omega, fun k => ?_⟩
    have reads := ihr.readProduct (n := n) (by omega) apart halts
    have step := readChain_step l before space (additive?_eq_some_iff.2 means) after
      (right.skipSpace s) reads k
    rw [← step, ← taken (k + 1)]
    simp only [List.append_assoc, List.cons_append, Nat.add_assoc, Nat.add_comm 1 k]

theorem readWhole_sound {s : List Char} {e : Expression} (h : readWhole s = .ok e) :
    Derives s e := by
  unfold Expression.readWhole at h
  split at h
  · cases h
  · rename_i e' r inner
    split at h
    · rename_i ended
      cases h
      obtain ⟨w, blank, eq⟩ := exists_blank s
      obtain ⟨t, eq', spells⟩ := readSum_sound _ _ _ _ inner
      obtain ⟨w', blank', eq''⟩ := exists_blank r
      rw [ended, List.append_nil] at eq''
      rw [eq, eq', eq'']
      exact .sum blank spells blank'
    · cases h

theorem Derives.readWhole {s : List Char} {e : Expression} (h : Derives s e) :
    readWhole s = .ok e := by
  obtain ⟨before, spells, after⟩ := h
  rename_i w t w'
  obtain ⟨n, eq⟩ : ∃ n, (w ++ (t ++ w')).length = n + 1 :=
    ⟨(w ++ (t ++ w')).length - 1, by
      have := spells.ne_nil
      simp only [List.length_append]
      omega⟩
  have le : t.length ≤ n + 1 := by
    simp only [List.length_append] at eq
    omega
  have apart : Apart w' := by simpa using apart_nil.blank_append after
  have inner : readSum (n + 1) (t ++ w') = .done e w' :=
    spells.taken.readSum le apart (halts_blank after _) (halts_blank after _)
  simp only [Expression.readWhole, eq, skipSpace_append before, spells.skipSpace, inner,
    skipSpace_blank after]

end Danmaku.Expression
