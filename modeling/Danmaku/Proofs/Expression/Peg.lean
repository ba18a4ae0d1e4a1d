import Danmaku.Expression.Peg
import Mathlib.Data.List.TakeWhile

/-!
# What parsers take, and where they fail

An equation for each combinator, with which a parser can be followed through a text. A repetition
of the characters of a class takes the longest run of them, and fails once, behind it
(`many_one`).
-/

namespace Danmaku.Peg

variable {α β : Type}

@[simp] theorem pure_apply (a : α) (s : List Char) : (pure a : Peg α) s = ⟨some (a, s), []⟩ := rfl

@[simp] theorem bind_apply (p : Peg α) (next : α → Peg β) (s : List Char) :
    (p >>= next) s =
      match p s with
      | ⟨none, failures⟩ => ⟨none, failures⟩
      | ⟨some (a, r), failures⟩ => ⟨(next a r).matched, failures ++ (next a r).failures⟩ := rfl

@[simp] theorem orElse_apply (p q : Peg α) (s : List Char) :
    (p <|> q) s =
      match p s with
      | ⟨some result, failures⟩ => ⟨some result, failures⟩
      | ⟨none, failures⟩ => ⟨(q s).matched, failures ++ (q s).failures⟩ := rfl

@[simp] theorem literal_append (word r : List Char) :
    literal word (word ++ r) = ⟨some ((), r), []⟩ := by
  simp [literal]

@[simp] theorem literal_cons (c : Char) (r : List Char) :
    literal [c] (c :: r) = ⟨some ((), r), []⟩ :=
  literal_append [c] r

theorem literal_failed {word s : List Char} (h : ¬ word <+: s) :
    literal word s = ⟨none, [s.length]⟩ := by
  rw [literal, if_neg]
  · rfl
  · rwa [List.isPrefixOf_iff_prefix]

/-- A word fails where its first character does. -/
theorem literal_failed_of_head {word s : List Char} {c : Char} (h : ∀ t, s ≠ c :: t) :
    literal (c :: word) s = ⟨none, [s.length]⟩ := by
  apply literal_failed
  rintro ⟨t, rfl⟩
  exact h _ rfl

/-- A repetition ends where its part fails. -/
theorem upTo_stop {part : Peg α} {s : List Char} {failures : List Nat}
    (h : part s = ⟨none, failures⟩) (n : Nat) :
    upTo (n + 1) part s = ⟨some ([], s), failures⟩ := by
  simp [upTo, h]

theorem upTo_step {part : Peg α} {n : Nat} {s r r' : List Char} {a : α} {as : List α}
    {failures failures' : List Nat} (h : part s = ⟨some (a, r), failures⟩)
    (more : upTo n part r = ⟨some (as, r'), failures'⟩) :
    upTo (n + 1) part s = ⟨some (a :: as, r'), failures ++ failures'⟩ := by
  simp [upTo, h, more]

section One

variable {accepts : Char → Bool}

theorem one_cons {c : Char} (h : accepts c = true) (s : List Char) :
    one accepts (c :: s) = ⟨some (c, s), []⟩ := by
  rw [one, if_pos h]

theorem one_failed {s : List Char} (h : s.takeWhile accepts = []) :
    one accepts s = ⟨none, [s.length]⟩ := by
  cases s with
  | nil => rfl
  | cons c s =>
    rw [one, if_neg]
    · rfl
    · intro accepted
      rw [List.takeWhile_cons_of_pos accepted] at h
      cases h

theorem upTo_one (s : List Char) : ∀ n, s.length < n → upTo n (one accepts) s =
    ⟨some (s.takeWhile accepts, s.dropWhile accepts), [(s.dropWhile accepts).length]⟩ := by
  induction s with
  | nil =>
    intro n lt
    obtain ⟨n, rfl⟩ := Nat.exists_eq_add_of_lt lt
    exact upTo_stop rfl _
  | cons c s ih =>
    intro n lt
    rw [List.length_cons] at lt
    obtain ⟨n, rfl⟩ : ∃ m, n = m + 1 := ⟨n - 1, by omega⟩
    by_cases accepted : accepts c = true
    · rw [upTo_step (one_cons accepted s) (ih n (by omega)), List.takeWhile_cons_of_pos accepted,
        List.dropWhile_cons_of_pos accepted, List.nil_append]
    · have none := List.takeWhile_cons_of_neg (l := s) accepted
      rw [upTo_stop (one_failed none), none, List.dropWhile_cons_of_neg accepted]

theorem many_one (s : List Char) : many (one accepts) s =
    ⟨some (s.takeWhile accepts, s.dropWhile accepts), [(s.dropWhile accepts).length]⟩ :=
  upTo_one s _ (Nat.lt_succ_self _)

theorem atLeastOne_one {s : List Char} (h : s.takeWhile accepts ≠ []) :
    atLeastOne (one accepts) s =
      ⟨some (s.takeWhile accepts, s.dropWhile accepts), [(s.dropWhile accepts).length]⟩ := by
  cases s with
  | nil => exact absurd rfl h
  | cons c s =>
    by_cases accepted : accepts c = true
    · simp [atLeastOne, one_cons accepted, many_one, accepted]
    · exact absurd (List.takeWhile_cons_of_neg accepted) h

theorem atLeastOne_one_failed {s : List Char} (h : s.takeWhile accepts = []) :
    atLeastOne (one accepts) s = ⟨none, [s.length]⟩ := by
  simp [atLeastOne, one_failed h]

end One

theorem text_matched {p : Peg α} {s w r : List Char} {a : α} {failures : List Nat}
    (h : p s = ⟨some (a, r), failures⟩) (taken : s = w ++ r) :
    text p s = ⟨some (w, r), failures⟩ := by
  have all : s.take (s.length - r.length) = w := by simp [taken]
  simp only [text, h, all]

theorem text_failed {p : Peg α} {s : List Char} {failures : List Nat}
    (h : p s = ⟨none, failures⟩) : text p s = ⟨none, failures⟩ := by
  simp only [text, h]

end Danmaku.Peg
