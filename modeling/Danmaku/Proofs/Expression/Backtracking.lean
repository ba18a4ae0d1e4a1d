import Danmaku.Proofs.Expression.Grammar
import Danmaku.Proofs.Expression.Peg

/-!
# Nothing is gained by going back

The parser does the same as the reader that never goes back (`readAll_eq_readWhole`). Where the
reader fails, the parser may abandon an alternative or end a repetition and take less of the text;
but then it has failed furthest where the reader does (`Agrees.failed`), and what it left begins
with an operator (`Agrees.less`), which nothing after an operand accepts.
-/

namespace Danmaku.Expression

/-- No terminal failed behind the place where the text is unread. -/
def Short (u : List Char) (failures : List Nat) : Prop := ∀ k ∈ failures, u.length ≤ k

/-- A terminal failed where the text is unread, and none behind it. -/
structure Furthest (u : List Char) (failures : List Nat) : Prop where
  here : u.length ∈ failures
  short : Short u failures

/-- What the reader and the parser do with a text is the same, except that the parser may take less
where the reader fails; what it leaves then begins with a character that is blocked. -/
inductive Agrees (blocked : Char → Prop) (s : List Char) :
    Reading Expression → Attempt Expression → Prop
  | done {e : Expression} {r : List Char} {failures : List Nat} (suffix : skipSpace r <:+ s)
      (short : Short (skipSpace r) failures) :
      Agrees blocked s (.done e r) ⟨some (e, r), failures⟩
  | failed {u : List Char} {failures : List Nat} (suffix : u <:+ s)
      (furthest : Furthest u failures) : Agrees blocked s (.failed u) ⟨none, failures⟩
  | less {e : Expression} {u r t : List Char} {c : Char} {failures : List Nat} (suffix : u <:+ s)
      (furthest : Furthest u failures) (first : skipSpace r = c :: t) (blocks : blocked c)
      (behind : u.length ≤ t.length) : Agrees blocked s (.failed u) ⟨some (e, r), failures⟩

theorem short_nil (u : List Char) : Short u [] := by
  intro k mem
  cases mem

theorem short_singleton (u : List Char) : Short u [u.length] := by
  intro k mem
  exact (List.mem_singleton.1 mem).ge

theorem Short.append {u : List Char} {failures failures' : List Nat} (h : Short u failures)
    (h' : Short u failures') : Short u (failures ++ failures') := by
  intro k mem
  exact (List.mem_append.1 mem).elim (h k) (h' k)

theorem Short.of_length_le {u v : List Char} {failures : List Nat} (h : Short u failures)
    (le : v.length ≤ u.length) : Short v failures :=
  fun k mem => le.trans (h k mem)

theorem Short.of_suffix {u v : List Char} {failures : List Nat} (h : Short u failures)
    (suffix : v <:+ u) : Short v failures :=
  h.of_length_le suffix.length_le

/-- What failed before a character, failed no further than what is unread behind it. -/
theorem Short.of_behind {u v t : List Char} {c : Char} {failures : List Nat} (h : Short v failures)
    (first : v = c :: t) (behind : u.length ≤ t.length) : Short u failures := by
  subst first
  exact h.of_length_le (Nat.le_succ_of_le behind)

theorem Furthest.append {u : List Char} {failures failures' : List Nat} (h : Furthest u failures)
    (short : Short u failures') : Furthest u (failures ++ failures') :=
  ⟨List.mem_append_left _ h.here, h.short.append short⟩

theorem Furthest.prepend {u : List Char} {failures failures' : List Nat} (h : Furthest u failures)
    (short : Short u failures') : Furthest u (failures' ++ failures) :=
  ⟨List.mem_append_right _ h.here, short.append h.short⟩

theorem furthest_singleton (u : List Char) : Furthest u [u.length] :=
  ⟨List.mem_singleton_self _, short_singleton u⟩

theorem Furthest.unread {α : Type} {a : Attempt α} {u s : List Char} (h : Furthest u a.failures)
    (suffix : u <:+ s) : a.unread s = u := by
  have least : a.failures.min? = some u.length := List.min?_eq_some_iff.2 ⟨h.here, h.short⟩
  obtain ⟨x, rfl⟩ := suffix
  simp [Attempt.unread, least]

/-- Terminals that failed before make no difference. -/
theorem Agrees.prepend {blocked : Char → Prop} {s s' : List Char} {reading : Reading Expression}
    {matched : Option (Expression × List Char)} {failures failures' : List Nat}
    (h : Agrees blocked s' reading ⟨matched, failures⟩) (suffix : s' <:+ s)
    (short : Short s' failures') : Agrees blocked s reading ⟨matched, failures' ++ failures⟩ := by
  cases h with
  | done inner before => exact .done (inner.trans suffix) ((short.of_suffix inner).append before)
  | failed inner furthest =>
    exact .failed (inner.trans suffix) (furthest.prepend (short.of_suffix inner))
  | less inner furthest first blocks behind =>
    exact .less (inner.trans suffix) (furthest.prepend (short.of_suffix inner)) first blocks behind

theorem Agrees.imp {blocked blocked' : Char → Prop} {s : List Char}
    {reading : Reading Expression} {attempt : Attempt Expression}
    (h : Agrees blocked s reading attempt) (more : ∀ c, blocked c → blocked' c) :
    Agrees blocked' s reading attempt := by
  cases h with
  | done suffix short => exact .done suffix short
  | failed suffix furthest => exact .failed suffix furthest
  | less suffix furthest first blocks behind =>
    exact .less suffix furthest first (more _ blocks) behind

/-- The parser fails where the text begins. -/
def Refuses {α : Type} (p : Peg α) (s : List Char) : Prop :=
  ∃ failures, p s = ⟨none, failures⟩ ∧ Short s failures

theorem refuses_literal {word s : List Char} (h : ¬ word <+: s) : Refuses (Peg.literal word) s :=
  ⟨_, Peg.literal_failed h, short_singleton s⟩

theorem refuses_literal_of_head {word s : List Char} {c : Char} (h : ∀ t, s ≠ c :: t) :
    Refuses (Peg.literal (c :: word)) s :=
  ⟨_, Peg.literal_failed_of_head h, short_singleton s⟩

theorem Refuses.bind {α β : Type} {p : Peg α} {s : List Char} (h : Refuses p s)
    (next : α → Peg β) : Refuses (p >>= next) s := by
  obtain ⟨failures, failed, short⟩ := h
  exact ⟨failures, by simp [failed], short⟩

theorem Refuses.orElse {α : Type} {p q : Peg α} {s : List Char} (h : Refuses p s)
    (h' : Refuses q s) : Refuses (p <|> q) s := by
  obtain ⟨failures, failed, short⟩ := h
  obtain ⟨failures', failed', short'⟩ := h'
  exact ⟨failures ++ failures', by simp [failed, failed'], short.append short'⟩

section Choice

variable {blocked : Char → Prop} {s : List Char} {reading : Reading Expression}
  {p q : Peg Expression}

/-- Of an alternative that fails at once, the choice has nothing but failures. -/
theorem Agrees.orElse_right (h : Agrees blocked s reading (q s)) (refuses : Refuses p s) :
    Agrees blocked s reading ((p <|> q) s) := by
  obtain ⟨failures, failed, short⟩ := refuses
  rw [Peg.orElse_apply, failed]
  exact h.prepend List.suffix_rfl short

theorem Agrees.orElse_left (h : Agrees blocked s reading (p s)) (refuses : Refuses q s) :
    Agrees blocked s reading ((p <|> q) s) := by
  obtain ⟨failures', failed, short'⟩ := refuses
  rw [Peg.orElse_apply]
  generalize p s = attempt at h
  cases h with
  | done suffix short => exact .done suffix short
  | failed suffix furthest =>
    simp only [failed]
    exact .failed suffix (furthest.append (short'.of_suffix suffix))
  | less suffix furthest first blocks behind => exact .less suffix furthest first blocks behind

end Choice

/-- The parser fails where the reader does. -/
abbrev Matches (s : List Char) : Reading Expression → Attempt Expression → Prop :=
  Agrees (fun _ => False) s

namespace Grammar

theorem blank_apply (s : List Char) : blank s = ⟨some ((), skipSpace s), []⟩ := by
  simp [blank, Peg.quiet, Peg.many_one, skipSpace]

theorem dropWhile_eq_self {s : List Char} (h : s.takeWhile Char.isDigit = []) :
    s.dropWhile Char.isDigit = s :=
  List.dropWhile_eq_self_iff.2 (List.takeWhile_eq_nil_iff.1 h)

theorem valueOfNumeral_whole {w : List Char} (digits : Digits w) :
    valueOfNumeral w = .ofDecimal (naturalOfDigits w) 0 := by
  have taken : w.takeWhile Char.isDigit = w := List.takeWhile_eq_self_iff.2 digits
  have dropped : w.dropWhile Char.isDigit = [] := List.dropWhile_eq_nil_iff.2 digits
  rw [valueOfNumeral, taken, dropped, List.drop_nil, List.append_nil, List.length_nil]

theorem valueOfNumeral_pointed {w : List Char} (digits : Digits w) (f : List Char) :
    valueOfNumeral (w ++ '.' :: f) = .ofDecimal (naturalOfDigits (w ++ f)) f.length := by
  have taken : (w ++ '.' :: f).takeWhile Char.isDigit = w := by
    rw [List.takeWhile_append_of_pos digits, List.takeWhile_cons_of_neg (by decide),
      List.append_nil]
  have dropped : (w ++ '.' :: f).dropWhile Char.isDigit = '.' :: f := by
    rw [List.dropWhile_append_of_pos digits, List.dropWhile_cons_of_neg (by decide)]
  rw [valueOfNumeral, taken, dropped, List.drop_one, List.tail_cons]

theorem number_matched {s t r : List Char} {failures : List Nat}
    (h : numeral s = ⟨some ((), r), failures⟩) (taken : s = t ++ r) :
    number s = ⟨some (.number (valueOfNumeral t), r), failures⟩ := by
  simp [number, Peg.text_matched h taken]

theorem number_failed {s : List Char} {failures : List Nat} (h : numeral s = ⟨none, failures⟩) :
    number s = ⟨none, failures⟩ := by
  simp [number, Peg.text_failed h]

/-- Without a point after the digits, it is tried once: for a fraction, or for all of the number. -/
theorem numeral_unpointed {s : List Char} (other : ∀ r, s.dropWhile Char.isDigit ≠ '.' :: r) :
    numeral s =
      ⟨if s.takeWhile Char.isDigit = [] then none else some ((), s.dropWhile Char.isDigit),
        [(s.dropWhile Char.isDigit).length, (s.dropWhile Char.isDigit).length]⟩ := by
  by_cases empty : s.takeWhile Char.isDigit = []
  · have all := dropWhile_eq_self empty
    rw [all] at other ⊢
    simp [numeral, digit, Peg.atLeastOne_one_failed empty, Peg.literal_failed_of_head other, empty]
  · simp [numeral, digit, Peg.optional, Peg.atLeastOne_one empty, Peg.literal_failed_of_head other,
      empty]

theorem numeral_pointed {s r : List Char} (point : s.dropWhile Char.isDigit = '.' :: r) :
    numeral s =
      ⟨if s.takeWhile Char.isDigit = [] ∧ r.takeWhile Char.isDigit = [] then none
        else some ((), r.dropWhile Char.isDigit),
        [('.' :: r).length, (r.dropWhile Char.isDigit).length]⟩ := by
  by_cases empty : s.takeWhile Char.isDigit = []
  · obtain rfl := (dropWhile_eq_self empty).symm.trans point
    by_cases none : r.takeWhile Char.isDigit = []
    · simp [numeral, digit, Peg.atLeastOne_one_failed empty, Peg.atLeastOne_one_failed none, empty,
        none, dropWhile_eq_self none]
    · simp [numeral, digit, Peg.atLeastOne_one_failed empty, Peg.atLeastOne_one none, none]
  · simp [numeral, digit, Peg.optional, Peg.atLeastOne_one empty, point, Peg.many_one, empty]

theorem number_agrees (s : List Char) : Matches s (readNumber s) (number s) := by
  obtain ⟨w, u, rfl, taken, dropped, digits, -⟩ := exists_digits s
  by_cases point : ∃ r, u = '.' :: r
  · obtain ⟨r, rfl⟩ := point
    obtain ⟨f, v, rfl, taken', dropped', -, -⟩ := exists_digits r
    have tried := numeral_pointed dropped
    rw [taken, taken', dropped'] at tried
    simp only [readNumber, taken, dropped, taken', dropped']
    by_cases empty : w = [] ∧ f = []
    · rw [if_pos empty] at tried
      obtain ⟨rfl, rfl⟩ := empty
      rw [number_failed tried]
      exact .failed ⟨['.'], rfl⟩ ⟨by simp, by simp [Short]⟩
    · rw [if_neg empty] at tried
      have text : w ++ '.' :: (f ++ v) = w ++ '.' :: f ++ v := by simp
      rw [number_matched tried text, valueOfNumeral_pointed digits,
        if_neg (by simpa using empty)]
      have blanks := length_skipSpace_le v
      exact .done ((skipSpace_suffix v).trans (text ▸ List.suffix_append _ v))
        (by simp [Short]; omega)
  · have other : ∀ r, u ≠ '.' :: r := fun r eq => point ⟨r, eq⟩
    have tried := numeral_unpointed (dropped ▸ other)
    rw [taken, dropped] at tried
    simp only [readNumber, taken, dropped]
    by_cases empty : w = []
    · rw [if_pos empty] at tried
      subst empty
      rw [number_failed tried]
      exact .failed List.suffix_rfl ⟨by simp, by simp [Short]⟩
    · rw [if_neg empty] at tried
      rw [number_matched tried rfl, valueOfNumeral_whole digits, if_neg (by simpa using empty)]
      have blanks := length_skipSpace_le u
      exact .done ((skipSpace_suffix u).trans (List.suffix_append _ u))
        (by simpa [Short] using blanks)

/-- An index fails where its digits end: there are none, or they stand for too large a number. -/
theorem index_failed {s : List Char} (h : s.takeWhile Char.isDigit = [] ∨
      indexBound ≤ naturalOfDigits (s.takeWhile Char.isDigit)) :
    ∃ failures, Furthest (s.dropWhile Char.isDigit) failures ∧ index s = ⟨none, failures⟩ := by
  by_cases empty : s.takeWhile Char.isDigit = []
  · rw [dropWhile_eq_self empty]
    have failed := Peg.text_failed (Peg.atLeastOne_one_failed empty)
    exact ⟨_, furthest_singleton s, by simp only [index, Peg.check, digit, failed]⟩
  · have matched := Peg.text_matched (Peg.atLeastOne_one empty)
      List.takeWhile_append_dropWhile.symm
    have none : index? (s.takeWhile Char.isDigit) = none :=
      if_neg (Nat.not_lt.2 (h.resolve_left empty))
    exact ⟨_, (furthest_singleton _).append (short_singleton _), by
      simp only [index, Peg.check, digit, matched, none]⟩

theorem index_matched {s : List Char} (some : s.takeWhile Char.isDigit ≠ [])
    (small : naturalOfDigits (s.takeWhile Char.isDigit) < indexBound) :
    index s = ⟨.some (.parameter (naturalOfDigits (s.takeWhile Char.isDigit)),
      s.dropWhile Char.isDigit), [(s.dropWhile Char.isDigit).length]⟩ := by
  have matched := Peg.text_matched (Peg.atLeastOne_one some) List.takeWhile_append_dropWhile.symm
  simp only [index, Peg.check, digit, matched, index?, if_pos small]

theorem var_agrees (s : List Char) : Matches ('$' :: s) (readVariable s) (var ('$' :: s)) := by
  unfold readVariable
  split
  · rename_i r
    have random : var ('$' :: 'r' :: 'a' :: 'n' :: 'd' :: r) = ⟨some (.var .random, r), []⟩ := rfl
    rw [random]
    exact .done ((skipSpace_suffix r).trans ⟨['$', 'r', 'a', 'n', 'd'], rfl⟩) (short_nil _)
  · rename_i r
    have blanks := length_skipSpace_le r
    have rank : var ('$' :: 'r' :: 'a' :: 'n' :: 'k' :: r) =
      ⟨some (.var .rank, r), [r.length + 5]⟩ := rfl
    rw [rank]
    exact .done ((skipSpace_suffix r).trans ⟨['$', 'r', 'a', 'n', 'k'], rfl⟩)
      (by simp [Short]; omega)
  · rename_i random rank
    have random : ¬ ['$', 'r', 'a', 'n', 'd'] <+: '$' :: s := by
      rintro ⟨r, eq⟩
      exact random r (List.cons.inj eq).2.symm
    have rank : ¬ ['$', 'r', 'a', 'n', 'k'] <+: '$' :: s := by
      rintro ⟨r, eq⟩
      exact rank r (List.cons.inj eq).2.symm
    refine .orElse_right (.orElse_right ?_ ((refuses_literal rank).bind _))
      ((refuses_literal random).bind _)
    have suffix : s.dropWhile Char.isDigit <:+ '$' :: s :=
      (List.dropWhile_suffix _).trans (List.suffix_cons _ s)
    dsimp only
    split
    · rename_i none
      obtain ⟨failures, furthest, failed⟩ := index_failed (by simpa using none)
      simp only [Peg.bind_apply, Peg.literal_cons, failed, List.nil_append]
      exact .failed suffix furthest
    · rename_i some
      simp only [Bool.or_eq_true, List.isEmpty_iff, decide_eq_true_eq, not_or, Nat.not_le] at some
      simp only [Peg.bind_apply, Peg.literal_cons, index_matched some.1 some.2, Peg.pure_apply,
        List.nil_append, List.append_nil]
      have rest := skipSpace_suffix (s.dropWhile Char.isDigit)
      exact .done (rest.trans suffix) ((short_singleton _).of_suffix rest)

theorem number_refuses {s : List Char} (digits : s.takeWhile Char.isDigit = [])
    (point : ∀ t, s ≠ '.' :: t) : Refuses number s := by
  have all := dropWhile_eq_self digits
  have tried := numeral_unpointed (all.symm ▸ point)
  rw [if_pos digits, all] at tried
  exact ⟨_, number_failed tried, by simp [Short]⟩

theorem var_refuses {s : List Char} (h : ∀ t, s ≠ '$' :: t) : Refuses var s :=
  ((refuses_literal_of_head h).bind _).orElse
    (((refuses_literal_of_head h).bind _).orElse ((refuses_literal_of_head h).bind _))

section Nested

variable {blocked : Char → Prop} {read : List Char → Reading Expression} {nested : Peg Expression}

theorem group_agrees {s : List Char} (tight : ¬ blocked ')')
    (h : Agrees blocked (skipSpace s) (read (skipSpace s)) (nested (skipSpace s))) :
    Matches ('(' :: s) (readAtom read ('(' :: s)) (group nested ('(' :: s)) := by
  have suffix : skipSpace s <:+ '(' :: s := (skipSpace_suffix s).trans (List.suffix_cons _ s)
  simp only [readAtom, group, Peg.bind_apply, Peg.literal_cons, blank_apply, List.nil_append]
  generalize read (skipSpace s) = reading at h ⊢
  generalize nested (skipSpace s) = attempt at h ⊢
  cases h with
  | @done e r failures rest short =>
    simp only [Reading.andThen]
    split
    · rename_i t first
      have closed : t <:+ skipSpace r := first ▸ List.suffix_cons _ t
      simp only [first, Peg.literal_cons, Peg.pure_apply, List.append_nil]
      have left := (skipSpace_suffix t).trans closed
      exact .done (left.trans (rest.trans suffix)) (short.of_suffix left)
    · rename_i other
      simp only [Peg.literal_failed_of_head other]
      exact .failed (rest.trans suffix) ((furthest_singleton _).prepend short)
  | @failed u failures rest furthest =>
    simp only [Reading.andThen]
    exact .failed (rest.trans suffix) furthest
  | @less e u r t c failures rest furthest first blocks behind =>
    have other : ∀ t, skipSpace r ≠ ')' :: t := by
      intro t' closing
      rw [first, List.cons.injEq] at closing
      exact tight (closing.1 ▸ blocks)
    have earlier := (short_singleton (skipSpace r)).of_behind first behind
    simp only [Reading.andThen, Peg.literal_failed_of_head other]
    exact .failed (rest.trans suffix) (furthest.append earlier)

theorem atom_agrees {n : Nat} (tight : ¬ blocked ')')
    (h : ∀ s, s.length ≤ n → Agrees blocked s (read s) (nested s)) {s : List Char}
    (le : s.length ≤ n + 1) : Matches s (readAtom read s) (atom nested s) := by
  have group_refuses : (∀ t, s ≠ '(' :: t) → Refuses (group nested) s :=
    fun other => (refuses_literal_of_head other).bind _
  cases s with
  | nil =>
    exact (number_agrees []).orElse_left ((group_refuses (by simp)).orElse (var_refuses (by simp)))
  | cons c s =>
    by_cases parenthesis : c = '('
    · subst parenthesis
      have blanks := length_skipSpace_le s
      rw [List.length_cons] at le
      have inner := group_agrees tight (h (skipSpace s) (by omega))
      exact (inner.orElse_left (var_refuses (by simp))).orElse_right
        (number_refuses (List.takeWhile_cons_of_neg (by decide)) (by simp))
    · by_cases dollar : c = '$'
      · subst dollar
        exact ((var_agrees s).orElse_right (group_refuses (by simp))).orElse_right
          (number_refuses (List.takeWhile_cons_of_neg (by decide)) (by simp))
      · have reads : readAtom read (c :: s) = readNumber (c :: s) := by
          unfold readAtom
          split <;> simp_all
        rw [reads]
        exact (number_agrees _).orElse_left
          ((group_refuses (by simp [parenthesis])).orElse (var_refuses (by simp [dollar])))

theorem factor_agrees {n : Nat} (tight : ¬ blocked ')')
    (h : ∀ s, s.length ≤ n → Agrees blocked s (read s) (nested s)) {s : List Char}
    (le : s.length ≤ n + 1) : Matches s (readFactor read s) (factor nested s) := by
  have atoms := atom_agrees tight h le
  unfold readFactor
  split
  · rename_i s
    have blanks := length_skipSpace_le s
    rw [List.length_cons] at le
    have inner := atom_agrees tight h (s := skipSpace s) (by omega)
    have minus : Refuses (atom nested) ('-' :: s) :=
      (number_refuses (List.takeWhile_cons_of_neg (by decide)) (by simp)).orElse
        (((refuses_literal_of_head (by simp)).bind _).orElse (var_refuses (by simp)))
    refine .orElse_left ?_ minus
    have suffix : skipSpace s <:+ '-' :: s := (skipSpace_suffix s).trans (List.suffix_cons _ s)
    simp only [negation, Peg.bind_apply, Peg.literal_cons, blank_apply, List.nil_append]
    generalize readAtom read (skipSpace s) = reading at inner ⊢
    generalize atom nested (skipSpace s) = attempt at inner ⊢
    cases inner with
    | done rest short =>
      simp only [Reading.andThen, Peg.pure_apply, List.append_nil]
      exact .done (rest.trans suffix) short
    | failed rest furthest => exact .failed (rest.trans suffix) furthest
    | less _ _ _ blocks => exact blocks.elim
  · rename_i plain
    exact atoms.orElse_right ((refuses_literal_of_head plain).bind _)

end Nested

/-! ## Chains -/

/-- The parser takes the signs of these operators, and refuses anything else. -/
structure Signs (operator? : Char → Option Operator) (sign : Peg Operator) : Prop where
  taken : ∀ {c operator}, operator? c = some operator → ∀ s, ∃ failures,
    sign (c :: s) = ⟨some (operator, s), failures⟩ ∧ Short (c :: s) failures
  refuses : ∀ {s}, (∀ c t, s = c :: t → operator? c = none) → Refuses sign s

theorem ne_cons_of_none {operator? : Char → Option Operator} {s : List Char}
    (none : ∀ c t, s = c :: t → operator? c = none) {c : Char} {operator : Operator}
    (means : operator? c = some operator) (t : List Char) : s ≠ c :: t := by
  intro eq
  rw [none c t eq] at means
  cases means

theorem signs_multiplicative : Signs multiplicative? multiplicative := by
  constructor
  · intro c operator means s
    have scales := multiplicative?_eq_some_iff.1 means
    cases scales with
    | mul => exact ⟨[], rfl, short_nil _⟩
    | div => exact ⟨[s.length + 1], rfl, short_singleton ('/' :: s)⟩
    | mod => exact ⟨[s.length + 1, s.length + 1], rfl, by simp [Short]⟩
  · intro s none
    have times : Refuses (Peg.literal ['*']) s :=
      refuses_literal_of_head (ne_cons_of_none none rfl)
    have slash : Refuses (Peg.literal ['/']) s :=
      refuses_literal_of_head (ne_cons_of_none none rfl)
    have percent : Refuses (Peg.literal ['%']) s :=
      refuses_literal_of_head (ne_cons_of_none none rfl)
    exact (times.bind _).orElse ((slash.bind _).orElse (percent.bind _))

theorem signs_additive : Signs additive? additive := by
  constructor
  · intro c operator means s
    have shifts := additive?_eq_some_iff.1 means
    cases shifts with
    | add => exact ⟨[], rfl, short_nil _⟩
    | sub => exact ⟨[s.length + 1], rfl, short_singleton ('-' :: s)⟩
  · intro s none
    have plus : Refuses (Peg.literal ['+']) s :=
      refuses_literal_of_head (ne_cons_of_none none rfl)
    have minus : Refuses (Peg.literal ['-']) s :=
      refuses_literal_of_head (ne_cons_of_none none rfl)
    exact (plus.bind _).orElse (minus.bind _)

section Chain

variable {blocked : Char → Prop} {operator? : Char → Option Operator} {sign : Peg Operator}
  {read : List Char → Reading Expression} {operand : Peg Expression}

/-- Where no operator comes next, a chain is over. -/
theorem link_halts (operand : Peg Expression) (signs : Signs operator? sign) {s : List Char}
    (halts : Halts operator? s) :
    ∃ failures, link sign operand s = ⟨none, failures⟩ ∧ Short (skipSpace s) failures := by
  obtain ⟨failures, failed, short⟩ := signs.refuses halts
  exact ⟨failures, by simp [link, blank_apply, failed], short⟩

/-- A sign that an operand does not take, the chain does not take either. -/
theorem halts_of_blocked (apart : ∀ c, blocked c → operator? c = none) {r t : List Char} {c : Char}
    (first : skipSpace r = c :: t) (blocks : blocked c) : Halts operator? r := by
  intro c' t' first'
  rw [first, List.cons.injEq] at first'
  exact first'.1 ▸ apart c blocks

/-- The repetition goes on as the chain of the reader does, and ends where an operand fails. -/
theorem links_agree (signs : Signs operator? sign) (apart : ∀ c, blocked c → operator? c = none)
    {part : Level} (sound : Sound part read) {n : Nat}
    (h : ∀ s, s.length ≤ n → Agrees blocked s (read s) (operand s)) :
    ∀ (m k : Nat) (left : Expression) (s : List Char), s.length ≤ m → s.length < k →
      s.length ≤ n → ∃ links r failures,
        Peg.upTo k (link sign operand) s = ⟨some (links, r), failures⟩ ∧
          Agrees (fun c => blocked c ∨ operator? c ≠ none) (skipSpace s)
            (readChain operator? read m left s)
            ⟨some (links.foldl (fun left (operator, right) => .binary operator left right) left, r),
              failures⟩ := by
  intro m
  induction m with
  | zero =>
    intro k left s le lt _
    obtain rfl := List.length_eq_zero_iff.1 (Nat.le_zero.1 le)
    obtain ⟨k, rfl⟩ := Nat.exists_eq_succ_of_ne_zero (Nat.ne_of_gt lt)
    obtain ⟨failures, failed, short⟩ :=
      link_halts operand signs (halts_blank blank_nil operator?)
    exact ⟨[], [], failures, Peg.upTo_stop failed k, .done List.suffix_rfl short⟩
  | succ m ih =>
    intro k left s le lt le'
    obtain ⟨k, rfl⟩ := Nat.exists_eq_succ_of_ne_zero (Nat.ne_zero_of_lt lt)
    by_cases halts : Halts operator? s
    · obtain ⟨failures, failed, short⟩ := link_halts operand signs halts
      rw [readChain_halts halts]
      exact ⟨[], s, failures, Peg.upTo_stop failed k, .done List.suffix_rfl short⟩
    · obtain ⟨c, t, operator, first, means⟩ : ∃ c t operator,
          skipSpace s = c :: t ∧ operator? c = some operator := by
        simpa [Halts, Option.ne_none_iff_exists'] using halts
      have blanks := length_skipSpace_le s
      rw [first, List.length_cons] at blanks
      have blanks' := length_skipSpace_le t
      have suffix : skipSpace t <:+ c :: t := (skipSpace_suffix t).trans (List.suffix_cons c t)
      obtain ⟨failures, taken, short⟩ := signs.taken means t
      have inner := h (skipSpace t) (by omega)
      simp only [readChain, first, means]
      generalize reads : read (skipSpace t) = reading at inner ⊢
      generalize parses : operand (skipSpace t) = attempt at inner
      cases inner with
      | @done right r failures' rest short' =>
        have linked : link sign operand s =
            ⟨some ((operator, right), r), failures ++ failures'⟩ := by
          simp [link, blank_apply, first, taken, parses]
        have shorter := sound.length_lt reads
        obtain ⟨links, r', failures'', more, agrees⟩ :=
          ih k (.binary operator left right) r (by omega) (by omega) (by omega)
        refine ⟨_, _, _, Peg.upTo_step linked more, ?_⟩
        exact agrees.prepend (rest.trans suffix)
          ((short.of_suffix (rest.trans suffix)).append short')
      | @failed u failures' rest furthest =>
        have stopped : link sign operand s = ⟨none, failures ++ failures'⟩ := by
          simp [link, blank_apply, first, taken, parses]
        refine ⟨_, _, _, Peg.upTo_stop stopped k, ?_⟩
        have unread := rest.trans suffix
        exact .less unread (furthest.prepend (short.of_suffix unread)) first
          (.inr (by simp [means])) (rest.length_le.trans blanks')
      | @less e u r t' c' failures' rest furthest first' blocks behind =>
        have linked : link sign operand s = ⟨some ((operator, e), r), failures ++ failures'⟩ := by
          simp [link, blank_apply, first, taken, parses]
        obtain ⟨failures'', failed, short''⟩ :=
          link_halts operand signs (halts_of_blocked apart first' blocks)
        obtain ⟨k, rfl⟩ : ∃ k', k = k' + 1 := ⟨k - 1, by omega⟩
        refine ⟨_, _, _, Peg.upTo_step linked (Peg.upTo_stop failed k), ?_⟩
        have unread := rest.trans suffix
        have before := furthest.prepend (short.of_suffix unread)
        exact .less unread (before.append (short''.of_behind first' behind)) first' (.inl blocks)
          behind

/-- An operand and the chain after it. -/
theorem chain_agrees (signs : Signs operator? sign) (apart : ∀ c, blocked c → operator? c = none)
    {part : Level} (sound : Sound part read) {n m : Nat}
    (h : ∀ s, s.length ≤ n → Agrees blocked s (read s) (operand s)) {s : List Char}
    (le : s.length ≤ n) (room : s.length ≤ m + 1) :
    Agrees (fun c => blocked c ∨ operator? c ≠ none) s
      ((read s).andThen (readChain operator? read m)) (chain sign operand s) := by
  have first := h s le
  rw [chain, Peg.bind_apply]
  generalize reads : read s = reading at first ⊢
  generalize operand s = attempt at first ⊢
  cases first with
  | @done left r failures rest short =>
    have shorter := sound.length_lt reads
    obtain ⟨links, r', failures', all, agrees⟩ := links_agree signs apart sound h m (r.length + 1)
      left r (by omega) (Nat.lt_succ_self _) (by omega)
    simp only [Peg.bind_apply, Peg.many, all, Peg.pure_apply, List.append_nil]
    exact agrees.prepend rest short
  | failed rest furthest => exact .failed rest furthest
  | @less e u r t c failures rest furthest first blocks behind =>
    obtain ⟨failures', failed, short⟩ :=
      link_halts operand signs (halts_of_blocked apart first blocks)
    simp only [Peg.bind_apply, Peg.many, Peg.upTo_stop failed, Peg.pure_apply, List.append_nil,
      List.foldl_nil]
    exact .less rest (furthest.append (short.of_behind first behind)) first (.inl blocks) behind

end Chain

/-- The signs that a product may leave, if a factor after them fails. -/
def Scaling (c : Char) : Prop := multiplicative? c ≠ none

theorem additive?_of_scaling {c : Char} (h : Scaling c) : additive? c = none := by
  obtain ⟨operator, means⟩ := Option.ne_none_iff_exists'.1 h
  have scales := multiplicative?_eq_some_iff.1 means
  cases scales <;> rfl

/-- The signs that a sum may leave. -/
def Resuming (c : Char) : Prop := Scaling c ∨ additive? c ≠ none

theorem not_resuming_parenthesis : ¬ Resuming ')' := by
  simp [Resuming, Scaling, multiplicative?, additive?]

theorem sum_agrees (n : Nat) :
    ∀ s, s.length ≤ n → Agrees Resuming s (readSum n s) (sum n s) := by
  induction n with
  | zero =>
    intro s _
    exact .failed List.suffix_rfl (furthest_singleton s)
  | succ n ih =>
    intro s le
    have sound := readSum_sound n
    have factors : ∀ s : List Char, s.length ≤ n + 1 →
        Matches s (readFactor (readSum n) s) (factor (sum n) s) :=
      fun s => factor_agrees not_resuming_parenthesis ih
    have products : ∀ s : List Char, s.length ≤ n + 1 →
        Agrees Scaling s (readProduct (readSum n) n s) (chain multiplicative (factor (sum n)) s) :=
      fun s le => (chain_agrees signs_multiplicative (fun _ => False.elim)
        (readFactor_sound sound) factors le le).imp fun _ blocks => blocks.resolve_left id
    exact chain_agrees signs_additive (fun _ => additive?_of_scaling) (readProduct_sound sound n)
      products le le

end Grammar

/-! ## Whole texts -/

theorem readAll_matched {s r : List Char} {e : Expression} {failures : List Nat}
    (h : Grammar.whole s = ⟨some (e, r), failures⟩) : readAll s = .ok e := by
  simp only [readAll, h]

theorem readAll_failed {s u : List Char} {failures : List Nat}
    (h : Grammar.whole s = ⟨none, failures⟩) (furthest : Furthest u failures) (suffix : u <:+ s) :
    readAll s = .error u := by
  have unread : (⟨none, failures⟩ : Attempt Expression).unread s = u := furthest.unread suffix
  simp only [readAll, h, unread]

/-- **The parser gives what the reader gives that never goes back**: the expression, or what is
unread at the furthest failure. -/
theorem readAll_eq_readWhole (s : List Char) : readAll s = readWhole s := by
  have inner := Grammar.sum_agrees s.length (skipSpace s) (length_skipSpace_le s)
  have suffix := skipSpace_suffix s
  unfold readWhole
  generalize readSum s.length (skipSpace s) = reading at inner ⊢
  generalize parses : Grammar.sum s.length (skipSpace s) = attempt at inner
  cases inner with
  | @done e r failures rest short =>
    cases left : skipSpace r with
    | nil =>
      have all : Grammar.whole s = ⟨some (e, []), failures⟩ := by
        simp [Grammar.whole, Grammar.blank_apply, parses, left, Peg.endOfText]
      simpa only [left] using readAll_matched all
    | cons c t =>
      have all : Grammar.whole s = ⟨none, failures ++ [(c :: t).length]⟩ := by
        simp [Grammar.whole, Grammar.blank_apply, parses, left, Peg.endOfText, Peg.nothing]
      rw [left] at rest short
      simpa only [left] using
        readAll_failed all ((furthest_singleton (c :: t)).prepend short) (rest.trans suffix)
  | @failed u failures rest furthest =>
    exact readAll_failed (by simp [Grammar.whole, Grammar.blank_apply, parses]) furthest
      (rest.trans suffix)
  | @less e u r t c failures rest furthest first blocks behind =>
    have earlier := (short_singleton (c :: t)).of_behind rfl behind
    have all : Grammar.whole s = ⟨none, failures ++ [(c :: t).length]⟩ := by
      simp [Grammar.whole, Grammar.blank_apply, parses, first, Peg.endOfText, Peg.nothing]
    exact readAll_failed all (furthest.append earlier) (rest.trans suffix)

theorem readAll_sound {s : List Char} {e : Expression} (h : readAll s = .ok e) : Derives s e :=
  readWhole_sound (readAll_eq_readWhole s ▸ h)

theorem Derives.readAll {s : List Char} {e : Expression} (h : Derives s e) : readAll s = .ok e :=
  (readAll_eq_readWhole s).trans h.readWhole

/-- **A text is read as an expression exactly if the grammar derives it**, as the one expression
that it derives. -/
theorem readAll_iff_derives (text : String) :
    (∀ e, readAll text.toList = .ok e ↔ Derives text.toList e) ∧
      ∀ e e', Derives text.toList e → Derives text.toList e' → e = e' := by
  refine ⟨fun e => ⟨readAll_sound, Derives.readAll⟩, fun e e' h h' => ?_⟩
  have eq := h.readAll.symm.trans h'.readAll
  exact Except.ok.inj eq

/-- Chains go to the left, whatever the blanks. -/
theorem chain_derives :
    let text := " -( 1 -$2-4. )*.5% $rank\t"
    let difference : Expression :=
      .binary .sub (.binary .sub (.number (.ofDecimal 1 0)) (.var (.parameter 2)))
        (.number (.ofDecimal 4 0))
    let e : Expression :=
      .binary .mod (.binary .mul (.negate difference) (.number (.ofDecimal 5 1))) (.var .rank)
    Derives text.toList e ∧ ∀ e', Derives text.toList e' → e' = e := by
  intro text difference e
  have derives : Derives text.toList e :=
    ((readAll_iff_derives text).1 e).1 (by decide +kernel)
  exact ⟨derives, fun e' h => (readAll_iff_derives text).2 e' e h derives⟩

end Danmaku.Expression
