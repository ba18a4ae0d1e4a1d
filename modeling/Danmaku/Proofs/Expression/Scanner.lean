import Danmaku.Proofs.Expression.Grammar
import Mathlib.Data.List.DropRight

/-!
# What may come next

The reader needs its recursion to build an expression. To tell whether a text can still become one,
the number of open parentheses is enough, and in what a text has just been interrupted: `Scanner`
goes through a text one character at a time, and is stuck at the first that nothing can go on with.
A text that can be read never gets it stuck (`Derives.stuck?`), and where the reader fails it is
stuck as well (`readWhole_stops`), unless it is in a word after a dollar sign, which the reader
takes or leaves as a whole.
-/

namespace Danmaku.Expression

inductive Phase where
  /-- A factor comes next. -/
  | factor
  /-- An atom comes next, after a minus sign. -/
  | atom
  /-- Within the digits of a number. -/
  | whole
  /-- After a point that begins a number. -/
  | point
  /-- Within the digits after a point. -/
  | fraction
  /-- After a dollar sign. -/
  | dollar
  /-- After so many letters of the word after a dollar sign. -/
  | word (letters : Nat)
  /-- After these digits of an index. -/
  | index (digits : List Char)
  /-- An operand is over. -/
  | after

/-- How many parentheses are open, and what goes on within them. -/
structure Scanner where
  depth : Nat
  phase : Phase

namespace Scanner

def start : Scanner := ⟨0, .factor⟩

/-- An atom begins. -/
def opening? (depth : Nat) (c : Char) : Option Scanner :=
  if c.isDigit then some ⟨depth, .whole⟩
  else if c = '.' then some ⟨depth, .point⟩
  else if c = '$' then some ⟨depth, .dollar⟩
  else if c = '(' then some ⟨depth + 1, .factor⟩
  else none

/-- An operand goes on with an operator, or is closed. -/
def closing? (depth : Nat) (c : Char) : Option Scanner :=
  if isSpace c then some ⟨depth, .after⟩
  else if (multiplicative? c).isSome || (additive? c).isSome then some ⟨depth, .factor⟩
  else if c = ')' && 0 < depth then some ⟨depth - 1, .after⟩
  else none

/-- The letters of the two words. -/
def spelling? (depth : Nat) : Nat → Char → Option Scanner
  | 1, 'a' => some ⟨depth, .word 2⟩
  | 2, 'n' => some ⟨depth, .word 3⟩
  | 3, 'd' => some ⟨depth, .after⟩
  | 3, 'k' => some ⟨depth, .after⟩
  | _, _ => none

/-- What comes of a scanner at a character, if it may come next. -/
def next? : Scanner → Char → Option Scanner
  | ⟨d, .factor⟩, c =>
    if isSpace c then some ⟨d, .factor⟩
    else if c = '-' then some ⟨d, .atom⟩
    else opening? d c
  | ⟨d, .atom⟩, c => if isSpace c then some ⟨d, .atom⟩ else opening? d c
  | ⟨d, .whole⟩, c =>
    if c.isDigit then some ⟨d, .whole⟩
    else if c = '.' then some ⟨d, .fraction⟩
    else closing? d c
  | ⟨d, .point⟩, c => if c.isDigit then some ⟨d, .fraction⟩ else none
  | ⟨d, .fraction⟩, c => if c.isDigit then some ⟨d, .fraction⟩ else closing? d c
  | ⟨d, .dollar⟩, c =>
    if c.isDigit then some ⟨d, .index [c]⟩
    else if c = 'r' then some ⟨d, .word 1⟩
    else none
  | ⟨d, .word letters⟩, c => spelling? d letters c
  | ⟨d, .index digits⟩, c =>
    if c.isDigit then some ⟨d, .index (digits ++ [c])⟩
    else if naturalOfDigits digits < indexBound then closing? d c
    else none
  | ⟨d, .after⟩, c => closing? d c

/-- What is left of a text where the scanner gets stuck. -/
def stuck? : Scanner → List Char → Option (List Char)
  | _, [] => none
  | s, c :: r =>
    match s.next? c with
    | some s' => s'.stuck? r
    | none => some (c :: r)

theorem stuck?_step {s s' : Scanner} {c : Char} (next : s.next? c = some s') (r : List Char) :
    s.stuck? (c :: r) = s'.stuck? r := by
  rw [stuck?, next]

theorem stuck?_here {s : Scanner} {c : Char} (none : s.next? c = none) (r : List Char) :
    s.stuck? (c :: r) = some (c :: r) := by
  rw [stuck?, none]

theorem length_le_of_stuck? {s : Scanner} {t u : List Char} (h : s.stuck? t = some u) :
    u.length ≤ t.length := by
  induction t generalizing s with
  | nil => cases h
  | cons a t ih =>
    cases next : s.next? a with
    | none =>
      rw [stuck?_here next] at h
      cases h
      exact Nat.le_refl _
    | some s' =>
      rw [stuck?_step next] at h
      have le := ih h
      rw [List.length_cons]
      omega

/-- What a scanner that is stuck has not seen makes no difference. -/
theorem stuck?_local {s : Scanner} {x : List Char} {c : Char} {r : List Char}
    (stuck : s.stuck? (x ++ c :: r) = some (c :: r)) (r' : List Char) :
    s.stuck? (x ++ c :: r') = some (c :: r') := by
  induction x generalizing s with
  | nil =>
    rw [List.nil_append] at stuck ⊢
    cases next : s.next? c with
    | none => exact stuck?_here next r'
    | some s' =>
      -- A scanner that goes on gets stuck later, where less is left.
      exfalso
      rw [stuck?_step next] at stuck
      have le := length_le_of_stuck? stuck
      rw [List.length_cons] at le
      omega
  | cons a x ih =>
    rw [List.cons_append] at stuck ⊢
    cases next : s.next? a with
    | none =>
      rw [stuck?_here next] at stuck
      have eq := congrArg List.length (Option.some.inj stuck)
      simp only [List.length_cons, List.length_append] at eq
      omega
    | some s' =>
      rw [stuck?_step next] at stuck ⊢
      exact ih stuck

theorem stuck?_stay {s : Scanner} {w : List Char} (stays : ∀ c ∈ w, s.next? c = some s)
    (r : List Char) : s.stuck? (w ++ r) = s.stuck? r := by
  induction w with
  | nil => rfl
  | cons c w ih =>
    rw [List.forall_mem_cons] at stays
    rw [List.cons_append, stuck?_step stays.1, ih stays.2]

/-- Two scanners do the same if they do so at the next character. -/
theorem stuck?_congr {s s' : Scanner} {r : List Char}
    (same : ∀ c t, r = c :: t → s.next? c = s'.next? c) : s.stuck? r = s'.stuck? r := by
  cases r with
  | nil => rfl
  | cons c t => rw [stuck?, stuck?, same c t rfl]

end Scanner

open Scanner

theorem stuck?_blank {phase : Phase} (quiet : phase = .factor ∨ phase = .atom ∨ phase = .after)
    (d : Nat) {w : List Char} (blank : Blank w) (s : List Char) :
    stuck? ⟨d, phase⟩ (w ++ s) = stuck? ⟨d, phase⟩ s := by
  apply stuck?_stay
  intro c mem
  have space : isSpace c = true := isSpace_eq_true_iff.2 (blank c mem)
  rcases quiet with rfl | rfl | rfl <;> simp [next?, closing?, space]

theorem stuck?_skipSpace {phase : Phase} (quiet : phase = .factor ∨ phase = .atom ∨ phase = .after)
    (d : Nat) (s : List Char) : stuck? ⟨d, phase⟩ s = stuck? ⟨d, phase⟩ (skipSpace s) := by
  obtain ⟨w, blank, eq⟩ := exists_blank s
  calc stuck? ⟨d, phase⟩ s = stuck? ⟨d, phase⟩ (w ++ skipSpace s) := by rw [← eq]
    _ = stuck? ⟨d, phase⟩ (skipSpace s) := stuck?_blank quiet d blank _

theorem not_isSpace_of_skipSpace {c : Char} {s : List Char} (ready : skipSpace (c :: s) = c :: s) :
    isSpace c = false := by
  simpa [skipSpace, List.dropWhile_eq_self_iff] using ready

theorem stuck?_whole (d : Nat) {w : List Char} (digits : Digits w) (s : List Char) :
    stuck? ⟨d, .whole⟩ (w ++ s) = stuck? ⟨d, .whole⟩ s :=
  stuck?_stay (fun c mem => by simp [next?, digits c mem]) s

theorem stuck?_fraction (d : Nat) {w : List Char} (digits : Digits w) (s : List Char) :
    stuck? ⟨d, .fraction⟩ (w ++ s) = stuck? ⟨d, .fraction⟩ s :=
  stuck?_stay (fun c mem => by simp [next?, digits c mem]) s

theorem stuck?_index (d : Nat) {w : List Char} (digits : Digits w) (v s : List Char) :
    stuck? ⟨d, .index v⟩ (w ++ s) = stuck? ⟨d, .index (v ++ w)⟩ s := by
  induction w generalizing v with
  | nil => rw [List.nil_append, List.append_nil]
  | cons c w ih =>
    have next : next? ⟨d, .index v⟩ c = some ⟨d, .index (v ++ [c])⟩ := by
      simp [next?, digits c List.mem_cons_self]
    have later : Digits w := fun c mem => digits c (List.mem_cons_of_mem _ mem)
    rw [List.cons_append, stuck?_step next, ih later, List.append_assoc, List.singleton_append]

theorem Digits.tail {c : Char} {w : List Char} (h : Digits (c :: w)) : Digits w :=
  fun c mem => h c (List.mem_cons_of_mem _ mem)

theorem stuck?_opening (d : Nat) {c : Char} (space : isSpace c = false) {s : Scanner}
    (opens : opening? d c = some s) (r : List Char) : stuck? ⟨d, .atom⟩ (c :: r) = s.stuck? r :=
  stuck?_step (by simp [next?, space, opens]) r

theorem stuck?_digit (d : Nat) {c : Char} (digit : c.isDigit = true) (r : List Char) :
    stuck? ⟨d, .atom⟩ (c :: r) = stuck? ⟨d, .whole⟩ r :=
  stuck?_opening d (isSpace_of_isDigit digit) (by simp [opening?, digit]) r

theorem stuck?_point (d : Nat) (r : List Char) :
    stuck? ⟨d, .atom⟩ ('.' :: r) = stuck? ⟨d, .point⟩ r :=
  stuck?_opening d (by decide) rfl r

theorem isDigit_point : ('.' : Char).isDigit = false := by decide

/-- After the number that the reader takes, the scanner goes on as after any operand. -/
theorem readNumber_scanned {s r : List Char} {e : Expression} (h : readNumber s = .done e r)
    (d : Nat) : stuck? ⟨d, .atom⟩ s = stuck? ⟨d, .after⟩ r := by
  obtain ⟨w, u, rfl, taken, dropped, digits, ended⟩ := exists_digits s
  simp only [readNumber, taken, dropped] at h
  split at h
  · rename_i after
    obtain ⟨f, u, rfl, taken, dropped, fraction, ended⟩ := exists_digits after
    simp only [taken, dropped] at h
    split at h
    · cases h
    · rename_i some
      cases h
      have goesOn : stuck? ⟨d, .fraction⟩ r = stuck? ⟨d, .after⟩ r :=
        stuck?_congr fun c t eq => by simp [next?, ended c t eq]
      rw [← goesOn]
      cases w with
      | nil =>
        obtain ⟨c, f, rfl⟩ := List.exists_cons_of_ne_nil (show f ≠ [] by simpa using some)
        have first : next? ⟨d, .point⟩ c = Option.some ⟨d, .fraction⟩ := by
          simp [next?, fraction c List.mem_cons_self]
        rw [List.nil_append, stuck?_point, List.cons_append, stuck?_step first,
          stuck?_fraction d fraction.tail]
      | cons c w =>
        have point : next? ⟨d, .whole⟩ '.' = Option.some ⟨d, .fraction⟩ := by
          simp [next?, isDigit_point]
        rw [List.cons_append, stuck?_digit d (digits c List.mem_cons_self),
          stuck?_whole d digits.tail, stuck?_step point, stuck?_fraction d fraction]
  · rename_i other
    split at h
    · cases h
    · rename_i some
      cases h
      obtain ⟨c, w, rfl⟩ := List.exists_cons_of_ne_nil (show w ≠ [] by simpa using some)
      rw [List.cons_append, stuck?_digit d (digits c List.mem_cons_self),
        stuck?_whole d digits.tail]
      apply stuck?_congr
      intro c t eq
      have point : c ≠ '.' := by
        rintro rfl
        exact other t eq
      simp [next?, ended c t eq, point]

/-- Where the reader finds no number, or no digit after a point, the scanner is stuck. -/
theorem readNumber_stuck {s r : List Char} {c : Char} (h : readNumber s = .failed (c :: r))
    (ready : skipSpace s = s) (group : ∀ t, s ≠ '(' :: t) (name : ∀ t, s ≠ '$' :: t) (d : Nat) :
    stuck? ⟨d, .atom⟩ s = some (c :: r) := by
  obtain ⟨w, u, rfl, taken, dropped, digits, ended⟩ := exists_digits s
  simp only [readNumber, taken, dropped] at h
  split at h
  · rename_i after
    obtain ⟨f, u, rfl, taken, dropped, fraction, stops⟩ := exists_digits after
    simp only [taken, dropped] at h
    split at h
    · rename_i none
      simp only [Bool.and_eq_true, List.isEmpty_iff] at none
      obtain ⟨rfl, rfl⟩ := none
      cases h
      rw [List.nil_append, stuck?_point]
      exact stuck?_here (by simp [next?, stops c r rfl]) r
    · cases h
  · rename_i other
    split at h
    · rename_i none
      rw [List.isEmpty_iff.1 none, List.nil_append] at h ready group name ⊢
      cases h
      have point : c ≠ '.' := by
        rintro rfl
        exact other r rfl
      have parenthesis : c ≠ '(' := by
        rintro rfl
        exact group r rfl
      have dollar : c ≠ '$' := by
        rintro rfl
        exact name r rfl
      apply stuck?_here
      simp [next?, opening?, not_isSpace_of_skipSpace ready, ended c r rfl, point, parenthesis,
        dollar]
    · cases h

theorem readVariable_scanned {s r : List Char} {e : Expression} (h : readVariable s = .done e r)
    (d : Nat) : stuck? ⟨d, .dollar⟩ s = stuck? ⟨d, .after⟩ r := by
  unfold readVariable at h
  split at h
  · cases h
    rfl
  · cases h
    rfl
  · obtain ⟨w, u, rfl, taken, dropped, digits, ended⟩ := exists_digits s
    simp only [taken, dropped] at h
    split at h
    · cases h
    · rename_i small
      cases h
      simp only [Bool.or_eq_true, List.isEmpty_iff, decide_eq_true_eq, not_or, Nat.not_le] at small
      obtain ⟨c, w, rfl⟩ := List.exists_cons_of_ne_nil small.1
      have first : next? ⟨d, .dollar⟩ c = some ⟨d, .index [c]⟩ := by
        simp [next?, digits c List.mem_cons_self]
      rw [List.cons_append, stuck?_step first, stuck?_index d digits.tail, List.singleton_append]
      apply stuck?_congr
      intro c' t eq
      simp [next?, ended c' t eq, small.2]

/-- Where the reader finds no variable the scanner is stuck, unless a word could begin there. -/
theorem readVariable_stuck {s r : List Char} {c : Char} (h : readVariable s = .failed (c :: r))
    (d : Nat) : stuck? ⟨d, .dollar⟩ s = some (c :: r) ∨ c = 'r' ∧ s = c :: r := by
  unfold readVariable at h
  split at h
  · cases h
  · cases h
  · obtain ⟨w, u, rfl, taken, dropped, digits, ended⟩ := exists_digits s
    simp only [taken, dropped] at h
    split at h
    · rename_i failed
      cases h
      have digit := ended c r rfl
      cases w with
      | nil =>
        rw [List.nil_append]
        by_cases word : c = 'r'
        · exact .inr ⟨word, rfl⟩
        · left
          exact stuck?_here (by simp [next?, digit, word]) r
      | cons c' w =>
        left
        have first : next? ⟨d, .dollar⟩ c' = some ⟨d, .index [c']⟩ := by
          simp [next?, digits c' List.mem_cons_self]
        have large : ¬ naturalOfDigits (c' :: w) < indexBound := by
          simpa using failed
        rw [List.cons_append, stuck?_step first, stuck?_index d digits.tail, List.singleton_append]
        apply stuck?_here
        simp only [next?, digit, large, Bool.false_eq_true, ↓reduceIte]
    · cases h

/-- What the reader leaves of a short text has the property. -/
def Leaves (n : Nat) (property : List Char → Prop) (read : List Char → Reading Expression) : Prop :=
  ∀ s e r, s.length ≤ n → read s = .done e r → property r

/-- With room for as many operators as there are characters, a chain is over where no operator
comes next. What its operands leave, it leaves. -/
theorem readChain_leaves {part : Level} {operator? : Char → Option Operator}
    {operand : List Char → Reading Expression} {property : List Char → Prop} {m : Nat}
    (sound : Sound part operand) (leaves : Leaves m property operand) :
    ∀ (n : Nat) {left e : Expression} {s r : List Char}, s.length ≤ n → s.length ≤ m →
      property s → readChain operator? operand n left s = .done e r →
        Halts operator? r ∧ property r := by
  intro n
  induction n with
  | zero =>
    intro left e s r le _ start h
    cases h
    rw [List.length_eq_zero_iff.1 (Nat.le_zero.1 le)] at start ⊢
    exact ⟨halts_blank blank_nil _, start⟩
  | succ n ih =>
    intro left e s r le le' start h
    have blanks := length_skipSpace_le s
    unfold readChain at h
    split at h
    · rename_i empty
      cases h
      refine ⟨?_, start⟩
      intro c t first
      rw [empty] at first
      cases first
    · rename_i c t first
      rw [first, List.length_cons] at blanks
      split at h
      · rename_i none
        cases h
        refine ⟨?_, start⟩
        intro c' t' first'
        rw [first] at first'
        cases first'
        exact none
      · obtain ⟨right, r', inner, more⟩ := Reading.andThen_eq_done.1 h
        have blanks' := length_skipSpace_le t
        have shorter := sound.length_lt inner
        exact ih (by omega) (by omega) (leaves _ _ _ (by omega) inner) more

theorem leaves_true (n : Nat) (read : List Char → Reading Expression) :
    Leaves n (fun _ => True) read :=
  fun _ _ _ _ _ => trivial

theorem readProduct_leaves {nested : List Char → Reading Expression} (sound : Sound .sum nested)
    (n : Nat) : Leaves (n + 1) (Halts multiplicative?) (readProduct nested n) := by
  intro s e r le h
  obtain ⟨left, s', first, more⟩ := Reading.andThen_eq_done.1 h
  have shorter := (readFactor_sound sound).length_lt first
  exact (readChain_leaves (readFactor_sound sound) (leaves_true n _) n (by omega) (by omega)
    trivial more).1

theorem readSum_leaves (n : Nat) :
    Leaves n (fun r => Halts additive? r ∧ Halts multiplicative? r) (readSum n) := by
  intro s e r le h
  cases n with
  | zero => cases h
  | succ n =>
    have sound := readProduct_sound (readSum_sound n) n
    have leaves := readProduct_leaves (readSum_sound n) n
    obtain ⟨left, s', first, more⟩ := Reading.andThen_eq_done.1 h
    have shorter := sound.length_lt first
    exact readChain_leaves sound leaves n (by omega) (by omega) (leaves _ _ _ le first) more

/-! ## The reader and the scanner -/

/-- The scanner is stuck there, or a word could begin there and what follows spells none. -/
def Stops (scanner : Scanner) (s u : List Char) : Prop :=
  scanner.stuck? s = some u ∨ ∃ x r, u = 'r' :: r ∧ s = x ++ '$' :: u

theorem Stops.before {scanner scanner' : Scanner} {t s u : List Char} (h : Stops scanner' s u)
    (suffix : s <:+ t) (scans : scanner.stuck? t = scanner'.stuck? s) : Stops scanner t u := by
  rcases h with stuck | ⟨y, r, rfl, rfl⟩
  · exact .inl (scans.trans stuck)
  · obtain ⟨x, rfl⟩ := suffix
    right
    exact ⟨x ++ y, r, rfl, by rw [List.append_assoc]⟩

/-- The scanner can follow a reader: what the reader takes, it goes through, and where the reader
fails within a short text, it is stuck. -/
structure Tracks (n : Nat) (phase : Phase) (read : List Char → Reading Expression) : Prop where
  done : ∀ {s e r}, skipSpace s = s → read s = .done e r →
    ∀ d, stuck? ⟨d, phase⟩ s = stuck? ⟨d, .after⟩ r
  failed : ∀ {s c r}, skipSpace s = s → s.length ≤ n → read s = .failed (c :: r) →
    ∀ d, Stops ⟨d, phase⟩ s (c :: r)

section Tracks

variable {nested : List Char → Reading Expression} {n : Nat}

theorem stuck?_parenthesis (d : Nat) (s : List Char) :
    stuck? ⟨d, .atom⟩ ('(' :: s) = stuck? ⟨d + 1, .factor⟩ (skipSpace s) :=
  (stuck?_opening d rfl rfl s).trans (stuck?_skipSpace (.inl rfl) (d + 1) s)

theorem stuck?_dollar (d : Nat) (s : List Char) :
    stuck? ⟨d, .atom⟩ ('$' :: s) = stuck? ⟨d, .dollar⟩ s :=
  stuck?_opening d rfl rfl s

/-- After an operand that leaves no operator, only what closes it can come. -/
theorem stuck?_closing {c : Char} {r r' : List Char} (first : skipSpace r = c :: r')
    (sum : Halts additive? r) (product : Halts multiplicative? r) (d : Nat)
    (closes : c = ')' → d = 0) : stuck? ⟨d, .after⟩ r = some (c :: r') := by
  have ready : skipSpace (c :: r') = c :: r' := by rw [← first, skipSpace_skipSpace]
  rw [stuck?_skipSpace (.inr (.inr rfl)) d r, first]
  apply stuck?_here
  simp [next?, closing?, not_isSpace_of_skipSpace ready, sum c r' first, product c r' first]
  exact closes

theorem readAtom_scanned (tracks : Tracks n .factor nested) {s r : List Char} {e : Expression}
    (h : readAtom nested s = .done e r) (d : Nat) :
    stuck? ⟨d, .atom⟩ s = stuck? ⟨d, .after⟩ r := by
  unfold readAtom at h
  split at h
  · rename_i s
    obtain ⟨e', s', inner, closing⟩ := Reading.andThen_eq_done.1 h
    have scans := tracks.done (skipSpace_skipSpace s) inner (d + 1)
    split at closing
    · rename_i after first
      cases closing
      calc stuck? ⟨d, .atom⟩ ('(' :: s)
          _ = stuck? ⟨d + 1, .after⟩ s' := (stuck?_parenthesis d s).trans scans
          _ = stuck? ⟨d + 1, .after⟩ (')' :: r) := by
            rw [stuck?_skipSpace (.inr (.inr rfl)), first]
          _ = stuck? ⟨d, .after⟩ r := stuck?_step rfl r
    · cases closing
  · rename_i s
    exact (stuck?_dollar d s).trans (readVariable_scanned h d)
  · exact readNumber_scanned h d

theorem readAtom_stops (tracks : Tracks n .factor nested)
    (leaves : Leaves n (fun r => Halts additive? r ∧ Halts multiplicative? r) nested)
    {s r : List Char} {c : Char} (ready : skipSpace s = s) (le : s.length ≤ n + 1)
    (h : readAtom nested s = .failed (c :: r)) (d : Nat) : Stops ⟨d, .atom⟩ s (c :: r) := by
  unfold readAtom at h
  split at h
  · rename_i s
    rw [List.length_cons] at le
    have blanks := length_skipSpace_le s
    have suffix : skipSpace s <:+ '(' :: s := (skipSpace_suffix s).trans (List.suffix_cons _ s)
    -- What is before the nested text, the scanner goes through.
    apply Stops.before _ suffix (stuck?_parenthesis d s)
    rcases Reading.andThen_eq_failed.1 h with inner | ⟨e', s', inner, closing⟩
    · exact tracks.failed (skipSpace_skipSpace s) (by omega) inner (d + 1)
    · obtain ⟨sum, product⟩ := leaves _ _ _ (by omega) inner
      left
      rw [tracks.done (skipSpace_skipSpace s) inner (d + 1)]
      split at closing
      · cases closing
      · rename_i other
        have first : skipSpace s' = c :: r := Reading.failed.inj closing
        apply stuck?_closing first sum product
        rintro rfl
        exact absurd first (other r)
  · rename_i s
    rcases readVariable_stuck h d with stuck | ⟨rfl, rfl⟩
    · exact .inl ((stuck?_dollar d s).trans stuck)
    · exact .inr ⟨[], r, rfl, rfl⟩
  · rename_i group name
    exact .inl (readNumber_stuck h ready group name d)

theorem readAtom_tracks (tracks : Tracks n .factor nested)
    (leaves : Leaves n (fun r => Halts additive? r ∧ Halts multiplicative? r) nested) :
    Tracks (n + 1) .atom (readAtom nested) where
  done _ h := readAtom_scanned tracks h
  failed ready le h := readAtom_stops tracks leaves ready le h

/-- A factor without a minus sign is an atom. -/
theorem stuck?_factor {s : List Char} (ready : skipSpace s = s) (plain : ∀ t, s ≠ '-' :: t)
    (d : Nat) : stuck? ⟨d, .factor⟩ s = stuck? ⟨d, .atom⟩ s := by
  apply stuck?_congr
  rintro c t rfl
  have sign : c ≠ '-' := by
    rintro rfl
    exact plain t rfl
  simp [next?, not_isSpace_of_skipSpace ready, sign]

theorem stuck?_minus (d : Nat) (s : List Char) :
    stuck? ⟨d, .factor⟩ ('-' :: s) = stuck? ⟨d, .atom⟩ (skipSpace s) :=
  (stuck?_step rfl s).trans (stuck?_skipSpace (.inr (.inl rfl)) d s)

theorem readFactor_tracks (tracks : Tracks n .atom (readAtom nested)) :
    Tracks n .factor (readFactor nested) := by
  constructor
  · intro s e r ready h d
    unfold readFactor at h
    split at h
    · rename_i s
      obtain ⟨e', s', inner, negated⟩ := Reading.andThen_eq_done.1 h
      cases negated
      exact (stuck?_minus d s).trans (tracks.done (skipSpace_skipSpace s) inner d)
    · rename_i plain
      exact (stuck?_factor ready plain d).trans (tracks.done ready h d)
  · intro s c r ready le h d
    unfold readFactor at h
    split at h
    · rename_i s
      rw [List.length_cons] at le
      have blanks := length_skipSpace_le s
      have suffix : skipSpace s <:+ '-' :: s := (skipSpace_suffix s).trans (List.suffix_cons _ s)
      apply Stops.before _ suffix (stuck?_minus d s)
      rcases Reading.andThen_eq_failed.1 h with inner | ⟨e', s', -, negated⟩
      · exact tracks.failed (skipSpace_skipSpace s) (by omega) inner d
      · cases negated
    · rename_i plain
      exact (tracks.failed ready le h d).before List.suffix_rfl (stuck?_factor ready plain d)

end Tracks

section Chain

variable {operator? : Char → Option Operator} {operand : List Char → Reading Expression} {n : Nat}

/-- The operators are among those that the scanner knows. -/
def Known (operator? : Char → Option Operator) : Prop :=
  ∀ c operator, operator? c = some operator →
    isSpace c = false ∧ ((multiplicative? c).isSome || (additive? c).isSome) = true

theorem known_multiplicative : Known multiplicative? := by
  intro c operator means
  have scales := multiplicative?_eq_some_iff.1 means
  cases scales <;> decide

theorem known_additive : Known additive? := by
  intro c operator means
  have shifts := additive?_eq_some_iff.1 means
  cases shifts <;> decide

/-- An operator is gone through, and a factor comes next. -/
theorem stuck?_operator (known : Known operator?) {s r : List Char} {c : Char}
    {operator : Operator} (first : skipSpace s = c :: r) (means : operator? c = some operator)
    (d : Nat) : stuck? ⟨d, .after⟩ s = stuck? ⟨d, .factor⟩ (skipSpace r) := by
  obtain ⟨space, either⟩ := known c operator means
  have next : next? ⟨d, .after⟩ c = some ⟨d, .factor⟩ := by
    simp only [next?, closing?, space, either, Bool.false_eq_true, ↓reduceIte]
  rw [stuck?_skipSpace (.inr (.inr rfl)), first, stuck?_step next, stuck?_skipSpace (.inl rfl)]

theorem readChain_scanned (known : Known operator?) (tracks : Tracks n .factor operand) :
    ∀ (k : Nat) {left e : Expression} {s r : List Char},
      readChain operator? operand k left s = .done e r →
        ∀ d, stuck? ⟨d, .after⟩ s = stuck? ⟨d, .after⟩ r := by
  intro k
  induction k with
  | zero =>
    intro left e s r h d
    cases h
    rfl
  | succ k ih =>
    intro left e s r h d
    unfold readChain at h
    split at h
    · cases h
      rfl
    · rename_i c t first
      split at h
      · cases h
        rfl
      · rename_i operator means
        obtain ⟨right, r', inner, more⟩ := Reading.andThen_eq_done.1 h
        rw [stuck?_operator known first means, tracks.done (skipSpace_skipSpace t) inner d]
        exact ih more d

theorem readChain_stops (known : Known operator?) {part : Level} (sound : Sound part operand)
    (tracks : Tracks n .factor operand) :
    ∀ (k : Nat) {left : Expression} {s r : List Char} {c : Char}, s.length ≤ n →
      readChain operator? operand k left s = .failed (c :: r) →
        ∀ d, Stops ⟨d, .after⟩ s (c :: r) := by
  intro k
  induction k with
  | zero =>
    intro left s r c _ h
    cases h
  | succ k ih =>
    intro left s r c le h d
    have blanks := length_skipSpace_le s
    unfold readChain at h
    split at h
    · cases h
    · rename_i sign t first
      rw [first, List.length_cons] at blanks
      have blanks' := length_skipSpace_le t
      split at h
      · cases h
      · rename_i operator means
        have suffix : skipSpace t <:+ s := by
          have after := (List.suffix_cons sign t).trans (first ▸ skipSpace_suffix s)
          exact (skipSpace_suffix t).trans after
        apply Stops.before _ suffix (stuck?_operator known first means d)
        rcases Reading.andThen_eq_failed.1 h with inner | ⟨right, r', inner, more⟩
        · exact tracks.failed (skipSpace_skipSpace t) (by omega) inner d
        · have shorter := sound.length_lt inner
          obtain ⟨x, text, -⟩ := sound _ _ _ inner
          exact (ih (by omega) more d).before ⟨x, text.symm⟩
            (tracks.done (skipSpace_skipSpace t) inner d)

/-- An operand and the chain after it. -/
theorem andThen_readChain_tracks (known : Known operator?) {part : Level}
    (sound : Sound part operand) (tracks : Tracks n .factor operand) (k : Nat) :
    Tracks n .factor fun s => (operand s).andThen (readChain operator? operand k) := by
  constructor
  · intro s e r ready h d
    obtain ⟨left, s', inner, more⟩ := Reading.andThen_eq_done.1 h
    exact (tracks.done ready inner d).trans (readChain_scanned known tracks k more d)
  · intro s c r ready le h d
    rcases Reading.andThen_eq_failed.1 h with inner | ⟨left, s', inner, more⟩
    · exact tracks.failed ready le inner d
    · have shorter := sound.length_lt inner
      obtain ⟨x, text, -⟩ := sound _ _ _ inner
      exact (readChain_stops known sound tracks k (by omega) more d).before ⟨x, text.symm⟩
        (tracks.done ready inner d)

end Chain

theorem readSum_tracks (n : Nat) : Tracks n .factor (readSum n) := by
  induction n with
  | zero =>
    constructor
    · intro s e r _ h
      cases h
    · intro s c r _ le h
      cases h
      cases le
  | succ n ih =>
    have factor := readFactor_tracks (readAtom_tracks ih (readSum_leaves n))
    have product := andThen_readChain_tracks known_multiplicative
      (readFactor_sound (readSum_sound n)) factor n
    exact andThen_readChain_tracks known_additive (readProduct_sound (readSum_sound n) n) product n

/-! ## Whole texts -/

theorem Derives.stuck? {s : List Char} {e : Expression} (h : Derives s e) :
    start.stuck? s = none := by
  have reads := h.readWhole
  unfold Expression.readWhole at reads
  split at reads
  · cases reads
  · rename_i e' r inner
    have scans := (readSum_tracks _).done (skipSpace_skipSpace s) inner 0
    split at reads
    · rename_i empty
      calc start.stuck? s = Scanner.stuck? ⟨0, .factor⟩ (skipSpace s) :=
            stuck?_skipSpace (.inl rfl) 0 s
        _ = Scanner.stuck? ⟨0, .after⟩ (skipSpace r) :=
            scans.trans (stuck?_skipSpace (.inr (.inr rfl)) 0 r)
        _ = none := by rw [empty]; rfl
    · cases reads

/-- At the character where the reading of a text fails, the scanner is stuck. -/
theorem readWhole_stops {s r : List Char} {c : Char} (h : readWhole s = .error (c :: r)) :
    Stops start s (c :: r) := by
  have blanks := length_skipSpace_le s
  have scans : start.stuck? s = stuck? ⟨0, .factor⟩ (skipSpace s) :=
    stuck?_skipSpace (.inl rfl) 0 s
  apply Stops.before _ (skipSpace_suffix s) scans
  unfold readWhole at h
  split at h
  · rename_i failed
    cases h
    exact (readSum_tracks _).failed (skipSpace_skipSpace s) blanks failed 0
  · rename_i e r' inner
    obtain ⟨sum, product⟩ := readSum_leaves _ _ _ _ blanks inner
    left
    rw [(readSum_tracks _).done (skipSpace_skipSpace s) inner 0]
    split at h
    · cases h
    · have first : skipSpace r' = c :: r := Except.error.inj h
      exact stuck?_closing first sum product 0 fun _ => rfl

end Danmaku.Expression
