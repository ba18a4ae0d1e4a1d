import Danmaku.Proofs.Expression.Backtracking
import Danmaku.Proofs.Expression.Scanner
import Mathlib.Data.List.Infix

/-!
# Where reading fails

The error of a text that cannot be read is the position where the longest part of it ends that can
still become one (`longest_viable`): the parser fails furthest where the reader does. That the part
can be completed is shown along the reader: each of its rules fails at the end of a text that the
rule can complete (`Begins`). That nothing longer can be is shown along the scanner, for which the
character after the part is one too many.
-/

namespace Danmaku

namespace Text.Position

/-- The position is where the text ends. -/
structure Ends (p : Position) (cs : List Char) : Prop where
  offset : p.offset = (String.ofList cs).utf8ByteSize
  line : p.line = 1 + cs.count '\n'
  /-- What counts for the column is what comes after the last line feed. -/
  column : ∃ before line, cs = before ++ line ∧ '\n' ∉ line ∧
    (before = [] ∨ ∃ lines, before = lines ++ ['\n']) ∧ p.column = 1 + line.length

theorem after_offset (cs : List Char) : (after cs).offset = (String.ofList cs).utf8ByteSize := by
  have sum : cs.foldr (·.utf8Size + ·) 0 = (String.ofList cs).utf8ByteSize := by
    induction cs with
    | nil => rfl
    | cons c cs ih =>
      rw [List.foldr_cons, ih, String.ofList_cons, String.utf8ByteSize_append,
        String.utf8ByteSize_singleton]
  exact sum

theorem after_ends (cs : List Char) : (after cs).Ends cs where
  offset := after_offset cs
  line := Nat.add_comm _ _
  column := by
    refine ⟨cs.rdropWhile (· != '\n'), cs.rtakeWhile (· != '\n'),
      List.rdropWhile_append_rtakeWhile.symm, ?_, ?_, ?_⟩
    · intro mem
      simpa using List.mem_rtakeWhile_imp mem
    · cases last : cs.rdropWhile (· != '\n') using List.reverseRecOn with
      | nil => exact .inl rfl
      | append_singleton lines c =>
        right
        have some : cs.rdropWhile (· != '\n') ≠ [] := by simp [last]
        have feed := List.rdropWhile_last_not (· != '\n') cs some
        simp only [last, List.getLast_append_singleton, bne_iff_ne, ne_eq, not_not] at feed
        exact ⟨lines, by rw [feed]⟩
    · rw [List.rtakeWhile, List.length_reverse]
      exact Nat.add_comm _ _

theorem ofRest_ends (cs rest : List Char) : (ofRest (cs ++ rest) rest).Ends cs := by
  have before : (cs ++ rest).take ((cs ++ rest).length - rest.length) = cs := by simp
  rw [ofRest, before]
  exact after_ends cs

end Text.Position

namespace Expression

/-- The text can be completed to one that can be read. -/
def Viable (cs : List Char) : Prop := ∃ more e, parse (String.ofList (cs ++ more)) = .ok e

/-- The text ends in an index that is too large. -/
def Overflows (cs : List Char) : Prop :=
  ∃ before w, cs = before ++ '$' :: w ∧ Digits w ∧ 2 ^ 64 ≤ naturalOfDigits w

/-- The text ends in such an index, or can be completed to one of the level. -/
def Begun (level : Level) (cs : List Char) : Prop :=
  Overflows cs ∨ ∃ more e, Spells level (cs ++ more) e

/-- What the reader has taken when it fails is the beginning of a text of the level. -/
def Begins (level : Level) (read : List Char → Reading Expression) : Prop :=
  ∀ s unread, read s = .failed unread → ∃ x, s = x ++ unread ∧ Begun level x

theorem Overflows.prepend {cs : List Char} (h : Overflows cs) (s : List Char) :
    Overflows (s ++ cs) := by
  obtain ⟨before, w, rfl, digits, large⟩ := h
  exact ⟨s ++ before, w, by rw [List.append_assoc], digits, large⟩

theorem Begun.imp {level level' : Level} {cs : List Char} (h : Begun level cs) (s : List Char)
    (completes : ∀ more e, Spells level (cs ++ more) e →
      ∃ more' e', Spells level' (s ++ cs ++ more') e') : Begun level' (s ++ cs) := by
  rcases h with overflows | ⟨more, e, spells⟩
  · exact .inl (overflows.prepend s)
  · exact .inr (completes more e spells)

theorem spells_one : ∃ e, Spells .atom ['1'] e :=
  ⟨_, .number (.whole (by simp) (by simp [Digits]))⟩

theorem begun_nil (level : Level) : Begun level [] := by
  obtain ⟨e, one⟩ := spells_one
  right
  cases level with
  | atom => exact ⟨_, e, one⟩
  | factor => exact ⟨_, e, .atom one⟩
  | product => exact ⟨_, e, .factor (.atom one)⟩
  | sum => exact ⟨_, e, .product (.factor (.atom one))⟩

theorem readNumber_begins : Begins .atom readNumber := by
  intro s u h
  obtain ⟨w, r, rfl, taken, dropped, -, -⟩ := exists_digits s
  simp only [readNumber, taken, dropped] at h
  split at h
  · rename_i after
    split at h
    · rename_i none
      simp only [Bool.and_eq_true, List.isEmpty_iff] at none
      cases h
      have digit : Digits ['0'] := by simp [Digits]
      exact ⟨['.'], by rw [none.1]; rfl, .inr ⟨['0'], _, .number (.fraction (by simp) digit)⟩⟩
    · cases h
  · split at h
    · cases h
      exact ⟨[], rfl, begun_nil .atom⟩
    · cases h

/-- A variable fails at once, or after an index that is too large. -/
theorem readVariable_begins {s u : List Char} (h : readVariable s = .failed u) :
    ∃ x, s = x ++ u ∧ Begun .atom ('$' :: x) := by
  unfold readVariable at h
  split at h
  · cases h
  · cases h
  · obtain ⟨w, r, rfl, taken, dropped, digits, -⟩ := exists_digits s
    simp only [taken, dropped] at h
    split at h
    · rename_i failed
      cases h
      refine ⟨w, rfl, ?_⟩
      simp only [Bool.or_eq_true, List.isEmpty_iff, decide_eq_true_eq] at failed
      rcases failed with rfl | large
      · have digit : Digits ['1'] := by simp [Digits]
        exact .inr ⟨['1'], _, .variable (.parameter (by simp) digit (by decide))⟩
      · exact .inl ⟨[], w, rfl, digits, large⟩
    · cases h

/-! ## The rules -/

section Begins

variable {nested : List Char → Reading Expression}

theorem readAtom_begins (sound : Sound .sum nested) (begins : Begins .sum nested) :
    Begins .atom (readAtom nested) := by
  intro s u h
  unfold readAtom at h
  split at h
  · rename_i s
    obtain ⟨w, blank, text⟩ := exists_blank s
    rcases Reading.andThen_eq_failed.1 h with inner | ⟨e, s', inner, closing⟩
    · obtain ⟨x, eq, begun⟩ := begins _ _ inner
      refine ⟨'(' :: w ++ x, by rw [text, eq]; simp, begun.imp _ ?_⟩
      intro more e spells
      exact ⟨more ++ [')'], e, by simpa using Spells.group blank spells blank_nil⟩
    · obtain ⟨t, eq, spells⟩ := sound _ _ _ inner
      obtain ⟨w', blank', text'⟩ := exists_blank s'
      split at closing
      · cases closing
      · cases closing
        have all : s = w ++ (t ++ (w' ++ skipSpace s')) := by rw [← text', ← eq, ← text]
        refine ⟨'(' :: (w ++ (t ++ w')), by rw [all]; simp, ?_⟩
        exact .inr ⟨[')'], e, by simpa using Spells.group blank spells blank'⟩
  · rename_i s
    obtain ⟨x, rfl, begun⟩ := readVariable_begins h
    exact ⟨'$' :: x, rfl, begun⟩
  · exact readNumber_begins _ _ h

theorem readFactor_begins (begins : Begins .atom (readAtom nested)) :
    Begins .factor (readFactor nested) := by
  intro s u h
  unfold readFactor at h
  split at h
  · rename_i s
    obtain ⟨w, blank, text⟩ := exists_blank s
    rcases Reading.andThen_eq_failed.1 h with inner | ⟨e, s', -, negated⟩
    · obtain ⟨x, eq, begun⟩ := begins _ _ inner
      refine ⟨'-' :: w ++ x, by rw [text, eq]; simp, begun.imp _ ?_⟩
      intro more e spells
      exact ⟨more, _, by simpa using Spells.negate blank spells⟩
    · cases negated
  · obtain ⟨x, rfl, begun⟩ := begins _ _ h
    exact ⟨x, rfl, begun.imp [] fun more e spells => ⟨more, e, .atom spells⟩⟩

/-- A chain fails in one of its operands, which completes the text of the operands before. -/
theorem readChain_begins {level part : Level} {operator? : Char → Option Operator}
    {operand : List Char → Reading Expression} (sound : Sound part operand)
    (begins : Begins part operand)
    (longer : ∀ {t w w' t' sign operator l r}, Spells level t l → Blank w →
      operator? sign = some operator → Blank w' → Spells part t' r →
      Spells level (t ++ (w ++ sign :: (w' ++ t'))) (.binary operator l r)) :
    ∀ (n : Nat) {t : List Char} {left : Expression}, Spells level t left → ∀ s u,
      readChain operator? operand n left s = .failed u →
        ∃ x, s = x ++ u ∧ Begun level (t ++ x) := by
  intro n
  induction n with
  | zero =>
    intro t left _ s u h
    cases h
  | succ n ih =>
    intro t left spells s u h
    obtain ⟨w, blank, text⟩ := exists_blank s
    unfold readChain at h
    split at h
    · cases h
    · rename_i sign s' first
      obtain ⟨w', blank', text'⟩ := exists_blank s'
      split at h
      · cases h
      · rename_i operator means
        rcases Reading.andThen_eq_failed.1 h with inner | ⟨right, s'', inner, more⟩
        · obtain ⟨x, eq, begun⟩ := begins _ _ inner
          refine ⟨w ++ sign :: (w' ++ x), by rw [text, first, text', eq]; simp, ?_⟩
          have longer' : Begun level (t ++ (w ++ sign :: w') ++ x) :=
            begun.imp _ fun more e spells' =>
              ⟨more, _, by simpa using longer spells blank means blank' spells'⟩
          simpa using longer'
        · obtain ⟨t', eq, spells'⟩ := sound _ _ _ inner
          have whole := longer spells blank means blank' spells'
          obtain ⟨x, rfl, begun⟩ := ih whole _ _ more
          refine ⟨w ++ sign :: (w' ++ t') ++ x, by rw [text, first, text', eq]; simp, ?_⟩
          simpa using begun

theorem readProduct_begins (sound : Sound .sum nested)
    (begins : Begins .factor (readFactor nested)) (n : Nat) :
    Begins .product (readProduct nested n) := by
  intro s u h
  rcases Reading.andThen_eq_failed.1 h with inner | ⟨left, s', inner, more⟩
  · obtain ⟨x, rfl, begun⟩ := begins _ _ inner
    exact ⟨x, rfl, begun.imp [] fun more e spells => ⟨more, e, .factor spells⟩⟩
  · obtain ⟨t, rfl, spells⟩ := readFactor_sound sound _ _ _ inner
    obtain ⟨x, rfl, begun⟩ := readChain_begins (readFactor_sound sound) begins
      (fun left before means after right =>
        .scale left before (multiplicative?_eq_some_iff.1 means) after right)
      n (.factor spells) _ _ more
    exact ⟨t ++ x, by simp, begun⟩

theorem readSum_begins (n : Nat) : Begins .sum (readSum n) := by
  induction n with
  | zero =>
    intro s u h
    cases h
    exact ⟨[], rfl, begun_nil .sum⟩
  | succ n ih =>
    have sound := readSum_sound n
    have product := readProduct_begins sound (readFactor_begins (readAtom_begins sound ih)) n
    intro s u h
    rcases Reading.andThen_eq_failed.1 h with inner | ⟨left, s', inner, more⟩
    · obtain ⟨x, rfl, begun⟩ := product _ _ inner
      exact ⟨x, rfl, begun.imp [] fun more e spells => ⟨more, e, .product spells⟩⟩
    · obtain ⟨t, rfl, spells⟩ := readProduct_sound sound n _ _ _ inner
      obtain ⟨x, rfl, begun⟩ := readChain_begins (readProduct_sound sound n) product
        (fun left before means after right =>
          .shift left before (additive?_eq_some_iff.1 means) after right)
        n (.product spells) _ _ more
      exact ⟨t ++ x, by simp, begun⟩

end Begins

/-! ## Whole texts -/

theorem viable_iff {cs : List Char} : Viable cs ↔ ∃ more e, Derives (cs ++ more) e := by
  constructor
  · rintro ⟨more, e, h⟩
    unfold parse at h
    rw [String.toList_ofList] at h
    split at h
    · rename_i e' reads
      exact ⟨more, e', readAll_sound reads⟩
    · cases h
  · rintro ⟨more, e, derives⟩
    refine ⟨more, e.fold, ?_⟩
    simp only [parse, String.toList_ofList, derives.readAll]

theorem readAll_begins {s u : List Char} (h : readAll s = .error u) :
    ∃ x, s = x ++ u ∧ (Viable x ∨ Overflows x) := by
  obtain ⟨w, blank, text⟩ := exists_blank s
  rw [readAll_eq_readWhole] at h
  unfold readWhole at h
  split at h
  · rename_i failed
    cases h
    obtain ⟨x, eq, begun⟩ := readSum_begins _ _ _ failed
    refine ⟨w ++ x, by rw [List.append_assoc, ← eq, ← text], ?_⟩
    rcases begun with overflows | ⟨more, e, spells⟩
    · exact .inr (overflows.prepend w)
    · exact .inl (viable_iff.2 ⟨more, e, by simpa using Derives.sum blank spells blank_nil⟩)
  · rename_i e r inner
    obtain ⟨t, eq, spells⟩ := readSum_sound _ _ _ _ inner
    obtain ⟨w', blank', text'⟩ := exists_blank r
    split at h
    · cases h
    · cases h
      have all : s = w ++ (t ++ (w' ++ skipSpace r)) := by rw [← text', ← eq, ← text]
      refine ⟨w ++ (t ++ w'), by rw [all]; simp, .inl ?_⟩
      exact viable_iff.2 ⟨[], e, by simpa using Derives.sum blank spells blank'⟩

/-- With the character after it, the part cannot be completed, except by the rest of a word. -/
theorem readAll_longest {x rest : List Char} {c : Char}
    (h : readAll (x ++ c :: rest) = .error (c :: rest)) (viable : Viable (x ++ [c])) :
    c = 'r' ∧ ∃ before, x = before ++ ['$'] := by
  rw [readAll_eq_readWhole] at h
  rcases readWhole_stops h with stuck | ⟨before, r, unread, text⟩
  · obtain ⟨more, e, derives⟩ := viable_iff.1 viable
    rw [List.append_assoc, List.singleton_append] at derives
    have through := derives.stuck?
    rw [Scanner.stuck?_local stuck more] at through
    cases through
  · cases unread
    refine ⟨rfl, before, ?_⟩
    have cut : x ++ 'r' :: rest = before ++ ['$'] ++ 'r' :: rest := by
      rw [text, List.append_assoc, List.singleton_append]
    exact List.append_cancel_right cut

/-- **The error of a text that cannot be read is at the end of its longest part that can still
become one**: what is before the position can be completed, or ends in an index that is too large,
and together with the next character it cannot be, or the next character is the first of a word. -/
theorem longest_viable {text : String} {p : Text.Position} (h : parse text = .error p) :
    ∃ taken unread, text.toList = taken ++ unread ∧ p.Ends taken ∧
      (Viable taken ∨ Overflows taken) ∧
        ∀ c rest, unread = c :: rest → Viable (taken ++ [c]) →
          c = 'r' ∧ ∃ before, taken = before ++ ['$'] := by
  unfold parse at h
  split at h
  · cases h
  · rename_i unread failed
    cases h
    obtain ⟨taken, eq, viable⟩ := readAll_begins failed
    rw [eq] at failed ⊢
    refine ⟨taken, unread, rfl, Text.Position.ofRest_ends taken unread, viable, ?_⟩
    rintro c rest rfl longer
    exact readAll_longest failed longer

/-- A sum goes on in a new line, but not with the sign of a product. -/
theorem product_longest :
    parse "(2 +\n * 3)" = .error { offset := 6, line := 2, column := 2 } ∧
      Viable "(2 +\n ".toList ∧ ¬ Viable "(2 +\n *".toList := by
  have failed : parse "(2 +\n * 3)" = .error { offset := 6, line := 2, column := 2 } := by
    decide +kernel
  obtain ⟨taken, unread, text, ends, begun, longest⟩ := longest_viable failed
  have place : ∀ t ∈ "(2 +\n * 3)".toList.inits,
      6 = (String.ofList t).utf8ByteSize → t = "(2 +\n ".toList := by decide +kernel
  have here : taken = "(2 +\n ".toList :=
    place taken ((List.mem_inits _ _).2 ⟨unread, text.symm⟩) ends.offset
  subst here
  have cut : "(2 +\n ".toList ++ unread = "(2 +\n ".toList ++ "* 3)".toList := by
    rw [← text]
    decide +kernel
  have next : unread = "* 3)".toList := List.append_cancel_left cut
  refine ⟨failed, begun.resolve_right ?_, fun longer => ?_⟩
  · rintro ⟨before, w, eq, -⟩
    have dollar : '$' ∈ "(2 +\n ".toList := by simp [eq]
    exact absurd dollar (by decide +kernel)
  · obtain ⟨word, -⟩ := longest '*' " 3)".toList next longer
    exact absurd word (by decide)

end Expression

end Danmaku
