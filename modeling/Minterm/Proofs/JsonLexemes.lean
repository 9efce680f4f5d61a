import Minterm.Json.Lexeme
import Minterm.Json.Writer
import Minterm.Proofs.Lists

/-! Splitting a written JSON text, lexeme by lexeme. What is written for a character is scanned as this
    character, so that a string is read back whatever it holds. Numbers and words end where a mark follows. -/

namespace Minterm.Json

/-! ### Strings -/

theorem scanString_escape {cs rest : List Char} {c : Char} (h : escape? cs = some (c, rest)) :
    scanString ('\\' :: cs) = (scanString rest).map fun (s, after) => (c :: s, after) := by
  rw [scanString]
  split
  · rename_i hnone
    rw [h] at hnone
    cases hnone
  · rename_i hsome
    rw [h] at hsome
    cases hsome
    rfl

theorem scanString_plain {c : Char} (hquote : c ≠ '"') (hback : c ≠ '\\') (hprintable : ¬c.toNat < 0x20)
    (rest : List Char) : scanString (c :: rest) = (scanString rest).map fun (s, after) => (c :: s, after) := by
  rw [scanString, if_neg hprintable]
  · exact hquote
  · exact hback

theorem codeUnit?_append {cs : List Char} {n : Nat} (h : codeUnit? cs = some (n, [])) (rest : List Char) :
    codeUnit? (cs ++ rest) = some (n, rest) := by
  unfold codeUnit? at h
  split at h
  · simp only [Option.bind_eq_bind, Option.bind_eq_some_iff, Option.pure_def, Option.some.injEq, Prod.mk.injEq] at h
    obtain ⟨a, ha, b, hb, c, hc, d, hd, rfl, rfl⟩ := h
    simp [codeUnit?, ha, hb, hc, hd]
  · cases h

/-- The digits that stand for a control character. -/
theorem codeUnit?_control : ∀ n < 0x20,
    codeUnit? ((if n < 0x10 then "000" else "00") ++ Text.hex n).toList = some (n, []) := by
  decide

theorem escape?_control {c : Char} (h : c.toNat < 0x20) (rest : List Char) :
    escape? ('u' :: (((if c.toNat < 0x10 then "000" else "00") ++ Text.hex c.toNat).toList ++ rest)) =
      some (c, rest) := by
  have hhigh : isHighSurrogate c.toNat = false := by
    rw [isHighSurrogate, decide_eq_false (by omega), Bool.false_and]
  have hlow : isLowSurrogate c.toNat = false := by
    rw [isLowSurrogate, decide_eq_false (by omega), Bool.false_and]
  have hunit := codeUnit?_append (codeUnit?_control c.toNat h) rest
  simp only [escape?, beq_self_eq_true, if_true, unicodeEscape?, hunit, hhigh, hlow, Bool.false_eq_true, if_false,
    Char.ofNat_toNat]

/-- What is written for a character is scanned as this character. -/
theorem scanString_escaped (c : Char) (rest : List Char) :
    scanString ((escaped c).toList ++ rest) = (scanString rest).map fun (s, after) => (c :: s, after) := by
  by_cases hshort : c ∈ ['"', '\\', '\x08', '\x0c', '\n', '\r', '\t']
  · simp only [List.mem_cons, List.not_mem_nil, or_false] at hshort
    rcases hshort with rfl | rfl | rfl | rfl | rfl | rfl | rfl <;> exact scanString_escape rfl
  · simp only [List.mem_cons, List.not_mem_nil, or_false, not_or] at hshort
    obtain ⟨hquote, hback, hb, hf, hn, hr, ht⟩ := hshort
    simp only [escaped, beq_iff_eq, hquote, hback, hb, hf, hn, hr, ht, if_false]
    split
    · rename_i hcontrol
      have hescape := scanString_escape (escape?_control hcontrol rest)
      rwa [String.append_assoc, String.toList_append]
    · rename_i hprintable
      rw [Char.toString_eq_singleton, String.toList_singleton]
      exact scanString_plain hquote hback hprintable rest

theorem scanString_join (cs rest : List Char) :
    scanString ((String.join (cs.map escaped)).toList ++ '"' :: rest) = some (cs, rest) := by
  induction cs with
  | nil =>
    show scanString ('"' :: rest) = some ([], rest)
    rw [scanString]
  | cons c cs ih =>
    rw [List.map_cons, String.join_cons, String.toList_append, List.append_assoc, scanString_escaped, ih]
    rfl

/-! ### Numbers -/

theorem isNumberChar_of_isDigit {c : Char} (h : c.isDigit = true) : isNumberChar c = true := by
  rw [isNumberChar, h, Bool.true_or]

theorem isNumberChar_of_isDigits {cs : List Char} (h : isDigits cs = true) : ∀ c ∈ cs, isNumberChar c = true := by
  intro c hc
  have hdigits := (Bool.and_eq_true_iff.mp h).2
  exact isNumberChar_of_isDigit (List.all_eq_true.mp hdigits c hc)

theorem isNumberChar_of_isExponent {cs : List Char} (h : isExponent cs = true) : ∀ c ∈ cs, isNumberChar c = true := by
  unfold isExponent at h
  split at h
  · exact fun c hc => absurd hc List.not_mem_nil
  · rename_i e rest
    obtain ⟨he, hdigits⟩ := Bool.and_eq_true_iff.mp h
    have hfirst : isNumberChar e = true := by
      rcases Bool.or_eq_true_iff.mp he with he | he <;> rw [beq_iff_eq.mp he] <;> decide
    refine List.forall_mem_cons.mpr ⟨hfirst, ?_⟩
    split at hdigits
    · exact List.forall_mem_cons.mpr ⟨by decide, isNumberChar_of_isDigits hdigits⟩
    · exact List.forall_mem_cons.mpr ⟨by decide, isNumberChar_of_isDigits hdigits⟩
    · exact isNumberChar_of_isDigits hdigits

/-- Digits and what follows them. -/
theorem isNumberChar_of_dropWhile {cs : List Char} (h : ∀ c ∈ cs.dropWhile Char.isDigit, isNumberChar c = true) :
    ∀ c ∈ cs, isNumberChar c = true := by
  intro c hc
  rw [← List.takeWhile_append_dropWhile (p := Char.isDigit) (l := cs), List.mem_append] at hc
  rcases hc with hc | hc
  · exact isNumberChar_of_isDigit (List.all_eq_true.mp List.all_takeWhile c hc)
  · exact h c hc

theorem isNumberChar_of_isFraction {cs : List Char} (h : isFraction cs = true) : ∀ c ∈ cs, isNumberChar c = true := by
  unfold isFraction at h
  split at h
  · have hexponent := isNumberChar_of_isExponent (Bool.and_eq_true_iff.mp h).2
    exact List.forall_mem_cons.mpr ⟨by decide, isNumberChar_of_dropWhile hexponent⟩
  · exact isNumberChar_of_isExponent h

theorem isNumberChar_of_isNumber {cs : List Char} (h : isNumber cs = true) : ∀ c ∈ cs, isNumberChar c = true := by
  unfold isNumber at h
  obtain ⟨-, hfraction⟩ := Bool.and_eq_true_iff.mp h
  have hunsigned := isNumberChar_of_dropWhile (isNumberChar_of_isFraction hfraction)
  split at hunsigned
  · exact List.forall_mem_cons.mpr ⟨by decide, hunsigned⟩
  · exact hunsigned

theorem ne_nil_of_isNumber {cs : List Char} (h : isNumber cs = true) : cs ≠ [] := by
  rintro rfl
  exact absurd h (by decide)

/-! ### Kinds of character -/

theorem of_isMark {c : Char} (h : isMark c = true) :
    isBlank c = false ∧ isNumberChar c = false ∧ c.isAlpha = false := by
  simp only [isMark, List.contains_eq_mem, List.mem_cons, List.not_mem_nil, or_false, decide_eq_true_eq] at h
  rcases h with rfl | rfl | rfl | rfl | rfl | rfl <;> decide

theorem of_isNumberChar {c : Char} (h : isNumberChar c = true) :
    isBlank c = false ∧ isMark c = false ∧ (c == '"') = false := by
  refine ⟨?_, ?_, ?_⟩ <;> rw [Bool.eq_false_iff] <;> intro hother
  · simp only [isBlank, Bool.or_eq_true, beq_iff_eq] at hother
    rcases hother with ((rfl | rfl) | rfl) | rfl <;> exact absurd h (by decide)
  · exact absurd h (Bool.eq_false_iff.mp (of_isMark hother).2.1)
  · obtain rfl := beq_iff_eq.mp hother
    exact absurd h (by decide)

/-! ### One lexeme -/

theorem lexemes_nil : lexemes [] = some [] := by
  rw [lexemes]

theorem lexemes_cons {c : Char} {cs rest : List Char} {l : Lexeme} (hblank : isBlank c = false)
    (h : lexeme? c cs = some (l, rest)) : lexemes (c :: cs) = (lexemes rest).map (l :: ·) := by
  rw [lexemes, if_neg (Bool.eq_false_iff.mp hblank)]
  split
  · rename_i hsome
    rw [h] at hsome
    cases hsome
    rfl
  · rename_i hnone
    rw [h] at hnone
    cases hnone

theorem lexemes_mark {c : Char} (h : isMark c = true) (rest : List Char) :
    lexemes (c :: rest) = (lexemes rest).map (.mark c :: ·) :=
  lexemes_cons (of_isMark h).1 (if_pos h)

theorem lexemes_quote (s : String) (rest : List Char) :
    lexemes ((quote s).toList ++ rest) = (lexemes rest).map (.atom (.string s) :: ·) := by
  have hscan := scanString_join s.toList rest
  have hlexeme : lexeme? '"' ((String.join (s.toList.map escaped)).toList ++ '"' :: rest) =
      some (.atom (.string s), rest) := by
    simp only [lexeme?, hscan, Option.map_some, String.ofList_toList]
    rfl
  have hlexemes := lexemes_cons (by decide) hlexeme
  simpa [quote] using hlexemes

/-- The text starts with a mark, or it is empty. -/
def Ends (cs : List Char) : Prop := ∀ c ∈ cs.head?, isMark c = true

theorem lexemes_number {text : String} (h : isNumber text.toList = true) {rest : List Char} (hends : Ends rest) :
    lexemes (text.toList ++ rest) = (lexemes rest).map (.atom (.number text) :: ·) := by
  cases htext : text.toList with
  | nil => exact absurd htext (ne_nil_of_isNumber h)
  | cons c cs =>
    have hchars := isNumberChar_of_isNumber h
    rw [htext] at h hchars
    obtain ⟨hc, hcs⟩ := List.forall_mem_cons.mp hchars
    obtain ⟨hblank, hmark, hquote⟩ := of_isNumberChar hc
    have hstop : ∀ d ∈ rest.head?, isNumberChar d = false := fun d hd => (of_isMark (hends d hd)).2.1
    have hlexeme : lexeme? c (cs ++ rest) = some (.atom (.number text), rest) := by
      simp only [lexeme?, hmark, hquote, hc, takeWhile_append_of_stop hcs hstop, dropWhile_append_of_stop hcs hstop, h,
        Bool.false_eq_true, if_false, if_true]
      rw [← htext, String.ofList_toList]
    exact lexemes_cons hblank hlexeme

theorem lexemes_word {c : Char} {cs : List Char} {value : Json}
    (hc : isBlank c = false ∧ isMark c = false ∧ (c == '"') = false ∧ isNumberChar c = false)
    (halpha : cs.all Char.isAlpha = true) (hword : word? (c :: cs) = some value) {rest : List Char} (hends : Ends rest) :
    lexemes (c :: cs ++ rest) = (lexemes rest).map (.atom value :: ·) := by
  obtain ⟨hblank, hmark, hquote, hnumber⟩ := hc
  have hcs := List.all_eq_true.mp halpha
  have hstop : ∀ d ∈ rest.head?, d.isAlpha = false := fun d hd => (of_isMark (hends d hd)).2.2
  have hlexeme : lexeme? c (cs ++ rest) = some (.atom value, rest) := by
    simp only [lexeme?, hmark, hquote, hnumber, takeWhile_append_of_stop hcs hstop, dropWhile_append_of_stop hcs hstop,
      hword, Bool.false_eq_true, if_false, Option.map_some]
  exact lexemes_cons hblank hlexeme

end Minterm.Json
