import Mathlib.Data.List.Basic
import Minterm.Dot.Lexeme
import Minterm.Graph

/-! Texts in the DOT language, read piece by piece. A word is read as itself. Between double quotes a text is read as
    itself if and only if it has neither double quotes nor backslashes; an escaped text is read as the text that
    has been escaped, whatever it holds. -/

namespace Minterm.Dot

/-- Reading a text leads from one mode to another and completes the given lexemes. -/
def Reads (first : Mode) (text : String) (last : Mode) (found : List Lexeme) : Prop :=
  run? Mode.step? first text.toList = some (last, found)

theorem Reads.append {first next last : Mode} {s t : String} {found more : List Lexeme}
    (hs : Reads first s next found) (ht : Reads next t last more) : Reads first (s ++ t) last (found ++ more) := by
  rw [Reads, String.toList_append]
  exact run?_append hs ht

/-- The same text put together in another way. -/
theorem Reads.of_eq {first last : Mode} {s t : String} {found : List Lexeme} (h : Reads first s last found)
    (hst : s = t) : Reads first t last found :=
  hst ▸ h

/-! ### Words -/

/-- Identifier characters, and at least one. -/
structure IsWord (text : String) : Prop where
  ne_empty : text ≠ ""
  chars : text.toList.all Token.isIdentChar = true

theorem ne_of_isIdentChar {c d : Char} (hc : Token.isIdentChar c = true) (hd : Token.isIdentChar d = false) : c ≠ d := by
  rintro rfl
  exact Bool.false_ne_true (hd.symm.trans hc)

theorem start?_of_isIdentChar {c : Char} (h : Token.isIdentChar c = true) : Mode.start? c = some (.word [c], []) := by
  have hreserved : ([' ', '\n', '{', '}', '[', ']', '=', ',', ';', '-', '"'].all fun d => !Token.isIdentChar d) = true := by
    decide
  have hother : ∀ d ∈ [' ', '\n', '{', '}', '[', ']', '=', ',', ';', '-', '"'], c ≠ d := fun d hd =>
    ne_of_isIdentChar h ((Bool.not_eq_true' _).mp (List.all_eq_true.mp hreserved d hd))
  simp only [List.forall_mem_cons] at hother
  simp [Mode.start?, isBlank, isMark, hother, h]

theorem run?_word {cs : List Char} (h : ∀ c ∈ cs, Token.isIdentChar c = true) (read : List Char) :
    run? Mode.step? (.word read) cs = some (.word (read ++ cs), []) := by
  induction cs generalizing read with
  | nil => rw [List.append_nil]; rfl
  | cons c cs ih =>
    obtain ⟨hc, hcs⟩ := List.forall_mem_cons.mp h
    have hstep : Mode.step? (.word read) c = some (.word (read ++ [c]), []) := if_pos hc
    rw [run?_cons_silent hstep, ih hcs, List.append_assoc]
    rfl

theorem reads_word {text : String} (h : IsWord text) : Reads .between text (.word text.toList) [] := by
  cases htext : text.toList with
  | nil => exact absurd (String.toList_eq_nil_iff.mp htext) h.ne_empty
  | cons c cs =>
    have hchars := h.chars
    rw [htext, List.all_eq_true] at hchars
    obtain ⟨hc, hcs⟩ := List.forall_mem_cons.mp hchars
    have hstep : Mode.step? .between c = some (.word [c], []) := start?_of_isIdentChar hc
    rw [Reads, htext, run?_cons_silent hstep, run?_word hcs]
    rfl

theorem Reads.word {text behind : String} {last : Mode} {found : List Lexeme} (h : IsWord text)
    (hbehind : ∀ read, Reads (.word read) behind last (.word (String.ofList read) :: found)) :
    Reads .between (text ++ behind) last (.word text :: found) := by
  have hreads := (reads_word h).append (hbehind text.toList)
  rwa [String.ofList_toList] at hreads

/-! ### Quoted texts -/

/-- Neither double quotes nor backslashes. -/
def IsPlain (text : String) : Prop := ∀ c ∈ text.toList, c ≠ '"' ∧ c ≠ '\\'

instance (text : String) : Decidable (IsPlain text) :=
  decidable_of_iff (text.toList.all fun c => c != '"' && c != '\\') (by simp [IsPlain])

/-- Identifier characters are neither. -/
theorem isPlain_of_isIdentChar {text : String} (h : ∀ c ∈ text.toList, Token.isIdentChar c = true) : IsPlain text :=
  fun c hc => ⟨ne_of_isIdentChar (h c hc) (by decide), ne_of_isIdentChar (h c hc) (by decide)⟩

theorem step?_quote (read : List Char) :
    Mode.step? (.quoted read) '"' = some (.between, [.quoted (String.ofList read)]) :=
  rfl

theorem step?_backslash (read : List Char) : Mode.step? (.quoted read) '\\' = some (.escape read, []) := rfl

theorem step?_escape (read : List Char) (c : Char) :
    Mode.step? (.escape read) c = some (.quoted (read ++ [c]), []) :=
  rfl

theorem step?_quoted_of_plain {c : Char} (h : c ≠ '"' ∧ c ≠ '\\') (read : List Char) :
    Mode.step? (.quoted read) c = some (.quoted (read ++ [c]), []) := by
  simp [Mode.step?, h.1, h.2]

theorem reads_plain {text : String} (h : IsPlain text) : Reads (.quoted []) text (.quoted text.toList) [] := by
  have run (cs read : List Char) (h : ∀ c ∈ cs, c ≠ '"' ∧ c ≠ '\\') :
      run? Mode.step? (.quoted read) cs = some (.quoted (read ++ cs), []) := by
    induction cs generalizing read with
    | nil => rw [List.append_nil]; rfl
    | cons c cs ih =>
      obtain ⟨hc, hcs⟩ := List.forall_mem_cons.mp h
      rw [run?_cons_silent (step?_quoted_of_plain hc read), ih _ hcs, List.append_assoc]
      rfl
  exact run text.toList [] h

/-- What is written for a character is read as this character. -/
theorem run?_escaped (c : Char) (read : List Char) :
    run? Mode.step? (.quoted read) (if c == '\\' || c == '"' then "\\" ++ c.toString else c.toString).toList =
      some (.quoted (read ++ [c]), []) := by
  split
  · rw [String.toList_append, Char.toString_eq_singleton, String.toList_singleton]
    rfl
  · rename_i h
    rw [Char.toString_eq_singleton, String.toList_singleton, run?_cons_silent (step?_quoted_of_plain ?_ read)]
    · rfl
    · simpa [and_comm] using h

theorem reads_escape (text : String) : Reads (.quoted []) (Graph.escape text) (.quoted text.toList) [] := by
  have run (cs read : List Char) : run? Mode.step? (.quoted read)
      (String.join (cs.map fun c => if c == '\\' || c == '"' then "\\" ++ c.toString else c.toString)).toList =
        some (.quoted (read ++ cs), []) := by
    induction cs generalizing read with
    | nil => rw [List.append_nil]; rfl
    | cons c cs ih =>
      rw [List.map_cons, String.join_cons, String.toList_append]
      have hrun := run?_append (run?_escaped c read) (ih (read ++ [c]))
      rwa [List.append_assoc] at hrun
  exact run text.toList []

/-- Between quotes, every character adds one to what is read, at most, and the closing quote adds none. -/
theorem length_of_run? {cs read text : List Char} {last : Mode} {more : List Lexeme} {first : Mode}
    (hfirst : first = .quoted read ∨ first = .escape read)
    (h : run? Mode.step? first cs = some (last, .quoted (String.ofList text) :: more)) :
    text.length + 1 ≤ read.length + cs.length := by
  induction cs generalizing first read with
  | nil => cases h
  | cons c cs ih =>
    rw [List.length_cons]
    rcases hfirst with rfl | rfl
    · by_cases hquote : c = '"'
      · subst hquote
        rw [run?_cons (step?_quote read)] at h
        obtain ⟨⟨_, _⟩, -, heq⟩ := Option.map_eq_some_iff.mp h
        have hread : String.ofList read = String.ofList text := Lexeme.quoted.inj (List.cons.inj (Prod.mk.inj heq).2).1
        rw [String.ofList_inj.mp hread]
        omega
      · by_cases hback : c = '\\'
        · subst hback
          rw [run?_cons_silent (step?_backslash read)] at h
          have := ih (.inr rfl) h
          omega
        · rw [run?_cons_silent (step?_quoted_of_plain ⟨hquote, hback⟩ read)] at h
          have := ih (.inl rfl) h
          rw [List.length_append, List.length_singleton] at this
          omega
    · rw [run?_cons_silent (step?_escape read c)] at h
      have := ih (.inl rfl) h
      rw [List.length_append, List.length_singleton] at this
      omega

/-- What is read as itself is plain: escapes would make it shorter, and a quote would end it. -/
theorem isPlain_of_run? {cs read : List Char} {last : Mode}
    (h : run? Mode.step? (.quoted read) (cs ++ ['"']) = some (last, [.quoted (String.ofList (read ++ cs))])) :
    ∀ c ∈ cs, c ≠ '"' ∧ c ≠ '\\' := by
  induction cs generalizing read with
  | nil => exact fun _ hc => nomatch hc
  | cons c cs ih =>
    rw [List.cons_append] at h
    by_cases hquote : c = '"'
    · subst hquote
      rw [run?_cons (step?_quote read)] at h
      obtain ⟨⟨_, _⟩, -, heq⟩ := Option.map_eq_some_iff.mp h
      have hread := Lexeme.quoted.inj (List.cons.inj (Prod.mk.inj heq).2).1
      have := congrArg List.length (String.ofList_inj.mp hread)
      simp at this
    · by_cases hback : c = '\\'
      · subst hback
        rw [run?_cons_silent (step?_backslash read)] at h
        have := length_of_run? (.inr rfl) h
        simp only [List.length_append, List.length_cons, List.length_nil] at this
        omega
      · have hc : c ≠ '"' ∧ c ≠ '\\' := ⟨hquote, hback⟩
        rw [run?_cons_silent (step?_quoted_of_plain hc read), List.append_cons read c cs] at h
        exact List.forall_mem_cons.mpr ⟨hc, ih h⟩

/-! ### Whole labels -/

/-- What stands between quotes and the quote behind it. -/
theorem Reads.quoted {content text behind : String} {last : Mode} {found : List Lexeme}
    (h : Reads (.quoted []) content (.quoted text.toList) [])
    (hbehind : ∀ read, Reads (.quoted read) behind last (.quoted (String.ofList read) :: found)) :
    Reads (.quoted []) (content ++ behind) last (.quoted text :: found) := by
  have hreads := h.append (hbehind text.toList)
  rwa [String.ofList_toList] at hreads

theorem lexemes?_of_reads {content text : String} (h : Reads (.quoted []) content (.quoted text.toList) []) :
    lexemes? ("\"" ++ content ++ "\"") = some [.quoted text] := by
  have hopen : Reads .between "\"" (.quoted []) [] := rfl
  have hclose : Reads (.quoted []) (content ++ "\"") .between [.quoted text] := h.quoted fun _ => rfl
  have hreads := hopen.append hclose
  rw [← String.append_assoc] at hreads
  exact readAll?_of_run? hreads

theorem lexemes?_escape (text : String) : lexemes? ("\"" ++ Graph.escape text ++ "\"") = some [.quoted text] :=
  lexemes?_of_reads (reads_escape text)

/-- Between quotes a text stands for itself if and only if it is plain. -/
theorem lexemes?_quotes_iff {text : String} : lexemes? ("\"" ++ text ++ "\"") = some [.quoted text] ↔ IsPlain text := by
  constructor
  · intro h
    rw [lexemes?, readAll?] at h
    split at h
    · rename_i last found hrun
      obtain ⟨-, hfound⟩ := Option.ite_none_right_eq_some.mp h
      obtain rfl := Option.some.inj hfound
      rw [String.toList_append, String.toList_append] at hrun
      have hopen : Mode.step? .between '"' = some (.quoted [], []) := rfl
      have hquoted : run? Mode.step? (.quoted []) (text.toList ++ ['"']) =
          some (last, [.quoted (String.ofList ([] ++ text.toList))]) := by
        rw [List.nil_append, String.ofList_toList, ← run?_cons_silent hopen]
        exact hrun
      exact isPlain_of_run? hquoted
    · cases h
  · intro h
    exact lexemes?_of_reads (reads_plain h)

end Minterm.Dot
