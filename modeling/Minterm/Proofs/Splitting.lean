import Mathlib.Data.List.Chain
import Minterm.Proofs.Lexing

/-! Splitting a text, from both ends. A text is split unless one of its characters is outside the alphabet, and the
    fault then shows the first of these, with the bytes before it (`scan_cases`). What is split is written: its
    characters are those of the tokens with blanks between them, and each identifier is a run of identifier
    characters that its neighbours do not continue. In turn any text that keeps the identifiers among its
    tokens apart by blanks is split into these tokens. -/

namespace Minterm.Token

/-! ### The alphabet -/

/-- Blanks, the characters that are tokens, and the characters of identifiers. -/
def InAlphabet (c : Char) : Prop :=
  Text.isBlank c = true ∨ c ∈ ['!', '&', '|', '(', ')'] ∨ isIdentChar c = true

instance (c : Char) : Decidable (InAlphabet c) := inferInstanceAs (Decidable (_ ∨ _ ∨ _))

theorem isSome_ofChar? (c : Char) : (ofChar? c).isSome ↔ c ∈ ['!', '&', '|', '(', ')'] := by
  constructor
  · intro h
    unfold ofChar? at h
    split at h
    · decide
    · decide
    · decide
    · decide
    · decide
    · cases h
  · intro h
    simp only [List.mem_cons, List.not_mem_nil, or_false] at h
    rcases h with rfl | rfl | rfl | rfl | rfl <;> rfl

theorem text_of_ofChar? {c : Char} {token : Token} (h : ofChar? c = some token) : token.text.toList = [c] := by
  unfold ofChar? at h
  split at h
  all_goals cases h
  all_goals rfl

theorem inAlphabet_of_ofChar? {c : Char} {token : Token} (h : ofChar? c = some token) : InAlphabet c :=
  .inr (.inl ((isSome_ofChar? c).mp (Option.isSome_of_eq_some h)))

theorem isIdentChar_of_isBlank {c : Char} (h : Text.isBlank c = true) : isIdentChar c = false := by
  by_contra hident
  rw [isBlank_of_isIdentChar (Bool.eq_true_of_not_eq_false hident)] at h
  cases h

instance (token : Token) : Decidable token.Spellable :=
  match token with
  | .ident name => decidable_of_iff (name ≠ "" ∧ name.toList.all isIdentChar = true) (and_congr_right' List.all_eq_true)
  | .bang | .amp | .bar | .lparen | .rparen => inferInstanceAs (Decidable True)

def isIdent : Token → Bool
  | .ident _ => true
  | _ => false

theorem exists_name {token : Token} (h : token.isIdent = true) : ∃ name, token = .ident name := by
  cases token with
  | ident name => exact ⟨name, rfl⟩
  | _ => cases h

theorem isIdent_of_ofChar? {c : Char} {token : Token} (h : ofChar? c = some token) : token.isIdent = false := by
  unfold ofChar? at h
  split at h
  all_goals cases h
  all_goals rfl

/-- Every token but an identifier has a character of its own. -/
theorem exists_ofChar? {token : Token} (h : token.isIdent = false) :
    ∃ c, token.text.toList = [c] ∧ ofChar? c = some token := by
  cases token with
  | bang => exact ⟨'!', rfl, rfl⟩
  | amp => exact ⟨'&', rfl, rfl⟩
  | bar => exact ⟨'|', rfl, rfl⟩
  | lparen => exact ⟨'(', rfl, rfl⟩
  | rparen => exact ⟨')', rfl, rfl⟩
  | ident name => cases h

/-- In two divisions of a list at its first member that does not fit, everything agrees. -/
theorem eq_of_first_stop {α : Type} {P : α → Prop} {front other back rest : List α} {x y : α}
    (h : front ++ x :: back = other ++ y :: rest) (hfront : ∀ z ∈ front, P z) (hother : ∀ z ∈ other, P z)
    (hx : ¬P x) (hy : ¬P y) : front = other ∧ x = y := by
  induction front generalizing other with
  | nil =>
    cases other with
    | nil => exact ⟨rfl, (List.cons.inj h).1⟩
    | cons z other => exact absurd ((List.cons.inj h).1 ▸ hother z List.mem_cons_self) hx
  | cons z front ih =>
    cases other with
    | nil => exact absurd ((List.cons.inj h).1 ▸ hfront z List.mem_cons_self) hy
    | cons w other =>
      obtain ⟨rfl, htail⟩ := List.cons.inj h
      obtain ⟨rfl, heq⟩ := ih htail (fun v hv => hfront v (List.mem_cons_of_mem _ hv))
        fun v hv => hother v (List.mem_cons_of_mem _ hv)
      exact ⟨rfl, heq⟩

/-! ### Offsets -/

/-- The number of bytes in UTF-8. -/
def byteCount (cs : List Char) : Nat := (String.ofList cs).utf8ByteSize

theorem byteCount_append (cs ds : List Char) : byteCount (cs ++ ds) = byteCount cs + byteCount ds := by
  rw [byteCount, String.ofList_append, String.utf8ByteSize_append]
  rfl

theorem byteCount_cons (c : Char) (cs : List Char) : byteCount (c :: cs) = c.utf8Size + byteCount cs := by
  rw [byteCount, String.ofList_cons, String.utf8ByteSize_append, String.utf8ByteSize_singleton]
  rfl

/-- The characters of an identifier take one byte each. -/
theorem byteCount_word {word : List Char} (h : ∀ c ∈ word, isIdentChar c = true) : byteCount word = word.length := by
  induction word with
  | nil => rfl
  | cons c word ih =>
    obtain ⟨hc, hword⟩ := List.forall_mem_cons.mp h
    have hsize : c.utf8Size = 1 := by
      rw [Char.utf8Size_eq_one_iff, UInt32.le_iff_toNat_le]
      exact Nat.le_trans (toNat_of_isIdentChar hc).2 (by decide)
    rw [byteCount_cons, hsize, ih hword, List.length_cons, Nat.add_comm]

/-! ### Success and failure -/

theorem ends_dropWhile (cs : List Char) : Ends (cs.dropWhile isIdentChar) := by
  intro c hc
  have hstop := List.head?_dropWhile_not isIdentChar cs
  rwa [Option.mem_def.mp hc] at hstop

/-- The splitting fails at the first character outside the alphabet. -/
structure StopsAt (offset : Nat) (cs front : List Char) (c : Char) (back : List Char) : Prop where
  eq : cs = front ++ c :: back
  known : ∀ d ∈ front, InAlphabet d
  unknown : ¬InAlphabet c
  fault : scan offset cs = .error (.unexpectedChar c (offset + byteCount front))

theorem scan_cases (offset : Nat) (cs : List Char) :
    (∃ tokens, scan offset cs = .ok tokens ∧ Written tokens cs) ∨ ∃ front c back, StopsAt offset cs front c back := by
  induction offset, cs using scan.induct with
  | case1 offset => exact .inl ⟨[], scan_nil offset, .nil⟩
  | case2 offset c cs hblank ih =>
    rcases ih with ⟨tokens, hscan, hwritten⟩ | ⟨front, d, back, h⟩
    · exact .inl ⟨tokens, by rw [scan_blank hblank, hscan], .blank hblank hwritten⟩
    · refine .inr ⟨c :: front, d, back, by rw [h.eq]; rfl, List.forall_mem_cons.mpr ⟨.inl hblank, h.known⟩, h.unknown, ?_⟩
      rw [scan_blank hblank, h.fault, byteCount_cons, Nat.add_assoc]
  | case3 offset c cs _ hident word =>
    rename_i ih
    have hspellable : (Token.ident (String.ofList word)).Spellable := spellable_word hident
    have hword : ∀ d ∈ word, isIdentChar d = true := by simpa only [String.toList_ofList] using hspellable.2
    have hsplit : c :: cs = word ++ cs.dropWhile isIdentChar :=
      congrArg (c :: ·) List.takeWhile_append_dropWhile.symm
    rcases ih with ⟨tokens, hscan, hwritten⟩ | ⟨front, d, back, h⟩
    · refine .inl ⟨.ident (String.ofList word) :: tokens, by rw [scan_word hident, hscan]; rfl, ?_⟩
      have hwhole := Written.word hspellable.1 hspellable.2 (ends_dropWhile cs) hwritten
      rw [String.toList_ofList] at hwhole
      rwa [hsplit]
    · refine .inr ⟨word ++ front, d, back, by rw [hsplit, h.eq, List.append_assoc], ?_, h.unknown, ?_⟩
      · exact List.forall_mem_append.mpr ⟨fun d hd => .inr (.inr (hword d hd)), h.known⟩
      · rw [scan_word hident, h.fault, byteCount_append, byteCount_word hword, ← Nat.add_assoc]
        rfl
  | case4 offset c cs _ _ token hsymbol ih =>
    rcases ih with ⟨tokens, hscan, hwritten⟩ | ⟨front, d, back, h⟩
    · exact .inl ⟨token :: tokens, by rw [scan_symbol hsymbol, hscan]; rfl, .symbol hsymbol hwritten⟩
    · have hc := inAlphabet_of_ofChar? hsymbol
      refine .inr ⟨c :: front, d, back, by rw [h.eq]; rfl, List.forall_mem_cons.mpr ⟨hc, h.known⟩, h.unknown, ?_⟩
      rw [scan_symbol hsymbol, h.fault, byteCount_cons, Nat.add_assoc]
      rfl
  | case5 offset c cs hblank hident hsymbol =>
    refine .inr ⟨[], c, cs, rfl, List.forall_mem_nil _, ?_, ?_⟩
    · rintro (h | h | h)
      · exact hblank h
      · rw [← isSome_ofChar?, hsymbol] at h
        cases h
      · exact hident h
    · rw [scan.eq_def]
      simp only [hblank, hident, hsymbol, Bool.false_eq_true, if_false]
      rfl

theorem scan_eq_ok {offset : Nat} {cs : List Char} {tokens : List Token} :
    scan offset cs = .ok tokens ↔ Written tokens cs := by
  refine ⟨fun h => ?_, fun h => h.scan_eq offset⟩
  rcases scan_cases offset cs with ⟨others, hscan, hwritten⟩ | ⟨front, c, back, hstop⟩
  · cases h.symm.trans hscan
    exact hwritten
  · cases h.symm.trans hstop.fault

theorem ofText_eq_ok {text : String} {tokens : List Token} : ofText text = .ok tokens ↔ Written tokens text.toList :=
  scan_eq_ok

theorem ofText_ofList {cs : List Char} {tokens : List Token} :
    ofText (String.ofList cs) = .ok tokens ↔ Written tokens cs := by
  rw [ofText_eq_ok, String.toList_ofList]

/-! ### What a written text consists of -/

variable {tokens : List Token} {cs : List Char}

theorem Written.inAlphabet (h : Written tokens cs) : ∀ c ∈ cs, InAlphabet c := by
  induction h with
  | nil => exact fun _ hc => (nomatch hc)
  | blank hblank _ ih => exact List.forall_mem_cons.mpr ⟨.inl hblank, ih⟩
  | symbol hsymbol _ ih => exact List.forall_mem_cons.mpr ⟨inAlphabet_of_ofChar? hsymbol, ih⟩
  | word _ hword _ _ ih => exact List.forall_mem_append.mpr ⟨fun c hc => .inr (.inr (hword c hc)), ih⟩

/-- The texts of the tokens are the text without its blanks. -/
theorem Written.texts (h : Written tokens cs) :
    tokens.flatMap (fun token => token.text.toList) = cs.filter fun c => !Text.isBlank c := by
  induction h with
  | nil => rfl
  | blank hblank _ ih => rw [ih, List.filter_cons_of_neg (by simp [hblank])]
  | symbol hsymbol _ ih =>
    rw [List.flatMap_cons, text_of_ofChar? hsymbol, ih, List.filter_cons_of_pos (by simp [(of_ofChar? hsymbol).1])]
    rfl
  | @word name tokens cs _ hword _ _ ih =>
    have hkept : name.toList.filter (fun c => !Text.isBlank c) = name.toList :=
      List.filter_eq_self.mpr fun c hc => by rw [isBlank_of_isIdentChar (hword c hc)]; rfl
    rw [List.flatMap_cons, ih, List.filter_append, hkept]
    rfl

/-! ### Runs of identifier characters -/

/-- The text ends with a character that no identifier has, or it is empty. -/
def Starts (cs : List Char) : Prop := ∀ c ∈ cs.getLast?, isIdentChar c = false

theorem starts_cons {c : Char} (hc : isIdentChar c = false) (h : Starts cs) : Starts (c :: cs) := by
  intro d hd
  rw [List.getLast?_cons, Option.mem_some_iff] at hd
  cases hlast : cs.getLast? with
  | none =>
    rw [hlast] at hd
    exact hd ▸ hc
  | some e =>
    rw [hlast] at hd
    exact hd ▸ h e hlast

theorem starts_append {front : List Char} (hne : front ≠ []) (h : Starts front) (cs : List Char) : Starts (cs ++ front) := by
  intro d hd
  rw [List.getLast?_append, List.getLast?_eq_some_getLast hne, Option.some_or, ← List.getLast?_eq_some_getLast hne] at hd
  exact h d hd

/-- A run of identifier characters that the characters around it do not continue. -/
structure MaximalRun (front word back : List Char) : Prop where
  ne_nil : word ≠ []
  chars : ∀ c ∈ word, isIdentChar c = true
  starts : Starts front
  ends : Ends back

theorem not_ends_word {word : List Char} (hne : word ≠ []) (h : ∀ c ∈ word, isIdentChar c = true) (back : List Char) :
    ¬Ends (word ++ back) := by
  intro hends
  cases word with
  | nil => exact hne rfl
  | cons c word =>
    have hc := hends c rfl
    rw [h c List.mem_cons_self] at hc
    cases hc

/-- An identifier among the tokens stands in the text as a maximal run, with the tokens before it in front and
    those after it behind. -/
theorem Written.exists_run {before after : List Token} {name : String}
    (h : Written (before ++ .ident name :: after) cs) :
    ∃ front back, cs = front ++ name.toList ++ back ∧ MaximalRun front name.toList back ∧ Written before front ∧
      Written after back := by
  generalize htokens : before ++ .ident name :: after = tokens at h
  induction h generalizing before with
  | nil => simp at htokens
  | @blank c tokens cs hblank _ ih =>
    obtain ⟨front, back, rfl, hrun, hfront, hback⟩ := ih htokens
    have hstarts := starts_cons (isIdentChar_of_isBlank hblank) hrun.starts
    exact ⟨c :: front, back, rfl, { hrun with starts := hstarts }, .blank hblank hfront, hback⟩
  | @symbol c token tokens cs hsymbol _ ih =>
    cases before with
    | nil =>
      obtain ⟨rfl, -⟩ := List.cons.inj htokens
      cases isIdent_of_ofChar? hsymbol
    | cons first before =>
      obtain ⟨rfl, hmore⟩ := List.cons.inj htokens
      obtain ⟨front, back, rfl, hrun, hfront, hback⟩ := ih hmore
      have hstarts := starts_cons (of_ofChar? hsymbol).2 hrun.starts
      exact ⟨c :: front, back, rfl, { hrun with starts := hstarts }, .symbol hsymbol hfront, hback⟩
  | @word other tokens cs hne hword hends hrest ih =>
    cases before with
    | nil =>
      obtain ⟨hname, rfl⟩ := List.cons.inj htokens
      cases hname
      have hname : name.toList ≠ [] := fun hnil => hne (String.toList_eq_nil_iff.mp hnil)
      exact ⟨[], cs, rfl, ⟨hname, hword, fun _ hc => (nomatch hc), hends⟩, .nil, hrest⟩
    | cons first before =>
      obtain ⟨rfl, hmore⟩ := List.cons.inj htokens
      obtain ⟨front, back, rfl, hrun, hfront, hback⟩ := ih hmore
      -- Two identifiers side by side would be one run.
      have hgap : front ≠ [] := by
        rintro rfl
        exact not_ends_word hrun.ne_nil hrun.chars back hends
      have hfrontEnds : Ends front := fun c hc => hends c (by simp [Option.mem_def.mp hc])
      have hstarts := starts_append hgap hrun.starts other.toList
      refine ⟨other.toList ++ front, back, by simp only [List.append_assoc], { hrun with starts := hstarts }, ?_, hback⟩
      exact .word hne hword hfrontEnds hfront

/-! ### Tokens written with blanks between them -/

/-- The texts of tokens, each with what follows it. -/
def spaced (pieces : List (Token × List Char)) : List Char := pieces.flatMap fun piece => piece.1.text.toList ++ piece.2

/-- Tokens that can be written, with gaps of blanks, and a gap that is not empty between neighbouring identifiers. -/
structure Separated (pieces : List (Token × List Char)) : Prop where
  spellable : ∀ piece ∈ pieces, piece.1.Spellable
  blank : ∀ piece ∈ pieces, ∀ c ∈ piece.2, Text.isBlank c = true
  apart : pieces.IsChain fun left right => left.1.isIdent = true → right.1.isIdent = true → left.2 ≠ []

theorem Written.blanks {gap : List Char} (hgap : ∀ c ∈ gap, Text.isBlank c = true) (h : Written tokens cs) :
    Written tokens (gap ++ cs) := by
  induction gap with
  | nil => exact h
  | cons c gap ih =>
    obtain ⟨hc, hgap⟩ := List.forall_mem_cons.mp hgap
    exact .blank hc (ih hgap)

theorem Separated.tail {piece : Token × List Char} {pieces : List (Token × List Char)} (h : Separated (piece :: pieces)) :
    Separated pieces :=
  ⟨(List.forall_mem_cons.mp h.spellable).2, (List.forall_mem_cons.mp h.blank).2, h.apart.of_cons⟩

/-- After an identifier comes a blank, a token of one character or the end. -/
theorem Separated.ends {name : String} {gap : List Char} {pieces : List (Token × List Char)}
    (h : Separated ((.ident name, gap) :: pieces)) : Ends (gap ++ spaced pieces) := by
  cases gap with
  | cons c gap =>
    intro d hd
    obtain rfl := Option.some.inj hd
    exact isIdentChar_of_isBlank (h.blank _ List.mem_cons_self c List.mem_cons_self)
  | nil =>
    cases pieces with
    | nil => exact fun _ hd => (nomatch hd)
    | cons next pieces =>
      have hnext : next.1.isIdent = false := by
        have hapart := (List.isChain_cons_cons.mp h.apart).1 rfl
        exact Bool.eq_false_iff.mpr fun hident => hapart hident rfl
      obtain ⟨c, htext, hc⟩ := exists_ofChar? hnext
      intro d hd
      rw [spaced, List.flatMap_cons, htext] at hd
      obtain rfl := Option.some.inj hd
      exact (of_ofChar? hc).2

theorem Separated.written {pieces : List (Token × List Char)} (h : Separated pieces) :
    Written (pieces.map (·.1)) (spaced pieces) := by
  induction pieces with
  | nil => exact .nil
  | cons piece pieces ih =>
    obtain ⟨token, gap⟩ := piece
    have hrest : Written (pieces.map (·.1)) (gap ++ spaced pieces) := .blanks (h.blank _ List.mem_cons_self) (ih h.tail)
    rw [spaced, List.flatMap_cons, List.append_assoc, List.map_cons]
    by_cases hident : token.isIdent = true
    · obtain ⟨name, rfl⟩ := exists_name hident
      obtain ⟨hne, hchars⟩ := h.spellable _ List.mem_cons_self
      exact .word hne hchars h.ends hrest
    · obtain ⟨c, htext, hc⟩ := exists_ofChar? (Bool.eq_false_iff.mpr hident)
      rw [htext]
      exact .symbol hc hrest

/-! ### The whole text -/

theorem ofText_eq_error {text : String} {front back : List Char} {c : Char} (htext : text.toList = front ++ c :: back)
    (hfront : ∀ d ∈ front, InAlphabet d) (hc : ¬InAlphabet c) :
    ofText text = .error (.unexpectedChar c (String.ofList front).utf8ByteSize) := by
  rcases scan_cases 0 text.toList with ⟨tokens, -, hwritten⟩ | ⟨other, d, rest, h⟩
  · have hmem : c ∈ text.toList := htext ▸ List.mem_append_right front List.mem_cons_self
    exact absurd (hwritten.inAlphabet c hmem) hc
  · obtain ⟨rfl, rfl⟩ := eq_of_first_stop (htext.symm.trans h.eq) hfront h.known hc h.unknown
    rw [ofText, h.fault, Nat.zero_add, byteCount]

theorem exists_fault_iff {text : String} : (∃ fault, ofText text = .error fault) ↔ ∃ c ∈ text.toList, ¬InAlphabet c := by
  rcases scan_cases 0 text.toList with ⟨tokens, hscan, hwritten⟩ | ⟨front, c, back, h⟩
  · refine iff_of_false ?_ fun ⟨c, hmem, hc⟩ => hc (hwritten.inAlphabet c hmem)
    rintro ⟨fault, hfault⟩
    cases hscan.symm.trans hfault
  · exact iff_of_true ⟨_, h.fault⟩ ⟨c, h.eq ▸ List.mem_append_right front List.mem_cons_self, h.unknown⟩

/-- A text is refused if and only if it has a character outside the alphabet, and the fault shows the first one with
    the number of bytes before it. Otherwise its tokens are the text without blanks, in order, and every
    identifier among them is a maximal run of identifier characters, at its place. Tokens that can be written
    are what any text is split into that has them in order, with blanks around them at will and at least one
    between neighbouring identifiers. -/
theorem splitting_is_exact (text : String) :
    ((∃ fault, ofText text = .error fault) ↔ ∃ c ∈ text.toList, ¬InAlphabet c) ∧
    (∀ front c back, text.toList = front ++ c :: back → (∀ d ∈ front, InAlphabet d) → ¬InAlphabet c →
      ofText text = .error (.unexpectedChar c (String.ofList front).utf8ByteSize)) ∧
    (∀ tokens, ofText text = .ok tokens →
      tokens.flatMap (fun token => token.text.toList) = text.toList.filter (fun c => !Text.isBlank c) ∧
      ∀ before name after, tokens = before ++ .ident name :: after →
        ∃ front back, text.toList = front ++ name.toList ++ back ∧ MaximalRun front name.toList back ∧
          ofText (String.ofList front) = .ok before ∧ ofText (String.ofList back) = .ok after) ∧
    ∀ lead pieces, (∀ c ∈ lead, Text.isBlank c = true) → Separated pieces → text.toList = lead ++ spaced pieces →
      ofText text = .ok (pieces.map (·.1)) := by
  refine ⟨exists_fault_iff, fun _ _ _ => ofText_eq_error, fun tokens h => ?_, fun lead pieces hlead hpieces htext => ?_⟩
  · have hwritten := ofText_eq_ok.mp h
    refine ⟨hwritten.texts, ?_⟩
    rintro before name after rfl
    obtain ⟨front, back, htext, hrun, hfront, hback⟩ := hwritten.exists_run
    exact ⟨front, back, htext, hrun, ofText_ofList.mpr hfront, ofText_ofList.mpr hback⟩
  · rw [ofText_eq_ok, htext]
    exact hpieces.written.blanks hlead

/-- A blank of three bytes before a character that no token has, and a text with one blank where it is needed. -/
theorem splitting_is_exact_spaced :
    ofText "a\u2003é&" = .error (.unexpectedChar 'é' 4) ∧
      ofText " a b&(c)" = .ok [.ident "a", .ident "b", .amp, .lparen, .ident "c", .rparen] := by
  obtain ⟨-, hfirst, -, -⟩ := splitting_is_exact "a\u2003é&"
  obtain ⟨-, -, -, hspaced⟩ := splitting_is_exact " a b&(c)"
  have hknown : ∀ d ∈ ['a', '\u2003'], InAlphabet d :=
    List.forall_mem_cons.mpr ⟨by decide, List.forall_mem_singleton.mpr (by decide)⟩
  let pieces : List (Token × List Char) :=
    [(.ident "a", [' ']), (.ident "b", []), (.amp, []), (.lparen, []), (.ident "c", []), (.rparen, [])]
  have hblank : pieces.all (fun piece => piece.2.all Text.isBlank) = true := by decide
  simp only [List.all_eq_true] at hblank
  have hpieces : Separated pieces := ⟨by decide, hblank, by decide⟩
  exact ⟨hfirst _ 'é' ['&'] rfl hknown (by decide), hspaced [' '] pieces (List.forall_mem_singleton.mpr rfl) hpieces rfl⟩

end Minterm.Token
