import Minterm.Proofs.Lists
import Minterm.Token.Lexer

/-! Texts that spell a list of tokens. `Written tokens cs` says that `cs` consists of the characters of
    the tokens, in order, with blanks around them at will and none inside an identifier. Splitting such
    a text gives the tokens back. -/

namespace Minterm.Token

/-! ### Kinds of character -/

theorem toNat_of_isIdentChar {c : Char} (h : isIdentChar c = true) : 48 ≤ c.toNat ∧ c.toNat ≤ 122 := by
  change ((decide (65 ≤ c.val ∧ c.val ≤ 90) || (decide (97 ≤ c.val) && decide (c.val ≤ 122))) ||
    (decide (48 ≤ c.val) && decide (c.val ≤ 57)) || c == '_') = true at h
  simp only [Bool.or_eq_true, Bool.and_eq_true, decide_eq_true_eq, beq_iff_eq, UInt32.le_iff_toNat_le] at h
  change ((65 ≤ c.toNat ∧ c.toNat ≤ 90 ∨ 97 ≤ c.toNat ∧ c.toNat ≤ 122) ∨ 48 ≤ c.toNat ∧ c.toNat ≤ 57) ∨ c = '_' at h
  rcases h with ((h | h) | h) | rfl
  · omega
  · omega
  · omega
  · decide

theorem isDigit_of_mem_repr {n : Nat} {c : Char} (h : c ∈ n.repr.toList) : c.isDigit = true :=
  Nat.isDigit_of_mem_toDigits (by decide) (by decide) (Nat.toList_repr ▸ h)

theorem isIdentChar_of_mem_repr {n : Nat} {c : Char} (h : c ∈ n.repr.toList) : isIdentChar c = true := by
  simp [isIdentChar, Char.isAlphanum, isDigit_of_mem_repr h]

theorem repr_injective {m n : Nat} (h : m.repr = n.repr) : m = n := by
  have hread (k : Nat) : Nat.ofDigitChars 10 k.repr.toList 0 = k := by
    rw [Nat.toList_repr, Nat.ofDigitChars_ten_toDigits]
  rw [← hread m, h, hread]

/-- The blanks lie outside the range of the identifier characters. -/
theorem isBlank_of_isIdentChar {c : Char} (h : isIdentChar c = true) : Text.isBlank c = false := by
  obtain ⟨hlow, hhigh⟩ := toNat_of_isIdentChar h
  simp only [Text.isBlank, Bool.or_eq_false_iff, Bool.and_eq_false_iff, decide_eq_false_iff_not, beq_eq_false_iff_ne]
  omega

theorem of_ofChar? {c : Char} {token : Token} (h : ofChar? c = some token) :
    Text.isBlank c = false ∧ isIdentChar c = false := by
  unfold ofChar? at h
  split at h
  · decide
  · decide
  · decide
  · decide
  · decide
  · cases h

/-! ### One step of splitting -/

theorem scan_nil (offset : Nat) : scan offset [] = .ok [] := by
  rw [scan.eq_def]

theorem scan_blank {c : Char} (h : Text.isBlank c = true) (offset : Nat) (cs : List Char) :
    scan offset (c :: cs) = scan (offset + c.utf8Size) cs := by
  rw [scan.eq_def]
  exact if_pos h

theorem scan_word {c : Char} (h : isIdentChar c = true) (offset : Nat) (cs : List Char) :
    scan offset (c :: cs) =
      (scan (offset + (c :: cs.takeWhile isIdentChar).length) (cs.dropWhile isIdentChar)).map
        (.ident (String.ofList (c :: cs.takeWhile isIdentChar)) :: ·) := by
  rw [scan.eq_def]
  simp only [isBlank_of_isIdentChar h, h, Bool.false_eq_true, if_false, if_true]

theorem scan_symbol {c : Char} {token : Token} (h : ofChar? c = some token) (offset : Nat) (cs : List Char) :
    scan offset (c :: cs) = (scan (offset + c.utf8Size) cs).map (token :: ·) := by
  obtain ⟨hblank, hident⟩ := of_ofChar? h
  rw [scan.eq_def]
  simp only [hblank, hident, h, Bool.false_eq_true, if_false]

/-! ### Written texts -/

/-- The text starts with a character that cannot continue an identifier, or it is empty. -/
def Ends (cs : List Char) : Prop := ∀ c ∈ cs.head?, isIdentChar c = false

inductive Written : List Token → List Char → Prop
  | nil : Written [] []
  | blank {c : Char} {tokens : List Token} {cs : List Char} :
      Text.isBlank c = true → Written tokens cs → Written tokens (c :: cs)
  | symbol {c : Char} {token : Token} {tokens : List Token} {cs : List Char} :
      ofChar? c = some token → Written tokens cs → Written (token :: tokens) (c :: cs)
  /-- An identifier ends where no identifier character follows. -/
  | word {name : String} {tokens : List Token} {cs : List Char} :
      name ≠ "" → (∀ c ∈ name.toList, isIdentChar c = true) → Ends cs → Written tokens cs →
      Written (.ident name :: tokens) (name.toList ++ cs)

/-- Splitting a written text gives its tokens. -/
theorem Written.scan_eq {tokens : List Token} {cs : List Char} (h : Written tokens cs) (offset : Nat) :
    scan offset cs = .ok tokens := by
  induction h generalizing offset with
  | nil => exact scan_nil offset
  | blank hblank _ ih => rw [scan_blank hblank, ih]
  | symbol hsymbol _ ih =>
    rw [scan_symbol hsymbol, ih]
    rfl
  | @word name tokens cs hne hword hends _ ih =>
    cases hname : name.toList with
    | nil => exact absurd (String.toList_eq_nil_iff.mp hname) hne
    | cons c word =>
      rw [hname] at hword
      have htail : ∀ d ∈ word, isIdentChar d = true := fun d hd => hword d (List.mem_cons_of_mem _ hd)
      rw [List.cons_append, scan_word (hword c List.mem_cons_self), takeWhile_append_of_stop htail hends,
        dropWhile_append_of_stop htail hends, ih, ← hname, String.ofList_toList]
      rfl

/-! ### What the tokens of a text are -/

/-- Identifiers are not empty and consist of identifier characters. -/
def Spellable : Token → Prop
  | .ident name => name ≠ "" ∧ ∀ c ∈ name.toList, isIdentChar c = true
  | _ => True

theorem spellable_of_ofChar? {c : Char} {token : Token} (h : ofChar? c = some token) : token.Spellable := by
  unfold ofChar? at h
  split at h
  all_goals cases h
  all_goals exact trivial

theorem spellable_word {c : Char} {cs : List Char} (h : isIdentChar c = true) :
    (Token.ident (String.ofList (c :: cs.takeWhile isIdentChar))).Spellable := by
  refine ⟨fun hempty => ?_, fun d hd => ?_⟩
  · have := congrArg String.toList hempty
    rw [String.toList_ofList] at this
    cases this
  · rw [String.toList_ofList] at hd
    rcases List.mem_cons.mp hd with rfl | hd
    · exact h
    · exact List.all_eq_true.mp List.all_takeWhile d hd

theorem map_cons_eq_ok {α : Type} {token : α} {x : Except Fault (List α)} {tokens : List α}
    (h : x.map (token :: ·) = .ok tokens) : ∃ rest, x = .ok rest ∧ tokens = token :: rest := by
  cases x with
  | error fault => cases h
  | ok rest => exact ⟨rest, rfl, (Except.ok.inj h).symm⟩

theorem spellable_of_scan {offset : Nat} {cs : List Char} {tokens : List Token} (h : scan offset cs = .ok tokens) :
    ∀ token ∈ tokens, token.Spellable := by
  induction offset, cs using scan.induct generalizing tokens with
  | case1 offset =>
    rw [scan_nil] at h
    cases h
    exact fun _ hmem => nomatch hmem
  | case2 offset c cs hblank ih =>
    rw [scan_blank hblank] at h
    exact ih h
  | case3 offset c cs _ hident word =>
    rename_i ih
    rw [scan_word hident] at h
    obtain ⟨rest, hrest, rfl⟩ := map_cons_eq_ok h
    exact List.forall_mem_cons.mpr ⟨spellable_word hident, ih hrest⟩
  | case4 offset c cs _ _ token hsymbol ih =>
    rw [scan_symbol hsymbol] at h
    obtain ⟨rest, hrest, rfl⟩ := map_cons_eq_ok h
    exact List.forall_mem_cons.mpr ⟨spellable_of_ofChar? hsymbol, ih hrest⟩
  | case5 offset c cs hblank hident hsymbol =>
    rw [scan.eq_def] at h
    simp only [hblank, hident, hsymbol, Bool.false_eq_true, if_false] at h
    cases h

end Minterm.Token
