import Minterm.Proofs.Splitting

/-! Splitting a text by offsets. Each character comes with the offset of its first byte. A loop takes the characters
    one after another and adds the tokens to those it has; at an identifier it passes over all identifier
    characters that follow and cuts the name out of the text between two offsets. It gives what splitting gives
    (`scanDue_indexed`), because the characters that are due start where the bytes of those taken already end. -/

namespace Minterm.Token

/-! ### Characters with offsets -/

/-- The characters of a text whose first one has the given offset. -/
def indexed (offset : Nat) : List Char → List (Nat × Char)
  | [] => []
  | c :: cs => (offset, c) :: indexed (offset + c.utf8Size) cs

/-- The characters between two offsets. -/
def slice (cs : List Char) (start stop : Nat) : List Char :=
  ((indexed 0 cs).filter fun p => start ≤ p.1 && p.1 < stop).map Prod.snd

theorem indexed_append (offset : Nat) (front back : List Char) :
    indexed offset (front ++ back) = indexed offset front ++ indexed (offset + byteCount front) back := by
  induction front generalizing offset with
  | nil => rfl
  | cons c front ih => rw [List.cons_append, indexed, ih, indexed, byteCount_cons, Nat.add_assoc, List.cons_append]

theorem map_snd_indexed (offset : Nat) (cs : List Char) : (indexed offset cs).map Prod.snd = cs := by
  induction cs generalizing offset with
  | nil => rfl
  | cons c cs ih => rw [indexed, List.map_cons, ih]

theorem offset_mem_indexed (offset : Nat) (cs : List Char) :
    ∀ p ∈ indexed offset cs, offset ≤ p.1 ∧ p.1 < offset + byteCount cs := by
  induction cs generalizing offset with
  | nil => exact fun p hp => nomatch hp
  | cons c cs ih =>
    have hpos := c.utf8Size_pos
    rw [indexed, List.forall_mem_cons, byteCount_cons]
    refine ⟨⟨Nat.le_refl _, by omega⟩, fun p hp => ?_⟩
    have hrange := ih _ p hp
    omega

theorem slice_append (front middle back : List Char) :
    slice (front ++ (middle ++ back)) (byteCount front) (byteCount front + byteCount middle) = middle := by
  have hfront := offset_mem_indexed 0 front
  have hmiddle := offset_mem_indexed (byteCount front) middle
  have hback := offset_mem_indexed (byteCount front + byteCount middle) back
  have hnone :
      (indexed 0 front).filter (fun p => byteCount front ≤ p.1 && p.1 < byteCount front + byteCount middle) = [] :=
    List.filter_eq_nil_iff.mpr fun p hp => by
      have hrange := hfront p hp
      simp only [Bool.and_eq_true, decide_eq_true_eq]
      omega
  have hall : (indexed (byteCount front) middle).filter
      (fun p => byteCount front ≤ p.1 && p.1 < byteCount front + byteCount middle) = indexed (byteCount front) middle :=
    List.filter_eq_self.mpr fun p hp => by simpa using hmiddle p hp
  have hlater : (indexed (byteCount front + byteCount middle) back).filter
      (fun p => byteCount front ≤ p.1 && p.1 < byteCount front + byteCount middle) = [] :=
    List.filter_eq_nil_iff.mpr fun p hp => by
      have hrange := hback p hp
      simp only [Bool.and_eq_true, decide_eq_true_eq]
      omega
  rw [slice, indexed_append, indexed_append, Nat.zero_add, List.filter_append, List.filter_append, hnone, hall, hlater,
    List.nil_append, List.append_nil, map_snd_indexed]

/-! ### The loop -/

/-- Passes over the identifier characters that are due. The offset behind the last one is kept up to date. -/
def passWord (stop : Nat) : List (Nat × Char) → Nat × List (Nat × Char)
  | [] => (stop, [])
  | (offset, c) :: due => if isIdentChar c then passWord (offset + c.utf8Size) due else (stop, (offset, c) :: due)

theorem length_passWord_le (stop : Nat) (due : List (Nat × Char)) : (passWord stop due).2.length ≤ due.length := by
  induction due generalizing stop with
  | nil => exact Nat.le_refl _
  | cons p due ih =>
    rw [passWord]
    split
    · exact Nat.le_succ_of_le (ih _)
    · exact Nat.le_refl _

/-- The loop over the characters of `cs` that are still due, with the tokens found so far. -/
def scanDue (cs : List Char) (tokens : List Token) (due : List (Nat × Char)) : Except Fault (List Token) :=
  match due with
  | [] => .ok tokens
  | (offset, c) :: due =>
    if Text.isBlank c then scanDue cs tokens due
    else
      match ofChar? c with
      | some token => scanDue cs (tokens ++ [token]) due
      | none =>
        if isIdentChar c then
          -- the character that has been looked at is the first one of the identifier
          let word := passWord (offset + c.utf8Size) due
          scanDue cs (tokens ++ [.ident (String.ofList (slice cs offset word.1))]) word.2
        else .error (.unexpectedChar c offset)
termination_by due.length
decreasing_by
  · exact Nat.lt_succ_self _
  · exact Nat.lt_succ_self _
  · exact Nat.lt_succ_of_le (length_passWord_le _ _)

section Steps
variable {c : Char} (cs : List Char) (tokens : List Token) (offset : Nat) (due : List (Nat × Char))

theorem scanDue_nil : scanDue cs tokens [] = .ok tokens := by
  rw [scanDue.eq_def]

theorem scanDue_blank (h : Text.isBlank c = true) : scanDue cs tokens ((offset, c) :: due) = scanDue cs tokens due := by
  rw [scanDue.eq_def]
  exact if_pos h

theorem scanDue_symbol {token : Token} (h : ofChar? c = some token) :
    scanDue cs tokens ((offset, c) :: due) = scanDue cs (tokens ++ [token]) due := by
  rw [scanDue.eq_def]
  simp only [(of_ofChar? h).1, h, Bool.false_eq_true, if_false]

theorem scanDue_word (h : isIdentChar c = true) :
    scanDue cs tokens ((offset, c) :: due) =
      scanDue cs (tokens ++ [.ident (String.ofList (slice cs offset (passWord (offset + c.utf8Size) due).1))])
        (passWord (offset + c.utf8Size) due).2 := by
  have hsymbol : ofChar? c = none := by
    cases hc : ofChar? c with
    | none => rfl
    | some token => exact absurd h (Bool.eq_false_iff.mp (of_ofChar? hc).2)
  rw [scanDue.eq_def]
  simp only [isBlank_of_isIdentChar h, hsymbol, h, Bool.false_eq_true, if_false, if_true]

theorem scanDue_unknown (hblank : ¬Text.isBlank c = true) (hsymbol : ofChar? c = none)
    (hident : ¬isIdentChar c = true) :
    scanDue cs tokens ((offset, c) :: due) = .error (.unexpectedChar c offset) := by
  rw [scanDue.eq_def]
  simp only [hblank, hsymbol, hident, Bool.false_eq_true, if_false]

end Steps

theorem passWord_indexed (offset : Nat) (cs : List Char) :
    passWord offset (indexed offset cs) =
      (offset + byteCount (cs.takeWhile isIdentChar),
        indexed (offset + byteCount (cs.takeWhile isIdentChar)) (cs.dropWhile isIdentChar)) := by
  induction cs generalizing offset with
  | nil => rfl
  | cons c cs ih =>
    rw [indexed, passWord]
    split
    · rename_i hident
      rw [ih, List.takeWhile_cons_of_pos hident, List.dropWhile_cons_of_pos hident, byteCount_cons, Nat.add_assoc]
    · rename_i hident
      rw [List.takeWhile_cons_of_neg hident, List.dropWhile_cons_of_neg hident]
      rfl

theorem map_map_append {x : Except Fault (List Token)} {tokens : List Token} {token : Token} :
    x.map ((tokens ++ [token]) ++ ·) = (x.map (token :: ·)).map (tokens ++ ·) := by
  cases x with
  | error fault => rfl
  | ok rest => exact congrArg Except.ok (List.append_assoc tokens [token] rest)

/-- Behind the characters in front, the loop adds what splitting the others gives. -/
theorem scanDue_append (front cs : List Char) (tokens : List Token) :
    scanDue (front ++ cs) tokens (indexed (byteCount front) cs) =
      (scan (byteCount front) cs).map (tokens ++ ·) := by
  induction h : byteCount front, cs using scan.induct generalizing front tokens with
  | case1 offset => rw [scan_nil, indexed, scanDue_nil, Except.map, List.append_nil]
  | case2 offset c cs hblank ih =>
    subst h
    have hrest := ih (front ++ [c]) tokens (by rw [byteCount_append, byteCount_cons]; rfl)
    rw [List.append_assoc, List.singleton_append] at hrest
    rw [scan_blank hblank, indexed, scanDue_blank _ _ _ _ hblank, hrest]
  | case3 offset c cs _ hident word ih =>
    subst h
    have hword : ∀ d ∈ word, isIdentChar d = true := by
      have hspellable : (Token.ident (String.ofList word)).Spellable := spellable_word hident
      simpa only [String.toList_ofList] using hspellable.2
    have hsplit : c :: cs = word ++ cs.dropWhile isIdentChar := congrArg (c :: ·) List.takeWhile_append_dropWhile.symm
    have hstop :
        byteCount front + c.utf8Size + byteCount (cs.takeWhile isIdentChar) = byteCount front + byteCount word := by
      rw [Nat.add_assoc, ← byteCount_cons]
    have hcut : slice (front ++ c :: cs) (byteCount front) (byteCount front + byteCount word) = word := by
      rw [hsplit]
      exact slice_append front word _
    have hrest := ih (front ++ word) (tokens ++ [.ident (String.ofList word)])
      (by rw [byteCount_append, byteCount_word hword])
    rw [List.append_assoc, ← hsplit] at hrest
    rw [scan_word hident, indexed, scanDue_word _ _ _ _ hident, passWord_indexed, hstop, hcut, byteCount_word hword, hrest,
      map_map_append]
  | case4 offset c cs _ _ token hsymbol ih =>
    subst h
    have hrest := ih (front ++ [c]) (tokens ++ [token]) (by rw [byteCount_append, byteCount_cons]; rfl)
    rw [List.append_assoc, List.singleton_append] at hrest
    rw [scan_symbol hsymbol, indexed, scanDue_symbol _ _ _ _ hsymbol, hrest, map_map_append]
  | case5 offset c cs hblank hident hsymbol =>
    subst h
    rw [indexed, scanDue_unknown _ _ _ _ hblank hsymbol hident, scan.eq_def]
    simp only [hblank, hident, hsymbol, Bool.false_eq_true, if_false]
    rfl

/-- The loop over all characters of a text splits it. -/
theorem scanDue_indexed (text : String) : scanDue text.toList [] (indexed 0 text.toList) = ofText text := by
  have hloop := scanDue_append [] text.toList []
  rw [List.nil_append] at hloop
  refine hloop.trans ?_
  rw [ofText, show byteCount [] = 0 from rfl]
  cases scan 0 text.toList <;> rfl

end Minterm.Token
