import Minterm.Proofs.ReadNames
import Minterm.Proofs.ReducedForm
import Minterm.Proofs.SimplifyMeaning
import Minterm.Query

/-! Canonical text read once more. A simplified tree nests to the left, so its text is read as the tree
    itself, which no rule changes. The limit on the height is the one exception: simplification nests
    every chain to the left, and a chain of more operands than the limit is then refused, although the
    tree it came from was not. -/

namespace Minterm

/-- The canonical text of an input. -/
def Query.canonicalText (text : String) : Except Fault String := (Query.simplified text).map Expr.text

namespace Expr

theorem Reduced.leftNested {e : Expr} (h : Reduced e) : e.LeftNested := by
  induction h with
  | var name => exact trivial
  | not _ _ ih => exact ih
  | and _ _ hand _ _ iha ihb => exact ⟨iha, ihb, hand⟩
  | or _ _ hor _ _ _ iha ihb => exact ⟨iha, ihb, hor⟩

theorem Simplified.leftNested {e : Expr} (h : Simplified e) : e.LeftNested := by
  rcases h with h | h
  · cases e with
    | lit b => exact trivial
    | _ => cases h
  · exact h.leftNested

theorem readable_simplify {e : Expr} (h : e.Readable) : e.simplify.Readable :=
  fun name hn => h name (names_simplifyWithin_subset maxPasses e hn)

/-- The text of a tree that nests to the left is read as far as the limit allows. -/
theorem ofText_text_reread {e : Expr} (h : e.LeftNested) (hnames : e.Spellable) :
    ofText e.text = if e.nesting .canonical ≤ maxDepth then .ok e.reread else .error (.tooDeep maxDepth) := by
  rw [ofText, text, ofText_render_of_spellable hnames]
  exact ofTokens_tokens_reread (by decide) h

theorem ofText_text {e : Expr} (h : e.LeftNested) (hnames : e.Readable) :
    ofText e.text = if e.nesting .canonical ≤ maxDepth then .ok e else .error (.tooDeep maxDepth) := by
  rw [ofText_text_reread h hnames.spellable, hnames.reread_eq]

end Expr

namespace Query
open Minterm.Expr

theorem simplified_of_ofText {text : String} {e : Expr} (h : ofText text = .ok e) : simplified text = .ok e.simplify := by
  rw [simplified, simplifiedWithin, h]
  rfl

theorem simplified_of_fault {text : String} {fault : Fault} (h : ofText text = .error fault) :
    simplified text = .error (.during .parsing fault) := by
  rw [simplified, simplifiedWithin, h]
  rfl

theorem canonicalText_eq_ok {text t : String} (h : canonicalText text = .ok t) :
    ∃ source, ofText text = .ok source ∧ source.simplify.text = t := by
  rw [canonicalText] at h
  cases hread : ofText text with
  | error fault =>
    rw [simplified_of_fault hread] at h
    cases h
  | ok source =>
    rw [simplified_of_ofText hread] at h
    exact ⟨source, rfl, Except.ok.inj h⟩

/-- The text of a simplified tree is read and simplified to itself, as far as the limit allows. -/
theorem canonicalText_text {e : Expr} (h : Simplified e) (hnames : e.Readable) :
    canonicalText e.text =
      if e.nesting .canonical ≤ maxDepth then .ok e.text else .error (.during .parsing (.tooDeep maxDepth)) := by
  have hread := ofText_text h.leftNested hnames
  rw [canonicalText]
  split
  · rename_i hle
    rw [if_pos hle] at hread
    rw [simplified_of_ofText hread, simplify, h.simplifyWithin_eq]
    rfl
  · rename_i hlt
    rw [if_neg hlt] at hread
    rw [simplified_of_fault hread]
    rfl

/-- Canonical text is its own canonical text exactly if its tree is not nested deeper than the limit;
    otherwise it is refused. -/
theorem canonical_text_again {text t : String} (h : canonicalText text = .ok t) :
    ∃ e, simplified text = .ok e ∧ e.text = t ∧
      canonicalText t =
        if e.nesting .canonical ≤ maxDepth then .ok t else .error (.during .parsing (.tooDeep maxDepth)) := by
  obtain ⟨source, hread, rfl⟩ := canonicalText_eq_ok h
  have hnames := readable_simplify (readable_of_ofText hread)
  exact ⟨source.simplify, simplified_of_ofText hread, rfl, canonicalText_text (simplified_simplify source) hnames⟩

theorem canonical_text_again_shared :
    canonicalText "!(!x) & y & x" = .ok "x & y" ∧ canonicalText "x & y" = .ok "x & y" := by
  let source : Expr := .and (.and (.not (.not (.var "x"))) (.var "y")) (.var "x")
  have hreadable : source.Readable := by
    intro name hn
    have hnames : name = "x" ∨ name = "y" := by
      simp only [source, names_and, names_not, names_var, List.mem_append, List.mem_singleton] at hn
      tauto
    rcases hnames with rfl | rfl <;> exact ⟨by decide, List.all_eq_true.mp (by decide), by decide, by decide⟩
  have hnested : source.LeftNested := ⟨⟨trivial, trivial, rfl⟩, trivial, rfl⟩
  have hread : ofText "!(!x) & y & x" = .ok source := ofText_text hnested hreadable
  have hsimplified : simplified "!(!x) & y & x" = .ok (.and (.var "x") (.var "y")) := simplified_of_ofText hread
  have hcanonical : canonicalText "!(!x) & y & x" = .ok "x & y" := by
    rw [canonicalText, hsimplified]
    rfl
  obtain ⟨e, he, -, hagain⟩ := canonical_text_again hcanonical
  obtain rfl := Except.ok.inj (hsimplified.symm.trans he)
  exact ⟨hcanonical, hagain⟩

/-! ### A chain that grows too high -/

/-- The variables `x0`, `x1` and so on. -/
def numbered (n : Nat) : String := "x" ++ n.repr

/-- `count` variables from number `start` on. -/
def numberedVars (start count : Nat) : List Expr := (List.range' start count).map fun n => .var (numbered n)

/-- Variable number `start` and the `count` ones after it, joined by `&`. -/
def longChain (start count : Nat) : Expr := (numberedVars (start + 1) count).foldl .and (.var (numbered start))

/-- Two chains side by side, each within the limit. -/
def chainPair : Expr := .and (longChain 0 256) (longChain 257 256)

/-- The text of the pair. The parentheses around the second chain keep it apart from the first. -/
def chainPairText : String := "(" ++ (longChain 0 256).text ++ ") & (" ++ (longChain 257 256).text ++ ")"

theorem numbered_injective {m n : Nat} (h : numbered m = numbered n) : m = n :=
  Token.repr_injective ((String.append_right_inj "x").mp h)

theorem isVariable_numbered (n : Nat) : IsVariable (numbered n) := by
  have hchars : (numbered n).toList = 'x' :: n.repr.toList := String.toList_append
  have hne {text : String} (h : text.toList.head? ≠ some 'x') : numbered n ≠ text := by
    rintro rfl
    exact h (by rw [hchars]; rfl)
  refine ⟨hne (by decide), fun c hc => ?_, hne (by decide), hne (by decide)⟩
  rcases List.mem_cons.mp (hchars ▸ hc) with rfl | hc
  · decide
  · exact Token.isIdentChar_of_mem_repr hc

theorem mem_numberedVars {start count : Nat} {f : Expr} (h : f ∈ numberedVars start count) :
    ∃ n, f = .var (numbered n) := by
  obtain ⟨n, -, rfl⟩ := List.mem_map.mp h
  exact ⟨n, rfl⟩

theorem apart_numberedVars (start count : Nat) : (numberedVars start count).Pairwise Apart := by
  rw [numberedVars, List.pairwise_map]
  refine (List.nodup_range' 1).imp fun hne => ⟨fun h => hne (numbered_injective (Expr.var.inj h)), ?_⟩
  rfl

theorem numberedVars_succ (start count : Nat) :
    numberedVars start (count + 1) = .var (numbered start) :: numberedVars (start + 1) count := by
  rw [numberedVars, List.range'_succ]
  rfl

theorem numberedVars_append (start m n : Nat) :
    numberedVars start m ++ numberedVars (start + m) n = numberedVars start (m + n) := by
  rw [numberedVars, numberedVars, numberedVars, ← List.map_append, List.range'_append_1]

theorem reduced_numberedVars {start count : Nat} {f : Expr} (h : f ∈ numberedVars start count) :
    Reduced f ∧ f.isAnd = false := by
  obtain ⟨n, rfl⟩ := mem_numberedVars h
  exact ⟨.var _, rfl⟩

theorem factors_longChain (start count : Nat) : (longChain start count).factors = numberedVars start (count + 1) := by
  rw [longChain, numberedVars_succ]
  exact factors_foldl_and _ fun f hf => (reduced_numberedVars hf).2

theorem reduced_longChain (start count : Nat) : Reduced (longChain start count) := by
  refine (foldl_conj_eq (.var _) (fun f => reduced_numberedVars) ?_).2
  rw [factors_eq_singleton rfl, List.singleton_append, ← numberedVars_succ]
  exact apart_numberedVars start (count + 1)

theorem longChain_append (start m n : Nat) :
    (numberedVars (start + m + 1) n).foldl .and (longChain start m) = longChain start (m + n) := by
  rw [longChain, longChain, ← List.foldl_append, Nat.add_right_comm start m 1, numberedVars_append]

/-- Two chains of different variables are joined as one. -/
theorem conj_longChain (start m n : Nat) :
    (longChain start m).conj (longChain (start + m + 1) n) = longChain start (m + (n + 1)) := by
  have hchain := reduced_longChain start m
  have hparts :
      (longChain start m).factors ++ numberedVars (start + m + 1) (n + 1) = numberedVars start (m + 1 + (n + 1)) := by
    rw [factors_longChain]
    exact numberedVars_append start (m + 1) (n + 1)
  calc (longChain start m).conj (longChain (start + m + 1) n)
      = (numberedVars (start + m + 1) (n + 1)).foldl conj (longChain start m) := by
        rw [numberedVars_succ, List.foldl_cons]
        exact conj_foldl_and hchain.isLit_eq_false _ _
    _ = (numberedVars (start + m + 1) (n + 1)).foldl .and (longChain start m) :=
        (foldl_conj_eq hchain (fun f => reduced_numberedVars) (hparts ▸ apart_numberedVars start (m + 1 + (n + 1)))).1
    _ = longChain start (m + (n + 1)) := longChain_append start m (n + 1)

theorem longChain_succ (start count : Nat) :
    longChain start (count + 1) = .and (longChain start count) (.var (numbered (start + count + 1))) :=
  (longChain_append start count 1).symm

theorem height_longChain (start count : Nat) : (longChain start count).height = count + 1 := by
  induction count with
  | zero => rfl
  | succ count ih =>
    rw [longChain_succ, height, ih, height]
    omega

theorem nesting_longChain (start count : Nat) : (longChain start count).nesting .canonical = count + 1 := by
  induction count with
  | zero => rfl
  | succ count ih =>
    have hor : (longChain start count).isOr = false := by
      cases count with
      | zero => rfl
      | succ count => rw [longChain_succ]; rfl
    rw [longChain_succ, nesting, ih, hor, height_longChain, nesting, height]
    simp only [isOr, Bool.toNat_false]
    omega

theorem readable_longChain (start count : Nat) : (longChain start count).Readable := by
  induction count with
  | zero => exact List.forall_mem_singleton.mpr (isVariable_numbered start)
  | succ count ih =>
    rw [longChain_succ]
    exact forall_mem_names_and.mpr ⟨ih, List.forall_mem_singleton.mpr (isVariable_numbered _)⟩

/-- Two trees in parentheses, joined by `&`, are read as far as the limit allows. -/
theorem ofText_beside {a b : Expr} (ha : a.LeftNested) (hb : b.LeftNested) (hnames : (a.and b).Readable) :
    ofText ("(" ++ a.text ++ ") & (" ++ b.text ++ ")") =
      if max (max (a.nesting .canonical + 1) (b.nesting .canonical + 1)) (max a.height b.height + 1) ≤ maxDepth then
        .ok (.and a b)
      else .error (.tooDeep maxDepth) := by
  obtain ⟨hnamesa, hnamesb⟩ := forall_mem_names_and.mp hnames
  have hspelled (e : Expr) (hnames : e.Readable) :
      Spells ("(" ++ e.text ++ ")") (parenthesized true (e.tokens .canonical)) :=
    (spells_render hnames.spellable).enclose true
  have hspells : Spells ("(" ++ a.text ++ ") & (" ++ b.text ++ ")")
      (parenthesized true (a.tokens .canonical) ++ .amp :: parenthesized true (b.tokens .canonical)) := by
    have hboth := (hspelled a hnamesa).binary (hspelled b hnamesb) (c := '&') rfl
    rw [show ") & (" = ")" ++ String.ofList [' ', '&', ' '] ++ "(" from rfl]
    simpa only [String.append_assoc] using hboth
  have hreads (e : Expr) (h : e.LeftNested) (hnames : e.Readable) :
      Parser.ReadsUnit maxDepth (parenthesized true (e.tokens .canonical)) (e.nesting .canonical + 1) e := by
    have hsum : Parser.ReadsSum maxDepth (e.tokens .canonical) (e.nesting .canonical) e.reread :=
      (Parser.reads .canonical h).sum
    rw [hnames.reread_eq] at hsum
    exact hsum.parenthesized (nesting_pos .canonical e)
  have hsum := ((hreads a ha hnamesa).product.and (hreads b hb hnamesb)).sum
  rw [ofText, hspells.ofText_eq]
  exact hsum.ofTokens_eq (by decide)

theorem ofText_chainPair : ofText chainPairText = .ok chainPair := by
  have hnested (start : Nat) : (longChain start 256).LeftNested := (reduced_longChain start 256).leftNested
  have hreadable : chainPair.Readable :=
    forall_mem_names_and.mpr ⟨readable_longChain 0 256, readable_longChain 257 256⟩
  rw [chainPairText, ofText_beside (hnested 0) (hnested 257) hreadable, if_pos]
  · rfl
  · simp only [nesting_longChain, height_longChain, maxDepth]
    decide

theorem simplify_chainPair : chainPair.simplify = longChain 0 513 := by
  have hchain (start : Nat) : (longChain start 256).pass = longChain start 256 := (reduced_longChain start 256).pass_eq
  rw [simplify_eq_pass, chainPair, Expr.pass, hchain, hchain]
  exact conj_longChain 0 256 256

/-- Both chains of the pair are within the limit, and the chain that they make is not. -/
theorem canonical_text_refused :
    ∃ t, canonicalText chainPairText = .ok t ∧ canonicalText t = .error (.during .parsing (.tooDeep maxDepth)) := by
  refine ⟨(longChain 0 513).text, ?_, ?_⟩
  · rw [canonicalText, simplified_of_ofText ofText_chainPair, simplify_chainPair]
    rfl
  · rw [canonicalText_text (reduced_longChain 0 513).simplified (readable_longChain 0 513), nesting_longChain]
    rfl

end Query
end Minterm
