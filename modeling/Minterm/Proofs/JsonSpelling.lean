import Minterm.Proofs.JsonLexemes

/-! The lexemes of a written JSON text. `spelling` follows the writer; the text of a value splits into these
    lexemes, if its numbers are spelled as numbers. -/

namespace Minterm.Json

/-- All numbers are spelled as numbers. -/
inductive Numeric : Json → Prop
  | null : Numeric .null
  | bool (b : Bool) : Numeric (.bool b)
  | number {text : String} : isNumber text.toList = true → Numeric (.number text)
  | string (s : String) : Numeric (.string s)
  | array {items : List Json} : (∀ item ∈ items, Numeric item) → Numeric (.array items)
  | object {fields : List (String × Json)} : (∀ field ∈ fields, Numeric field.2) → Numeric (.object fields)

mutual

/-- The lexemes of the text of a value. -/
def spelling : Json → List Lexeme
  | .array items => .mark '[' :: [.mark ','].intercalate (itemSpellings items) ++ [.mark ']']
  | .object fields => .mark '{' :: [.mark ','].intercalate (fieldSpellings fields) ++ [.mark '}']
  | value => [.atom value]

def itemSpellings : List Json → List (List Lexeme)
  | [] => []
  | item :: items => spelling item :: itemSpellings items

def fieldSpellings : List (String × Json) → List (List Lexeme)
  | [] => []
  | (name, value) :: fields => (.atom (.string name) :: .mark ':' :: spelling value) :: fieldSpellings fields

end

theorem compactItems_eq (items : List Json) : compactItems items = items.map compact := by
  induction items with
  | nil => rfl
  | cons item items ih => rw [compactItems, ih, List.map_cons]

theorem itemSpellings_eq (items : List Json) : itemSpellings items = items.map spelling := by
  induction items with
  | nil => rfl
  | cons item items ih => rw [itemSpellings, ih, List.map_cons]

theorem compactFields_eq (fields : List (String × Json)) :
    compactFields fields = fields.map fun field => quote field.1 ++ ":" ++ field.2.compact := by
  induction fields with
  | nil => rfl
  | cons field fields ih => rw [compactFields, ih, List.map_cons]

theorem fieldSpellings_eq (fields : List (String × Json)) :
    fieldSpellings fields = fields.map fun field => .atom (.string field.1) :: .mark ':' :: field.2.spelling := by
  induction fields with
  | nil => rfl
  | cons field fields ih => rw [fieldSpellings, ih, List.map_cons]

/-- The text, followed by anything that ends it, splits into the lexemes and those of what follows. -/
def Spells (text : String) (ls : List Lexeme) : Prop :=
  ∀ ⦃rest : List Char⦄, Ends rest → lexemes (text.toList ++ rest) = (lexemes rest).map (ls ++ ·)

theorem ends_of_isMark {c : Char} (h : isMark c = true) (cs : List Char) : Ends (c :: cs) := by
  intro d hd
  rwa [← Option.some.inj hd]

theorem ends_nil : Ends [] := by
  intro c hc
  cases hc

/-- Texts with commas between them. -/
theorem Spells.separated {α : Type} {text : α → String} {ls : α → List Lexeme} {xs : List α}
    (h : ∀ x ∈ xs, Spells (text x) (ls x)) :
    Spells (",".intercalate (xs.map text)) ([.mark ','].intercalate (xs.map ls)) := by
  induction xs with
  | nil =>
    intro rest _
    simp
  | cons x xs ih =>
    obtain ⟨hx, hxs⟩ := List.forall_mem_cons.mp h
    cases xs with
    | nil => simpa using hx
    | cons y ys =>
      intro rest hends
      have hcomma := lexemes_mark (c := ',') rfl ((",".intercalate ((y :: ys).map text)).toList ++ rest)
      have hfirst := hx (ends_of_isMark (c := ',') rfl ((",".intercalate ((y :: ys).map text)).toList ++ rest))
      rw [hcomma, ih hxs hends] at hfirst
      simpa [Function.comp_def] using hfirst

/-- A text between brackets. -/
theorem Spells.enclosed {text : String} {ls : List Lexeme} (h : Spells text ls) (opening closing : Char)
    (hopening : isMark opening = true) (hclosing : isMark closing = true) :
    Spells (opening.toString ++ text ++ closing.toString) (.mark opening :: ls ++ [.mark closing]) := by
  intro rest _
  have hinner := h (ends_of_isMark hclosing rest)
  have houter := lexemes_mark hopening (text.toList ++ closing :: rest)
  rw [hinner, lexemes_mark hclosing] at houter
  simpa [Function.comp_def] using houter

/-- A value with its name in front. -/
theorem Spells.named {text : String} {ls : List Lexeme} (h : Spells text ls) (name : String) :
    Spells (quote name ++ ":" ++ text) (.atom (.string name) :: .mark ':' :: ls) := by
  intro rest hends
  have hcolon := lexemes_mark (c := ':') rfl (text.toList ++ rest)
  have hname := lexemes_quote name (':' :: (text.toList ++ rest))
  rw [hcolon, h hends] at hname
  simpa [Function.comp_def] using hname

theorem spells_compact {j : Json} (h : Numeric j) : Spells j.compact j.spelling := by
  induction h with
  | null => exact fun _ hends => lexemes_word (by decide) (by decide) rfl hends
  | bool b =>
    cases b with
    | false => exact fun _ hends => lexemes_word (by decide) (by decide) rfl hends
    | true => exact fun _ hends => lexemes_word (by decide) (by decide) rfl hends
  | number hnumber => exact fun _ hends => lexemes_number hnumber hends
  | string s => exact fun rest _ => lexemes_quote s rest
  | @array items _ ih =>
    have hitems := (Spells.separated ih).enclosed '[' ']' rfl rfl
    rw [← compactItems_eq, ← itemSpellings_eq] at hitems
    exact hitems
  | @object fields _ ih =>
    have hnamed := fun field hfield => (ih field hfield).named field.1
    have hfields := (Spells.separated hnamed).enclosed '{' '}' rfl rfl
    rw [← compactFields_eq, ← fieldSpellings_eq] at hfields
    exact hfields

/-- The text of a value splits into the lexemes of the value. -/
theorem lexemes_compact {j : Json} (h : Numeric j) : lexemes j.compact.toList = some j.spelling := by
  have hspells := spells_compact h ends_nil
  rwa [List.append_nil, lexemes_nil, Option.map_some, List.append_nil] at hspells

end Minterm.Json
