import Minterm.Proofs.CanonicalText
import Minterm.Proofs.JsonReading

/-! The JSON text of a tree read back. What is known of the codec is what its documentation says
    (`Codec.Documented`): the value of a tree carries the kind of each node as a tag, and a text that has been
    written is read as its value, if the reader allows its nesting. So a tree is read as itself as far as it
    is nested no deeper than the reader has room for. An operation takes two levels, an object and an array inside
    it; so half the room is a height up to which every tree is read back, and a chain may be higher. -/

namespace Minterm

/-- A value without numbers, which may be spelled in several ways, and without objects of several fields, which may
    come in any order. -/
inductive Json.Plain : Json → Prop
  | bool (b : Bool) : Plain (.bool b)
  | string (s : String) : Plain (.string s)
  | array {items : List Json} (h : ∀ item ∈ items, Plain item) : Plain (.array items)
  | tagged (tag : String) {value : Json} (h : Plain value) : Plain (.object [(tag, value)])

theorem Json.Plain.numeric {value : Json} (h : value.Plain) : value.Numeric := by
  induction h with
  | bool b => exact .bool b
  | string s => exact .string s
  | array _ ih => exact .array ih
  | tagged tag _ ih => exact .object (List.forall_mem_singleton.mpr ih)

namespace Expr

/-- How many arrays and objects stand inside one another in the value of a tree, of which each node is an object, and
    two operands are an array in it. -/
def jsonNesting : Expr → Nat
  | .lit _ | .var _ => 1
  | .not x => x.jsonNesting + 1
  | .and a b | .or a b => max a.jsonNesting b.jsonNesting + 2

theorem jsonNesting_lt (e : Expr) : e.jsonNesting < 2 * e.height := by
  induction e with
  | lit b => exact Nat.one_lt_two
  | var name => exact Nat.one_lt_two
  | not x ih =>
    rw [jsonNesting, height]
    omega
  | and a b iha ihb | or a b iha ihb =>
    rw [jsonNesting, height]
    omega

/-! ### What is documented of a codec -/

/-- Trees are encoded with an outer tag for the kind of their node, and decoded from the same form. What has been
    written is read again if at most `room` arrays and objects stand inside one another in it; otherwise it is
    refused. -/
structure Codec.Documented (codec : Codec) (room : Nat) : Prop where
  encode_lit (b : Bool) : codec.encode (.lit b) = .object [("Literal", .bool b)]
  encode_var (name : String) : codec.encode (.var name) = .object [("Variable", .string name)]
  encode_not (x : Expr) : codec.encode (.not x) = .object [("Not", codec.encode x)]
  encode_and (a b : Expr) : codec.encode (.and a b) = .object [("And", .array [codec.encode a, codec.encode b])]
  encode_or (a b : Expr) : codec.encode (.or a b) = .object [("Or", .array [codec.encode a, codec.encode b])]
  decode_lit (b : Bool) : codec.decode (.object [("Literal", .bool b)]) = some (.lit b)
  decode_var (name : String) : codec.decode (.object [("Variable", .string name)]) = some (.var name)
  decode_not {v : Json} {x : Expr} (hx : codec.decode v = some x) : codec.decode (.object [("Not", v)]) = some (.not x)
  decode_and {v w : Json} {a b : Expr} (ha : codec.decode v = some a) (hb : codec.decode w = some b) :
    codec.decode (.object [("And", .array [v, w])]) = some (.and a b)
  decode_or {v w : Json} {a b : Expr} (ha : codec.decode v = some a) (hb : codec.decode w = some b) :
    codec.decode (.object [("Or", .array [v, w])]) = some (.or a b)
  read_write {v : Json} (hplain : v.Plain) (hroom : v.nesting ≤ room) : codec.read (codec.write v) = some v
  read_write_deep {v : Json} (hplain : v.Plain) (hroom : room < v.nesting) : codec.read (codec.write v) = none

theorem Codec.documented_standard : Codec.standard.Documented Json.maxNesting where
  encode_lit _ := rfl
  encode_var _ := rfl
  encode_not _ := rfl
  encode_and _ _ := rfl
  encode_or _ _ := rfl
  decode_lit _ := rfl
  decode_var _ := rfl
  decode_not := ofJson?_not
  decode_and := ofJson?_and
  decode_or := ofJson?_or
  read_write hplain hroom := (Json.read_compact _ hplain.numeric).trans (if_pos hroom)
  read_write_deep hplain hroom := (Json.read_compact _ hplain.numeric).trans (if_neg (by omega))

namespace Codec.Documented
variable {codec : Codec} {room : Nat}

theorem plain_encode (h : codec.Documented room) (e : Expr) : (codec.encode e).Plain := by
  induction e with
  | lit b => exact h.encode_lit b ▸ .tagged _ (.bool b)
  | var name => exact h.encode_var name ▸ .tagged _ (.string name)
  | not x ih => exact h.encode_not x ▸ .tagged _ ih
  | and a b iha ihb => exact h.encode_and a b ▸ .tagged _ (.array (by simp [iha, ihb]))
  | or a b iha ihb => exact h.encode_or a b ▸ .tagged _ (.array (by simp [iha, ihb]))

theorem nesting_encode (h : codec.Documented room) (e : Expr) : (codec.encode e).nesting = e.jsonNesting := by
  induction e with
  | lit b => rw [h.encode_lit]; rfl
  | var name => rw [h.encode_var]; rfl
  | not x ih => simp [h.encode_not, Json.nesting, Json.fieldNesting, ih, jsonNesting]
  | and a b iha ihb =>
    simp [h.encode_and, Json.nesting, Json.fieldNesting, Json.itemNesting, iha, ihb, jsonNesting]
  | or a b iha ihb =>
    simp [h.encode_or, Json.nesting, Json.fieldNesting, Json.itemNesting, iha, ihb, jsonNesting]

theorem decode_encode (h : codec.Documented room) (e : Expr) : codec.decode (codec.encode e) = some e := by
  induction e with
  | lit b => rw [h.encode_lit, h.decode_lit]
  | var name => rw [h.encode_var, h.decode_var]
  | not x ih => rw [h.encode_not, h.decode_not ih]
  | and a b iha ihb => rw [h.encode_and, h.decode_and iha ihb]
  | or a b iha ihb => rw [h.encode_or, h.decode_or iha ihb]

/-- The text of a tree is read as the tree, as far as there is room for its nesting. -/
theorem ofText?_text (h : codec.Documented room) (e : Expr) :
    codec.ofText? (codec.text e) = if e.jsonNesting ≤ room then some e else none := by
  have hplain := h.plain_encode e
  have hnesting := h.nesting_encode e
  rw [ofText?, text]
  split
  · rw [h.read_write hplain (by omega), Option.bind_eq_bind, Option.bind_some, h.decode_encode]
  · rw [h.read_write_deep hplain (by omega)]
    rfl

end Codec.Documented
end Expr

namespace Query
open Minterm.Expr

/-- The JSON text for an input is read as the tree for this input exactly if its arrays and objects are not nested
    deeper than the reader allows; otherwise it is refused. -/
theorem json_text_again {codec : Codec} {room : Nat} (hcodec : codec.Documented room) {limit : Nat} {text j : String}
    (h : jsonWithin limit text codec = .ok j) :
    ∃ e, simplifiedWithin limit text = .ok e ∧
      (codec.ofText? j = if e.jsonNesting ≤ room then some e else none) ∧
      (2 * e.height ≤ room + 1 → codec.ofText? j = some e) := by
  obtain ⟨e, he, rfl⟩ := map_eq_ok.mp h
  have hread := hcodec.ofText?_text e
  refine ⟨e, he, hread, fun hheight => ?_⟩
  have hnesting := e.jsonNesting_lt
  rw [hread, if_pos (by omega)]

theorem json_text_again_negated :
    let e : Expr := .and (.var "a") (.not (.var "b"))
    Codec.standard.Documented 127 ∧ jsonWithin maxPasses "a & !b" = .ok e.jsonText ∧
      ofJsonText? e.jsonText = some e := by
  intro e
  have hread : ofText "a & !b" = .ok e := ofText_text (e := e) (by decide) (by decide)
  have hsimplified : simplifiedWithin maxPasses "a & !b" = .ok e := simplified_of_ofText hread
  have hjson : jsonWithin maxPasses "a & !b" = .ok e.jsonText := map_eq_ok.mpr ⟨e, hsimplified, rfl⟩
  obtain ⟨r, hr, -, hagain⟩ := json_text_again Codec.documented_standard hjson
  obtain rfl := Except.ok.inj (hsimplified.symm.trans hr)
  exact ⟨Codec.documented_standard, hjson, hagain (by decide)⟩

theorem jsonNesting_longChain (start count : Nat) : (longChain start count).jsonNesting = 2 * count + 1 := by
  induction count with
  | zero => rfl
  | succ count ih =>
    rw [longChain_succ, jsonNesting, ih, jsonNesting]
    omega

/-- Where there is room for 127 arrays and objects inside one another, the JSON text of a chain of 65 variables, far
    below the limit on the height of a tree, is refused. -/
theorem json_text_refused :
    (∃ codec : Codec, codec.Documented 127) ∧
      ∀ codec : Codec, codec.Documented 127 → ∀ limit,
        ∃ j, jsonWithin limit (longChain 0 64).text codec = .ok j ∧ codec.ofText? j = none := by
  refine ⟨⟨.standard, Codec.documented_standard⟩, fun codec hcodec limit => ⟨codec.text (longChain 0 64), ?_, ?_⟩⟩
  · have hreduced := reduced_longChain 0 64
    have hread := ofText_text hreduced.leftNested (readable_longChain 0 64)
    rw [nesting_longChain, if_pos (by decide)] at hread
    have hsimplified : simplifiedWithin limit (longChain 0 64).text = .ok (longChain 0 64) := by
      rw [simplifiedWithin, hread]
      exact congrArg Except.ok (hreduced.simplified.simplifyWithin_eq limit)
    exact map_eq_ok.mpr ⟨_, hsimplified, rfl⟩
  · rw [hcodec.ofText?_text, jsonNesting_longChain]
    rfl

end Query
end Minterm
