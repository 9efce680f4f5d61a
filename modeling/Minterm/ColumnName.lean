/-! Names for numbered columns: `a` to `z`, then `aa`, `ab` and so on through all words of lowercase
    letters, the shorter ones first and words of one length in alphabetical order. -/

namespace Minterm

/-- Letter number `i`, for `i < 26`. -/
def letter (i : Nat) : Char := Char.ofNat ('a'.toNat + i)

/-- The letters of column name number `i`. Without its last letter, a longer name is itself a column
    name: the one with number `i / 26 - 1`. -/
def columnLetters (i : Nat) : List Char :=
  if i < 26 then [letter i] else columnLetters (i / 26 - 1) ++ [letter (i % 26)]

def columnName (i : Nat) : String := String.ofList (columnLetters i)

end Minterm
