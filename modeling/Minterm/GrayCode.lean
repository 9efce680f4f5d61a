/-! Reflected Gray codes: all rows of `n` bits in an order in which neighbours, the last and the first
    row included, differ in one place. -/

namespace Minterm

/-- The rows of `n` bits in Gray order: those that begin with `0`, then those that begin with `1` in
    the reverse order. -/
def grayCode : Nat → List (List Bool)
  | 0 => [[]]
  | n + 1 => (grayCode n).map (false :: ·) ++ (grayCode n).reverse.map (true :: ·)

/-- A row of bits written with `0` and `1`. -/
def bitText (bits : List Bool) : String := String.ofList (bits.map fun b => if b then '1' else '0')

/-- The rows of the code written out, in Gray order. -/
def grayTexts (n : Nat) : List String := (grayCode n).map bitText

/-- At how many places two lists differ, up to the end of the shorter one. -/
def differences {α : Type} [DecidableEq α] (xs ys : List α) : Nat := (xs.zip ys).countP fun (x, y) => x ≠ y

/-- The bytes of a text in UTF-8. -/
def utf8Bytes (s : String) : List UInt8 := s.toList.flatMap String.utf8EncodeChar

/-- The Hamming distance of two texts, byte by byte. -/
def hamming (s t : String) : Nat := differences (utf8Bytes s) (utf8Bytes t)

end Minterm
