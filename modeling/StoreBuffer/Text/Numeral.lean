/-! # Numerals and columns

The two spellings of a number in the simulator's output: lower-case hexadecimal behind `0x`, and a
decimal pushed to the right edge of a column. -/

namespace StoreBuffer.Text

/-- `0x` and the digits of `n` in base sixteen, without leading zeros. -/
def hex (n : Nat) : String := "0x" ++ String.ofList (Nat.toDigits 16 n)

/-- `s` moved to the right edge of a column of `width` characters. -/
def alignRight (width : Nat) (s : String) : String := "".pushn ' ' (width - s.length) ++ s

/-- `s` at the left edge of a column of `width` characters. -/
def alignLeft (width : Nat) (s : String) : String := s.pushn ' ' (width - s.length)

/-- Two hexadecimal digits for every byte. -/
def hexBytes (bytes : List UInt8) : String :=
  String.ofList (bytes.flatMap fun b => [Nat.digitChar (b.toNat / 16), Nat.digitChar (b.toNat % 16)])

end StoreBuffer.Text
