/-! # Well-formed UTF-8

`defect?` finds the first place where bytes stop being UTF-8. A character's first byte says how many
tail bytes it owes and narrows the range of the first of them, which rules out overlong forms,
surrogates and code points beyond the last one. -/

namespace StoreBuffer.Text

/-- Where bytes stop being UTF-8. The index is that of the character's first byte. -/
inductive Utf8Defect where
  /-- `length` bytes could have begun a character, but the next one does not go on with it. -/
  | invalid (index length : Nat)
  /-- The bytes end inside a character. -/
  | incomplete (index : Nat)
deriving DecidableEq, Inhabited, Repr

def Utf8Defect.message : Utf8Defect → String
  | invalid index length => s!"invalid utf-8 sequence of {length} bytes from index {index}"
  | incomplete index => s!"incomplete utf-8 byte sequence from index {index}"

/-- Tail bytes owed, and the range of the next one. -/
structure Tail where
  owed : Nat
  low : UInt8
  high : UInt8

/-- What a character owes after its first byte. -/
def tailAfter? (b : UInt8) : Option Tail :=
  if b ≤ 0x7f then some ⟨0, 0, 0⟩
  else if b < 0xc2 then none
  else if b ≤ 0xdf then some ⟨1, 0x80, 0xbf⟩
  else if b = 0xe0 then some ⟨2, 0xa0, 0xbf⟩
  else if b = 0xed then some ⟨2, 0x80, 0x9f⟩
  else if b ≤ 0xef then some ⟨2, 0x80, 0xbf⟩
  else if b = 0xf0 then some ⟨3, 0x90, 0xbf⟩
  else if b < 0xf4 then some ⟨3, 0x80, 0xbf⟩
  else if b = 0xf4 then some ⟨3, 0x80, 0x8f⟩
  else none

/-- Goes through the bytes, `taken` of which belong to the unfinished character at `index`. -/
def scanUtf8 (index taken : Nat) (tail : Tail) : List UInt8 → Option Utf8Defect
  | [] => if taken = 0 then none else some (.incomplete index)
  | b :: rest =>
    if taken = 0 then
      match tailAfter? b with
      | none => some (.invalid index 1)
      | some t => if t.owed = 0 then scanUtf8 (index + 1) 0 t rest else scanUtf8 index 1 t rest
    else if tail.low ≤ b ∧ b ≤ tail.high then
      if tail.owed = 1 then scanUtf8 (index + taken + 1) 0 tail rest
      else scanUtf8 index (taken + 1) ⟨tail.owed - 1, 0x80, 0xbf⟩ rest
    else some (.invalid index taken)

/-- The first place where `bytes` are not UTF-8. -/
def utf8Defect? (bytes : List UInt8) : Option Utf8Defect := scanUtf8 0 0 ⟨0, 0, 0⟩ bytes

end StoreBuffer.Text
