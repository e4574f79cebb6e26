import StoreBuffer.Memory.Addr

/-! # Bit widths and little-endian bytes

An access names its width in bits. It touches the smallest of 1, 2, 4 or 8 bytes that holds the
width, and its value is cut to the width. `Word.toBytes` and `Word.ofBytes` lay a word out with its
least significant byte first. -/

namespace StoreBuffer

/-- How many bytes one memory access moves. -/
inductive AccessSize where
  | one | two | four | eight
deriving DecidableEq, Inhabited, Repr

namespace AccessSize

def bytes : AccessSize → Nat
  | one => 1 | two => 2 | four => 4 | eight => 8

def bits (s : AccessSize) : Nat := 8 * s.bytes

end AccessSize

namespace Width

/-- Accesses carry at most this many bits. -/
def greatest : Nat := 64

/-- A width that an access may have. -/
def Valid (width : Nat) : Prop := 1 ≤ width ∧ width ≤ greatest

instance (width : Nat) : Decidable (Valid width) := by unfold Valid; infer_instance

/-- Bytes touched by an access of `width` bits; none for width 0, and eight beyond 32 bits. -/
def byteSize (width : Nat) : Nat :=
  if width = 0 then 0 else if width ≤ 8 then 1 else if width ≤ 16 then 2
  else if width ≤ 32 then 4 else 8

/-- The access that moves a value of `width` bits. Width 0, which no checked access has, moves
eight bytes. -/
def accessSize (width : Nat) : AccessSize :=
  match byteSize width with
  | 1 => .one
  | 2 => .two
  | 4 => .four
  | _ => .eight

/-- A word with its low `width` bits set. -/
def mask (width : Nat) : UInt64 := UInt64.ofNat (1 <<< min width 64 - 1)

/-- The low `width` bits of `value`. -/
def truncate (width : Nat) (value : UInt64) : UInt64 := value &&& mask width

theorem bytes_accessSize {width : Nat} (h : width ≠ 0) :
    (accessSize width).bytes = byteSize width := by
  unfold accessSize byteSize
  rw [if_neg h]
  by_cases h1 : width ≤ 8 <;> by_cases h2 : width ≤ 16 <;> by_cases h3 : width ≤ 32 <;>
    simp [h1, h2, h3, AccessSize.bytes]

end Width

namespace Word

/-- Byte `i` of a word, counted from the least significant. -/
def byte (value : UInt64) (i : Nat) : UInt8 := UInt8.ofNat (value.toNat >>> (8 * i))

/-- The low `count` bytes of a word, least significant first. -/
def toBytes (count : Nat) (value : UInt64) : List UInt8 := (List.range count).map (byte value)

/-- The number whose digits in base 256 are `bytes`, least significant first. -/
def ofDigits : List UInt8 → Nat
  | [] => 0
  | b :: rest => b.toNat + 256 * ofDigits rest

/-- The word with the given bytes, least significant first. -/
def ofBytes (bytes : List UInt8) : UInt64 := UInt64.ofNat (ofDigits bytes)

theorem length_toBytes (count : Nat) (value : UInt64) : (toBytes count value).length = count := by
  simp [toBytes]

end Word

end StoreBuffer
