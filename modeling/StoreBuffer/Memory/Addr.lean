import StoreBuffer.Text.Numeral

/-! # Addresses and regions

Addresses are 64-bit words and wrap. A region is a base and a byte count; `Region.overlaps` compares
wrapped end points, `Region.contains` compares the distance from the base. The two agree on regions
that end below the top of the address space. -/

namespace StoreBuffer

/-- A 64-bit guest address. -/
structure Addr where
  val : UInt64
deriving DecidableEq, Inhabited, Repr

namespace Addr

def null : Addr := ⟨0⟩

def isNull (a : Addr) : Bool := decide (a = null)

/-- The address `bytes` further on, around the top of the address space if need be. -/
def offset (a : Addr) (bytes : UInt64) : Addr := ⟨a.val + bytes⟩

def text (a : Addr) : String := Text.hex a.val.toNat

end Addr

/-- The `size` bytes from `base` on. -/
structure Region where
  base : Addr
  size : UInt64
deriving DecidableEq, Inhabited, Repr

namespace Region

/-- The address just past the region. -/
def limit (r : Region) : Addr := r.base.offset r.size

/-- Each region starts before the other one's limit; an empty region overlaps nothing. -/
def overlaps (r s : Region) : Bool :=
  r.size != 0 && s.size != 0 &&
    (decide (r.base.val < s.limit.val) && decide (s.base.val < r.limit.val))

/-- The address lies at or after the base, less than `size` bytes away. -/
def contains (r : Region) (a : Addr) : Bool :=
  decide (r.base.val ≤ a.val) && decide (a.val - r.base.val < r.size)

theorem overlaps_comm (r s : Region) : r.overlaps s = s.overlaps r := by
  simp only [overlaps, Bool.and_comm (r.size != 0), Bool.and_comm (decide (r.base.val < _))]

end Region

end StoreBuffer
