import StoreBuffer.Memory.Width

/-! # Locations and writes

A location is an address with a width in bits; it is what an access names, and what two atomic
accesses have to share. A write is a location with the value that goes there. -/

namespace StoreBuffer

/-- The place an access names. -/
structure Location where
  addr : Addr
  width : Nat
deriving DecidableEq, Inhabited, Repr

namespace Location

def size (l : Location) : UInt64 := UInt64.ofNat (Width.byteSize l.width)

/-- The bytes an access of the location touches. -/
def region (l : Location) : Region := ⟨l.addr, l.size⟩

/-- Two locations share a byte without being the same location. -/
def clashes (l m : Location) : Bool := l != m && l.region.overlaps m.region

theorem clashes_comm (l m : Location) : l.clashes m = m.clashes l := by
  rw [clashes, clashes, bne_comm, Region.overlaps_comm]

end Location

/-- A value on its way to a location. -/
structure Write where
  loc : Location
  value : UInt64
deriving DecidableEq, Inhabited, Repr

namespace Write

/-- The write of the low `width` bits of `value`. Buffers keep the width in eight bits. -/
def ofStore (loc : Location) (value : UInt64) : Write :=
  ⟨⟨loc.addr, loc.width % 256⟩, Width.truncate loc.width value⟩

def region (w : Write) : Region := w.loc.region

/-- The byte that the write puts at `target`, if it covers it. -/
def byteAt? (w : Write) (target : Addr) : Option UInt8 :=
  if w.region.contains target then
    some (Word.byte w.value (target.val - w.loc.addr.val).toNat)
  else none

theorem isSome_byteAt? (w : Write) (target : Addr) :
    (w.byteAt? target).isSome = w.region.contains target := by
  unfold byteAt?; split <;> simp_all

end Write

end StoreBuffer
