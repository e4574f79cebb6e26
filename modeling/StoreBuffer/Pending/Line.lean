import StoreBuffer.Access.Fault
import StoreBuffer.Access.Order

/-! # Buffer lines

A line is one entry of a store buffer: a write waiting to reach memory, or a fence marker between
writes. A line that has reached memory while older entries kept their place is committed; it stays
for the order it stands in and is never written again. -/

namespace StoreBuffer

/-- One entry of a store buffer. A fence has no write. -/
structure Line where
  write? : Option Write
  order : Order
  /-- Place among the sequentially consistent lines, 0 for none. -/
  seqNo : Int := 0
  /-- Place among the atomic lines of the location, 0 for none. -/
  atomicNo : Int := 0
  committed : Bool := false
deriving DecidableEq, Inhabited, Repr

namespace Line

/-- A pending store of the low bits of `value`. -/
def store (loc : Location) (value : UInt64) (order : Order) : Line :=
  { write? := some (Write.ofStore loc value), order }

def fence (order : Order) : Line := { write? := none, order }

def isStore (l : Line) : Bool := l.write?.isSome

def isFence (l : Line) : Bool := l.write?.isNone

/-- The location of a store. -/
def loc? (l : Line) : Option Location := l.write?.map (·.loc)

def addr? (l : Line) : Option Addr := l.loc?.map (·.addr)

/-- Width in bits, 0 for a fence. -/
def width (l : Line) : Nat := (l.loc?.map (·.width)).getD 0

/-- Stored value, 0 for a fence. -/
def value (l : Line) : UInt64 := (l.write?.map (·.value)).getD 0

/-- Bytes the line covers, none for a fence. -/
def size (l : Line) : Nat := Width.byteSize l.width

/-- The write that memory does not hold yet. -/
def pendingWrite? (l : Line) : Option Write := if l.committed then none else l.write?

/-- The line is a store to bytes of the region. -/
def touches (l : Line) (r : Region) : Bool := l.write?.any fun w => w.region.overlaps r

/-- The line is a store to exactly this location. -/
def isAt (l : Line) (loc : Location) : Bool := l.loc? == some loc

/-- The byte that the line puts at `target`, if it is a store covering it. -/
def byteAt? (l : Line) (target : Addr) : Option UInt8 := l.write?.bind (·.byteAt? target)

/-- The line once its write has reached memory. Fences have nothing to commit. -/
def commit (l : Line) : Line := if l.isStore then { l with committed := true } else l

def text (l : Line) : String :=
  let numbers := s!"sc={l.seqNo} at={l.atomicNo}" ++ if l.committed then " committed]" else "]"
  match l.write? with
  | some w =>
    s!"[{w.loc.addr.text} = {Text.hex w.value.toNat} i{w.loc.width} {l.order.text} " ++ numbers
  | none => s!"[fence {l.order.text} " ++ numbers

theorem isStore_eq_not_isFence (l : Line) : l.isStore = !l.isFence := by
  simp [isStore, isFence]

theorem touches_of_write? {l : Line} {w : Write} (h : l.write? = some w) (r : Region) :
    l.touches r = w.region.overlaps r := by
  rw [touches, h, Option.any_some]

theorem byteAt?_of_write? {l : Line} {w : Write} (h : l.write? = some w) (a : Addr) :
    l.byteAt? a = w.byteAt? a := by
  rw [byteAt?, h, Option.bind_some]

theorem pendingWrite?_commit (l : Line) : l.commit.pendingWrite? = none := by
  unfold commit pendingWrite?
  cases h : l.isStore
  · cases hw : l.write? <;> simp_all [isStore]
  · simp

end Line

end StoreBuffer
