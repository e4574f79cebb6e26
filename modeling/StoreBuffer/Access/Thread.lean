import StoreBuffer.Text.Numeral

/-! # Threads and control flags

Who runs, and in which mode. The mask flag is raised while the simulator works on the host; three
other flags each make accesses go straight to memory. -/

namespace StoreBuffer

/-- The identity of a simulated thread. -/
structure ThreadId where
  val : UInt64
deriving DecidableEq, Inhabited, Repr

def ThreadId.text (t : ThreadId) : String := "T" ++ toString t.val.toNat

/-- The host's control register. -/
structure ControlFlags where
  bits : UInt64
deriving DecidableEq, Inhabited, Repr

namespace ControlFlags

def none : ControlFlags := ⟨0⟩

/-- Interrupts are held off. -/
def mask : ControlFlags := ⟨1⟩

def kernelMode : ControlFlags := ⟨2⟩

def debugMode : ControlFlags := ⟨4⟩

/-- Buffering is switched off by request. -/
def bypass : ControlFlags := ⟨8⟩

instance : OrOp ControlFlags := ⟨fun a b => ⟨a.bits ||| b.bits⟩⟩
instance : AndOp ControlFlags := ⟨fun a b => ⟨a.bits &&& b.bits⟩⟩
instance : Complement ControlFlags := ⟨fun a => ⟨~~~a.bits⟩⟩

/-- Every flag of `b` is set in `a`. -/
def contains (a b : ControlFlags) : Bool := a.bits &&& b.bits == b.bits

/-- Some flag is set in both. -/
def intersects (a b : ControlFlags) : Bool := a.bits &&& b.bits != 0

/-- One of the modes is on in which accesses go straight to memory. -/
def bypassed (a : ControlFlags) : Bool := a.intersects (kernelMode ||| debugMode ||| bypass)

/-- The flags `now` with the mask flag put back to what it was in `saved`. -/
def unmask (now saved : ControlFlags) : ControlFlags := (now &&& ~~~mask) ||| (saved &&& mask)

def text (a : ControlFlags) : String := Text.hex a.bits.toNat

end ControlFlags

end StoreBuffer
