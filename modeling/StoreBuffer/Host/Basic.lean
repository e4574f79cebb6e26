import StoreBuffer.Access.Fault
import StoreBuffer.Access.Thread

/-! # Hosts

The simulator runs inside a host: a model checker, or the scripted host of this library. A host
gives access to memory, answers choices, names the running thread, keeps the control flags and knows
the live objects. Every call takes the host's state and returns the new one, so a host may react to
a call in any way, except that a choice among `n` branches is one of them. -/

namespace StoreBuffer

/-- Memory that moves 1, 2, 4 or 8 bytes at a time. -/
class Memory (σ : Type) where
  read : AccessSize → Addr → σ → UInt64 × σ
  /-- Writes the low bytes of the value. -/
  write : AccessSize → Addr → UInt64 → σ → σ

namespace Memory

variable {σ : Type} [Memory σ]

/-- Reads the value at a location, cut to its width. -/
def load (loc : Location) (h : σ) : UInt64 × σ :=
  let r := read (Width.accessSize loc.width) loc.addr h
  (Width.truncate loc.width r.1, r.2)

/-- Brings a write to memory, its value cut to the width. -/
def store (w : Write) (h : σ) : σ :=
  write (Width.accessSize w.loc.width) w.loc.addr (Width.truncate w.loc.width w.value) h

/-- Brings writes to memory one after the other. -/
def storeAll (ws : List Write) (h : σ) : σ := ws.foldl (fun h w => store w h) h

theorem storeAll_append (ws vs : List Write) (h : σ) :
    storeAll (ws ++ vs) h = storeAll vs (storeAll ws h) := List.foldl_append

end Memory

class Host (σ : Type) extends Memory σ where
  /-- Picks one of `n` branches. -/
  choose : Nat → σ → Nat × σ
  flags : σ → ControlFlags
  setFlags : ControlFlags → σ → σ
  thread : σ → ThreadId
  /-- The live object that a pointer points into. -/
  objectAt : Addr → σ → Option Region × σ
  choose_lt : ∀ n h, 0 < n → (choose n h).1 < n

namespace Host

variable {σ : Type} [Host σ]

/-- Raises the mask flag and remembers the flags from before. -/
def hold (h : σ) : ControlFlags × σ := (flags h, setFlags (flags h ||| ControlFlags.mask) h)

/-- Puts the mask flag back to its remembered value and leaves the other flags alone. -/
def release (saved : ControlFlags) (h : σ) : σ := setFlags ((flags h).unmask saved) h

end Host

end StoreBuffer
