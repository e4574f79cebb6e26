import StoreBuffer.Host.Recorded
import StoreBuffer.Memory.Arena
import StoreBuffer.Memory.Objects
import StoreBuffer.Session.Entry

/-! # The scripted guest

A guest with a few pages of memory and a list of answers to choices, which it gives as they are,
in range or not. It writes down the calls it gets, and asks for the buffer size whenever it is told
about a fault. -/

namespace StoreBuffer

structure ScriptedGuest where
  memory : Arena := Arena.zeros 4096
  objects : Objects := {}
  flags : ControlFlags := .none
  thread : ThreadId := ⟨0⟩
  /-- Answers not given yet. -/
  choices : List Nat := []
  /-- Calls, latest first. -/
  calls : List Call := []
deriving Inhabited

namespace ScriptedGuest

/-- Where memory starts. -/
def base : Addr := ⟨0x20000000⟩

def note (g : ScriptedGuest) (c : Call) : ScriptedGuest := { g with calls := c :: g.calls }

def read (size : AccessSize) (a : Addr) (g : ScriptedGuest) : UInt64 × ScriptedGuest :=
  (Word.ofBytes ((g.memory.read? (a.val - base.val).toNat size.bytes).getD []), g)

def write (size : AccessSize) (a : Addr) (value : UInt64) (g : ScriptedGuest) : ScriptedGuest :=
  match g.memory.write? (a.val - base.val).toNat (Word.toBytes size.bytes value) with
  | some memory => { g with memory }
  | none => g

def choose (n : Nat) (g : ScriptedGuest) : Nat × ScriptedGuest :=
  let answer := g.choices.head?.getD 0
  (answer, { g with choices := g.choices.tail }.note (.choose n answer))

instance : Guest ScriptedGuest where
  read := read
  write := write
  choose := choose
  flags := flags
  setFlags f g := { g with flags := f }.note (.setFlags f)
  thread := thread
  objectAt a g := (g.objects.containing? a, g)

instance : FaultHandler ScriptedGuest where
  onFault kind message p :=
    let r := p.bufferSize
    { r.2 with guest := r.2.guest.note (.fault kind s!"{r.1} {message}") }

end ScriptedGuest

end StoreBuffer
