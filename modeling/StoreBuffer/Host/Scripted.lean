import StoreBuffer.Host.Basic
import StoreBuffer.Memory.Arena
import StoreBuffer.Memory.Objects

/-! # The scripted host

A host for replaying executions. Memory is an arena at a fixed address with a heap that only grows;
choices are read off a script, clamped to the branches on offer, and past its end the first branch
is taken. Every choice made is recorded, so that the next script can be computed from the record. -/

namespace StoreBuffer

/-- A choice that was made: the branches on offer and the one taken. -/
structure ChoicePoint where
  branches : Nat
  chosen : Nat
deriving DecidableEq, Inhabited, Repr

structure Scripted where
  arena : Arena
  /-- Offset of the first byte the heap has not handed out. -/
  heapEnd : Nat := 0
  objects : Objects := {}
  flags : ControlFlags := .none
  thread : ThreadId := ⟨0⟩
  script : List Nat := []
  /-- Choices made since the script was set. -/
  trace : List ChoicePoint := []
  faults : List (FaultKind × String) := []
deriving Inhabited

namespace Scripted

/-- Where the arena starts. -/
def base : Addr := ⟨0x10000000⟩

/-- Objects start at multiples of this. -/
def alignment : Nat := 8

/-- A host with `memory` zero bytes and an empty script. -/
def create (memory : Nat) : Scripted := { arena := Arena.zeros memory }

def withScript (h : Scripted) (script : List Nat) : Scripted := { h with script, trace := [] }

def switchTo (h : Scripted) (t : ThreadId) : Scripted := { h with thread := t }

def report (h : Scripted) (kind : FaultKind) (message : String) : Scripted :=
  { h with faults := h.faults ++ [(kind, message)] }

/-- Takes the next entry of the script, no further than the last branch. -/
def choose (n : Nat) (h : Scripted) : Nat × Scripted :=
  let chosen := min (h.script[h.trace.length]?.getD 0) (n - 1)
  (chosen, { h with trace := h.trace ++ [⟨n, chosen⟩] })

/-- Offset of `len` bytes at `a`, if they lie in the arena. -/
def offset? (h : Scripted) (a : Addr) (len : Nat) : Option Nat :=
  if base.val ≤ a.val then
    let offset := (a.val - base.val).toNat
    if h.arena.covers offset len then some offset else none
  else none

def outside (h : Scripted) (a : Addr) (len : Nat) : Scripted :=
  h.report .validation s!"simulated access of {len} bytes at {a.text} is outside memory"

/-- Reads little-endian; outside memory zero is read and a fault recorded. -/
def read (size : AccessSize) (a : Addr) (h : Scripted) : UInt64 × Scripted :=
  match (h.offset? a size.bytes).bind (h.arena.read? · size.bytes) with
  | some bytes => (Word.ofBytes bytes, h)
  | none => (0, h.outside a size.bytes)

/-- Writes little-endian; outside memory nothing is written and a fault recorded. -/
def write (size : AccessSize) (a : Addr) (value : UInt64) (h : Scripted) : Scripted :=
  match (h.offset? a size.bytes).bind (h.arena.write? · (Word.toBytes size.bytes value)) with
  | some arena => { h with arena }
  | none => h.outside a size.bytes

/-- Hands out `size` zeroed bytes behind everything handed out before; an empty object takes up one
byte. -/
def allocate (h : Scripted) (size : UInt64) : Option Addr × Scripted :=
  let start := (h.heapEnd + (alignment - 1)) / alignment * alignment
  let len := max size.toNat 1
  match h.arena.zero? start len with
  | some arena =>
    let a := base.offset (UInt64.ofNat start)
    (some a, { h with arena, heapEnd := start + len, objects := h.objects.insert ⟨a, size⟩ })
  | none => (none, h)

/-- Forgets the object at `a` and returns its size. -/
def free (h : Scripted) (a : Addr) : Option UInt64 × Scripted :=
  ((h.objects.find? a).map (·.size), { h with objects := h.objects.erase a })

/-- Changes the recorded size of the object at `a`. -/
def setObjectSize (h : Scripted) (a : Addr) (size : UInt64) : Bool × Scripted :=
  match h.objects.find? a with
  | some _ => (true, { h with objects := h.objects.insert ⟨a, size⟩ })
  | none => (false, h)

instance : Host Scripted where
  read := read
  write := write
  choose := choose
  flags := flags
  setFlags f h := { h with flags := f }
  thread := thread
  objectAt a h := (h.objects.containing? a, h)
  choose_lt n h hn := by
    show min _ _ < n
    omega

end Scripted

end StoreBuffer
