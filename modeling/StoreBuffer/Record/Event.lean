import StoreBuffer.Access.Thread
import StoreBuffer.Config.Basic
import StoreBuffer.Pending.Line

/-! # Logged events

What the simulator tells its log. An event has a level, a message and named fields; the three are
functions of what happened. -/

namespace StoreBuffer

/-- Levels from the most to the least urgent. -/
inductive Level where
  | warn | info | debug | trace
deriving DecidableEq, Inhabited, Repr

namespace Level

def text : Level → String
  | warn => "WARN" | info => "INFO" | debug => "DEBUG" | trace => "TRACE"

def rank : Level → Nat
  | warn => 0 | info => 1 | debug => 2 | trace => 3

/-- A log that goes down to `limit` shows events of level `l`. -/
def shownAt (l limit : Level) : Bool := decide (l.rank ≤ limit.rank)

end Level

/-- The calls a guest makes to the simulator. -/
inductive EntryPoint where
  | store | load | fence | cas | cleanup | resize | dump | debugFence | bufferSize | minOrdering
deriving DecidableEq, Inhabited, Repr

def EntryPoint.text : EntryPoint → String
  | store => "store" | load => "load" | fence => "fence" | cas => "cas" | cleanup => "cleanup"
  | resize => "resize" | dump => "dump" | debugFence => "debug_fence"
  | bufferSize => "buffer_size" | minOrdering => "min_ordering"

inductive Event where
  | storeIssued (t : ThreadId) (loc : Location) (value : UInt64) (order : Order)
  | loadDone (t : ThreadId) (loc : Location) (order : Order) (value : UInt64)
  | fenceIssued (t : ThreadId) (order : Order)
  | casFailed (t : ThreadId) (a : Addr) (expected observed : UInt64) (order : Order)
  | casFailedSpuriously (t : ThreadId) (a : Addr) (observed : UInt64)
  | casDone (t : ThreadId) (a : Addr) (expected value : UInt64) (order : Order)
  | cleanedUp (t : ThreadId) (object : Region) (dropped : Nat)
  | resized (object : Region) (newSize : UInt64) (dropped : Nat)
  | dumped (text : String)
  | pushed (t : ThreadId) (line : Line)
  | evicted (t : ThreadId) (line : Line)
  | flushed (t : ThreadId) (lines : Nat)
  | partlyFlushed (t : ThreadId) (upTo : Nat) (loc : Location) (dropped : Nat)
  | rangeDiscarded (range : Region) (count : Nat)
  | visibilityChosen (t : ThreadId) (loc : Location) (total choice : Nat)
  | visibilityResolved (t : ThreadId) (a : Addr) (candidates : Nat) (source : ThreadId)
  | hostMissing
  | configRejected (error : String)
  | sessionStarted (config : Config)
  | sessionReplaced
  | sessionEnded
  | notStarted (entry : EntryPoint)
  | faultReported (entry : EntryPoint) (fault : Fault)

namespace Event

def level : Event → Level
  | storeIssued .. | loadDone .. | fenceIssued .. | casFailed .. | casFailedSpuriously ..
  | casDone .. | sessionStarted _ | sessionEnded => .info
  | cleanedUp .. | resized .. | dumped _ | evicted .. | flushed .. | partlyFlushed ..
  | rangeDiscarded .. | visibilityResolved .. => .debug
  | pushed .. | visibilityChosen .. => .trace
  | hostMissing | configRejected _ | sessionReplaced | notStarted _ | faultReported .. => .warn

def message : Event → String
  | storeIssued .. => "store"
  | loadDone .. => "load"
  | fenceIssued .. => "fence"
  | casFailed .. => "cas failed"
  | casFailedSpuriously .. => "cas failed spuriously"
  | casDone .. => "cas"
  | cleanedUp .. => "cleanup"
  | resized .. => "resize"
  | dumped text => text
  | pushed .. => "push"
  | evicted .. => "evict"
  | flushed .. => "flush"
  | partlyFlushed .. => "partial flush"
  | rangeDiscarded .. => "evict range"
  | visibilityChosen .. => "visibility choice"
  | visibilityResolved .. => "visibility resolved"
  | hostMissing => "weakmem_init called without a host vtable"
  | configRejected _ => "rejecting weakmem configuration"
  | sessionStarted _ => "weakmem initialised"
  | sessionReplaced => "weakmem initialised twice; previous buffers discarded"
  | sessionEnded => "weakmem torn down"
  | notStarted _ => "weakmem operation before initialisation"
  | faultReported .. => "reporting fault to host"

/-- A field and its text. -/
structure Field where
  name : String
  text : String

/-- The fields in the order in which the log lists them. -/
def fields : Event → List Field
  | storeIssued t loc value order =>
    [⟨"thread", t.text⟩, ⟨"addr", loc.addr.text⟩, ⟨"value", toString value.toNat⟩,
     ⟨"bitwidth", toString loc.width⟩, ⟨"order", order.text⟩]
  | loadDone t loc order value =>
    [⟨"thread", t.text⟩, ⟨"addr", loc.addr.text⟩, ⟨"bitwidth", toString loc.width⟩,
     ⟨"order", order.text⟩, ⟨"value", toString value.toNat⟩]
  | fenceIssued t order => [⟨"thread", t.text⟩, ⟨"order", order.text⟩]
  | casFailed t a expected observed order =>
    [⟨"thread", t.text⟩, ⟨"addr", a.text⟩, ⟨"expected", toString expected.toNat⟩,
     ⟨"observed", toString observed.toNat⟩, ⟨"order_fail", order.text⟩]
  | casFailedSpuriously t a observed =>
    [⟨"thread", t.text⟩, ⟨"addr", a.text⟩, ⟨"observed", toString observed.toNat⟩]
  | casDone t a expected value order =>
    [⟨"thread", t.text⟩, ⟨"addr", a.text⟩, ⟨"expected", toString expected.toNat⟩,
     ⟨"value", toString value.toNat⟩, ⟨"order_succ", order.text⟩]
  | cleanedUp t object dropped =>
    [⟨"thread", t.text⟩, ⟨"base", object.base.text⟩, ⟨"size", toString object.size.toNat⟩,
     ⟨"dropped", toString dropped⟩]
  | resized object newSize dropped =>
    [⟨"base", object.base.text⟩, ⟨"size", toString object.size.toNat⟩,
     ⟨"newsize", toString newSize.toNat⟩, ⟨"dropped", toString dropped⟩]
  | pushed t line => [⟨"thread", t.text⟩, ⟨"line", line.text⟩]
  | evicted t line => [⟨"thread", t.text⟩, ⟨"line", line.text⟩]
  | flushed t lines => [⟨"thread", t.text⟩, ⟨"lines", toString lines⟩]
  | partlyFlushed t upTo loc dropped =>
    [⟨"thread", t.text⟩, ⟨"up_to", toString upTo⟩, ⟨"addr", loc.addr.text⟩,
     ⟨"bitwidth", toString loc.width⟩, ⟨"dropped", toString dropped⟩]
  | rangeDiscarded range count =>
    [⟨"base", range.base.text⟩, ⟨"size", toString range.size.toNat⟩, ⟨"count", toString count⟩]
  | visibilityChosen t loc total choice =>
    [⟨"thread", t.text⟩, ⟨"addr", loc.addr.text⟩, ⟨"bitwidth", toString loc.width⟩,
     ⟨"total", toString total⟩, ⟨"choice", toString choice⟩]
  | visibilityResolved t a candidates source =>
    [⟨"thread", t.text⟩, ⟨"addr", a.text⟩, ⟨"candidates", toString candidates⟩,
     ⟨"source", source.text⟩]
  | configRejected error => [⟨"err", error⟩]
  | sessionStarted config =>
    [⟨"capacity", toString config.capacity⟩, ⟨"min_ordering", config.minOrder.text⟩]
  | notStarted entry => [⟨"op", "\"" ++ entry.text ++ "\""⟩]
  | faultReported entry fault =>
    [⟨"op", "\"" ++ entry.text ++ "\""⟩, ⟨"fault", fault.message⟩]
  | dumped _ | hostMissing | sessionReplaced | sessionEnded => []

end Event

end StoreBuffer
