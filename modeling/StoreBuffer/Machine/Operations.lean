import StoreBuffer.Machine.Push

/-! # Operations of the simulated program

Loads, stores, fences and compare-and-swap of the running thread, and the two notices that memory
is about to be released. Each works with the mask flag raised. A requested order is united with the
least order of the configuration. -/

namespace StoreBuffer

/-- One operation of the simulated program. -/
inductive Op where
  | store (loc : Location) (value : UInt64) (order : Order)
  | load (loc : Location) (order : Order)
  | fence (order : Order)
  | cas (loc : Location) (expected value : UInt64) (success failure : Order)
  | cleanup (ptrs : List Addr)
  | resize (ptr : Addr) (newSize : UInt64)
  | debugFence
  | dump
deriving DecidableEq, Repr

/-- What an operation answers. -/
inductive Answer where
  | done
  | value (v : UInt64)
  | swap (v : UInt64) (success : Bool)
  | text (s : String)
deriving DecidableEq, Repr

/-- An answer or the fault that stands in for it. -/
abbrev Outcome := Except Fault Answer

namespace Machine

variable {σ : Type} [Host σ]

/-- Writes to memory past all buffers. -/
def storeDirect (w : Write) (m : Machine σ) : Machine σ :=
  (m.withHost (Memory.store w m.host)).count fun s => { s with storesDirect := s.storesDirect + 1 }

/-- A store. A sequentially consistent one writes out the thread's buffer and goes straight to
memory. -/
def storeAs (loc : Location) (value : UInt64) (order : Order) (bypassed : Bool) (m : Machine σ) :
    Except Fault Unit × Machine σ :=
  match loc.check with
  | .error f => (.error f, m)
  | .ok () =>
    if bypassed then (.ok (), m.storeDirect ⟨loc, value⟩)
    else if order.isSeqCst then (.ok (), (m.flush m.thread).storeDirect ⟨loc, value⟩)
    else m.push m.thread (.store loc value order)

/-- A load. Stores of other threads are resolved before memory is read. -/
def loadAs (loc : Location) (bypassed : Bool) (m : Machine σ) : Except Fault UInt64 × Machine σ :=
  match loc.check with
  | .error f => (.error f, m)
  | .ok () =>
    let m := m.count fun s => { s with loads := s.loads + 1 }
    if bypassed then
      let r := Memory.load loc m.host
      (.ok r.1, m.withHost r.2)
    else
      let t := m.thread
      let m := if m.table.hasForeign t then m.resolve t loc false else m
      let r := Memory.load loc m.host
      let f := (m.withHost r.2).forward t loc r.1
      (.ok f.1, f.2)

def store (loc : Location) (value : UInt64) (order : Order) (m : Machine σ) :
    Except Fault Unit × Machine σ :=
  let order := order ||| m.minOrder
  (m.noteOperation (.storeIssued m.thread loc value order)).masked (storeAs loc value order)

def load (loc : Location) (order : Order) (m : Machine σ) : Except Fault UInt64 × Machine σ :=
  let order := order ||| m.minOrder
  m.masked fun bypassed m =>
    match m.loadAs loc bypassed with
    | (.error f, m) => (.error f, m)
    | (.ok value, m) => (.ok value, m.noteOperation (.loadDone m.thread loc order value))

/-- A sequentially consistent fence writes out the thread's buffer, a release fence leaves a marker,
and a weaker one does nothing. -/
def fence (order : Order) (m : Machine σ) : Machine σ :=
  let order := order ||| m.minOrder
  (m.masked fun bypassed m =>
    if bypassed then ((), m)
    else
      let t := m.thread
      let m := m.noteOperation (.fenceIssued t order)
      if order.isSeqCst then ((), m.flush t)
      else if order.atLeast .release then ((), (m.pushFence t (.fence order)).2)
      else ((), m)).2

/-- Second half of a compare-and-swap, once the values have been found equal: a weak one may still
fail if the host so chooses. -/
def swapAs (loc : Location) (expected value observed : UInt64) (order : Order) (bypassed : Bool)
    (m : Machine σ) : Except Fault (UInt64 × Bool) × Machine σ :=
  let t := m.thread
  let weak := !bypassed && order.isWeakCas
  let choice := if weak then Host.choose 2 m.host else (0, m.host)
  let m := m.withHost choice.2
  if choice.1 = 1 then
    let m := m.count fun s => { s with casSpuriousFailures := s.casSpuriousFailures + 1 }
    (.ok (observed, false), m.noteOperation (.casFailedSpuriously t loc.addr observed))
  else
    match m.storeAs loc value (order ||| .atomicOp) bypassed with
    | (.error f, m) => (.error f, m)
    | (.ok (), m) =>
      (.ok (Width.truncate loc.width value, true),
        m.noteOperation (.casDone t loc.addr expected value order))

/-- Stores `value` if the location holds `expected`. Answers the new value or the one observed, and
whether the swap happened. -/
def cas (loc : Location) (expected value : UInt64) (success failure : Order) (m : Machine σ) :
    Except Fault (UInt64 × Bool) × Machine σ :=
  let success := success ||| m.minOrder
  let failure := failure ||| m.minOrder
  m.masked fun bypassed m =>
    match m.loadAs loc bypassed with
    | (.error f, m) => (.error f, m)
    | (.ok observed, m) =>
      if observed = Width.truncate loc.width expected then
        m.swapAs loc expected value observed success bypassed
      else
        let m := m.count fun s => { s with casValueFailures := s.casValueFailures + 1 }
        (.ok (observed, false),
          m.noteOperation (.casFailed m.thread loc.addr expected observed failure))

/-- Drops the stores of `t` into the objects that the pointers point into, up to the first pointer
to no object. -/
def dropObjects (t : ThreadId) : List Addr → Machine σ → Except Fault Unit × Machine σ
  | [], m => (.ok (), m)
  | ptr :: rest, m =>
    let found := Host.objectAt ptr m.host
    let m := m.withHost found.2
    match found.1 with
    | none => (.error (.unknownObject ptr), m)
    | some object =>
      let r := m.discardRange (some t) object
      dropObjects t rest (r.2.note (.cleanedUp t object r.1))

/-- Drops the running thread's stores into objects about to be freed. Null pointers are skipped. -/
def cleanup (ptrs : List Addr) (m : Machine σ) : Except Fault Unit × Machine σ :=
  m.masked fun _ m => m.dropObjects m.thread (ptrs.filter (!·.isNull))

/-- Drops every thread's stores behind the new end of an object about to shrink. -/
def resize (ptr : Addr) (newSize : UInt64) (m : Machine σ) : Except Fault Unit × Machine σ :=
  if ptr.isNull then (.ok (), m)
  else m.masked fun _ m =>
    let found := Host.objectAt ptr m.host
    let m := m.withHost found.2
    match found.1 with
    | none => (.error (.unknownObject ptr), m)
    | some object =>
      if object.size ≤ newSize then (.ok (), m)
      else
        let r := m.discardRange none ⟨object.base.offset newSize, object.size - newSize⟩
        (.ok (), r.2.note (.resized object newSize r.1))

/-- Writes out the running thread's buffer, whatever the control flags. -/
def debugFence (m : Machine σ) : Machine σ := (m.masked fun _ m => ((), m.flush m.thread)).2

/-- The buffers and the counters as text. -/
def report (m : Machine σ) : String := m.table.text ++ "\n" ++ m.stats.text

/-- Reports, then writes out the running thread's buffer. -/
def dump (m : Machine σ) : String × Machine σ := (m.report, (m.note (.dumped m.report)).debugFence)

/-- Performs an operation. -/
def perform (op : Op) (m : Machine σ) : Outcome × Machine σ :=
  match op with
  | .store loc value order =>
    let r := m.store loc value order
    (r.1.map fun _ => .done, r.2)
  | .load loc order =>
    let r := m.load loc order
    (r.1.map .value, r.2)
  | .fence order => (.ok .done, m.fence order)
  | .cas loc expected value success failure =>
    let r := m.cas loc expected value success failure
    (r.1.map fun a => .swap a.1 a.2, r.2)
  | .cleanup ptrs =>
    let r := m.cleanup ptrs
    (r.1.map fun _ => .done, r.2)
  | .resize ptr newSize =>
    let r := m.resize ptr newSize
    (r.1.map fun _ => .done, r.2)
  | .debugFence => (.ok .done, m.debugFence)
  | .dump =>
    let r := m.dump
    (.ok (.text r.1), r.2)

end Machine

end StoreBuffer
