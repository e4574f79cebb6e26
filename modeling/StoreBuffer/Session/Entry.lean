import StoreBuffer.Session.Embedding

/-! # Entry points

What a guest can call. Orders come as numbers of which the low seven bits count. An entry point that
faults, or finds no session, answers with a neutral value. -/

namespace StoreBuffer

/-- How a session was refused. -/
inductive Refusal where
  /-- The guest handed over no callbacks. -/
  | noHost
  | badConfig
deriving DecidableEq, Inhabited, Repr

/-- The number that stands for the outcome of starting a session. -/
def Refusal.code : Option Refusal → Int
  | none => 0
  | some .noHost => -1
  | some .badConfig => -2

namespace Config

/-- The configuration in a text that ends at its first zero byte, or the reason why there is none. -/
def ofTerminated (bytes : Json.Bytes) : Except String Config :=
  let text := bytes.takeWhile (· ≠ 0)
  match Text.utf8Defect? text with
  | some d => .error d.message
  | none =>
    match ofText text with
    | .error e => .error e.message
    | .ok c => .ok c

end Config

namespace Embedding

variable {κ : Type}

/-- Puts a fresh session in the place of the one there may be. -/
def install (config : Config) (p : Embedding κ) : Embedding κ :=
  let p' := { p with session := some { config } }
  if p.session.isSome then p'.note .sessionReplaced else p'

/-- Starts a session. A refused one leaves everything as it was. -/
def init (hasHost : Bool) (text : Option Json.Bytes) (p : Embedding κ) :
    Option Refusal × Embedding κ :=
  if hasHost then
    match text.elim (Except.ok {}) Config.ofTerminated with
    | .error reason => (some .badConfig, p.note (.configRejected reason))
    | .ok config => (none, (p.note (.sessionStarted config)).install config)
  else (some .noHost, p.note .hostMissing)

/-- Ends the session; what is buffered is lost. -/
def teardown (p : Embedding κ) : Embedding κ :=
  if p.session.isSome then { p with session := none }.note .sessionEnded else p

/-- The capacity of buffers, -1 without a session. -/
def bufferSize (p : Embedding κ) : Int × Embedding κ :=
  let r := p.enter .bufferSize fun m => (m.capacity, m)
  (r.1.elim (-1) Int.ofNat, r.2)

/-- The flags of the least order, -1 without a session. -/
def minOrdering (p : Embedding κ) : Int × Embedding κ :=
  let r := p.enter .minOrdering fun m => (m.minOrder.toNat, m)
  (r.1.elim (-1) Int.ofNat, r.2)

section
variable [Guest κ]

def fence (order : Nat) (p : Embedding κ) : Embedding κ :=
  (p.enter .fence fun m => ((), m.fence (.ofNat order))).2

def debugFence (p : Embedding κ) : Embedding κ :=
  (p.enter .debugFence fun m => ((), m.debugFence)).2

/-- The report, if there is a session. -/
def dump (p : Embedding κ) : Option String × Embedding κ := p.enter .dump Machine.dump

variable [FaultHandler κ]

def store (loc : Location) (value : UInt64) (order : Nat) (p : Embedding κ) : Embedding κ :=
  (p.run .store (·.store loc value (.ofNat order))).2

def load (loc : Location) (order : Nat) (p : Embedding κ) : UInt64 × Embedding κ :=
  let r := p.run .load (·.load loc (.ofNat order))
  (r.1.getD 0, r.2)

def cas (loc : Location) (expected value : UInt64) (success failure : Nat) (p : Embedding κ) :
    (UInt64 × Bool) × Embedding κ :=
  let r := p.run .cas (·.cas loc expected value (.ofNat success) (.ofNat failure))
  (r.1.getD (0, false), r.2)

/-- Reports a fault that was found before the session was looked at; without a session nothing
happens. -/
def refuse (entry : EntryPoint) (f : Fault) (p : Embedding κ) : Embedding κ :=
  if p.session.isSome then p.report entry f else p

/-- Drops the running thread's stores into `count` objects. -/
def cleanup (count : Int) (ptrs : Option (List Addr)) (p : Embedding κ) : Embedding κ :=
  if count < 0 then p.refuse .cleanup (.invalidCleanupCount count)
  else if count = 0 then p
  else match ptrs with
    | none => p.refuse .cleanup .nullAddress
    | some ptrs => (p.run .cleanup (·.cleanup (ptrs.take count.toNat))).2

def resize (ptr : Addr) (newSize : UInt64) (p : Embedding κ) : Embedding κ :=
  (p.run .resize (·.resize ptr newSize)).2

end

end Embedding

end StoreBuffer
