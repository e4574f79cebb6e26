import StoreBuffer.Config.Text
import StoreBuffer.Machine.Operations

/-! # Embeddings

A guest program drives the simulator through entry points and is called back by it. At most one
session exists at a time. It is guarded by a lock, which an entry point holds while it works on the
session and has given up again by the time it reports a fault, so that the guest may call entry
points from its fault handler. -/

namespace StoreBuffer

/-- A guest: memory, choices, flags and objects, each reached by a call that may change the guest's
state. Its choices are not trusted to be in range. -/
class Guest (κ : Type) extends Memory κ where
  choose : Nat → κ → Nat × κ
  flags : κ → ControlFlags
  setFlags : ControlFlags → κ → κ
  thread : κ → ThreadId
  objectAt : Addr → κ → Option Region × κ

/-- A guest is a host once its choices are brought down to the last branch. -/
instance {κ : Type} [Guest κ] : Host κ where
  choose n g :=
    let r := Guest.choose n g
    (min r.1 (n - 1), r.2)
  flags := Guest.flags
  setFlags := Guest.setFlags
  thread := Guest.thread
  objectAt := Guest.objectAt
  choose_lt n g hn := by
    show min _ _ < n
    omega

/-- A guest with the simulator it drives. -/
structure Embedding (κ : Type) where
  guest : κ
  session : Option Session := none
  /-- An entry point is at work on the session. -/
  locked : Bool := false
  /-- Events, latest first. -/
  log : List Event := []

/-- A guest that can be told about faults. It is given the whole embedding and may call entry
points. -/
class FaultHandler (κ : Type) where
  onFault : FaultKind → String → Embedding κ → Embedding κ

namespace Embedding

variable {κ : Type}

def note (e : Event) (p : Embedding κ) : Embedding κ := { p with log := e :: p.log }

def lock (p : Embedding κ) : Embedding κ := { p with locked := true }

def unlock (p : Embedding κ) : Embedding κ := { p with locked := false }

/-- The guest's session as a machine that works on the guest. -/
def machine (s : Session) (p : Embedding κ) : Machine κ := { s with host := p.guest, log := p.log }

/-- The embedding after a machine has worked on its guest. -/
def resume (m : Machine κ) (p : Embedding κ) : Embedding κ :=
  { p with guest := m.host, session := some m.toSession, log := m.log }

/-- Works on the session under the lock. Without a session nothing is done but a warning. -/
def enter {α : Type} (entry : EntryPoint) (f : Machine κ → α × Machine κ) (p : Embedding κ) :
    Option α × Embedding κ :=
  match p.session with
  | none => (none, (p.lock.note (.notStarted entry)).unlock)
  | some s =>
    let r := f (p.lock.machine s)
    (some r.1, (p.lock.resume r.2).unlock)

/-- Calls the guest's fault handler. The message is handed over without null characters. -/
def deliver [FaultHandler κ] (kind : FaultKind) (message : String) (p : Embedding κ) : Embedding κ :=
  FaultHandler.onFault kind (message.map fun c => if c = '\x00' then ' ' else c) p

/-- Tells the log and the guest about a fault. -/
def report [FaultHandler κ] (entry : EntryPoint) (f : Fault) (p : Embedding κ) : Embedding κ :=
  (p.note (.faultReported entry f)).deliver f.kind f.message

/-- Works on the session and reports the fault, if there is one. -/
def run [FaultHandler κ] {α : Type} (entry : EntryPoint)
    (f : Machine κ → Except Fault α × Machine κ) (p : Embedding κ) : Option α × Embedding κ :=
  match p.enter entry f with
  | (none, p) => (none, p)
  | (some (.ok a), p) => (some a, p)
  | (some (.error e), p) => (none, p.report entry e)

end Embedding

end StoreBuffer
