import StoreBuffer.Host.Basic
import StoreBuffer.Record.Event
import StoreBuffer.Record.Stats
import StoreBuffer.Table.Numbering

/-! # Machines

A machine is a session, that is the buffers with their configuration and counters, at work on a
host. Every operation is a function from machines to machines. -/

namespace StoreBuffer

/-- What the simulator keeps between operations. -/
structure Session where
  config : Config := {}
  table : Table := {}
  stats : Stats := {}
deriving Inhabited

/-- A session with the host it works on and what it has logged. -/
structure Machine (σ : Type) extends Session where
  host : σ
  /-- Events, latest first. -/
  log : List Event := []

namespace Machine

variable {σ : Type}

/-- A machine without buffered lines. -/
def create (config : Config) (host : σ) : Machine σ := { config, host }

def minOrder (m : Machine σ) : Order := m.config.minOrder

/-- Stores a buffer holds before it evicts. -/
def capacity (m : Machine σ) : Nat := m.config.capacity

def note (e : Event) (m : Machine σ) : Machine σ := { m with log := e :: m.log }

/-- Logs an operation if the configuration asks for it. -/
def noteOperation (e : Event) (m : Machine σ) : Machine σ :=
  if m.config.traceOperations then m.note e else m

theorem noteOperation_eq {m : Machine σ} (e : Event) :
    ∃ log, m.noteOperation e = { m with log } := by
  unfold noteOperation
  split
  · exact ⟨_, rfl⟩
  · exact ⟨m.log, rfl⟩

theorem host_noteOperation {m : Machine σ} (e : Event) : (m.noteOperation e).host = m.host := by
  unfold noteOperation
  split <;> rfl

theorem table_noteOperation {m : Machine σ} (e : Event) : (m.noteOperation e).table = m.table := by
  unfold noteOperation
  split <;> rfl

def count (f : Stats → Stats) (m : Machine σ) : Machine σ := { m with stats := f m.stats }

def withHost (m : Machine σ) (h : σ) : Machine σ := { m with host := h }

def withTable (m : Machine σ) (t : Table) : Machine σ := { m with table := t }

/-- Takes the table out of the machine, for `mapTable`. -/
@[noinline] def emptied (m : Machine σ) : Machine σ := m.withTable {}

/-- Changes the table. The machine lets go of it first, so that nothing else holds the lines while
`f` runs and they can change in place. -/
def mapTable (f : Table → Table) (m : Machine σ) : Machine σ :=
  let table := m.table
  m.emptied.withTable (f table)

theorem mapTable_eq (f : Table → Table) (m : Machine σ) :
    m.mapTable f = m.withTable (f m.table) := rfl

/-- The thread that the host is running. -/
def thread [Host σ] (m : Machine σ) : ThreadId := Host.thread m.host

/-- Runs `body` with the mask flag raised; `body` learns whether the flags from before ask for
accesses to go straight to memory. -/
def masked [Host σ] {α : Type} (body : Bool → Machine σ → α × Machine σ) (m : Machine σ) :
    α × Machine σ :=
  let held := Host.hold m.host
  let r := body held.1.bypassed (m.withHost held.2)
  (r.1, r.2.withHost (Host.release held.1 r.2.host))

end Machine

end StoreBuffer
