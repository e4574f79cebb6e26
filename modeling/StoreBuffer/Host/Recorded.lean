import StoreBuffer.Host.Basic

/-! # Recorded hosts

A host wrapped so that the calls which move data or state are written down: memory accesses, choices
and changes of the control flags. Everything else goes through unseen. -/

namespace StoreBuffer

/-- One call to a host with its outcome. -/
inductive Call where
  | read (size : AccessSize) (a : Addr) (value : UInt64)
  | write (size : AccessSize) (a : Addr) (value : UInt64)
  | choose (branches chosen : Nat)
  | setFlags (flags : ControlFlags)
  | fault (kind : FaultKind) (message : String)
deriving DecidableEq, Inhabited, Repr

def Call.text : Call → String
  | read size a value => s!"r{size.bits} {a.text} {Text.hex value.toNat}"
  | write size a value => s!"w{size.bits} {a.text} {Text.hex value.toNat}"
  | choose branches chosen => s!"choose {branches} {chosen}"
  | setFlags flags => s!"flags {flags.text}"
  | fault kind message => s!"fault {kind.code} {message}"

structure Recorded (σ : Type) where
  inner : σ
  /-- Calls, latest first. -/
  calls : List Call := []

namespace Recorded

variable {σ : Type} [Host σ]

def note (h : Recorded σ) (c : Call) : Recorded σ := { h with calls := c :: h.calls }

/-- Changes the inner host without a call. -/
def update (h : Recorded σ) (f : σ → σ) : Recorded σ := { h with inner := f h.inner }

instance : Host (Recorded σ) where
  read size a h :=
    let r := Memory.read size a h.inner
    (r.1, { h with inner := r.2 }.note (.read size a r.1))
  write size a value h :=
    (h.update (Memory.write size a value)).note (.write size a (Width.truncate size.bits value))
  choose n h :=
    let r := Host.choose n h.inner
    (r.1, { h with inner := r.2 }.note (.choose n r.1))
  flags h := Host.flags h.inner
  setFlags f h := (h.update (Host.setFlags f)).note (.setFlags f)
  thread h := Host.thread h.inner
  objectAt a h :=
    let r := Host.objectAt a h.inner
    (r.1, { h with inner := r.2 })
  choose_lt n h hn := Host.choose_lt n h.inner hn

end Recorded

end StoreBuffer
