import StoreBuffer.Memory.Location

/-! # Faults

What can be wrong with an operation of the simulated program. Validation faults are the program's
own; consistency faults say that the atomic accesses in flight cannot be ordered. -/

namespace StoreBuffer

/-- The two severities a host is told. -/
inductive FaultKind where
  | validation | consistency
deriving DecidableEq, Inhabited, Repr

def FaultKind.code : FaultKind → Nat
  | .validation => 1
  | .consistency => 2

/-- The two orders in which buffered lines are numbered. -/
inductive Counter where
  /-- All sequentially consistent lines. -/
  | sequential
  /-- The atomic lines of one location. -/
  | atomic
deriving DecidableEq, Inhabited, Repr

def Counter.text : Counter → String
  | .sequential => "sc_seq"
  | .atomic => "at_seq"

inductive Fault where
  | nullAddress
  | invalidWidth (width : Nat)
  | invalidCleanupCount (count : Int)
  | unknownObject (ptr : Addr)
  | overlappingAtomics (loc other : Location)
  | counterOverflow (counter : Counter)
deriving DecidableEq, Inhabited, Repr

namespace Fault

def kind : Fault → FaultKind
  | overlappingAtomics .. | counterOverflow _ => .consistency
  | nullAddress | invalidWidth _ | invalidCleanupCount _ | unknownObject _ => .validation

def message : Fault → String
  | nullAddress => "weakmem: access through a null address"
  | invalidWidth width => s!"weakmem: invalid bit width {width} (expected 1..=64)"
  | invalidCleanupCount count => s!"weakmem: invalid cleanup count {count}"
  | unknownObject ptr => s!"weakmem: {ptr.text} does not point into a live object"
  | overlappingAtomics loc other =>
    s!"weakmem: atomic access to {loc.addr.text}/{loc.width} " ++
      s!"overlaps atomic access to {other.addr.text}/{other.width}"
  | counterOverflow counter => s!"weakmem: sequence counter overflow at {counter.text}"

end Fault

namespace Width

/-- The width, if an access may have it. -/
def check (width : Nat) : Except Fault Nat :=
  if Valid width then .ok width else .error (.invalidWidth width)

end Width

namespace Location

/-- The null address is refused before the width is looked at. -/
def check (l : Location) : Except Fault Unit :=
  if l.addr.isNull then .error .nullAddress else (Width.check l.width).map fun _ => ()

/-- What `check` accepts. -/
def Valid (l : Location) : Prop := l.addr ≠ Addr.null ∧ Width.Valid l.width

theorem check_eq_ok_iff (l : Location) : l.check = .ok () ↔ l.Valid := by
  by_cases h : l.addr = Addr.null <;> by_cases hw : Width.Valid l.width <;>
    simp [check, Width.check, Except.map, Valid, Addr.isNull, h, hw]

theorem valid_of_check {l : Location} (h : ∀ f, l.check ≠ .error f) : l.Valid := by
  cases hcheck : l.check with
  | error f => exact absurd hcheck (h f)
  | ok u => exact (check_eq_ok_iff l).mp hcheck

theorem not_valid_of_check {l : Location} {f : Fault} (h : l.check = .error f) : ¬ l.Valid := by
  intro hvalid
  rw [(check_eq_ok_iff l).mpr hvalid] at h
  contradiction

end Location

end StoreBuffer
