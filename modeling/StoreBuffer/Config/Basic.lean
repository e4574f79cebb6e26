import StoreBuffer.Access.Order
import StoreBuffer.Json.Reader
import StoreBuffer.Text.Numeral

/-! # Configurations

A configuration is checked before it is used: the least order has known flags only, and the capacity
is at most `Config.greatestCapacity`. -/

namespace StoreBuffer

structure Config where
  /-- Log every operation. -/
  traceOperations : Bool := false
  /-- Stores a buffer holds before it evicts. -/
  capacity : Nat := 2
  /-- Flags added to every requested order. -/
  minOrdering : Nat := 0
deriving DecidableEq, Inhabited, Repr

/-- Why a configuration file has no text. -/
inductive Unreadable where
  | missing | notUtf8
deriving DecidableEq, Inhabited, Repr

inductive ConfigError where
  | malformed (m : Json.Malformed)
  | unreadable (u : Unreadable)
  | unknownOrderBits (bits : Nat)
  | capacityTooLarge (capacity : Nat)
deriving DecidableEq, Inhabited, Repr

namespace ConfigError

def message : ConfigError → String
  | malformed .truncated => "invalid weakmem configuration: unexpected end of text"
  | malformed .notJson => "invalid weakmem configuration: not a JSON text"
  | malformed .wrongKind => "invalid weakmem configuration: unexpected value"
  | unreadable .missing =>
    "cannot read weakmem configuration: No such file or directory (os error 2)"
  | unreadable .notUtf8 =>
    "cannot read weakmem configuration: stream did not contain valid UTF-8"
  | unknownOrderBits bits =>
    "invalid weakmem configuration: ordering.min_ordering has unknown bits: " ++ Text.hex bits
  | capacityTooLarge capacity =>
    s!"invalid weakmem configuration: buffer.capacity {capacity} is too large"

end ConfigError

namespace Config

/-- Counters of buffered lines have fifteen bits. -/
def greatestCapacity : Nat := 0x7fff

def minOrder (c : Config) : Order := Order.ofNat c.minOrdering

/-- What `validate` accepts. -/
def Valid (c : Config) : Prop := c.minOrder.toNat = c.minOrdering ∧ c.capacity ≤ greatestCapacity

/-- Unknown flags are reported before a capacity that is too large. -/
def validate (c : Config) : Except ConfigError Config :=
  if c.minOrder.toNat ≠ c.minOrdering then .error (.unknownOrderBits c.minOrdering)
  else if c.capacity ≤ greatestCapacity then .ok c
  else .error (.capacityTooLarge c.capacity)

theorem validate_eq_ok_iff (c d : Config) : c.validate = .ok d ↔ c.Valid ∧ d = c := by
  by_cases h : c.minOrder.toNat = c.minOrdering <;> by_cases hc : c.capacity ≤ greatestCapacity <;>
    simp [validate, Valid, h, hc, eq_comm]

end Config

end StoreBuffer
