import StoreBuffer.Config.Basic
import StoreBuffer.Json.Record
import StoreBuffer.Text.Utf8

/-! # Configuration texts

A configuration is a record of three sections, each with one entry. -/

namespace StoreBuffer.Config

/-- Capacities are 64-bit words, even though `validate` accepts small ones only. -/
def greatestWord : Nat := UInt64.size - 1

def greatestByte : Nat := UInt8.size - 1

def general : List (Json.Member Config) :=
  [⟨"trace_operations", fun c => return { c with traceOperations := ← Json.bool }⟩]

def buffer : List (Json.Member Config) :=
  [⟨"capacity", fun c => return { c with capacity := ← Json.natUpTo greatestWord }⟩]

def ordering : List (Json.Member Config) :=
  [⟨"min_ordering", fun c => return { c with minOrdering := ← Json.natUpTo greatestByte }⟩]

def sections : List (Json.Member Config) :=
  [⟨"general", Json.record general⟩, ⟨"buffer", Json.record buffer⟩,
   ⟨"ordering", Json.record ordering⟩]

/-- The configuration that a UTF-8 text describes, if it is a valid one. -/
def ofText (text : Json.Bytes) : Except ConfigError Config :=
  match Json.document (Json.record sections {}) text with
  | .error m => .error (.malformed m)
  | .ok c => c.validate

/-- The configuration in a file with the given bytes, or in a file that does not exist. -/
def ofFile : Option Json.Bytes → Except ConfigError Config
  | none => .error (.unreadable .missing)
  | some bytes =>
    if (Text.utf8Defect? bytes).isSome then .error (.unreadable .notUtf8) else ofText bytes

end StoreBuffer.Config
