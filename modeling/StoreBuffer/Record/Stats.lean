import StoreBuffer.Text.Numeral

/-! # Operation counters -/

namespace StoreBuffer

/-- How often each thing has happened since the machine started. -/
structure Stats where
  storesBuffered : Nat := 0
  storesDirect : Nat := 0
  loads : Nat := 0
  loadsForwarded : Nat := 0
  evictions : Nat := 0
  fullFlushes : Nat := 0
  partialFlushes : Nat := 0
  choicePoints : Nat := 0
  fencesBuffered : Nat := 0
  casValueFailures : Nat := 0
  casSpuriousFailures : Nat := 0
  linesFreed : Nat := 0
deriving DecidableEq, Inhabited, Repr

namespace Stats

/-- A counter with its key in the machine-readable form and its label in the report. -/
structure Row where
  key : String
  label : String
  count : Nat

/-- The counters in the order in which both forms list them. -/
def rows (s : Stats) : List Row :=
  [⟨"stores_buffered", "stores buffered", s.storesBuffered⟩,
   ⟨"stores_direct", "stores direct", s.storesDirect⟩,
   ⟨"loads", "loads", s.loads⟩,
   ⟨"loads_forwarded", "loads forwarded", s.loadsForwarded⟩,
   ⟨"evictions", "evictions", s.evictions⟩,
   ⟨"full_flushes", "full flushes", s.fullFlushes⟩,
   ⟨"partial_flushes", "partial flushes", s.partialFlushes⟩,
   ⟨"choice_points", "choice points", s.choicePoints⟩,
   ⟨"fences_buffered", "fences buffered", s.fencesBuffered⟩,
   ⟨"cas_value_failures", "cas value failures", s.casValueFailures⟩,
   ⟨"cas_spurious_failures", "cas spurious fails", s.casSpuriousFailures⟩,
   ⟨"lines_evicted_by_free", "lines freed", s.linesFreed⟩]

def counts (s : Stats) : List Nat := s.rows.map (·.count)

def Row.text (r : Row) : String :=
  "  " ++ Text.alignLeft 20 r.label ++ Text.alignRight 10 (toString r.count)

/-- A heading and one line for each counter. -/
def text (s : Stats) : String := "\n".intercalate ("weakmem statistics" :: s.rows.map Row.text)

/-- The counters as one JSON object without blanks. -/
def json (s : Stats) : String :=
  "\x7b" ++ ",".intercalate (s.rows.map fun r => "\"" ++ r.key ++ "\":" ++ toString r.count) ++
    "\x7d"

end Stats

end StoreBuffer
