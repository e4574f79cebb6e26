import StoreBuffer.Machine.Basic

/-! # Draining and dropping buffers

Three ways for lines to leave a buffer without being pushed out: `flush` writes all of them,
`flushPart` makes a prefix visible, and `discardRange` discards the stores into a region unwritten.
What leaves frees its numbers. -/

namespace StoreBuffer

namespace Buffer

/-- What becomes of a buffer of which a prefix is made visible. -/
structure Drained where
  /-- The writes to bring to memory, oldest first. -/
  writes : List Write
  dropped : List Line
  kept : Buffer

/-- Commits the first `n` lines. Those that touch `r` are dropped, the others stay, and fences that
come to stand in front go too. -/
def drain (b : Buffer) (n : Nat) (r : Region) : Drained :=
  let front := (b.lines.take n).map Line.commit
  let rest : Buffer := ⟨front.filter (!·.touches r) ++ b.lines.drop n⟩
  { writes := (b.lines.take n).filterMap Line.pendingWrite?
    dropped := front.filter (·.touches r) ++ rest.dropLeadingFences.1
    kept := rest.dropLeadingFences.2 }

/-- What becomes of a buffer from which a region is taken away. -/
structure Evicted where
  stores : List Line
  fences : List Line
  kept : Buffer

/-- Drops the stores that start in `range`, and fences that come to stand in front. -/
def evict (b : Buffer) (range : Region) : Evicted :=
  let split := b.retain fun l => !l.addr?.any range.contains
  { stores := split.1
    fences := split.2.dropLeadingFences.1
    kept := split.2.dropLeadingFences.2 }

end Buffer

namespace Machine

variable {σ : Type}

/-- Writes every store of a thread in program order and empties its buffer. -/
def flush [Memory σ] (t : ThreadId) (m : Machine σ) : Machine σ :=
  match m.table.buffer? t with
  | none => m
  | some b =>
    { m with
      host := Memory.storeAll (b.lines.filterMap Line.pendingWrite?) m.host
      table := ((m.table.modify t fun _ => {}).retire b.lines).prune
      stats := { m.stats with fullFlushes := m.stats.fullFlushes + 1 }
      log := .flushed t b.size :: m.log }

/-- Makes the lines of a thread up to position `upTo` visible. The slot stays even if it has run
empty. -/
def flushPart [Memory σ] (t : ThreadId) (upTo : Nat) (loc : Location) (m : Machine σ) :
    Machine σ :=
  match m.table.buffer? t with
  | none => m
  | some b =>
    let d := b.drain (upTo + 1) loc.region
    { m with
      host := Memory.storeAll d.writes m.host
      table := (m.table.modify t fun _ => d.kept).retire d.dropped
      stats := { m.stats with partialFlushes := m.stats.partialFlushes + 1 }
      log := .partlyFlushed t upTo loc d.dropped.length :: m.log }

/-- Discards the stores that start in `range`, of one thread or of all, and counts them. -/
def discardRange (only : Option ThreadId) (range : Region) (m : Machine σ) : Nat × Machine σ :=
  let searched := fun s : Slot => only.all (· = s.owner)
  let evicted := (m.table.slots.filter searched).map (·.buffer.evict range)
  let count := (evicted.flatMap (·.stores)).length
  let kept : Table := ⟨m.table.slots.map fun s =>
    if searched s then { s with buffer := (s.buffer.evict range).kept } else s⟩
  let m := if 0 < count then m.note (.rangeDiscarded range count) else m
  (count,
    { m with
      table := (kept.retire (evicted.flatMap fun e => e.stores ++ e.fences)).prune
      stats := { m.stats with linesFreed := m.stats.linesFreed + count } })

end Machine

end StoreBuffer
