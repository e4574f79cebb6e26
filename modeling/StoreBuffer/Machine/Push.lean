import StoreBuffer.Machine.Visibility

/-! # Pushing lines

A new line goes behind the others of its thread. As long as the buffer then holds more stores than
the capacity allows, its oldest line leaves: pending stores of other threads to the same location
are resolved first, then the line is written if it is still pending. -/

namespace StoreBuffer.Machine

variable {σ : Type}

/-- The oldest line of a buffer that holds too many stores. -/
def overdue? (t : ThreadId) (m : Machine σ) : Option Line :=
  ((m.table.buffer? t).filter (m.capacity < ·.storeCount)).bind (·.oldest?)

/-- The oldest line of a thread leaves, together with fences that come to stand in front. -/
def dropOldest [Memory σ] (t : ThreadId) (m : Machine σ) : Machine σ :=
  match m.table.buffer? t with
  | none => m
  | some b =>
    let rest := (b.erase 0).2.dropLeadingFences
    let gone := (b.erase 0).1.toList
    { m with
      host := Memory.storeAll (gone.filterMap Line.pendingWrite?) m.host
      table := (m.table.modify t fun _ => rest.2).retire (gone.map Line.commit ++ rest.1)
      stats := { m.stats with evictions := m.stats.evictions + 1 }
      log := (gone.map fun l => .evicted t l.commit) ++ m.log }

/-- The oldest line of a thread leaves after its location has been resolved. -/
def evictOldest [Host σ] (t : ThreadId) (l : Line) (m : Machine σ) : Machine σ :=
  match l.pendingWrite? with
  | some w => (m.resolve t w.loc false).dropOldest t
  | none => m.dropOldest t

/-- Evicts until the buffer of `t` fits, at most `n` times. -/
def evictWhileOverdue [Host σ] (t : ThreadId) : Nat → Machine σ → Machine σ
  | 0, m => m
  | n + 1, m =>
    match m.overdue? t with
    | none => m
    | some l => evictWhileOverdue t n (m.evictOldest t l)

/-- Evicts until the buffer of `t` fits; each eviction takes a line, so there are at most as many
as lines. -/
def evictExcess [Host σ] (t : ThreadId) (m : Machine σ) : Machine σ :=
  m.evictWhileOverdue t (m.table.linesOf t).length

/-- Puts a line behind the others of its thread and evicts what no longer fits. -/
def pushLine [Host σ] (t : ThreadId) (l : Line) (m : Machine σ) : Machine σ :=
  let m := m.note (.pushed t l)
  let m := if l.isStore then m.count fun s => { s with storesBuffered := s.storesBuffered + 1 }
    else m
  let m := (m.mapTable (·.append t l)).evictExcess t
  m.mapTable (·.prune)

/-- The line with its numbers, as far as it needs any. -/
def numbered (l : Line) (m : Machine σ) : Except Fault Line := do
  let atomicNo ← match l.loc? with
    | some loc => if l.order.isAtomicOp then m.table.nextAtomicNo loc else pure l.atomicNo
    | none => pure l.atomicNo
  let seqNo ← if l.order.isSeqCst then m.table.nextSeqNo else pure l.seqNo
  pure { l with atomicNo, seqNo }

/-- Numbers a line and pushes it. A line that cannot be numbered changes nothing. -/
def push [Host σ] (t : ThreadId) (l : Line) (m : Machine σ) : Except Fault Unit × Machine σ :=
  match m.numbered l with
  | .error f => (.error f, m)
  | .ok l => (.ok (), m.pushLine t l)

/-- Puts a fence behind the lines of a thread, if there are any. A fence behind a fence is united
with it. Tells whether there is one fence more. -/
def pushFence (t : ThreadId) (l : Line) (m : Machine σ) : Bool × Machine σ :=
  match (m.table.buffer? t).bind (·.newest?) with
  | none => (false, m)
  | some newest =>
    if newest.isFence then
      (false, m.withTable <| m.table.modify t fun b =>
        b.modify (b.size - 1) fun f => { f with order := f.order ||| l.order })
    else
      (true, (m.withTable (m.table.modify t (·.push l))).count fun s =>
        { s with fencesBuffered := s.fencesBuffered + 1 })

end StoreBuffer.Machine
