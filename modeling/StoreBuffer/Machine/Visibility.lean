import StoreBuffer.Machine.Drain

/-! # Visibility

Which pending stores of other threads a load sees is for the host to choose. Every buffer with
`k` pending stores to the location can be drained to just behind any of them or not at all, which
makes `k + 1` states; one choice picks a state for every buffer, read as a number in mixed radix
whose first digit belongs to the first buffer. If more than one buffer then has a store in play, a
second choice picks the buffer whose store comes last.

What the reader itself has pending is laid over memory by `Buffer.forward`. -/

namespace StoreBuffer

namespace Visibility

/-- A buffer that takes part in a choice. -/
structure Candidate where
  owner : ThreadId
  /-- Positions of its pending stores to the location. -/
  pending : List Nat
  /-- It still holds a committed store to the location. -/
  hasCommitted : Bool
deriving DecidableEq, Repr

/-- How far the buffer may be drained: not at all, or to just behind one of the stores. -/
def Candidate.states (c : Candidate) : Nat := c.pending.length + 1

/-- A buffer with a store in play, and the position up to which it is drained. -/
structure Pick where
  owner : ThreadId
  upTo : Option Nat
deriving DecidableEq, Repr

/-- Counts of branches are 64-bit words and stop at the greatest. -/
def greatestTotal : Nat := UInt64.size - 1

/-- Number of ways to drain the candidates. -/
def total (cs : List Candidate) : Nat := min (cs.foldr (·.states * ·) 1) greatestTotal

/-- The digits of `choice` in the mixed radix of the candidates' states, the first candidate's
first. -/
def digits (choice : Nat) : List Candidate → List Nat
  | [] => []
  | c :: rest => choice % c.states :: digits (choice / c.states) rest

/-- A buffer is in play if it is drained past a store, or holds a committed one. -/
def Candidate.pick? (c : Candidate) (digit : Nat) : Option Pick :=
  if digit = 0 then if c.hasCommitted then some ⟨c.owner, none⟩ else none
  else some ⟨c.owner, c.pending[digit - 1]?⟩

/-- The buffers in play under a choice. -/
def picks (cs : List Candidate) (choice : Nat) : List Pick :=
  (cs.zip (digits choice cs)).filterMap fun (c, d) => c.pick? d

/-- The picks with the one at `source` moved to the end. -/
def sourceLast (ps : List Pick) (source : Nat) : List Pick := ps.eraseIdx source ++ ps[source]?.toList

/-- An element moves to the end, if there is one in its place. -/
theorem perm_moveLast {α : Type} (xs : List α) (i : Nat) :
    (xs.eraseIdx i ++ xs[i]?.toList).Perm xs := by
  by_cases h : i < xs.length
  · rw [List.getElem?_eq_getElem h, Option.toList_some, List.eraseIdx_eq_take_drop_succ,
      List.append_assoc]
    have hsplit : xs.take i ++ xs[i] :: xs.drop (i + 1) = xs := by
      rw [← List.drop_eq_getElem_cons h, List.take_append_drop]
    exact (List.Perm.append_left _ List.perm_append_comm).trans (.of_eq hsplit)
  · rw [List.eraseIdx_of_length_le (Nat.not_lt.mp h), List.getElem?_eq_none (Nat.not_lt.mp h),
      Option.toList_none, List.append_nil]

theorem map_moveLast {α β : Type} (f : α → β) (xs : List α) (i : Nat) :
    (xs.eraseIdx i ++ xs[i]?.toList).map f = (xs.map f).eraseIdx i ++ (xs.map f)[i]?.toList := by
  have herase : (xs.map f).eraseIdx i = (xs.eraseIdx i).map f := by
    simp [List.eraseIdx_eq_take_drop_succ]
  rw [List.map_append, herase, List.getElem?_map]
  cases xs[i]? <;> rfl

theorem sourceLast_perm (ps : List Pick) (source : Nat) : (sourceLast ps source).Perm ps :=
  perm_moveLast ps source

end Visibility

namespace Table

open Visibility

/-- The buffers that take part in a choice for `reader`; its own only if `own` is set. -/
def candidates (t : Table) (reader : ThreadId) (own : Bool) (r : Region) : List Candidate :=
  (t.slots.filter fun s => own || s.owner ≠ reader).map fun s =>
    ⟨s.owner, s.buffer.pendingAt r, s.buffer.hasCommittedAt r⟩

end Table

namespace Buffer

/-- The pending stores to bytes of the region, newest first. -/
def pendingNewestFirst (b : Buffer) (r : Region) : List Write :=
  (b.lines.reverse.filterMap Line.pendingWrite?).filter (·.region.overlaps r)

/-- The newest pending store alone answers a load: it starts where the load does and is at least as
wide. -/
def shortcut? (b : Buffer) (loc : Location) : Option UInt64 :=
  match b.pendingNewestFirst loc.region with
  | w :: _ =>
    if w.loc.addr = loc.addr ∧ loc.width ≤ w.loc.width then some (Width.truncate loc.width w.value)
    else none
  | [] => none

/-- The value of a load whose bytes come from the newest pending store that covers them, and from
`fromMemory` where none does. -/
def merge (b : Buffer) (loc : Location) (fromMemory : UInt64) : UInt64 :=
  match b.pendingNewestFirst loc.region with
  | [] => Width.truncate loc.width fromMemory
  | ws =>
    Width.truncate loc.width <| Word.ofBytes <| (List.range (Width.byteSize loc.width)).map fun i =>
      (ws.findSome? (·.byteAt? (loc.addr.offset (UInt64.ofNat i)))).getD (Word.byte fromMemory i)

end Buffer

namespace Machine

open Visibility

variable {σ : Type}

/-- The host chooses how far the candidates are drained. -/
def chooseDrain [Host σ] (reader : ThreadId) (loc : Location) (cs : List Candidate)
    (m : Machine σ) : Nat × Machine σ :=
  let r := Host.choose (total cs) m.host
  (r.1, ((m.withHost r.2).count fun s => { s with choicePoints := s.choicePoints + 1 }).note
    (.visibilityChosen reader loc (total cs) r.1))

/-- The host chooses which of the picks comes last. A single one leaves no choice. -/
def chooseSource [Host σ] (reader : ThreadId) (loc : Location) (ps : List Pick)
    (m : Machine σ) : Nat × Machine σ :=
  let r := if 1 < ps.length then Host.choose ps.length m.host else (0, m.host)
  let m := m.withHost r.2
  (r.1, ps[r.1]?.elim m fun p =>
    m.note (.visibilityResolved reader loc.addr ps.length p.owner))

/-- Drains a picked buffer as far as the pick says. -/
def drainPick [Memory σ] (loc : Location) (m : Machine σ) (p : Pick) : Machine σ :=
  match p.upTo with
  | some upTo => m.flushPart p.owner upTo loc
  | none => m

/-- Drains picked buffers one after the other. -/
def drainPicks [Memory σ] (loc : Location) (ps : List Pick) (m : Machine σ) : Machine σ :=
  let m := ps.foldl (drainPick loc) m
  m.withTable m.table.prune

/-- Lets the host choose which pending stores to `loc` become visible to `reader`. Nothing is
chosen if there are none. -/
def resolve [Host σ] (reader : ThreadId) (loc : Location) (own : Bool) (m : Machine σ) :
    Machine σ :=
  let cs := m.table.candidates reader own loc.region
  if cs.all (·.pending.isEmpty) then m
  else
    let drain := m.chooseDrain reader loc cs
    let ps := picks cs drain.1
    if ps.isEmpty then drain.2
    else
      let source := drain.2.chooseSource reader loc ps
      source.2.drainPicks loc (sourceLast ps source.1)

/-- The value that thread `t` loads, given what memory holds at the location. -/
def forward (t : ThreadId) (loc : Location) (fromMemory : UInt64) (m : Machine σ) :
    UInt64 × Machine σ :=
  match m.table.buffer? t with
  | none => (Width.truncate loc.width fromMemory, m)
  | some b =>
    match b.shortcut? loc with
    | some value => (value, m.count fun s => { s with loadsForwarded := s.loadsForwarded + 1 })
    | none => (b.merge loc fromMemory, m)

end Machine

end StoreBuffer
