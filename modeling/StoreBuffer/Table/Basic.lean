import StoreBuffer.Access.Thread
import StoreBuffer.Pending.Buffer

/-! # The table of store buffers

One slot for every thread that has buffered lines, in the order in which the threads came. A thread
gets its slot with its first line; `prune` takes away the slots that have run empty. -/

namespace StoreBuffer

/-- The store buffer of a thread. -/
structure Slot where
  owner : ThreadId
  buffer : Buffer
deriving DecidableEq, Inhabited, Repr

structure Table where
  slots : List Slot := []
deriving DecidableEq, Inhabited, Repr

namespace Table

def isEmpty (t : Table) : Bool := t.slots.isEmpty

def owners (t : Table) : List ThreadId := t.slots.map (·.owner)

/-- All lines, slot after slot. -/
def lines (t : Table) : List Line := t.slots.flatMap (·.buffer.lines)

/-- The buffer of a thread, if it has a slot. -/
def buffer? (t : Table) (owner : ThreadId) : Option Buffer :=
  (t.slots.find? (·.owner = owner)).map (·.buffer)

/-- The lines of a thread, none if it has no slot. -/
def linesOf (t : Table) (owner : ThreadId) : List Line := ((t.buffer? owner).map (·.lines)).getD []

/-- Some other thread has a slot. -/
def hasForeign (t : Table) (owner : ThreadId) : Bool := t.slots.any (·.owner ≠ owner)

/-- Changes the buffer of a thread. -/
def modify (t : Table) (owner : ThreadId) (f : Buffer → Buffer) : Table :=
  ⟨t.slots.map fun s => if s.owner = owner then { s with buffer := f s.buffer } else s⟩

/-- Changes every line where it stands. -/
def mapLines (t : Table) (f : Line → Line) : Table :=
  ⟨t.slots.map fun s => { s with buffer := s.buffer.map f }⟩

/-- Puts a line behind the others of its thread, opening a slot if there is none. -/
def append (t : Table) (owner : ThreadId) (l : Line) : Table :=
  if (t.buffer? owner).isSome then t.modify owner (·.push l)
  else ⟨t.slots ++ [⟨owner, ⟨[l]⟩⟩]⟩

/-- Takes away empty slots. -/
def prune (t : Table) : Table := ⟨t.slots.filter (!·.buffer.isEmpty)⟩

def text (t : Table) : String :=
  if t.isEmpty then "weakmem: no buffered lines"
  else "\n".intercalate (t.slots.map fun s => s.owner.text ++ ": " ++ s.buffer.text)

theorem owners_modify (t : Table) (owner : ThreadId) (f : Buffer → Buffer) :
    (t.modify owner f).owners = t.owners := by
  simp only [owners, modify, List.map_map]
  apply List.map_congr_left
  intro s _
  dsimp only [Function.comp]
  split <;> rfl

theorem owners_mapLines (t : Table) (f : Line → Line) : (t.mapLines f).owners = t.owners := by
  simp [owners, mapLines]

theorem buffer?_modify (t : Table) (owner o : ThreadId) (f : Buffer → Buffer) :
    (t.modify owner f).buffer? o = if o = owner then (t.buffer? o).map f else t.buffer? o := by
  unfold buffer? modify
  induction t.slots with
  | nil => simp
  | cons s rest ih =>
    rw [List.map_cons]
    by_cases hs : s.owner = o
    · subst hs
      by_cases ho : s.owner = owner <;> simp [ho]
    · have hs' : ¬ (if s.owner = owner then { s with buffer := f s.buffer } else s).owner = o := by
        split <;> exact hs
      rw [List.find?_cons_of_neg (by simpa using hs'), List.find?_cons_of_neg (by simpa using hs)]
      exact ih

theorem isSome_buffer? (t : Table) (o : ThreadId) : (t.buffer? o).isSome ↔ o ∈ t.owners := by
  simp [buffer?, owners]

/-- A line goes behind the others of its thread and to no other thread. -/
theorem linesOf_append (t : Table) (owner o : ThreadId) (l : Line) :
    (t.append owner l).linesOf o = if o = owner then t.linesOf o ++ [l] else t.linesOf o := by
  unfold linesOf append
  cases h : t.buffer? owner with
  | some b =>
    rw [Option.isSome_some, if_pos rfl, buffer?_modify]
    by_cases ho : o = owner
    · subst ho
      rw [if_pos rfl, if_pos rfl, h]
      rfl
    · rw [if_neg ho, if_neg ho]
  | none =>
    have hnew : Table.buffer? ⟨t.slots ++ [⟨owner, ⟨[l]⟩⟩]⟩ o =
        (t.buffer? o).or (if o = owner then some ⟨[l]⟩ else none) := by
      unfold buffer?
      rw [List.find?_append, Option.map_or]
      by_cases ho : o = owner
      · subst ho; simp
      · simp [ho, Ne.symm ho]
    rw [Option.isSome_none, if_neg Bool.false_ne_true, hnew]
    by_cases ho : o = owner
    · subst ho
      rw [h, if_pos rfl, if_pos rfl]
      rfl
    · rw [if_neg ho, if_neg ho, Option.or_none]

theorem lines_mapLines (t : Table) (f : Line → Line) : (t.mapLines f).lines = t.lines.map f := by
  simp [lines, mapLines, Buffer.map, List.flatMap_map, List.map_flatMap]

/-- Taking away empty slots takes no lines from a thread, as long as it has one slot. -/
theorem linesOf_prune {t : Table} (h : t.owners.Nodup) (o : ThreadId) :
    t.prune.linesOf o = t.linesOf o := by
  obtain ⟨slots⟩ := t
  unfold linesOf buffer? prune
  unfold owners at h
  dsimp only at h ⊢
  induction slots with
  | nil => rfl
  | cons s rest ih =>
    rw [List.map_cons] at h
    obtain ⟨hs, hrest⟩ := List.nodup_cons.mp h
    have ih := ih hrest
    by_cases ho : s.owner = o
    · subst ho
      cases he : s.buffer.isEmpty
      · simp [he]
      · have hnone : (rest.filter (!·.buffer.isEmpty)).find? (·.owner = s.owner) = none := by
          rw [List.find?_eq_none]
          intro q hq hqs
          exact hs (List.mem_map.mpr ⟨q, (List.mem_filter.mp hq).1, by simpa using hqs⟩)
        have hlines : s.buffer.lines = [] := List.isEmpty_iff.mp he
        rw [List.filter_cons_of_neg (by simp [he]), hnone]
        simp [hlines]
    · rw [List.find?_cons_of_neg (by simpa using ho)]
      cases he : s.buffer.isEmpty
      · rw [List.filter_cons_of_pos (by simp [he]), List.find?_cons_of_neg (by simpa using ho), ih]
      · rw [List.filter_cons_of_neg (by simp [he]), ih]

end Table

end StoreBuffer
