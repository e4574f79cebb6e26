import Mathlib.Data.List.Induction
import Mathlib.Data.List.Nodup
import StoreBuffer.Proofs.Buffer.Prefix
import StoreBuffer.Proofs.Table.Shares

/-! # Draining several buffers

A choice gives every buffer of the other threads a portion of its pending stores to a region, and
the portions are drained one after the other. What becomes of the table does not depend on the order,
but for the numbers of the lines: those that one portion takes away carry the numbers that the
portions before it have left them. `Table.settled` is the table in the end. -/

namespace StoreBuffer

namespace Line

/-- A change of numbers that does not look at whether a line is committed. -/
structure Renumbering (f : Line → Line) : Prop where
  unnumbered : ∀ l, (f l).unnumbered = l.unnumbered
  commit : ∀ l, (f l).commit = f l.commit

theorem renumbering_id : Renumbering id := ⟨fun _ => rfl, fun _ => rfl⟩

theorem renumbering_renumber (retired : List Line) : Renumbering (renumber retired) := by
  refine ⟨fun _ => rfl, fun l => ?_⟩
  unfold commit
  cases h : l.isStore with
  | false => rw [if_neg (by simpa [isStore, renumber] using h), if_neg Bool.false_ne_true]
  | true =>
    rw [if_pos (by simpa [isStore, renumber] using h), if_pos rfl]
    rfl

namespace Renumbering

variable {f g : Line → Line}

theorem comp (hf : Renumbering f) (hg : Renumbering g) : Renumbering (f ∘ g) :=
  ⟨fun l => (hf.unnumbered _).trans (hg.unnumbered l), fun l => by
    rw [Function.comp, Function.comp, hf.commit, hg.commit]⟩

theorem write? (h : Renumbering f) (l : Line) : (f l).write? = l.write? := by
  show (f l).unnumbered.write? = _
  rw [h.unnumbered]
  rfl

theorem committed (h : Renumbering f) (l : Line) : (f l).committed = l.committed := by
  show (f l).unnumbered.committed = _
  rw [h.unnumbered]
  rfl

theorem touches (h : Renumbering f) (l : Line) (r : Region) : (f l).touches r = l.touches r := by
  rw [Line.touches, h.write?, Line.touches]

theorem awaits (h : Renumbering f) (l : Line) (r : Region) : (f l).awaits r = l.awaits r := by
  rw [Line.awaits, h.committed, h.touches, Line.awaits]

theorem pendingWrite? (h : Renumbering f) (l : Line) :
    (f l).pendingWrite? = l.pendingWrite? := by
  rw [Line.pendingWrite?, h.committed, h.write?, Line.pendingWrite?]

theorem isFence_comp (h : Renumbering f) : Line.isFence ∘ f = Line.isFence := by
  funext l
  rw [Function.comp, Line.isFence, h.write?, Line.isFence]

theorem settle_map (h : Renumbering f) (r : Region) (n : Nat) (ls : List Line) :
    settle r n (ls.map f) = (settle r n ls).map f := by
  induction ls generalizing n with
  | nil => cases n <;> rfl
  | cons l rest ih =>
    cases n with
    | zero => rfl
    | succ n =>
      rw [List.map_cons, settle, settle, h.touches, h.awaits, h.commit, ih, List.map_append]
      cases l.touches r <;> rfl

theorem spent_map (h : Renumbering f) (r : Region) (n : Nat) (ls : List Line) :
    Line.spent r n (ls.map f) = (Line.spent r n ls).map f := by
  induction ls generalizing n with
  | nil => cases n <;> rfl
  | cons l rest ih =>
    cases n with
    | zero => rfl
    | succ n =>
      rw [List.map_cons, Line.spent, Line.spent, h.touches, h.awaits, h.commit, ih, List.map_append]
      cases l.touches r <;> rfl

theorem pending_map (h : Renumbering f) (b : Buffer) : (b.map f).pending = b.pending := by
  show (b.lines.map f).filterMap Line.pendingWrite? = _
  rw [List.filterMap_map]
  exact List.filterMap_congr fun l _ => h.pendingWrite? l

theorem pendingAt_map (h : Renumbering f) (b : Buffer) (r : Region) :
    (b.map f).pendingAt r = b.pendingAt r := by
  show (b.lines.map f).zipIdx.filterMap _ = _
  rw [List.zipIdx_map, List.filterMap_map]
  refine List.filterMap_congr fun e _ => ?_
  obtain ⟨l, i⟩ := e
  simp [h.committed, h.touches]

theorem settled_map (h : Renumbering f) (b : Buffer) (r : Region) (n : Nat) :
    (b.map f).settled r n = (b.settled r n).map f := by
  cases n with
  | zero => rfl
  | succ n =>
    show Buffer.mk ((settle r (n + 1) (b.lines.map f)).dropWhile _) = _
    rw [h.settle_map, List.dropWhile_map, h.isFence_comp]
    rfl

theorem buffer_spent_map (h : Renumbering f) (b : Buffer) (r : Region) (n : Nat) :
    (b.map f).spent r n = (b.spent r n).map f := by
  cases n with
  | zero => rfl
  | succ n =>
    show Line.spent r (n + 1) (b.lines.map f) ++
      (settle r (n + 1) (b.lines.map f)).takeWhile _ = _
    rw [h.settle_map, h.spent_map, List.takeWhile_map, h.isFence_comp, ← List.map_append]
    rfl

end Renumbering

end Line

/-- A buffer, and how many of its pending stores to a region are to reach memory. -/
structure Portion where
  slot : Slot
  count : Nat
deriving DecidableEq, Repr

namespace Portion

open Visibility

def owner (p : Portion) : ThreadId := p.slot.owner

/-- The writes that bring the portion to memory: the stores to the region and all in front of them. -/
def writes (r : Region) (p : Portion) : List Write := Write.upTo r p.count p.slot.buffer.pending

/-- The buffer has something to drain, or holds a committed store to the region. -/
def inPlay (r : Region) (p : Portion) : Bool :=
  decide (0 < p.count) || p.slot.buffer.hasCommittedAt r

/-- The position up to which the buffer is drained. -/
def pick (r : Region) (p : Portion) : Pick :=
  ⟨p.owner, if p.count = 0 then none else (p.slot.buffer.pendingAt r)[p.count - 1]?⟩

/-- How many stores of a thread the portions bring to memory. -/
def granted (ps : List Portion) (o : ThreadId) : Nat :=
  ((ps.find? (·.owner = o)).map (·.count)).getD 0

/-- The numbers of lines once the portions are drained one after the other. -/
def renumbering (r : Region) (ps : List Portion) : Line → Line :=
  ps.foldl (fun f p => Line.renumber ((p.slot.buffer.spent r p.count).map f) ∘ f) id

/-- The portions in the order in which they are drained: those with something to drain, the one at
`source` last. -/
def drainOrder (ps : List Portion) (source : Nat) : List Portion :=
  (ps.eraseIdx source ++ ps[source]?.toList).filter (0 < ·.count)

theorem perm_drainOrder (ps : List Portion) (source : Nat) :
    (drainOrder ps source).Perm (ps.filter (0 < ·.count)) :=
  (perm_moveLast ps source).filter _

theorem mem_drainOrder {ps : List Portion} {source : Nat} {p : Portion} :
    p ∈ drainOrder ps source ↔ p ∈ ps ∧ 0 < p.count := by
  rw [(perm_drainOrder ps source).mem_iff, List.mem_filter]
  simp

theorem renumbering_append (r : Region) (ps : List Portion) (p : Portion) :
    renumbering r (ps ++ [p]) =
      Line.renumber ((p.slot.buffer.spent r p.count).map (renumbering r ps)) ∘ renumbering r ps := by
  rw [renumbering, List.foldl_append]
  rfl

theorem renumbering_lawful (r : Region) (ps : List Portion) :
    Line.Renumbering (renumbering r ps) := by
  induction ps using List.reverseRecOn with
  | nil => exact Line.renumbering_id
  | append_singleton ps p ih =>
    rw [renumbering_append]
    exact (Line.renumbering_renumber _).comp ih

theorem granted_append_self {ps : List Portion} {p : Portion} (h : p.owner ∉ ps.map (·.owner)) :
    granted (ps ++ [p]) p.owner = p.count := by
  have hnone : ps.find? (·.owner = p.owner) = none := by
    rw [List.find?_eq_none]
    exact fun q hq howner => h (List.mem_map.mpr ⟨q, hq, by simpa using howner⟩)
  rw [granted, List.find?_append, hnone]
  simp

theorem granted_append_other (ps : List Portion) {p : Portion} {o : ThreadId} (h : p.owner ≠ o) :
    granted (ps ++ [p]) o = granted ps o := by
  rw [granted, List.find?_append, granted]
  cases ps.find? (·.owner = o) <;> simp [h]

theorem granted_eq_zero {ps : List Portion} {o : ThreadId} (h : o ∉ ps.map (·.owner)) :
    granted ps o = 0 := by
  have hnone : ps.find? (·.owner = o) = none := by
    rw [List.find?_eq_none]
    exact fun q hq howner => h (List.mem_map.mpr ⟨q, hq, by simpa using howner⟩)
  rw [granted, hnone]
  rfl

end Portion

namespace Table

open Visibility Portion

/-- The slots of the other threads. -/
def others (t : Table) (reader : ThreadId) : List Slot := t.slots.filter fun s => s.owner ≠ reader

/-- How many stores to the region the other threads have pending. -/
def counts (t : Table) (reader : ThreadId) (r : Region) : List Nat :=
  (t.others reader).map fun s => s.buffer.pending.countP (·.region.overlaps r)

/-- What a choice lets the buffers of the other threads drain. -/
def portions (t : Table) (reader : ThreadId) (r : Region) (choice : Nat) : List Portion :=
  ((t.others reader).zip (shares (t.counts reader r) choice)).map fun (s, n) => ⟨s, n⟩

/-- The portions that may be chosen to come last. -/
def playing (t : Table) (reader : ThreadId) (r : Region) (choice : Nat) : List Portion :=
  (t.portions reader r choice).filter (·.inPlay r)

/-- The table once the portions are drained one after the other. Slots that run empty stay. -/
def settled (t : Table) (r : Region) (ps : List Portion) : Table :=
  ⟨t.slots.map fun s =>
    { s with buffer := (s.buffer.settled r (granted ps s.owner)).map (renumbering r ps) }⟩

/-- Portions of different buffers of the table, none greater than what its buffer has pending. -/
structure Portioned (t : Table) (r : Region) (ps : List Portion) : Prop where
  slot : ∀ p ∈ ps, p.slot ∈ t.slots
  le : ∀ p ∈ ps, p.count ≤ p.slot.buffer.pending.countP (·.region.overlaps r)
  owners : (ps.map (·.owner)).Nodup

variable {t : Table} {r : Region} {ps : List Portion} {p : Portion}

theorem owners_settled (t : Table) (r : Region) (ps : List Portion) :
    (t.settled r ps).owners = t.owners :=
  owners_map t fun _ => rfl

theorem settled_nil (t : Table) (r : Region) : t.settled r [] = t := by
  have hsame (s : Slot) : ({ s with buffer := s.buffer.map id } : Slot) = s := by
    simp [Buffer.map]
  show Table.mk (t.slots.map fun s => { s with buffer := s.buffer.map id }) = t
  simp only [hsame, List.map_id']

theorem linesOf_settled (t : Table) (r : Region) (ps : List Portion) (o : ThreadId) :
    (t.settled r ps).linesOf o =
      ((⟨t.linesOf o⟩ : Buffer).settled r (granted ps o)).lines.map (renumbering r ps) := by
  have hempty : ((⟨[]⟩ : Buffer).settled r (granted ps o)).lines = [] := by
    cases granted ps o <;> rfl
  unfold linesOf settled
  rw [buffer?_map t (g := fun s : Slot =>
    { s with buffer := (s.buffer.settled r (granted ps s.owner)).map (renumbering r ps) })
    fun _ => rfl, buffer?]
  cases hs : t.slots.find? (·.owner = o) with
  | none =>
    show [] = List.map _ _
    rw [show ((none : Option Slot).map (·.buffer)).map (·.lines) = none from rfl, Option.getD_none,
      hempty, List.map_nil]
  | some s =>
    have howner : s.owner = o := by simpa using List.find?_some hs
    rw [← howner]
    rfl

theorem pending_settled (t : Table) (r : Region) (ps : List Portion) (o : ThreadId) :
    (t.settled r ps).pending o = ((⟨t.linesOf o⟩ : Buffer).settled r (granted ps o)).pending := by
  rw [pending, linesOf_settled]
  exact (renumbering_lawful r ps).pending_map _

/-- A buffer that has not had its turn has only been renumbered. -/
theorem buffer?_settled (h : t.owners.Nodup) {s : Slot} (hs : s ∈ t.slots)
    (hnone : s.owner ∉ ps.map (·.owner)) :
    (t.settled r ps).buffer? s.owner = some (s.buffer.map (renumbering r ps)) := by
  have hmem : { s with buffer := s.buffer.map (renumbering r ps) } ∈ (t.settled r ps).slots := by
    refine List.mem_map.mpr ⟨s, hs, ?_⟩
    rw [granted_eq_zero hnone]
    rfl
  exact buffer?_of_mem (by rwa [owners_settled]) hmem

theorem prune_of_nonempty (h : ∀ s ∈ t.slots, s.buffer.isEmpty = false) : t.prune = t := by
  have hall : t.slots.filter (!·.buffer.isEmpty) = t.slots :=
    List.filter_eq_self.mpr fun s hs => by rw [h s hs]; rfl
  rw [prune, hall]

/-- One more portion settles its buffer and renumbers the table. -/
theorem settled_append (h : t.owners.Nodup) (hslot : p.slot ∈ t.slots)
    (hnone : p.owner ∉ ps.map (·.owner)) : t.settled r (ps ++ [p]) =
      ((t.settled r ps).modify p.owner fun _ =>
        (p.slot.buffer.settled r p.count).map (renumbering r ps)).retire
          ((p.slot.buffer.spent r p.count).map (renumbering r ps)) := by
  have hinj := List.inj_on_of_nodup_map h
  rw [retire_eq_mapLines]
  unfold settled modify mapLines
  rw [List.map_map, List.map_map]
  refine congrArg Table.mk (List.map_congr_left fun s hs => ?_)
  rw [renumbering_append]
  dsimp only [Function.comp]
  by_cases howner : s.owner = p.owner
  · obtain rfl : s = p.slot := hinj hs hslot howner
    rw [if_pos howner]
    show Slot.mk _ _ = Slot.mk _ _
    rw [howner, granted_append_self hnone]
    simp [Buffer.map]
  · rw [if_neg howner, granted_append_other ps (Ne.symm howner)]
    simp [Buffer.map]

/-! ## The portions of a choice -/

/-- Every other thread gets a portion. -/
theorem map_slot_portions (t : Table) (reader : ThreadId) (r : Region) (choice : Nat) :
    (t.portions reader r choice).map (·.slot) = t.others reader := by
  rw [portions, List.map_map]
  exact List.map_fst_zip (by rw [length_shares, counts, List.length_map])

theorem portioned_portions (h : t.owners.Nodup) (reader : ThreadId) (r : Region) (choice : Nat) :
    t.Portioned r (t.portions reader r choice) := by
  have hslots := map_slot_portions t reader r choice
  refine ⟨fun p hp => ?_, fun p hp => ?_, ?_⟩
  · exact (List.mem_filter.mp (hslots ▸ List.mem_map_of_mem hp)).1
  · obtain ⟨⟨s, n⟩, hmem, rfl⟩ := List.mem_map.mp hp
    have hle := (List.forall₂_map_right_iff.mp (shares_le (t.counts reader r) choice)).flip
    exact (List.forall₂_iff_zip.mp hle).2 hmem
  · have howners : (t.portions reader r choice).map (·.owner) =
        (t.others reader).map (·.owner) := by
      rw [← hslots, List.map_map]
      rfl
    rw [howners]
    exact h.sublist (List.filter_sublist.map _)

theorem Portioned.perm {qs : List Portion} (h : t.Portioned r ps) (hperm : qs.Perm ps) :
    t.Portioned r qs :=
  ⟨fun p hp => h.slot p (hperm.mem_iff.mp hp), fun p hp => h.le p (hperm.mem_iff.mp hp),
    (hperm.map _).nodup_iff.mpr h.owners⟩

theorem Portioned.sublist {qs : List Portion} (h : t.Portioned r ps) (hsub : qs.Sublist ps) :
    t.Portioned r qs :=
  ⟨fun p hp => h.slot p (hsub.mem hp), fun p hp => h.le p (hsub.mem hp),
    h.owners.sublist (hsub.map _)⟩

theorem Portioned.drainOrder (h : t.Portioned r ps) (source : Nat) :
    t.Portioned r (drainOrder ps source) :=
  (h.sublist List.filter_sublist).perm (perm_drainOrder ps source)

theorem candidates_eq (t : Table) (reader : ThreadId) (r : Region) :
    t.candidates reader false r = (t.others reader).map fun s =>
      ⟨s.owner, s.buffer.pendingAt r, s.buffer.hasCommittedAt r⟩ := by
  simp [candidates, others]

theorem counts_eq (t : Table) (reader : ThreadId) (r : Region) :
    t.counts reader r = (t.candidates reader false r).map (·.pending.length) := by
  rw [candidates_eq, List.map_map]
  exact List.map_congr_left fun s _ => (s.buffer.length_pendingAt r).symm

/-- The buffers in play are those that the machine picks. -/
theorem picks_eq_playing (t : Table) (reader : ThreadId) (r : Region) (choice : Nat) :
    picks (t.candidates reader false r) choice =
      (t.playing reader r choice).map (·.pick r) := by
  have hpick (s : Slot) (n : Nat) :
      Candidate.pick? ⟨s.owner, s.buffer.pendingAt r, s.buffer.hasCommittedAt r⟩ n =
        if inPlay r ⟨s, n⟩ then some (pick r ⟨s, n⟩) else none := by
    unfold Candidate.pick? inPlay pick
    cases n with
    | zero => simp [owner]
    | succ n => simp [owner]
  rw [picks, digits_eq, ← counts_eq, candidates_eq, playing, portions, List.zip_map_left,
    List.filterMap_map, List.filter_map, List.map_map, ← List.filterMap_eq_map,
    List.filterMap_filter]
  exact List.filterMap_congr fun e _ => hpick e.1 e.2

end Table

end StoreBuffer
