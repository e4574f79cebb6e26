import StoreBuffer.Proofs.Machine.Answered
import StoreBuffer.Proofs.Machine.Shape

/-! # What a load can observe

Over all answers of the host a load finds its thread's own newest pending store to the location, or,
if there is none, what memory holds and every store that any other thread has pending there, and no
other value. A buffer drained past several stores lets the last of them be seen, and of several such
buffers the one that comes last; what else is drained along the way does not show. -/

namespace StoreBuffer

open Visibility Portion

theorem Write.filter_overlaps_eq {loc : Location} {ws : List Write}
    (hself : loc.region.overlaps loc.region = true)
    (hsame : ∀ w ∈ ws, w.region.overlaps loc.region = true → w.loc = loc) :
    ws.filter (·.region.overlaps loc.region) = ws.filter (·.loc = loc) := by
  refine List.filter_congr fun w hw => Bool.eq_iff_iff.mpr ?_
  rw [decide_eq_true_iff]
  refine ⟨hsame w hw, fun heq => ?_⟩
  rw [region, heq]
  exact hself

namespace Portion

/-- The last store to the region that the portion brings to memory. -/
def last? (r : Region) (p : Portion) : Option Write :=
  (p.slot.buffer.pending.filter (·.region.overlaps r))[p.count - 1]?

variable {loc : Location} {p : Portion}

theorem exists_last? {r : Region} (hpos : 0 < p.count)
    (hle : p.count ≤ p.slot.buffer.pending.countP (·.region.overlaps r)) :
    ∃ w, p.last? r = some w ∧ w ∈ p.slot.buffer.pending ∧ w.region.overlaps r = true := by
  rw [List.countP_eq_length_filter] at hle
  have hlt : p.count - 1 < (p.slot.buffer.pending.filter (·.region.overlaps r)).length := by omega
  have hlast := List.getElem?_eq_getElem hlt
  exact ⟨_, hlast, List.mem_filter.mp (List.mem_of_getElem? hlast)⟩

theorem newest_writes (hpos : 0 < p.count)
    (hle : p.count ≤ p.slot.buffer.pending.countP (·.region.overlaps loc.region)) :
    Write.newest loc (p.writes loc.region) = (p.last? loc.region).map (·.value) := by
  obtain ⟨w, hw, -⟩ := exists_last? hpos hle
  rw [Write.newest, writes, Write.filter_upTo, List.getLast?_take, if_neg (by omega)]
  rw [last?] at hw ⊢
  rw [hw]
  rfl

/-- Of several portions the last one decides. -/
theorem newest_flatMap_writes {t : Table} {ps : List Portion} (hps : t.Portioned loc.region ps)
    (hpos : ∀ p ∈ ps, 0 < p.count) : Write.newest loc (ps.flatMap (·.writes loc.region)) =
      (ps.getLast?.bind (·.last? loc.region)).map (·.value) := by
  cases ps using List.reverseRecOn with
  | nil => rfl
  | append_singleton ps p =>
    have hmem : p ∈ ps ++ [p] := List.mem_append_right _ (List.mem_singleton_self p)
    obtain ⟨w, hw, -⟩ := exists_last? (hpos p hmem) (hps.le p hmem)
    rw [List.flatMap_append, List.flatMap_singleton, Write.newest_append,
      newest_writes (hpos p hmem) (hps.le p hmem), List.getLast?_concat, Option.bind_some, hw]
    rfl

end Portion

namespace Table

variable {t : Table} {reader : ThreadId} {loc : Location}

/-- The writes in a table of this shape are fit for memory. -/
theorem Shaped.matches {capacity : Nat} (h : t.Shaped capacity) {o : ThreadId} {w : Write}
    (hw : w ∈ t.pending o) (hsame : w.region.overlaps loc.region = true → w.loc = loc) :
    w.Matches loc := by
  obtain ⟨l, hl, hlw⟩ := List.mem_filterMap.mp hw
  obtain ⟨hvalid, hvalue, -⟩ := (((shaped_iff.mp h).1.buffers o).lines l hl).store w
    (Line.pendingWrite?_eq_some.mp hlw).2
  refine ⟨hvalid.2, ?_, hsame⟩
  have hmin : min w.loc.width 64 = w.loc.width := Nat.min_eq_left hvalid.2.2
  rw [← UInt64.toNat_inj, Width.toNat_truncate, hmin, Nat.mod_eq_of_lt hvalue]

/-- The portion that comes last ends at a store that its buffer has pending. -/
theorem exists_of_getLast?_drained (h : t.owners.Nodup) {r : Region} {answers : List Nat}
    {p : Portion} (hp : (t.drained reader r answers).getLast? = some p) :
    p.slot ∈ t.others reader ∧ ∃ w, p.last? r = some w ∧ w ∈ p.slot.buffer.pending ∧
      w.region.overlaps r = true := by
  have hmem := List.mem_of_getLast? hp
  exact ⟨slot_of_mem_drained hmem,
    exists_last? (mem_drainOrder.mp hmem).2 ((portioned_drained h).le p hmem)⟩

/-- How far a buffer goes ahead if that of one slot alone goes ahead, by `n`. -/
def aloneShare (s : Slot) (n : Nat) (q : Slot) : Nat := if s.owner = q.owner then n else 0

theorem owners_others (h : t.owners.Nodup) (reader : ThreadId) :
    (Table.mk (t.others reader)).owners.Nodup := h.sublist (List.filter_sublist.map _)

theorem aloneShare_le_counts (h : t.owners.Nodup) {r : Region} {s : Slot}
    (hs : s ∈ t.others reader) {n : Nat}
    (hle : n ≤ s.buffer.pending.countP (·.region.overlaps r)) :
    List.Forall₂ (· ≤ ·) ((t.others reader).map (aloneShare s n)) (t.counts reader r) := by
  rw [counts, List.forall₂_map_left_iff, List.forall₂_map_right_iff, List.forall₂_same]
  intro q hq
  unfold aloneShare
  split
  · rename_i heq
    rwa [← List.inj_on_of_nodup_map (owners_others h reader) hs hq heq]
  · exact Nat.zero_le _

/-- Some branch drains one buffer to where one likes and leaves the others alone. -/
theorem exists_drained_eq (h : t.owners.Nodup) {r : Region} {s : Slot} (hs : s ∈ t.others reader)
    {n : Nat} (hpos : 0 < n) (hle : n ≤ s.buffer.pending.countP (·.region.overlaps r)) :
    ∃ choice < branches (t.counts reader r), ∀ answers, answers.headD 0 = choice →
      t.drained reader r answers = [⟨s, n⟩] := by
  have hshares := aloneShare_le_counts h hs hle
  refine ⟨joined _ _, joined_lt hshares, fun answers hchoice => ?_⟩
  have hportions : t.portions reader r (answers.headD 0) =
      (t.others reader).map fun q => ⟨q, aloneShare s n q⟩ := by
    rw [portions, hchoice, shares_joined hshares, ← List.map_prod_left_eq_zip, List.map_map]
    rfl
  -- only the portion of `s` drains anything
  have hchosen : (fun p : Portion => decide (0 < p.count) && p.inPlay r) ∘
      (fun q => ⟨q, aloneShare s n q⟩) = fun q => decide (s.owner = q.owner) := by
    funext q
    by_cases heq : s.owner = q.owner
    · simp [inPlay, aloneShare, heq, hpos]
    · simp [aloneShare, heq]
  have hperm : (t.drained reader r answers).Perm [⟨s, n⟩] := by
    refine (perm_drainOrder _ _).trans (.of_eq ?_)
    rw [playing, hportions, List.filter_filter, List.filter_map, hchosen,
      filter_owner (t := ⟨t.others reader⟩) (owners_others h reader) hs]
    simp [aloneShare]
  exact List.perm_singleton.mp hperm

end Table

namespace Machine

variable {m : Machine Scripted} {loc : Location}

section Value

variable {capacity : Nat} (h : m.table.Shaped capacity) (hfit : m.host.Fits) (hv : loc.Valid)
  (hc : m.host.Covers loc) (hplain : m.host.flags.bypassed = false)

section Drained

variable (hothers : ∀ o ≠ m.thread, ∀ w ∈ m.table.pending o,
  w.region.overlaps loc.region = true → w.loc = loc)

include h hothers

theorem matches_of_mem_writes {answers : List Nat} {w : Write}
    (hw : w ∈ (m.table.drained m.thread loc.region answers).flatMap (·.writes loc.region)) :
    w.Matches loc := by
  obtain ⟨p, hp, hw⟩ := List.mem_flatMap.mp hw
  obtain ⟨hslot, hother⟩ := List.mem_filter.mp (Table.slot_of_mem_drained hp)
  have hw := Write.mem_of_mem_upTo hw
  rw [← Table.pending_of_mem_slots h.owners hslot] at hw
  exact h.matches hw (hothers _ (by simpa using hother) w hw)

include hfit hv hc

/-- Memory then holds the last store of the portion that is drained last. -/
theorem load_arena_drained {host : Scripted} {answers : List Nat}
    (harena : host.arena = (Memory.storeAll ((m.table.drained m.thread loc.region answers).flatMap
      (·.writes loc.region)) m.host).arena) : (Memory.load loc host).1 =
    (((m.table.drained m.thread loc.region answers).getLast?.bind (·.last? loc.region)).map
      (·.value)).getD (Memory.load loc m.host).1 := by
  have hwrites := fun w (hw : w ∈ (m.table.drained m.thread loc.region answers).flatMap
    (·.writes loc.region)) => matches_of_mem_writes h hothers hw
  have hsize := Scripted.size_of_still (Scripted.still_storeAll
    ((m.table.drained m.thread loc.region answers).flatMap (·.writes loc.region)) m.host)
  rw [Scripted.load_congr ((Scripted.fits_congr hsize).mpr hfit) hv.2
      ((Scripted.covers_congr hsize loc).mpr hc) harena,
    Scripted.load_storeAll hfit hv.2 hc hwrites,
    newest_flatMap_writes (Table.portioned_drained h.owners)
      fun p hp => (mem_drainOrder.mp hp).2]

end Drained

include h hfit hv hc hplain

/-- A load finds its own newest store, or the last store of the portion that was drained last. -/
theorem fst_load_drained
    (hsame : ∀ o, ∀ w ∈ m.table.pending o, w.region.overlaps loc.region = true → w.loc = loc)
    (answers : List Nat) (order : Order) :
    let r := (m.answering answers).load loc order
    let ps := m.table.drained m.thread loc.region (m.answered r.2)
    r.1 = .ok ((Write.newest loc (m.table.pending m.thread)).getD
      (((ps.getLast?.bind (·.last? loc.region)).map (·.value)).getD
        (Memory.load loc m.host).1)) := by
  obtain ⟨hvalue, htable', harena', -⟩ := load_loading hv hplain answers order
  obtain ⟨htable, harena, -⟩ := load_drained h.owners h.nonempty hv hplain answers order
  dsimp only at hvalue ⊢
  rw [htable'] at htable
  rw [harena'] at harena
  have hpending : ((m.loading answers).resolve m.thread loc false).table.pending m.thread =
      m.table.pending m.thread := by
    rw [htable, Table.pending_prune (by rw [Table.owners_settled]; exact h.owners),
      Table.pending_settled_reader]
  have htruncated (host : Scripted) : Width.truncate loc.width (Memory.load loc host).1 =
      (Memory.load loc host).1 := Width.truncate_truncate ..
  rw [hvalue, forward_newest (by rw [hpending]; exact fun w hw => h.matches hw (hsame _ w hw)),
    hpending, htruncated, load_arena_drained h hfit hv hc (fun o _ => hsame o) harena]

end Value

/-- Some answers make a load drain one buffer only, to just behind any store that is pending there. -/
theorem exists_answers (howners : m.table.owners.Nodup)
    (hnonempty : ∀ s ∈ m.table.slots, s.buffer.isEmpty = false) (hv : loc.Valid)
    (hplain : m.host.flags.bypassed = false)
    (hbranches : branches (m.table.counts m.thread loc.region) ≤ greatestTotal) (order : Order)
    {u : ThreadId} (hu : u ≠ m.thread) {w : Write} (hw : w ∈ m.table.pending u)
    (hover : w.region.overlaps loc.region = true) : ∃ answers p,
      m.table.drained m.thread loc.region
        (m.answered ((m.answering answers).load loc order).2) = [p] ∧
        p.last? loc.region = some w := by
  obtain ⟨s, hs, rfl, hw'⟩ := (Table.mem_pending_iff howners).mp hw
  have hother : s ∈ m.table.others m.thread := List.mem_filter.mpr ⟨hs, by simpa using hu⟩
  have hmem : w ∈ s.buffer.pending.filter (·.region.overlaps loc.region) :=
    List.mem_filter.mpr ⟨hw', hover⟩
  obtain ⟨j, hj⟩ := List.mem_iff_getElem?.mp hmem
  have hle : j + 1 ≤ s.buffer.pending.countP (·.region.overlaps loc.region) := by
    rw [List.countP_eq_length_filter]
    exact (List.getElem?_eq_some_iff.mp hj).1
  obtain ⟨choice, hchoice, hdrained⟩ :=
    Table.exists_drained_eq howners hother (Nat.succ_pos j) hle
  rw [← Nat.min_eq_left hbranches] at hchoice
  exact ⟨[choice], _, hdrained _ (headD_answered howners hnonempty hv hplain hchoice order), hj⟩

/-- The values that a load of a thread may find: its own newest pending store to the location, or, if
it has none, what memory holds and what any other thread has pending there. -/
def observable (t : ThreadId) (loc : Location) (m : Machine Scripted) : Set UInt64 :=
  match ((m.table.pending t).filter (·.loc = loc)).getLast? with
  | some w => {w.value}
  | none => {(Memory.load loc m.host).1} ∪
      {v | ∃ o ≠ t, ∃ w ∈ m.table.pending o, w.loc = loc ∧ w.value = v}

/-- Over all answers of the host, a load of any reachable machine finds exactly the observable values,
as long as whatever is pending at its bytes is at its location and the branches can be counted. -/
theorem load_observes {c : Config} (hreached : Reachable c m) (hfit : m.host.Fits)
    (hv : loc.Valid) (hc : m.host.Covers loc) (hplain : m.host.flags.bypassed = false)
    (hsame : ∀ o, ∀ w ∈ m.table.pending o, w.region.overlaps loc.region = true → w.loc = loc)
    (hbranches : branches (m.table.counts m.thread loc.region) ≤ greatestTotal) (order : Order) :
    {o | ∃ answers, ((m.answering answers).load loc order).1 = o} =
      Except.ok '' m.observable m.thread loc := by
  have h := hreached.shaped
  have hvalue (answers : List Nat) := fst_load_drained h hfit hv hc hplain hsame answers order
  have hself : loc.region.overlaps loc.region = true :=
    Location.overlaps_self (Scripted.location_fits hfit hc) (by have := hv.2.1; omega)
  unfold observable
  rw [← Write.filter_overlaps_eq hself (hsame m.thread)]
  dsimp only [Write.newest] at hvalue
  generalize ((m.table.pending m.thread).filter (·.region.overlaps loc.region)).getLast? = own
    at hvalue ⊢
  ext o
  cases own with
  | some w =>
    constructor
    · rintro ⟨answers, rfl⟩
      exact ⟨w.value, rfl, (hvalue answers).symm⟩
    · rintro ⟨_, rfl, rfl⟩
      exact ⟨[], hvalue []⟩
  | none =>
    constructor
    · rintro ⟨answers, rfl⟩
      refine ⟨_, ?_, (hvalue answers).symm⟩
      cases hlast : (m.table.drained m.thread loc.region
          (m.answered ((m.answering answers).load loc order).2)).getLast? with
      | none => exact .inl rfl
      | some p =>
        obtain ⟨hslot, w, hw, hmem, hover⟩ := Table.exists_of_getLast?_drained h.owners hlast
        obtain ⟨hslot, hother⟩ := List.mem_filter.mp hslot
        rw [← Table.pending_of_mem_slots h.owners hslot] at hmem
        refine .inr ⟨_, by simpa using hother, w, hmem, hsame _ w hmem hover, ?_⟩
        rw [Option.bind_some, hw]
        rfl
    · rintro ⟨v, rfl | ⟨u, hu, w, hw, hloc, rfl⟩, rfl⟩
      · have hfirst := headD_answered h.owners h.nonempty hv hplain
          (lt_min (branches_pos _) (by decide)) order
        refine ⟨[0], (hvalue [0]).trans ?_⟩
        rw [Table.drained_of_first hfirst]
        rfl
      · have hover : w.region.overlaps loc.region = true := by
          rwa [Write.region, hloc]
        obtain ⟨answers, p, hdrained, hlast⟩ :=
          exists_answers h.owners h.nonempty hv hplain hbranches order hu hw hover
        refine ⟨answers, (hvalue answers).trans ?_⟩
        rw [hdrained, List.getLast?_singleton, Option.bind_some, hlast]
        rfl

/-- Threads 1 and 2 have a store to `x` pending each, thread 1 behind one to `y`. Thread 3 finds memory
as it was or one of the two. -/
theorem load_observes_twoWriters :
    let x : Location := ⟨⟨0x10000000⟩, 32⟩
    let y : Location := ⟨⟨0x10000008⟩, 32⟩
    let m₁ := ((create {} (Scripted.create 16)).issue
      { thread := ⟨1⟩, op := .store y 7 .monotonic }).2
    let m₂ := (m₁.issue { thread := ⟨1⟩, op := .store x 1 .release }).2
    let m₃ := (m₂.issue { thread := ⟨2⟩, op := .store x 2 .release }).2
    let m := m₃.withHost { m₃.host with thread := ⟨3⟩ }
    {o | ∃ answers, ((m.answering answers).load x .acquire).1 = o} = Except.ok '' {0, 1, 2} := by
  intro x y m₁ m₂ m₃ m
  have hreached : Reachable {} m := .host (.issue (.issue (.issue (.create _) _) _) _) _
  have howners := hreached.shaped.owners
  have hslots : m.table.slots =
      [⟨⟨1⟩, ⟨[.store y 7 .monotonic, .store x 1 .release]⟩⟩,
        ⟨⟨2⟩, ⟨[.store x 2 .release]⟩⟩] := by decide +kernel
  have hpending (o : ThreadId) (w : Write) : w ∈ m.table.pending o ↔
      o = ⟨1⟩ ∧ (w = ⟨y, 7⟩ ∨ w = ⟨x, 1⟩) ∨ o = ⟨2⟩ ∧ w = ⟨x, 2⟩ := by
    rw [Table.mem_pending_iff howners, hslots]
    have hfirst : (⟨[.store y 7 .monotonic, .store x 1 .release]⟩ : Buffer).pending =
        [⟨y, 7⟩, ⟨x, 1⟩] := by decide
    have hsecond : (⟨[.store x 2 .release]⟩ : Buffer).pending = [⟨x, 2⟩] := by decide
    simp [hfirst, hsecond, eq_comm]
  have hfit : Scripted.base.val.toNat + m.host.arena.size < 2 ^ 64 := by decide +kernel
  have hin : m.host.Covers x := by decide +kernel
  have hplain : m.host.flags.bypassed = false := by decide +kernel
  have hsame : ∀ o, ∀ w ∈ m.table.pending o, w.region.overlaps x.region = true → w.loc = x := by
    intro o w hw hover
    rcases (hpending o w).mp hw with ⟨-, rfl | rfl⟩ | ⟨-, rfl⟩
    · exact absurd hover (by decide)
    · rfl
    · rfl
  have hbranches : branches (m.table.counts m.thread x.region) ≤ greatestTotal := by
    decide +kernel
  rw [load_observes hreached hfit (by decide) hin hplain hsame hbranches]
  have hown : ((m.table.pending m.thread).filter (·.loc = x)).getLast? = none := by
    decide +kernel
  have hmemory : (Memory.load x m.host).1 = 0 := by decide +kernel
  have hthread : m.thread = ⟨3⟩ := rfl
  refine congrArg _ (Set.ext fun v => ?_)
  rw [observable, hown]
  dsimp only
  rw [hmemory, hthread]
  constructor
  · rintro (rfl | ⟨o, -, w, hw, hloc, rfl⟩)
    · simp
    · rcases (hpending o w).mp hw with ⟨-, rfl | rfl⟩ | ⟨-, rfl⟩
      · exact absurd hloc (by decide)
      · simp
      · simp
  · rintro (rfl | rfl | rfl)
    · exact .inl rfl
    · exact .inr ⟨⟨1⟩, by decide, ⟨x, 1⟩, (hpending ..).mpr (.inl ⟨rfl, .inr rfl⟩), rfl, rfl⟩
    · exact .inr ⟨⟨2⟩, by decide, ⟨x, 2⟩, (hpending ..).mpr (.inr ⟨rfl, rfl⟩), rfl, rfl⟩

end Machine

end StoreBuffer
