import StoreBuffer.Machine.Drain

/-! # What a thread has pending

`Table.pending` lists the writes of a thread that memory does not hold yet, oldest first. Committed
lines, fences and the numbers of lines do not show in it. Each operation on the table has one lemma
here that says what becomes of the lines or of the pending writes of every thread. -/

namespace StoreBuffer

namespace Line

/-- The line without its numbers. -/
def unnumbered (l : Line) : Line := { l with seqNo := 0, atomicNo := 0 }

/-- The line after `retired` have left the table. -/
def renumber (retired : List Line) (l : Line) : Line :=
  { l with
    seqNo := Counter.closeGaps (Counter.descending (retired.map (·.seqNo))) l.seqNo
    atomicNo := match l.loc? with
      | none => l.atomicNo
      | some loc => Counter.closeGaps
          (Counter.descending ((retired.filter (·.isAt loc)).map (·.atomicNo))) l.atomicNo }

theorem renumber_nil : renumber [] = id := by
  funext l
  unfold renumber
  cases l.loc? <;> rfl

theorem closeGaps_le (released : List Int) (n : Int) : Counter.closeGaps released n ≤ n := by
  unfold Counter.closeGaps
  induction released generalizing n with
  | nil => exact Int.le_refl n
  | cons r rest ih =>
    rw [List.foldl_cons]
    refine Int.le_trans (ih _) ?_
    split <;> omega

theorem atomicNo_renumber_le (retired : List Line) (l : Line) :
    (l.renumber retired).atomicNo ≤ l.atomicNo := by
  unfold renumber
  cases l.loc? with
  | none => exact Int.le_refl _
  | some loc => exact closeGaps_le ..

theorem pendingWrite?_unnumbered (l : Line) : l.unnumbered.pendingWrite? = l.pendingWrite? := rfl

theorem filterMap_unnumbered (ls : List Line) :
    (ls.map unnumbered).filterMap pendingWrite? = ls.filterMap pendingWrite? := by
  rw [List.filterMap_map]
  rfl

theorem countP_unnumbered (ls : List Line) :
    (ls.map unnumbered).countP (·.isStore) = ls.countP (·.isStore) := by
  rw [List.countP_map]
  rfl

theorem pendingWrite?_eq_none_of_isFence {l : Line} (h : l.isFence = true) :
    l.pendingWrite? = none := by
  unfold isFence at h
  unfold pendingWrite?
  split
  · rfl
  · exact Option.isNone_iff_eq_none.mp h

theorem pendingWrite?_eq_some {l : Line} {w : Write} :
    l.pendingWrite? = some w ↔ l.committed = false ∧ l.write? = some w := by
  unfold pendingWrite?
  cases l.committed <;> simp

theorem isStore_commit (l : Line) : l.commit.isStore = l.isStore := by
  unfold commit
  split <;> rfl

theorem write?_commit (l : Line) : l.commit.write? = l.write? := by
  unfold commit
  split <;> rfl

end Line

namespace Buffer

/-- The writes of the buffer that memory does not hold yet, oldest first. -/
def pending (b : Buffer) : List Write := b.lines.filterMap Line.pendingWrite?

theorem pending_dropLeadingFences (b : Buffer) : b.dropLeadingFences.2.pending = b.pending := by
  show (b.lines.dropWhile _).filterMap _ = b.lines.filterMap _
  induction b.lines with
  | nil => rfl
  | cons l rest ih =>
    cases h : l.isFence with
    | false => simp [h]
    | true => simp [h, ih, Line.pendingWrite?_eq_none_of_isFence h]

theorem filterMap_pendingWrite?_commit (ls : List Line) :
    (ls.map Line.commit).filterMap Line.pendingWrite? = [] := by
  simp [List.filterMap_map, Line.pendingWrite?_commit]

/-- Draining the first `n` lines writes what is pending among them; the rest stays pending. -/
theorem pending_drain (b : Buffer) (n : Nat) (r : Region) :
    (b.drain n r).writes ++ (b.drain n r).kept.pending = b.pending := by
  have hfront : (((b.lines.take n).map Line.commit).filter (!·.touches r)).filterMap
      Line.pendingWrite? = [] := by
    have hsub := (List.filter_sublist (p := fun l : Line => !l.touches r)
      (l := (b.lines.take n).map Line.commit)).filterMap Line.pendingWrite?
    rw [filterMap_pendingWrite?_commit] at hsub
    exact List.sublist_nil.mp hsub
  unfold drain
  dsimp only
  rw [pending_dropLeadingFences, pending, List.filterMap_append, hfront, List.nil_append,
    ← List.filterMap_append, List.take_append_drop]
  rfl

/-- Eviction takes away the pending writes that start in the range. -/
theorem pending_evict (b : Buffer) (range : Region) :
    (b.evict range).kept.pending = b.pending.filter fun w => !range.contains w.loc.addr := by
  unfold evict
  dsimp only
  rw [pending_dropLeadingFences]
  show (b.lines.filter _).filterMap _ = (b.lines.filterMap _).filter _
  induction b.lines with
  | nil => rfl
  | cons l rest ih =>
    cases hw : l.pendingWrite? with
    | none => cases h : l.addr?.any range.contains <;> simp [hw, h, ih]
    | some w =>
      have haddr : l.addr? = some w.loc.addr := by
        simp [Line.addr?, Line.loc?, (Line.pendingWrite?_eq_some.mp hw).2]
      cases h : range.contains w.loc.addr <;> simp [hw, h, haddr, ih]

/-- A change to a line that its pending write survives. -/
theorem pending_modify (b : Buffer) (i : Nat) {f : Line → Line}
    (hf : ∀ l, (f l).pendingWrite? = l.pendingWrite?) : (b.modify i f).pending = b.pending := by
  show (b.lines.modify i f).filterMap _ = b.lines.filterMap _
  induction b.lines generalizing i with
  | nil => simp
  | cons l rest ih =>
    cases i with
    | zero => simp [List.filterMap_cons, hf]
    | succ i => simp [List.filterMap_cons, ih]

/-- A change to the newest line leaves the others where they are. -/
theorem exists_modify_newest {b : Buffer} {newest : Line} (h : b.newest? = some newest)
    (f : Line → Line) : ∃ older, b.lines = older ++ [newest] ∧
      (b.modify (b.size - 1) f).lines = older ++ [f newest] := by
  obtain ⟨older, hlines⟩ := List.getLast?_eq_some_iff.mp h
  refine ⟨older, hlines, ?_⟩
  show b.lines.modify (b.lines.length - 1) f = _
  rw [hlines, List.length_append, List.length_singleton, Nat.add_sub_cancel,
    List.modify_eq_take_drop, List.take_left, List.drop_left]
  rfl

theorem pending_push (b : Buffer) (l : Line) :
    (b.push l).pending = b.pending ++ l.pendingWrite?.toList := by
  show (b.lines ++ [l]).filterMap _ = b.lines.filterMap _ ++ _
  cases h : l.pendingWrite? <;> simp [h]

end Buffer

namespace Table

theorem linesOf_of_buffer? {t : Table} {o : ThreadId} {b : Buffer}
    (h : t.buffer? o = some b) : t.linesOf o = b.lines := by
  rw [linesOf, h]
  rfl

theorem linesOf_of_mem {t : Table} (h : t.owners.Nodup) {s : Slot} (hs : s ∈ t.slots) :
    t.linesOf s.owner = s.buffer.lines := by
  obtain ⟨slots⟩ := t
  unfold linesOf buffer?
  unfold owners at h
  dsimp only at h hs ⊢
  induction slots with
  | nil => contradiction
  | cons q rest ih =>
    obtain ⟨hq, hrest⟩ := List.nodup_cons.mp h
    rcases List.mem_cons.mp hs with rfl | hs
    · simp
    · have hne : q.owner ≠ s.owner := fun heq => hq (List.mem_map.mpr ⟨s, hs, heq.symm⟩)
      rw [List.find?_cons_of_neg (by simpa using hne)]
      exact ih hrest hs

theorem buffer?_of_mem {t : Table} (h : t.owners.Nodup) {s : Slot} (hs : s ∈ t.slots) :
    t.buffer? s.owner = some s.buffer := by
  cases hb : t.buffer? s.owner with
  | none =>
    have hsome := (isSome_buffer? t s.owner).mpr (List.mem_map_of_mem hs)
    simp [hb] at hsome
  | some b =>
    have hlines := linesOf_of_mem h hs
    rw [linesOf_of_buffer? hb] at hlines
    exact congrArg (fun ls => some (Buffer.mk ls)) hlines

theorem exists_slot_of_buffer? {t : Table} {o : ThreadId} {b : Buffer} (h : t.buffer? o = some b) :
    ∃ s ∈ t.slots, s.owner = o ∧ s.buffer = b := by
  obtain ⟨s, hs, rfl⟩ := Option.map_eq_some_iff.mp h
  exact ⟨s, List.mem_of_find?_eq_some hs, by simpa using List.find?_some hs, rfl⟩

theorem linesOf_of_not_mem {t : Table} {o : ThreadId} (h : o ∉ t.owners) : t.linesOf o = [] := by
  rw [← isSome_buffer?, Option.not_isSome_iff_eq_none] at h
  rw [linesOf, h]
  rfl

theorem mem_linesOf_of_mem_lines {t : Table} (h : t.owners.Nodup) {l : Line} (hl : l ∈ t.lines) :
    ∃ o, l ∈ t.linesOf o := by
  obtain ⟨s, hs, hls⟩ := List.mem_flatMap.mp hl
  refine ⟨s.owner, ?_⟩
  rwa [linesOf_of_mem h hs]

/-- The writes of a thread that memory does not hold yet, oldest first. -/
def pending (t : Table) (o : ThreadId) : List Write := (t.linesOf o).filterMap Line.pendingWrite?

theorem pending_of_buffer? {t : Table} {o : ThreadId} {b : Buffer} (h : t.buffer? o = some b) :
    t.pending o = b.pending := by
  rw [pending, linesOf, h]
  rfl

theorem pending_of_no_buffer {t : Table} {o : ThreadId} (h : t.buffer? o = none) :
    t.pending o = [] := by
  rw [pending, linesOf, h]
  rfl

theorem pending_of_mem_slots {t : Table} (h : t.owners.Nodup) {s : Slot} (hs : s ∈ t.slots) :
    t.pending s.owner = s.buffer.pending :=
  pending_of_buffer? (buffer?_of_mem h hs)

theorem mem_pending_iff {t : Table} (h : t.owners.Nodup) {o : ThreadId} {w : Write} :
    w ∈ t.pending o ↔ ∃ s ∈ t.slots, s.owner = o ∧ w ∈ s.buffer.pending := by
  constructor
  · intro hw
    cases hb : t.buffer? o with
    | none =>
      rw [pending_of_no_buffer hb] at hw
      contradiction
    | some b =>
      obtain ⟨s, hs, rfl, rfl⟩ := exists_slot_of_buffer? hb
      exact ⟨s, hs, rfl, by rwa [pending_of_buffer? hb] at hw⟩
  · rintro ⟨s, hs, rfl, hw⟩
    rwa [pending_of_mem_slots h hs]

theorem buffer?_map (t : Table) {g : Slot → Slot} (hg : ∀ s, (g s).owner = s.owner)
    (o : ThreadId) : Table.buffer? ⟨t.slots.map g⟩ o =
      (t.slots.find? (·.owner = o)).map fun s => (g s).buffer := by
  rw [buffer?, List.find?_map, Option.map_map]
  simp only [Function.comp_def, hg]

theorem owners_map (t : Table) {g : Slot → Slot} (hg : ∀ s, (g s).owner = s.owner) :
    Table.owners ⟨t.slots.map g⟩ = t.owners := by
  rw [owners, List.map_map]
  exact List.map_congr_left fun s _ => hg s

theorem linesOf_mapLines (t : Table) (f : Line → Line) (o : ThreadId) :
    (t.mapLines f).linesOf o = (t.linesOf o).map f := by
  rw [linesOf, mapLines, buffer?_map]
  · unfold linesOf buffer?
    cases t.slots.find? (·.owner = o) <;> simp [Buffer.map]
  · intro s
    rfl

theorem pending_unnumbered (t : Table) (o : ThreadId) :
    (t.mapLines Line.unnumbered).pending o = t.pending o := by
  rw [pending, linesOf_mapLines, Line.filterMap_unnumbered, pending]

theorem linesOf_modify (t : Table) (owner : ThreadId) (f : Buffer → Buffer) (o : ThreadId) :
    (t.modify owner f).linesOf o =
      if o = owner then ((t.buffer? o).map fun b => (f b).lines).getD [] else t.linesOf o := by
  rw [linesOf, buffer?_modify]
  split
  · cases t.buffer? o <;> rfl
  · rfl

theorem pending_modify (t : Table) (owner : ThreadId) (f : Buffer → Buffer) (o : ThreadId) :
    (t.modify owner f).pending o =
      if o = owner then ((t.buffer? o).map fun b => (f b).pending).getD [] else t.pending o := by
  rw [pending, linesOf, buffer?_modify]
  by_cases h : o = owner
  · rw [if_pos h, if_pos h]
    cases t.buffer? o <;> rfl
  · rw [if_neg h, if_neg h]
    rfl

/-- Numbers are all that changes when others retire. -/
theorem retire_eq_mapLines (retired : List Line) (t : Table) :
    t.retire retired = t.mapLines (Line.renumber retired) := by
  unfold retire releaseAtomicNos releaseSeqNos mapLines
  simp only [List.map_map, Function.comp_def, Buffer.map]
  refine congrArg Table.mk (List.map_congr_left fun s _ => ?_)
  refine congrArg (fun ls => (⟨s.owner, ⟨ls⟩⟩ : Slot)) (List.map_congr_left fun l _ => ?_)
  obtain ⟨write?, order, seqNo, atomicNo, committed⟩ := l
  cases write? <;> rfl

theorem linesOf_retire (retired : List Line) (t : Table) (o : ThreadId) :
    (t.retire retired).linesOf o = (t.linesOf o).map (Line.renumber retired) := by
  rw [retire_eq_mapLines, linesOf_mapLines]

theorem pending_retire (retired : List Line) (t : Table) (o : ThreadId) :
    (t.retire retired).pending o = t.pending o := by
  rw [pending, linesOf_retire, List.filterMap_map]
  rfl

theorem pending_prune {t : Table} (h : t.owners.Nodup) (o : ThreadId) :
    t.prune.pending o = t.pending o := by
  rw [pending, linesOf_prune h]
  rfl

theorem pending_append (t : Table) (owner o : ThreadId) (l : Line) :
    (t.append owner l).pending o =
      if o = owner then t.pending o ++ l.pendingWrite?.toList else t.pending o := by
  rw [pending, linesOf_append]
  split
  · exact Buffer.pending_push ⟨t.linesOf o⟩ l
  · rfl

theorem nodup_owners_prune {t : Table} (h : t.owners.Nodup) : t.prune.owners.Nodup :=
  h.sublist (List.filter_sublist.map _)

theorem nodup_owners_append {t : Table} (h : t.owners.Nodup) (owner : ThreadId) (l : Line) :
    (t.append owner l).owners.Nodup := by
  unfold append
  split
  · rw [owners_modify]
    exact h
  · rename_i hnone
    rw [isSome_buffer?] at hnone
    rw [owners, List.map_append]
    refine List.nodup_append.mpr ⟨h, List.pairwise_singleton .., ?_⟩
    rintro a ha b hb rfl
    have hb : a = owner := by simpa using hb
    exact hnone (hb ▸ ha)

end Table

end StoreBuffer
