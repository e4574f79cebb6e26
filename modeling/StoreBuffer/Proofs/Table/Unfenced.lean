import Mathlib.Data.List.InsertIdx
import StoreBuffer.Proofs.Buffer.Prefix
import StoreBuffer.Proofs.Machine.Shape

/-! # Tables without their fences

Fences take no part in what a table does with its stores. `Table.unfenced` leaves them out, and every
operation on a tidy table that moves stores moves them there in the same way. A position in a buffer
becomes the number of stores up to it. -/

namespace StoreBuffer

namespace Line

variable {ls : List Line}

theorem isFence_eq_not_isStore (l : Line) : l.isFence = !l.isStore := by
  rw [isStore_eq_not_isFence, Bool.not_not]

theorem isStore_of_isAt {l : Line} {loc : Location} (h : l.isAt loc = true) : l.isStore = true := by
  unfold isAt loc? at h
  cases hw : l.write? with
  | none => simp [hw] at h
  | some w => simp [isStore, hw]

theorem isStore_of_touches {l : Line} {r : Region} (h : l.touches r = true) : l.isStore = true := by
  unfold touches at h
  cases hw : l.write? with
  | none => simp [hw] at h
  | some w => simp [isStore, hw]

theorem isStore_of_addr? {l : Line} {p : Addr → Bool} (h : l.addr?.any p = true) :
    l.isStore = true := by
  unfold addr? loc? at h
  cases hw : l.write? with
  | none => simp [hw] at h
  | some w => simp [isStore, hw]

/-- Leaving out what a filter leaves out anyway. -/
theorem filter_isStore_of {p : Line → Bool} (hp : ∀ l, p l = true → l.isStore = true) :
    (ls.filter (·.isStore)).filter p = ls.filter p := by
  rw [List.filter_filter]
  refine List.filter_congr fun l _ => ?_
  cases h : p l with
  | false => rfl
  | true => rw [hp l h, Bool.true_and]

theorem filter_isStore_comm (p : Line → Bool) (ls : List Line) :
    (ls.filter p).filter (·.isStore) = (ls.filter (·.isStore)).filter p := by
  rw [List.filter_filter, List.filter_filter]
  simp only [Bool.and_comm]

theorem filter_dropWhile_isFence (ls : List Line) :
    (ls.dropWhile (·.isFence)).filter (·.isStore) = ls.filter (·.isStore) := by
  induction ls with
  | nil => rfl
  | cons l rest ih =>
    cases h : l.isFence with
    | false => simp [h]
    | true =>
      have hl : l.isStore = false := by simp [isStore_eq_not_isFence, h]
      simp [h, hl, ih]

theorem filter_takeWhile_isFence (ls : List Line) :
    (ls.takeWhile (·.isFence)).filter (·.isStore) = [] := by
  rw [List.filter_eq_nil_iff]
  intro l hl
  have hfence := List.all_takeWhile (p := (·.isFence)) (l := ls)
  rw [isStore_eq_not_isFence, List.all_eq_true.mp hfence l hl]
  simp

theorem dropWhile_isFence_of_stores (h : ∀ l ∈ ls, l.isStore = true) :
    ls.dropWhile (·.isFence) = ls := by
  cases ls with
  | nil => rfl
  | cons l rest =>
    have hl := h l (List.mem_cons_self ..)
    rw [List.dropWhile_cons_of_neg (by simp [isFence_eq_not_isStore, hl])]

theorem takeWhile_isFence_of_stores (h : ∀ l ∈ ls, l.isStore = true) :
    ls.takeWhile (·.isFence) = [] := by
  cases ls with
  | nil => rfl
  | cons l rest =>
    have hl := h l (List.mem_cons_self ..)
    rw [List.takeWhile_cons_of_neg (by simp [isFence_eq_not_isStore, hl])]

theorem filter_isStore_split (ls : List Line) (n : Nat) :
    (ls.take n).filter (·.isStore) ++ (ls.drop n).filter (·.isStore) = ls.filter (·.isStore) := by
  rw [← List.filter_append, List.take_append_drop]

/-- A prefix without its fences is as long as it has stores. -/
theorem filter_take (ls : List Line) (n : Nat) : (ls.take n).filter (·.isStore) =
    (ls.filter (·.isStore)).take ((ls.take n).countP (·.isStore)) := by
  rw [← filter_isStore_split ls n, List.countP_eq_length_filter, List.take_left]

theorem filter_drop (ls : List Line) (n : Nat) : (ls.drop n).filter (·.isStore) =
    (ls.filter (·.isStore)).drop ((ls.take n).countP (·.isStore)) := by
  rw [← filter_isStore_split ls n, List.countP_eq_length_filter, List.drop_left]

theorem filterMap_pendingWrite?_filter (ls : List Line) :
    (ls.filter (·.isStore)).filterMap pendingWrite? = ls.filterMap pendingWrite? := by
  induction ls with
  | nil => rfl
  | cons l rest ih =>
    cases h : l.isStore with
    | true => rw [List.filter_cons_of_pos h, List.filterMap_cons, List.filterMap_cons, ih]
    | false =>
      have hnone : l.pendingWrite? = none :=
        pendingWrite?_eq_none_of_isFence (by simp [isFence_eq_not_isStore, h])
      rw [List.filter_cons_of_neg (by simp [h]), List.filterMap_cons_none hnone, ih]

theorem filter_map_commit (ls : List Line) :
    (ls.map commit).filter (·.isStore) = (ls.filter (·.isStore)).map commit := by
  rw [List.filter_map]
  exact congrArg (List.map commit) (List.filter_congr fun l _ => isStore_commit l)

/-- Fences without a place among the sequentially consistent lines free no numbers. -/
theorem renumber_filter_isStore (h : ∀ l ∈ ls, l.isFence = true → l.seqNo = 0) :
    renumber (ls.filter (·.isStore)) = renumber ls := by
  have hseq : ((ls.filter (·.isStore)).map (·.seqNo)).filter (· ≠ 0) =
      (ls.map (·.seqNo)).filter (· ≠ 0) := by
    rw [List.filter_map, List.filter_map, List.filter_filter]
    refine congrArg _ (List.filter_congr fun l hl => ?_)
    cases hstore : l.isStore with
    | true => simp
    | false =>
      have hzero := h l hl (by simp [isFence_eq_not_isStore, hstore])
      simp [hzero]
  funext l
  unfold renumber Counter.descending
  rw [hseq]
  simp only [filter_isStore_of fun _ => isStore_of_isAt]

end Line

namespace Buffer

variable {b : Buffer}

/-- The buffer without its fences. -/
def unfenced (b : Buffer) : Buffer := ⟨b.lines.filter (·.isStore)⟩

/-- How many of the first `n` lines are stores. -/
def storesBefore (b : Buffer) (n : Nat) : Nat := (b.lines.take n).countP (·.isStore)

theorem isStore_of_mem_unfenced {l : Line} (h : l ∈ b.unfenced.lines) : l.isStore = true :=
  (List.mem_filter.mp h).2

theorem storeCount_unfenced (b : Buffer) : b.unfenced.storeCount = b.storeCount := by
  rw [storeCount, unfenced, List.countP_filter]
  simp [storeCount]

theorem oldest?_unfenced (h : b.Tidy) : b.unfenced.oldest? = b.oldest? := by
  have holdest := h.oldest
  unfold oldest? unfenced at *
  cases hb : b.lines with
  | nil => rfl
  | cons l rest =>
    rw [hb] at holdest
    rw [List.filter_cons_of_pos (holdest l rfl)]
    rfl

theorem isEmpty_unfenced (h : b.Tidy) : b.unfenced.isEmpty = b.isEmpty := by
  have holdest := oldest?_unfenced h
  unfold oldest? at holdest
  rw [isEmpty, isEmpty, Bool.eq_iff_iff, List.isEmpty_iff, List.isEmpty_iff,
    ← List.head?_eq_none_iff, ← List.head?_eq_none_iff, holdest]

theorem pendingNewestFirst_unfenced (b : Buffer) (r : Region) :
    b.unfenced.pendingNewestFirst r = b.pendingNewestFirst r := by
  unfold pendingNewestFirst unfenced
  rw [← List.filter_reverse, Line.filterMap_pendingWrite?_filter]

theorem shortcut?_unfenced (b : Buffer) (loc : Location) :
    b.unfenced.shortcut? loc = b.shortcut? loc := by
  rw [shortcut?, pendingNewestFirst_unfenced, shortcut?]

theorem merge_unfenced (b : Buffer) (loc : Location) (fromMemory : UInt64) :
    b.unfenced.merge loc fromMemory = b.merge loc fromMemory := by
  rw [merge, pendingNewestFirst_unfenced, merge]

theorem hasCommittedAt_unfenced (b : Buffer) (r : Region) :
    b.unfenced.hasCommittedAt r = b.hasCommittedAt r := by
  unfold hasCommittedAt unfenced
  rw [List.any_filter]
  refine congrArg (List.any b.lines) (funext fun l => ?_)
  cases h : l.touches r with
  | false => simp
  | true => rw [Line.isStore_of_touches h, Bool.true_and]

theorem storesBefore_cons (l : Line) (rest : List Line) (n : Nat) :
    (⟨l :: rest⟩ : Buffer).storesBefore (n + 1) =
      (if l.isStore then 1 else 0) + (⟨rest⟩ : Buffer).storesBefore n := by
  rw [storesBefore, List.take_succ_cons, List.countP_cons, Nat.add_comm]
  rfl

/-- Without fences a pending store stands where the stores up to it put it. -/
theorem pendingAt_unfenced (b : Buffer) (r : Region) : (b.unfenced.pendingAt r).map (· + 1) =
    (b.pendingAt r).map fun i => b.storesBefore (i + 1) := by
  obtain ⟨lines⟩ := b
  induction lines with
  | nil => rfl
  | cons l rest ih =>
    have hlater (n : Nat) : ((⟨rest⟩ : Buffer).pendingAt r).map
        (fun i => n + (⟨rest⟩ : Buffer).storesBefore (i + 1)) =
        ((⟨rest⟩ : Buffer).unfenced.pendingAt r).map (n + 1 + ·) := by
      have hmap := congrArg (List.map (n + ·)) ih
      rw [List.map_map, List.map_map] at hmap
      refine hmap.symm.trans (List.map_congr_left fun i _ => ?_)
      simp only [Function.comp]
      omega
    rw [pendingAt_cons, List.map_append, List.map_map]
    simp only [Function.comp_def, storesBefore_cons]
    rw [hlater]
    unfold unfenced
    cases hstore : l.isStore with
    | false =>
      have htouch : l.touches r = false := by
        rw [← Bool.not_eq_true]
        exact fun h => by simp [Line.isStore_of_touches h] at hstore
      rw [List.filter_cons_of_neg (by simp [hstore])]
      simp [htouch, Nat.add_comm]
    | true =>
      rw [List.filter_cons_of_pos hstore, pendingAt_cons, List.map_append, List.map_map]
      congr 1
      · split <;> simp [storesBefore]
      · refine List.map_congr_left fun i _ => ?_
        simp only [Function.comp, if_true]
        omega

theorem writes_drain_unfenced (b : Buffer) (n : Nat) (r : Region) :
    (b.unfenced.drain (b.storesBefore n) r).writes = (b.drain n r).writes := by
  show (b.unfenced.lines.take (b.storesBefore n)).filterMap Line.pendingWrite? =
    (b.lines.take n).filterMap Line.pendingWrite?
  rw [unfenced, storesBefore, ← Line.filter_take, Line.filterMap_pendingWrite?_filter]

end Buffer

namespace Departure

variable {b : Buffer}

/-- The departure as it shows in the buffer without its fences. -/
def unfenced (b : Buffer) : Departure → Departure
  | front n r => front (b.storesBefore n) r
  | d => d

/-- The lines that a drain commits and does not drop, and those behind, are stores if fences are
left out. -/
theorem isStore_of_mem_drained {n : Nat} {r : Region} {l : Line}
    (h : l ∈ (((b.unfenced.lines.take n).map Line.commit).filter (!·.touches r)) ++
      b.unfenced.lines.drop n) : l.isStore = true := by
  rcases List.mem_append.mp h with h | h
  · obtain ⟨k, hk, rfl⟩ := List.mem_map.mp (List.mem_filter.mp h).1
    rw [Line.isStore_commit]
    exact Buffer.isStore_of_mem_unfenced (List.mem_of_mem_take hk)
  · exact Buffer.isStore_of_mem_unfenced (List.mem_of_mem_drop h)

theorem unfenced_erase (h : b.Tidy) :
    (b.erase 0).2.unfenced = (b.unfenced.erase 0).2 ∧ (b.erase 0).1 = (b.unfenced.erase 0).1 := by
  have holdest := h.oldest
  unfold Buffer.oldest? at holdest
  unfold Buffer.erase Buffer.unfenced
  cases hb : b.lines with
  | nil => exact ⟨rfl, rfl⟩
  | cons l rest =>
    rw [hb] at holdest
    rw [List.filter_cons_of_pos (holdest l rfl)]
    exact ⟨rfl, rfl⟩

theorem isStore_of_erase {l : Line} (h : (b.unfenced.erase 0).1 = some l) : l.isStore = true :=
  Buffer.isStore_of_mem_unfenced (List.mem_of_getElem? h)

theorem isStore_of_mem_erase {l : Line} (h : l ∈ (b.unfenced.erase 0).2.lines) :
    l.isStore = true := Buffer.isStore_of_mem_unfenced (List.mem_of_mem_eraseIdx h)

theorem isStore_of_mem_evict {p : Line → Bool} {l : Line} (h : l ∈ b.unfenced.lines.filter p) :
    l.isStore = true := Buffer.isStore_of_mem_unfenced (List.mem_filter.mp h).1

theorem stay_unfenced (h : b.Tidy) (d : Departure) :
    (d.stay b).unfenced = (d.unfenced b).stay b.unfenced := by
  refine congrArg Buffer.mk (?_ : _ = ((d.unfenced b).stay b.unfenced).lines)
  cases d with
  | front n r =>
    show ((((b.lines.take n).map Line.commit).filter _ ++ b.lines.drop n).dropWhile _).filter _ =
      (((b.unfenced.lines.take (b.storesBefore n)).map Line.commit).filter _ ++
        b.unfenced.lines.drop (b.storesBefore n)).dropWhile _
    rw [Line.dropWhile_isFence_of_stores fun _ => isStore_of_mem_drained,
      Line.filter_dropWhile_isFence, List.filter_append, Line.filter_isStore_comm,
      Line.filter_map_commit, Line.filter_take, Line.filter_drop]
    rfl
  | oldest =>
    show ((b.erase 0).2.lines.dropWhile _).filter _ = (b.unfenced.erase 0).2.lines.dropWhile _
    rw [Line.dropWhile_isFence_of_stores fun _ => isStore_of_mem_erase,
      Line.filter_dropWhile_isFence, ← (unfenced_erase h).1]
    rfl
  | range r =>
    show ((b.lines.filter _).dropWhile _).filter _ = (b.unfenced.lines.filter _).dropWhile _
    rw [Line.dropWhile_isFence_of_stores fun _ => isStore_of_mem_evict,
      Line.filter_dropWhile_isFence, Line.filter_isStore_comm]
    rfl
  | all => rfl

theorem gone_unfenced (h : b.Tidy) (d : Departure) :
    (d.gone b).filter (·.isStore) = (d.unfenced b).gone b.unfenced := by
  cases d with
  | front n r =>
    show (((b.lines.take n).map Line.commit).filter _ ++ List.takeWhile _ _).filter _ =
      ((b.unfenced.lines.take (b.storesBefore n)).map Line.commit).filter _ ++ List.takeWhile _ _
    rw [Line.takeWhile_isFence_of_stores fun _ => isStore_of_mem_drained, List.filter_append,
      Line.filter_takeWhile_isFence, Line.filter_isStore_comm, Line.filter_map_commit,
      Line.filter_take]
    rfl
  | oldest =>
    show ((b.erase 0).1.toList.map Line.commit ++ List.takeWhile _ _).filter _ =
      (b.unfenced.erase 0).1.toList.map Line.commit ++ List.takeWhile _ _
    rw [Line.takeWhile_isFence_of_stores fun _ => isStore_of_mem_erase, List.filter_append,
      Line.filter_takeWhile_isFence, Line.filter_map_commit, (unfenced_erase h).2,
      List.filter_eq_self.mpr fun l hl => isStore_of_erase (Option.mem_toList.mp hl)]
  | range r =>
    show (b.lines.filter _ ++ List.takeWhile _ _).filter _ =
      b.unfenced.lines.filter _ ++ List.takeWhile _ (b.unfenced.lines.filter _)
    rw [Line.takeWhile_isFence_of_stores fun _ => isStore_of_mem_evict, List.filter_append,
      Line.filter_takeWhile_isFence, Line.filter_isStore_comm]
    rfl
  | all => rfl

end Departure

namespace Table

variable {t : Table} {o : ThreadId}

/-- The table without its fences. A slot stays even if there is nothing else in it. -/
def unfenced (t : Table) : Table :=
  ⟨t.slots.map fun s => { s with buffer := s.buffer.unfenced }⟩

/-- How many stores of a thread stand up to a position. -/
def rank (t : Table) (o : ThreadId) (i : Nat) : Nat :=
  (⟨t.linesOf o⟩ : Buffer).storesBefore (i + 1)

theorem buffer?_unfenced (t : Table) (o : ThreadId) :
    t.unfenced.buffer? o = (t.buffer? o).map Buffer.unfenced := by
  have hmap := buffer?_map t (g := fun s => { s with buffer := s.buffer.unfenced }) (fun _ => rfl) o
  rw [unfenced, hmap, buffer?, Option.map_map]
  rfl

theorem lines_unfenced (t : Table) : t.unfenced.lines = t.lines.filter (·.isStore) := by
  rw [lines, unfenced, List.flatMap_map, lines, List.filter_flatMap]
  rfl

theorem hasForeign_unfenced (t : Table) (o : ThreadId) :
    t.unfenced.hasForeign o = t.hasForeign o := by
  rw [hasForeign, unfenced, List.any_map]
  rfl

theorem unfenced_mapLines (t : Table) {f : Line → Line} (hf : ∀ l, (f l).isStore = l.isStore) :
    (t.mapLines f).unfenced = t.unfenced.mapLines f := by
  have hbuffer (b : Buffer) : (b.map f).unfenced = b.unfenced.map f := by
    refine congrArg Buffer.mk ?_
    rw [Buffer.map, List.filter_map]
    exact congrArg (List.map f) (List.filter_congr fun l _ => hf l)
  simp only [unfenced, mapLines, List.map_map, Function.comp_def, hbuffer]

theorem unfenced_retire {retired : List Line}
    (h : ∀ l ∈ retired, l.isFence = true → l.seqNo = 0) (t : Table) :
    (t.retire retired).unfenced = t.unfenced.retire (retired.filter (·.isStore)) := by
  rw [retire_eq_mapLines, retire_eq_mapLines, Line.renumber_filter_isStore h,
    unfenced_mapLines (f := Line.renumber retired) t fun _ => rfl]

theorem unfenced_modify (t : Table) (o : ThreadId) {f g : Buffer → Buffer}
    (h : ∀ b, t.buffer? o = some b → (f b).unfenced = g b.unfenced) (howners : t.owners.Nodup) :
    (t.modify o f).unfenced = t.unfenced.modify o g := by
  unfold unfenced modify
  rw [List.map_map, List.map_map]
  refine congrArg Table.mk (List.map_congr_left fun s hs => ?_)
  dsimp only [Function.comp]
  by_cases hs' : s.owner = o
  · subst hs'
    rw [if_pos rfl, if_pos rfl, h s.buffer (buffer?_of_mem howners hs)]
  · rw [if_neg hs', if_neg hs']

/-- A change that keeps the stores of the buffer does not show. -/
theorem unfenced_modify_id (h : t.owners.Nodup) {b : Buffer} (hb : t.buffer? o = some b)
    {f : Buffer → Buffer} (hf : (f b).unfenced = b.unfenced) :
    (t.modify o f).unfenced = t.unfenced := by
  have hsame : t.unfenced.modify o id = t.unfenced := by
    unfold modify
    simp
  rw [unfenced_modify (g := id) t o (fun b' hb' => ?_) h, hsame]
  obtain rfl : b = b' := Option.some.inj (hb.symm.trans hb')
  exact hf

theorem Tidy.buffer (h : t.Tidy) {b : Buffer} (hb : t.buffer? o = some b) : b.Tidy := by
  have hbuffer := h.buffers o
  rwa [linesOf_of_buffer? hb] at hbuffer

/-- A departure of one thread's lines shows without fences as one of its stores. -/
theorem unfenced_departed (h : t.Tidy) {b : Buffer} (hb : t.buffer? o = some b) (d : Departure) :
    ((t.modify o fun _ => d.stay b).retire (d.gone b)).unfenced =
      (t.unfenced.modify o fun _ => (d.unfenced b).stay b.unfenced).retire
        ((d.unfenced b).gone b.unfenced) := by
  have hbuffer := h.buffer hb
  have hgone : ∀ l ∈ d.gone b, l.isFence = true → l.seqNo = 0 := by
    intro l hl _
    obtain ⟨k, hk, hsame⟩ := Departure.mem_gone hl
    exact (congrArg Line.seqNo hsame).trans (hbuffer.lines k hk).seqNo
  have hstay : (t.modify o fun _ => d.stay b).unfenced =
      t.unfenced.modify o fun _ => (d.unfenced b).stay b.unfenced :=
    unfenced_modify t o (fun _ _ => Departure.stay_unfenced hbuffer d) h.owners
  rw [unfenced_retire hgone, Departure.gone_unfenced hbuffer, hstay]

theorem tidy_buffer (h : t.Tidy) {s : Slot} (hs : s ∈ t.slots) : s.buffer.Tidy := by
  have hbuffer := h.buffers s.owner
  rwa [linesOf_of_mem h.owners hs] at hbuffer

/-- A departure without a position is the same without fences. -/
theorem unfenced_depart (h : t.Tidy) (only : Option ThreadId) {d : Departure}
    (hd : ∀ b, d.unfenced b = d) : (t.depart only d).unfenced = t.unfenced.depart only d := by
  have hleaving : (t.leaving only d).filter (·.isStore) = t.unfenced.leaving only d := by
    unfold leaving unfenced
    rw [List.filter_flatMap, List.filter_map, List.flatMap_map]
    refine congrArg List.flatten (List.map_congr_left fun s hs => ?_)
    rw [Departure.gone_unfenced (tidy_buffer h (List.mem_filter.mp hs).1), hd]
  have hremaining : (t.remaining only d).unfenced = t.unfenced.remaining only d := by
    unfold remaining unfenced
    rw [List.map_map, List.map_map]
    refine congrArg Table.mk (List.map_congr_left fun s hs => ?_)
    dsimp only [Function.comp]
    split
    · rw [Departure.stay_unfenced (tidy_buffer h hs), hd]
    · rfl
  rw [depart, unfenced_retire fun l hl _ => h.seqNo_leaving l hl, hleaving, hremaining, depart]

/-- The stores that a discard takes are found without fences. -/
theorem stores_evict_unfenced (t : Table) (only : Option ThreadId) (range : Region) :
    ((t.unfenced.slots.filter fun s => only.all (· = s.owner)).map
        (·.buffer.evict range)).flatMap (·.stores) =
      ((t.slots.filter fun s => only.all (· = s.owner)).map
        (·.buffer.evict range)).flatMap (·.stores) := by
  have hstores (b : Buffer) : (b.unfenced.evict range).stores = (b.evict range).stores := by
    show (b.lines.filter (·.isStore)).filter (fun l => !!l.addr?.any range.contains) =
      b.lines.filter fun l => !!l.addr?.any range.contains
    exact Line.filter_isStore_of fun l hl => Line.isStore_of_addr? (by simpa using hl)
  unfold unfenced
  rw [List.filter_map, List.map_map, List.flatMap_map, List.flatMap_map]
  exact congrArg List.flatten (List.map_congr_left fun s _ => hstores s.buffer)

theorem unfenced_prune (h : t.Tidy) : t.prune.unfenced = t.unfenced.prune := by
  unfold prune unfenced
  rw [List.filter_map]
  refine congrArg (fun ss => Table.mk (List.map _ ss)) (List.filter_congr fun s hs => ?_)
  dsimp only [Function.comp]
  rw [Buffer.isEmpty_unfenced (tidy_buffer h hs)]

theorem unfenced_append (h : t.owners.Nodup) (o : ThreadId) {l : Line} (hl : l.isStore = true) :
    (t.append o l).unfenced = t.unfenced.append o l := by
  have hpush (b : Buffer) : (b.push l).unfenced = b.unfenced.push l := by
    refine congrArg Buffer.mk ?_
    rw [Buffer.push, List.filter_append, List.filter_cons_of_pos hl]
    rfl
  unfold append
  rw [buffer?_unfenced, Option.isSome_map]
  split
  · exact unfenced_modify t o (fun b _ => hpush b) h
  · show Table.mk ((t.slots ++ [(⟨o, ⟨[l]⟩⟩ : Slot)]).map _) = _
    rw [List.map_append, List.map_singleton, Buffer.unfenced, List.filter_cons_of_pos hl]
    rfl

/-! ## What the operations ask of a table -/

/-- Fences stand in nobody's way, and have no numbers. -/
theorem nextAtomicNo_unfenced (t : Table) (loc : Location) :
    t.unfenced.nextAtomicNo loc = t.nextAtomicNo loc := by
  have hclash : (t.lines.filter (·.isStore)).findSome? (·.clash? loc) =
      t.lines.findSome? (·.clash? loc) := by
    induction t.lines with
    | nil => rfl
    | cons l rest ih =>
      cases hl : l.isStore with
      | true => rw [List.filter_cons_of_pos hl, List.findSome?_cons, List.findSome?_cons, ih]
      | false =>
        have hloc : l.loc? = none := by
          rw [Line.loc?, Option.map_eq_none_iff]
          simpa [Line.isStore] using hl
        have hnone : l.clash? loc = none := by simp [Line.clash?, hloc]
        rw [List.filter_cons_of_neg (by simp [hl]), List.findSome?_cons, hnone, ih]
  rw [nextAtomicNo_eq, nextAtomicNo_eq, lines_unfenced, hclash,
    Line.filter_isStore_of fun _ => Line.isStore_of_isAt]

end Table

namespace Visibility

/-- The candidate with the positions of its stores replaced. -/
def Candidate.ranked (rank : ThreadId → Nat → Nat) (c : Candidate) : Candidate :=
  { c with pending := c.pending.map (rank c.owner) }

def Pick.ranked (rank : ThreadId → Nat → Nat) (p : Pick) : Pick :=
  { p with upTo := p.upTo.map (rank p.owner) }

variable {rank : ThreadId → Nat → Nat}

theorem states_ranked (c : Candidate) : (c.ranked rank).states = c.states := by
  rw [Candidate.states, Candidate.ranked, List.length_map]
  rfl

theorem total_ranked (cs : List Candidate) : total (cs.map (Candidate.ranked rank)) = total cs := by
  rw [total, List.foldr_map]
  simp only [states_ranked]
  rfl

theorem pick?_ranked (c : Candidate) (d : Nat) :
    (c.ranked rank).pick? d = (c.pick? d).map (Pick.ranked rank) := by
  unfold Candidate.pick? Candidate.ranked
  split
  · split <;> rfl
  · rw [List.getElem?_map]
    rfl

theorem all_ranked (cs : List Candidate) :
    (cs.map (Candidate.ranked rank)).all (·.pending.isEmpty) = cs.all (·.pending.isEmpty) := by
  rw [List.all_map]
  refine congrArg (List.all cs) (funext fun c => ?_)
  exact List.isEmpty_map

/-- What is picked does not depend on how positions are told. -/
theorem picks_ranked (cs : List Candidate) (choice : Nat) :
    picks (cs.map (Candidate.ranked rank)) choice = (picks cs choice).map (Pick.ranked rank) := by
  unfold picks
  induction cs generalizing choice with
  | nil => rfl
  | cons c rest ih =>
    rw [List.map_cons, digits, digits, List.zip_cons_cons, List.zip_cons_cons,
      List.filterMap_cons, List.filterMap_cons, states_ranked, ih]
    dsimp only
    rw [pick?_ranked]
    cases c.pick? (choice % c.states) <;> rfl

theorem sourceLast_map (f : Pick → Pick) (ps : List Pick) (source : Nat) :
    sourceLast (ps.map f) source = (sourceLast ps source).map f :=
  (map_moveLast f ps source).symm

end Visibility

namespace Table

open Visibility

/-- The candidates of a table are those of the table without fences, told by rank. -/
theorem candidates_unfenced {t : Table} (h : t.owners.Nodup) (reader : ThreadId) (own : Bool)
    (r : Region) : (t.candidates reader own r).map (Candidate.ranked t.rank) =
      (t.unfenced.candidates reader own r).map (Candidate.ranked fun _ i => i + 1) := by
  unfold candidates
  have hslots : t.unfenced.slots.filter (fun s => own || s.owner ≠ reader) =
      (t.slots.filter fun s => own || s.owner ≠ reader).map fun s =>
        { s with buffer := s.buffer.unfenced } := List.filter_map ..
  rw [hslots, List.map_map, List.map_map, List.map_map]
  refine List.map_congr_left fun s hs => ?_
  have hlines : (⟨t.linesOf s.owner⟩ : Buffer) = s.buffer :=
    congrArg Buffer.mk (linesOf_of_mem h (List.mem_filter.mp hs).1)
  have hrank : t.rank s.owner = fun i => s.buffer.storesBefore (i + 1) := by
    unfold rank
    rw [hlines]
  simp only [Function.comp, Candidate.ranked, Buffer.pendingAt_unfenced,
    Buffer.hasCommittedAt_unfenced, hrank]

end Table

end StoreBuffer
