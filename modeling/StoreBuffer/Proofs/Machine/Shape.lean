import StoreBuffer.Proofs.Machine.Pushing
import StoreBuffer.Proofs.Machine.Reachable
import StoreBuffer.Proofs.Memory.Word

/-! # The shape of a table

What the buffers of a reachable machine look like. Every step of an operation keeps each line well
formed, committed stores in front of the others and a store at the head of every buffer
(`Table.Tidy`). Empty slots and a store too many occur only inside an operation, which ends with a
table without them (`Table.Shaped`). -/

namespace StoreBuffer

namespace Line

/-- A line that can be found in the buffers of a machine. -/
structure WellFormed (l : Line) : Prop where
  store : ∀ w, l.write? = some w →
    w.loc.Valid ∧ w.value.toNat < 2 ^ w.loc.width ∧ l.order.isSeqCst = false
  fence : l.isFence = true → l.committed = false ∧ l.width = 0 ∧ l.atomicNo = 0
  seqNo : l.seqNo = 0

theorem isFence_iff {l : Line} : l.isFence = true ↔ l.write? = none := Option.isNone_iff_eq_none

theorem WellFormed.commit {l : Line} (h : l.WellFormed) : l.commit.WellFormed := by
  unfold Line.commit
  split
  · rename_i hstore
    refine ⟨h.store, fun hfence => ?_, h.seqNo⟩
    have hfence : l.isFence = true := hfence
    simp [isStore_eq_not_isFence, hfence] at hstore
  · exact h

/-- Lines without a place among the sequentially consistent ones leave the others' places alone. -/
theorem WellFormed.renumber {l : Line} (h : l.WellFormed) {retired : List Line}
    (hretired : ∀ r ∈ retired, r.seqNo = 0) : (l.renumber retired).WellFormed := by
  have hnone : Counter.descending (retired.map (·.seqNo)) = [] := by
    have hzero : (retired.map (·.seqNo)).filter (· ≠ 0) = [] := by
      rw [List.filter_eq_nil_iff]
      intro n hn
      obtain ⟨r, hr, rfl⟩ := List.mem_map.mp hn
      simp [hretired r hr]
    rw [Counter.descending, hzero]
    rfl
  refine ⟨h.store, fun hfence => ?_, ?_⟩
  · have hwrite : l.write? = none := isFence_iff.mp hfence
    obtain ⟨hcommitted, hwidth, hno⟩ := h.fence hfence
    have hloc : l.loc? = none := by rw [loc?, hwrite, Option.map_none]
    refine ⟨hcommitted, hwidth, ?_⟩
    simpa [Line.renumber, hloc] using hno
  · show Counter.closeGaps _ l.seqNo = 0
    rw [hnone]
    exact h.seqNo

theorem wellFormed_of_store {l : Line} {loc : Location} {value : UInt64} {order : Order}
    (hl : l.unnumbered = (store loc value order).unnumbered) (hv : loc.Valid)
    (hseq : order.isSeqCst = false) (hno : l.seqNo = 0) : l.WellFormed := by
  have hwrite : l.write? = some (Write.ofStore loc value) := congrArg Line.write? hl
  have horder : l.order = order := congrArg Line.order hl
  have hwidth : loc.width % 256 = loc.width := Nat.mod_eq_of_lt (by
    have hle : loc.width ≤ 64 := hv.2.2
    omega)
  refine ⟨fun w hw => ?_, fun hfence => ?_, hno⟩
  · obtain rfl : Write.ofStore loc value = w := Option.some.inj (hwrite.symm.trans hw)
    have hmin : min loc.width 64 = loc.width := Nat.min_eq_left hv.2.2
    rw [Write.ofStore, hwidth, Width.toNat_truncate, hmin, horder]
    exact ⟨hv, Nat.mod_lt _ (Nat.two_pow_pos _), hseq⟩
  · rw [isFence_iff, hwrite] at hfence
    contradiction

theorem wellFormed_fence (order : Order) : (fence order).WellFormed :=
  ⟨nofun, fun _ => ⟨rfl, rfl, rfl⟩, rfl⟩

/-- The order of a fence may become any other. -/
theorem WellFormed.withOrder {l : Line} (h : l.WellFormed) (hfence : l.isFence = true)
    (order : Order) : ({ l with order } : Line).WellFormed := by
  refine ⟨fun w hw => ?_, h.fence, h.seqNo⟩
  rw [isFence_iff.mp hfence] at hw
  contradiction

end Line

namespace Buffer

/-- What every step of an operation keeps of a buffer. -/
structure Tidy (b : Buffer) : Prop where
  lines : ∀ l ∈ b.lines, l.WellFormed
  oldest : ∀ l, b.oldest? = some l → l.isStore = true
  committedFirst : (b.lines.filter (·.isStore)).Pairwise fun k l =>
    l.committed = true → k.committed = true

theorem tidy_empty : Tidy {} := ⟨nofun, nofun, .nil⟩

theorem committedFirst_stay {b : Buffer} (h : (b.lines.filter (·.isStore)).Pairwise fun k l =>
    l.committed = true → k.committed = true) (d : Departure) :
    ((d.stay b).lines.filter (·.isStore)).Pairwise fun k l =>
      l.committed = true → k.committed = true := by
  have hclean {ls : List Line} (hls : (ls.filter (·.isStore)).Pairwise fun k l =>
      l.committed = true → k.committed = true) :
      ((ls.dropWhile (·.isFence)).filter (·.isStore)).Pairwise fun k l =>
        l.committed = true → k.committed = true :=
    hls.sublist ((List.dropWhile_sublist _).filter _)
  cases d with
  | front n r =>
    -- the drained lines are committed, and those behind them keep their order
    apply hclean
    rw [List.filter_append]
    have hfront : ∀ l ∈ (((b.lines.take n).map Line.commit).filter (!·.touches r)).filter
        (·.isStore), l.committed = true := by
      intro l hl
      obtain ⟨hl, hstore⟩ := List.mem_filter.mp hl
      obtain ⟨k, -, rfl⟩ := List.mem_map.mp (List.mem_filter.mp hl).1
      rw [Line.isStore_commit] at hstore
      rw [Line.commit, if_pos hstore]
    refine List.pairwise_append.mpr ⟨?_, h.sublist ((List.drop_sublist n _).filter _), ?_⟩
    · exact List.pairwise_of_forall_mem_list fun k hk _ _ _ => hfront k hk
    · exact fun k hk _ _ _ => hfront k hk
  | oldest => exact hclean (h.sublist ((List.eraseIdx_sublist ..).filter _))
  | range r => exact hclean (h.sublist (List.filter_sublist.filter _))
  | all => exact .nil

theorem Tidy.stay {b : Buffer} (h : b.Tidy) (d : Departure) : (d.stay b).Tidy := by
  refine ⟨fun l hl => ?_, fun l => Departure.oldest_stay, committedFirst_stay h.committedFirst d⟩
  obtain hl | ⟨k, hk, rfl⟩ := Departure.mem_stay hl
  · exact h.lines l hl
  · exact (h.lines k hk).commit

theorem Tidy.renumber {b : Buffer} (h : b.Tidy) {retired : List Line}
    (hretired : ∀ r ∈ retired, r.seqNo = 0) : (b.map (Line.renumber retired)).Tidy := by
  refine ⟨?_, ?_, ?_⟩
  · intro l hl
    obtain ⟨k, hk, rfl⟩ := List.mem_map.mp hl
    exact (h.lines k hk).renumber hretired
  · intro l hl
    have hl : (b.lines.map (Line.renumber retired)).head? = some l := hl
    rw [List.head?_map] at hl
    obtain ⟨k, hk, rfl⟩ := Option.map_eq_some_iff.mp hl
    exact h.oldest k hk
  · show ((b.lines.map (Line.renumber retired)).filter (·.isStore)).Pairwise _
    rw [List.filter_map, List.pairwise_map]
    exact h.committedFirst

/-- A line that is not committed may stand behind all others, unless it is a fence without a store
in front of it. -/
theorem Tidy.push {b : Buffer} (h : b.Tidy) {l : Line} (hl : l.WellFormed)
    (hfresh : l.committed = false) (hfront : l.isStore = true ∨ b.lines ≠ []) : (b.push l).Tidy := by
  refine ⟨?_, ?_, ?_⟩
  · intro k hk
    rcases List.mem_append.mp hk with hk | hk
    · exact h.lines k hk
    · rwa [List.mem_singleton.mp hk]
  · intro k hk
    have hk : (b.lines ++ [l]).head? = some k := hk
    cases hb : b.lines with
    | nil =>
      rw [hb] at hk hfront
      cases hk
      exact hfront.resolve_right (by simp)
    | cons f rest =>
      rw [hb] at hk
      exact h.oldest k (by simpa [oldest?, hb] using hk)
  · show ((b.lines ++ [l]).filter (·.isStore)).Pairwise _
    rw [List.filter_append]
    refine List.pairwise_append.mpr ⟨h.committedFirst, ?_, ?_⟩
    · exact List.Pairwise.sublist List.filter_sublist (List.pairwise_singleton ..)
    · intro k _ l' hl' hcommitted
      rw [List.mem_singleton.mp (List.mem_filter.mp hl').1, hfresh] at hcommitted
      contradiction

/-- The order of the newest line may become any other, if it is a fence. -/
theorem Tidy.modifyNewest {b : Buffer} (h : b.Tidy) {newest : Line} (hb : b.newest? = some newest)
    (hfence : newest.isFence = true) (f : Line → Order) :
    (b.modify (b.size - 1) fun l => { l with order := f l }).Tidy := by
  obtain ⟨older, hlines, hmodified⟩ := exists_modify_newest hb fun l => { l with order := f l }
  have hnewest : newest.WellFormed :=
    h.lines newest (hlines ▸ List.mem_append_right _ (List.mem_singleton_self _))
  have hfence' : newest.isStore = false := by simp [Line.isStore_eq_not_isFence, hfence]
  refine ⟨fun l hl => ?_, fun l hl => ?_, ?_⟩
  · rw [hmodified] at hl
    rcases List.mem_append.mp hl with hl | hl
    · exact h.lines l (hlines ▸ List.mem_append_left _ hl)
    · rw [List.mem_singleton.mp hl]
      exact hnewest.withOrder hfence _
  · have holdest := h.oldest
    rw [oldest?, hmodified] at hl
    rw [oldest?, hlines] at holdest
    cases older with
    | nil => exact absurd (holdest newest rfl) (by simp [hfence'])
    | cons k rest => exact holdest l hl
  · have hsame : (b.modify (b.size - 1) fun l => { l with order := f l }).lines.filter (·.isStore) =
        b.lines.filter (·.isStore) := by
      have hfence'' : ({ newest with order := f newest } : Line).isStore = false := hfence'
      rw [hmodified, hlines, List.filter_append, List.filter_append]
      simp [hfence', hfence'']
    rw [hsame]
    exact h.committedFirst

end Buffer

namespace Table

/-- What every step of an operation keeps of a table. -/
structure Tidy (t : Table) : Prop where
  owners : t.owners.Nodup
  buffers : ∀ o, (⟨t.linesOf o⟩ : Buffer).Tidy

/-- A table between two operations. -/
structure Shaped (capacity : Nat) (t : Table) : Prop where
  owners : t.owners.Nodup
  nonempty : ∀ s ∈ t.slots, s.buffer.isEmpty = false
  capped : ∀ s ∈ t.slots, s.buffer.storeCount ≤ capacity
  tidy : ∀ s ∈ t.slots, s.buffer.Tidy

variable {t t' : Table}

theorem tidy_empty : Tidy {} := ⟨List.nodup_nil, fun _ => Buffer.tidy_empty⟩

theorem Tidy.seqNo_leaving (h : t.Tidy) {only : Option ThreadId} {d : Departure} :
    ∀ l ∈ t.leaving only d, l.seqNo = 0 := by
  intro l hl
  obtain ⟨s, hs, hl⟩ := List.mem_flatMap.mp hl
  obtain ⟨k, hk, hsame⟩ := Departure.mem_gone hl
  have hlines := linesOf_of_mem h.owners (List.mem_filter.mp hs).1
  have hzero : k.seqNo = 0 := ((h.buffers s.owner).lines k (by rwa [hlines])).seqNo
  exact (congrArg Line.seqNo hsame).trans hzero

theorem Tidy.depart (h : t.Tidy) (only : Option ThreadId) (d : Departure) :
    (t.depart only d).Tidy := by
  refine ⟨by rw [owners_depart]; exact h.owners, fun o => ?_⟩
  rw [linesOf_depart]
  split
  · exact ((h.buffers o).stay d).renumber h.seqNo_leaving
  · exact (h.buffers o).renumber h.seqNo_leaving

theorem Tidy.prune (h : t.Tidy) : t.prune.Tidy := by
  refine ⟨nodup_owners_prune h.owners, fun o => ?_⟩
  rw [linesOf_prune h.owners]
  exact h.buffers o

/-- Departures keep a table tidy. -/
theorem Tidy.thins {may : ThreadId → Prop} (h : t.Tidy) (hthins : Thins may t t') : t'.Tidy :=
  hthins.keeps (fun _ only d _ hu => hu.depart only d) (fun _ hu => hu.prune) h

theorem Tidy.append (h : t.Tidy) (o : ThreadId) {l : Line} (hl : l.WellFormed)
    (hfresh : l.committed = false) (hstore : l.isStore = true) : (t.append o l).Tidy := by
  refine ⟨nodup_owners_append h.owners o l, fun u => ?_⟩
  rw [linesOf_append]
  split
  · exact (h.buffers u).push hl hfresh (.inl hstore)
  · exact h.buffers u

theorem Tidy.modify (h : t.Tidy) {o : ThreadId} {b : Buffer} (hb : t.buffer? o = some b)
    {f : Buffer → Buffer} (hf : (f b).Tidy) : (t.modify o f).Tidy := by
  refine ⟨by rw [owners_modify]; exact h.owners, fun u => ?_⟩
  rw [linesOf_modify]
  split
  · rename_i hu
    rw [hu, hb]
    exact hf
  · exact h.buffers u

theorem nonempty_prune (t : Table) : ∀ s ∈ t.prune.slots, s.buffer.isEmpty = false := by
  intro s hs
  simpa using (List.mem_filter.mp hs).2

theorem shaped_iff {capacity : Nat} : t.Shaped capacity ↔
    t.Tidy ∧ (∀ o, t.storesOf o ≤ capacity) ∧ ∀ s ∈ t.slots, s.buffer.isEmpty = false := by
  constructor
  · rintro ⟨howners, hnonempty, hcapped, htidy⟩
    have hbuffers (o : ThreadId) : t.linesOf o = [] ∨
        ∃ s ∈ t.slots, t.linesOf o = s.buffer.lines := by
      unfold linesOf
      cases hb : t.buffer? o with
      | none => exact .inl rfl
      | some b =>
        obtain ⟨s, hs, -, rfl⟩ := exists_slot_of_buffer? hb
        exact .inr ⟨s, hs, rfl⟩
    refine ⟨⟨howners, fun o => ?_⟩, fun o => ?_, hnonempty⟩
    · obtain hnil | ⟨s, hs, hlines⟩ := hbuffers o
      · rw [hnil]
        exact Buffer.tidy_empty
      · rw [hlines]
        exact htidy s hs
    · obtain hnil | ⟨s, hs, hlines⟩ := hbuffers o
      · rw [storesOf, hnil]
        exact Nat.zero_le _
      · rw [storesOf, hlines]
        exact hcapped s hs
  · rintro ⟨⟨howners, hbuffers⟩, hcapped, hnonempty⟩
    refine ⟨howners, hnonempty, fun s hs => ?_, fun s hs => ?_⟩
    · have hle := hcapped s.owner
      rwa [storesOf, linesOf_of_mem howners hs] at hle
    · have htidy := hbuffers s.owner
      rwa [linesOf_of_mem howners hs] at htidy

/-- Departures keep the shape if no empty slot stays behind. -/
theorem Shaped.thins {capacity : Nat} {may : ThreadId → Prop} (h : t.Shaped capacity)
    (hthins : Thins may t t') (hnonempty : ∀ s ∈ t'.slots, s.buffer.isEmpty = false) :
    t'.Shaped capacity := by
  obtain ⟨htidy, hcapped, -⟩ := shaped_iff.mp h
  exact shaped_iff.mpr ⟨htidy.thins hthins,
    fun o => Nat.le_trans (hthins.storesOf_le h.owners o) (hcapped o), hnonempty⟩

end Table

namespace Machine

variable {σ : Type} {m : Machine σ}

/-- A store without a place among the sequentially consistent ones is well formed once it has its
numbers. -/
theorem wellFormed_numbered {loc : Location} {value : UInt64} {order : Order} {l : Line}
    (hv : loc.Valid) (hseq : order.isSeqCst = false)
    (hl : m.numbered (.store loc value order) = .ok l) : l.WellFormed := by
  have hseqNo := seqNo_numbered hl
  rw [show (Line.store loc value order).order = order from rfl, hseq] at hseqNo
  exact Line.wellFormed_of_store (unnumbered_numbered hl) hv hseq hseqNo

theorem shaped_discardRange (h : m.table.Shaped m.capacity) (only : Option ThreadId)
    (range : Region) : (m.discardRange only range).2.table.Shaped m.capacity :=
  h.thins (sheds_discardRange only range m).table (Table.nonempty_prune _)

theorem shaped_modify (h : m.table.Shaped m.capacity) {t : ThreadId} {b : Buffer}
    (hb : m.table.buffer? t = some b) {f : Buffer → Buffer} (hf : b.Tidy → (f b).Tidy)
    (hcount : (f b).storeCount = b.storeCount) (hsize : (f b).isEmpty = false) :
    (m.table.modify t f).Shaped m.capacity := by
  obtain ⟨htidy, hcapped, hnonempty⟩ := Table.shaped_iff.mp h
  have hlines := Table.linesOf_of_buffer? hb
  refine Table.shaped_iff.mpr ⟨htidy.modify hb (hf ?_), fun o => ?_, fun s hs => ?_⟩
  · have hbuffer := htidy.buffers t
    rwa [hlines] at hbuffer
  · rw [Table.storesOf, Table.linesOf_modify]
    split
    · rename_i ho
      have hle := hcapped t
      rw [Table.storesOf, hlines] at hle
      rw [ho, hb]
      exact Nat.le_trans (Nat.le_of_eq hcount) hle
    · exact hcapped o
  · obtain ⟨q, hq, rfl⟩ := List.mem_map.mp hs
    split
    · rename_i howner
      have hsame : q.buffer.lines = b.lines := by
        rw [← Table.linesOf_of_mem h.owners hq, howner, hlines]
      rw [show q.buffer = b from congrArg Buffer.mk hsame]
      exact hsize
    · exact hnonempty q hq

theorem shaped_pushFence (h : m.table.Shaped m.capacity) (t : ThreadId) (order : Order) :
    (m.pushFence t (.fence order)).2.table.Shaped m.capacity := by
  obtain ⟨-, htable⟩ | ⟨b, newest, hb, hnewest, ⟨hfence, -, htable⟩ | ⟨hfence, -, htable⟩⟩ :=
    pushFence_cases t (.fence order) m
  · rwa [htable]
  · rw [htable]
    obtain ⟨older, hlines, hmodified⟩ :=
      Buffer.exists_modify_newest hnewest fun f =>
        { f with order := f.order ||| (Line.fence order).order }
    refine shaped_modify h hb (fun hbuffer => hbuffer.modifyNewest hnewest hfence _) ?_ ?_
    · rw [Buffer.storeCount, Buffer.storeCount, hmodified, hlines, List.countP_append,
        List.countP_append]
      rfl
    · show ((b.modify (b.size - 1) _).lines).isEmpty = false
      rw [hmodified]
      simp
  · rw [htable]
    have hnonempty : b.lines ≠ [] := by
      intro hnil
      rw [Buffer.newest?, hnil] at hnewest
      contradiction
    refine shaped_modify h hb (fun hbuffer =>
      hbuffer.push (Line.wellFormed_fence order) rfl (.inr hnonempty)) ?_ ?_
    · show (b.lines ++ [Line.fence order]).countP _ = _
      rw [List.countP_append]
      rfl
    · show (b.lines ++ [_]).isEmpty = false
      simp

variable [Host σ]

theorem shaped_flush (h : m.table.Shaped m.capacity) (t : ThreadId) :
    (m.flush t).table.Shaped m.capacity := by
  refine h.thins (sheds_flush h.owners t).table ?_
  unfold flush
  split
  · exact h.nonempty
  · exact Table.nonempty_prune _

theorem shaped_resolve (h : m.table.Shaped m.capacity) (t : ThreadId) (loc : Location) :
    (m.resolve t loc false).table.Shaped m.capacity := by
  refine h.thins (sheds_resolve h.owners t loc false).table ?_
  unfold resolve
  dsimp only
  split
  · exact h.nonempty
  · split
    · exact h.nonempty
    · exact Table.nonempty_prune _

/-- The new line may be one too many; eviction then makes room. -/
theorem shaped_pushLine (h : m.table.Shaped m.capacity) (t : ThreadId) {l : Line}
    (hl : l.WellFormed) (hfresh : l.committed = false) (hstore : l.isStore = true) :
    (m.pushLine t l).table.Shaped m.capacity := by
  obtain ⟨htidy, hcapped, -⟩ := Table.shaped_iff.mp h
  obtain ⟨u, hthins, hfits, htable, -⟩ := exists_pushLine h.owners t l
  have happended := htidy.append t hl hfresh hstore
  have hu : u.Tidy := happended.thins hthins
  rw [htable]
  refine Table.shaped_iff.mpr ⟨hu.prune, fun o => ?_, Table.nonempty_prune _⟩
  rw [Table.storesOf, Table.linesOf_prune hu.owners]
  by_cases ho : o = t
  · rw [ho]
    exact hfits
  · have hle := hthins.storesOf_le happended.owners o
    rw [Table.storesOf, Table.storesOf, Table.linesOf_append, if_neg ho] at hle
    exact Nat.le_trans hle (hcapped o)

theorem config_push (h : m.table.owners.Nodup) (t : ThreadId) (l : Line) :
    (m.push t l).2.config = m.config := by
  unfold push
  split
  · rfl
  · obtain ⟨_, -, -, -, hconfig⟩ := exists_pushLine h t _
    exact hconfig

theorem shaped_push (h : m.table.Shaped m.capacity) (t : ThreadId) {loc : Location}
    (value : UInt64) {order : Order} (hv : loc.Valid) (hseq : order.isSeqCst = false) :
    (m.push t (.store loc value order)).2.table.Shaped m.capacity := by
  unfold push
  cases hn : m.numbered (.store loc value order) with
  | error f => exact h
  | ok l =>
    have hl := unnumbered_numbered hn
    have hwrite : l.write? = some (Write.ofStore loc value) := congrArg Line.write? hl
    exact shaped_pushLine h t (wellFormed_numbered hv hseq hn) (congrArg Line.committed hl)
      (by rw [Line.isStore, hwrite]; rfl)

theorem invariant_shaped (c : Config) :
    Invariant fun m : Machine σ => m.config = c ∧ m.table.Shaped c.capacity where
  congr h htable hconfig := ⟨hconfig.trans h.1, by rw [htable]; exact h.2⟩
  flush t h := by
    obtain ⟨rfl, h⟩ := h
    exact ⟨(sheds_flush h.owners t).config, shaped_flush h t⟩
  resolve t loc h := by
    obtain ⟨rfl, h⟩ := h
    exact ⟨(sheds_resolve h.owners t loc false).config, shaped_resolve h t loc⟩
  push t loc value order hv hseq h := by
    obtain ⟨rfl, h⟩ := h
    exact ⟨config_push h.owners t _, shaped_push h t value hv hseq⟩
  pushFence t order h := by
    obtain ⟨rfl, h⟩ := h
    exact ⟨config_pushFence t _ _, shaped_pushFence h t order⟩
  discardRange only range h := by
    obtain ⟨rfl, h⟩ := h
    exact ⟨(sheds_discardRange only range _).config, shaped_discardRange h only range⟩

theorem Reachable.config {c : Config} (h : Reachable c m) : m.config = c :=
  ((invariant_shaped c).reachable (fun _ => ⟨rfl, List.nodup_nil, nofun, nofun, nofun⟩) h).1

/-- Every reachable machine has a table of this shape: on any host, under any answers to its
choices and for any capacity, after operations that succeeded and operations that did not. -/
theorem Reachable.shaped {c : Config} (h : Reachable c m) : m.table.Shaped c.capacity :=
  ((invariant_shaped c).reachable (fun _ => ⟨rfl, List.nodup_nil, nofun, nofun, nofun⟩) h).2

/-- A load by thread 2 that drains thread 1 past `y` leaves the older store to `x` committed. A fence
and a store follow, and a store through the null address faults. -/
theorem shaped_committed :
    let x : Location := ⟨⟨0x10000000⟩, 32⟩
    let y : Location := ⟨⟨0x10000004⟩, 32⟩
    let m₁ := ((create {} ((Scripted.create 16).withScript [1])).issue
      { thread := ⟨1⟩, op := .store x 1 .monotonic }).2
    let m₂ := (m₁.issue { thread := ⟨1⟩, op := .store y 2 .release }).2
    let m₃ := (m₂.issue { thread := ⟨2⟩, op := .load y .acquire }).2
    let m₄ := (m₃.issue { thread := ⟨1⟩, op := .fence .release }).2
    let m₅ := (m₄.issue { thread := ⟨1⟩, op := .store y 3 .release }).2
    let m₆ := (m₅.issue { thread := ⟨1⟩, op := .store ⟨.null, 32⟩ 3 .release }).2
    (m₆.table.linesOf ⟨1⟩).map (fun l => (l.isStore, l.committed)) =
      [(true, true), (false, false), (true, false)] ∧ m₆.table.Shaped 2 :=
  ⟨by decide +kernel, Reachable.shaped (c := {}) (.issue (.issue (.issue (.issue (.issue (.issue
    (.create _) _) _) _) _) _) _)⟩

end Machine

end StoreBuffer
