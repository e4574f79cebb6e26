import StoreBuffer.Proofs.Table.Departure
import StoreBuffer.Proofs.Table.Ranks

/-! # Lines in sequence

`Line.Sequenced` says of lines, listed in the order in which they were pushed, that their numbers
are dense and follow this order. Departures keep them sequenced, whichever lines leave
(`Line.Sequenced.thin`). The numbers that a table hands out next and the validity of its numbers
(`Table.Numbered`) follow. -/

namespace StoreBuffer

namespace Line

/-- What the numbers of a line depend on: neither its mark nor the order of a fence. -/
def core (l : Line) : Line :=
  { l with committed := false, order := if l.isFence then .notAtomic else l.order }

theorem core_withOrder {l : Line} (h : l.isFence = true) (order : Order) :
    ({ l with order } : Line).core = l.core := by
  have h' : ({ l with order } : Line).isFence = true := h
  rw [core, core, h, h']
  rfl

theorem map_core_of_unmarked (ls : List Line) : (ls.map unmarked).map core = ls.map core := by
  rw [List.map_map]
  rfl

/-- Lines in the order in which they were pushed, with numbers that are dense and tell this order. -/
structure Sequenced (ls : List Line) : Prop where
  seqNos : Counter.Dense (ls.map (·.seqNo))
  atomicNos : ∀ loc, Counter.Dense ((ls.filter (·.isAt loc)).map (·.atomicNo))
  atomics : ∀ l ∈ ls, l.atomicNo ≠ 0 ↔ l.isStore = true ∧ l.order.isAtomicOp = true
  apart : ∀ k ∈ ls, ∀ l ∈ ls, k.atomicNo ≠ 0 → l.atomicNo ≠ 0 →
    ∀ p q, k.loc? = some p → l.loc? = some q → p.clashes q = false

theorem sequenced_nil : Sequenced [] :=
  ⟨Counter.dense_nil, fun _ => Counter.dense_nil, nofun, nofun⟩

theorem isAt_iff {l : Line} {loc : Location} : l.isAt loc = true ↔ l.loc? = some loc := by
  simp [isAt]

theorem isStore_iff_exists_loc {l : Line} : l.isStore = true ↔ ∃ loc, l.loc? = some loc := by
  rw [isStore, ← Option.isSome_iff_exists, loc?, Option.isSome_map]

theorem write?_of_core {k l : Line} (h : k.core = l.core) : k.write? = l.write? := by
  show k.core.write? = l.core.write?
  rw [h]

theorem atomicNo_of_core {k l : Line} (h : k.core = l.core) : k.atomicNo = l.atomicNo := by
  show k.core.atomicNo = l.core.atomicNo
  rw [h]

theorem order_of_core {k l : Line} (h : k.core = l.core) (hstore : l.isStore = true) :
    k.order = l.order := by
  have hwrite := write?_of_core h
  have horder : k.core.order = l.core.order := by rw [h]
  have hl : l.isFence = false := by simpa [isStore_eq_not_isFence] using hstore
  have hk : k.isFence = false := by rwa [isFence, hwrite]
  simpa [core, hk, hl] using horder

theorem isAtomic_of_core {k l : Line} (h : k.core = l.core)
    (hk : k.atomicNo ≠ 0 ↔ k.isStore = true ∧ k.order.isAtomicOp = true) :
    l.atomicNo ≠ 0 ↔ l.isStore = true ∧ l.order.isAtomicOp = true := by
  rw [← atomicNo_of_core h, hk, isStore, write?_of_core h]
  exact and_congr_right fun hstore => by rw [order_of_core h hstore]

theorem touches_of_loc {l : Line} {p : Location} (h : l.loc? = some p) (r : Region) :
    l.touches r = p.region.overlaps r := by
  obtain ⟨w, hw, rfl⟩ := Option.map_eq_some_iff.mp h
  exact touches_of_write? hw r

section Thin

variable {ls ms rs : List Line} (h : Sequenced ls)
  (hsub : (ms.map core).Sublist (ls.map core)) (hperm : ((rs ++ ms).map core).Perm (ls.map core))

theorem map_seqNo_core (ls : List Line) : (ls.map core).map (·.seqNo) = ls.map (·.seqNo) := by
  rw [List.map_map]
  rfl

/-- The numbers of the lines at a location. -/
def numbersAt (loc : Location) (ls : List Line) : List Int :=
  (ls.filter (·.isAt loc)).map (·.atomicNo)

theorem numbersAt_core (loc : Location) (ls : List Line) :
    numbersAt loc (ls.map core) = numbersAt loc ls := by
  rw [numbersAt, List.filter_map, List.map_map]
  rfl

include hsub in
theorem sublist_numbersAt (loc : Location) :
    (numbersAt loc ms).Sublist (numbersAt loc ls) := by
  rw [← numbersAt_core loc ms, ← numbersAt_core loc ls]
  exact (hsub.filter _).map _

include hperm in
theorem perm_numbersAt (loc : Location) :
    (numbersAt loc rs ++ numbersAt loc ms).Perm (numbersAt loc ls) := by
  rw [← numbersAt_core loc ls, numbersAt, numbersAt, ← List.map_append, ← List.filter_append]
  have hcore := numbersAt_core loc (rs ++ ms)
  unfold numbersAt at hcore ⊢
  rw [← hcore]
  exact (hperm.filter _).map _

theorem numbersAt_renumber (loc : Location) (rs ms : List Line) :
    numbersAt loc (ms.map (renumber rs)) =
      (numbersAt loc ms).map (Counter.closeGaps (Counter.descending (numbersAt loc rs))) := by
  unfold numbersAt
  rw [List.filter_map, List.map_map, List.map_map]
  apply List.map_congr_left
  intro l hl
  have hloc : l.loc? = some loc := isAt_iff.mp (List.mem_filter.mp hl).2
  simp [renumber, hloc]

include h hsub hperm in
theorem atomicNo_renumber_eq_zero_iff {l : Line} (hl : l ∈ ms) :
    (l.renumber rs).atomicNo = 0 ↔ l.atomicNo = 0 := by
  cases hloc : l.loc? with
  | none => simp [renumber, hloc]
  | some loc =>
    have hmem : l.atomicNo ∈ numbersAt loc ms :=
      List.mem_map_of_mem (List.mem_filter.mpr ⟨hl, isAt_iff.mpr hloc⟩)
    have hiff := Counter.closeGaps_eq_zero_iff (h.atomicNos loc) (sublist_numbersAt hsub loc)
      (perm_numbersAt hperm loc) hmem
    simpa [renumber, hloc, numbersAt] using hiff

include h hsub hperm in
/-- When lines leave and the others are renumbered, those stay in sequence. -/
theorem Sequenced.thin : Sequenced (ms.map (renumber rs)) := by
  have hmem {l : Line} (hl : l ∈ ms) : ∃ k ∈ ls, k.core = l.core :=
    List.mem_map.mp (hsub.mem (List.mem_map_of_mem hl))
  refine ⟨?_, fun loc => ?_, ?_, ?_⟩
  · have hsub' := hsub.map (·.seqNo)
    have hperm' := hperm.map (·.seqNo)
    rw [map_seqNo_core, map_seqNo_core] at hsub' hperm'
    rw [List.map_append] at hperm'
    rw [List.map_map]
    have hdense := Counter.Dense.closeGaps h.seqNos hsub' hperm'
    rwa [List.map_map] at hdense
  · show Counter.Dense (numbersAt loc _)
    rw [numbersAt_renumber]
    exact .closeGaps (h.atomicNos loc) (sublist_numbersAt hsub loc) (perm_numbersAt hperm loc)
  · intro _ hrenumbered
    obtain ⟨l, hl, rfl⟩ := List.mem_map.mp hrenumbered
    obtain ⟨k, hk, hcore⟩ := hmem hl
    rw [ne_eq, atomicNo_renumber_eq_zero_iff h hsub hperm hl]
    exact isAtomic_of_core hcore (h.atomics k hk)
  · intro _ hk' _ hl' hkno hlno p q hp hq
    obtain ⟨k, hk, rfl⟩ := List.mem_map.mp hk'
    obtain ⟨l, hl, rfl⟩ := List.mem_map.mp hl'
    rw [ne_eq, atomicNo_renumber_eq_zero_iff h hsub hperm hk] at hkno
    rw [ne_eq, atomicNo_renumber_eq_zero_iff h hsub hperm hl] at hlno
    obtain ⟨k₀, hk₀, hkcore⟩ := hmem hk
    obtain ⟨l₀, hl₀, hlcore⟩ := hmem hl
    rw [← atomicNo_of_core hkcore] at hkno
    rw [← atomicNo_of_core hlcore] at hlno
    refine h.apart k₀ hk₀ l₀ hl₀ hkno hlno p q ?_ ?_
    · rw [loc?, write?_of_core hkcore]
      exact hp
    · rw [loc?, write?_of_core hlcore]
      exact hq

end Thin

end Line

namespace Counter

theorem next_eq_ok {c : Counter} {k n : Int} (h : c.next k = .ok n) : n = k + 1 := by
  unfold next at h
  split at h
  · exact (Except.ok.inj h).symm
  · contradiction

end Counter

namespace Line

theorem clash?_eq_none_of_nextAtomicNo {t : Table} {loc : Location} {n : Int}
    (h : t.nextAtomicNo loc = .ok n) : ∀ l ∈ t.lines, l.clash? loc = none := by
  rw [Table.nextAtomicNo_eq] at h
  split at h
  · contradiction
  · rename_i hnone
    exact List.findSome?_eq_none_iff.mp hnone

theorem clashes_of_clash? {l : Line} {p loc : Location} (h : l.clash? loc = none)
    (hno : l.atomicNo ≠ 0) (hp : l.loc? = some p) : p.clashes loc = false := by
  rw [clash?, if_neg hno, hp, Option.filter_eq_none_iff] at h
  simpa using h p rfl

theorem clashes_self (loc : Location) : loc.clashes loc = false := by simp [Location.clashes]

/-- A line with the numbers that the table hands out next, as far as it needs any. -/
structure Next (t : Table) (l : Line) : Prop where
  seqNo : l.seqNo = 0 ∨ t.nextSeqNo = .ok l.seqNo
  atomicNo : l.order.isAtomicOp = true → ∀ loc, l.loc? = some loc →
    t.nextAtomicNo loc = .ok l.atomicNo
  plain : ¬ (l.isStore = true ∧ l.order.isAtomicOp = true) → l.atomicNo = 0

theorem Next.isAtomic {t : Table} {l : Line} (h : Next t l) (hno : l.atomicNo ≠ 0) :
    l.isStore = true ∧ l.order.isAtomicOp = true := by
  by_contra hnot
  exact hno (h.plain hnot)

section Next

variable {ls : List Line} {t : Table} (h : Sequenced ls) (hlines : t.lines.Perm ls)

include h hlines

/-- The next number among the sequentially consistent lines. -/
theorem Sequenced.nextSeqNo : ∃ k, (ls.map (·.seqNo)).filter (· ≠ 0) = Counter.upTo k ∧
    t.nextSeqNo = Counter.sequential.next k := by
  obtain ⟨k, hk⟩ := h.seqNos
  refine ⟨k, hk, ?_⟩
  rw [Table.nextSeqNo, Counter.foldl_max_of_perm (((hlines.map _).filter _).trans (.of_eq hk))]

/-- The next number at a location, if no line at another one is in the way. -/
theorem Sequenced.nextAtomicNo {loc : Location} (hclash : ∀ l ∈ t.lines, l.clash? loc = none) :
    ∃ k, (numbersAt loc ls).filter (· ≠ 0) = Counter.upTo k ∧
      t.nextAtomicNo loc = Counter.atomic.next k := by
  obtain ⟨k, hk⟩ := h.atomicNos loc
  have hperm : ((numbersAt loc t.lines).filter (· ≠ 0)).Perm (Counter.upTo k) :=
    (((hlines.filter _).map _).filter _).trans (.of_eq hk)
  refine ⟨k, hk, ?_⟩
  rw [Table.nextAtomicNo_eq, List.findSome?_eq_none_iff.mpr hclash]
  show Counter.atomic.next ((numbersAt loc t.lines).foldl max 0) = _
  rw [Counter.foldl_max_of_perm hperm]

/-- How many atomic lines a location has. -/
theorem Sequenced.countP_atomic {loc : Location} {k : Nat}
    (hk : (numbersAt loc ls).filter (· ≠ 0) = Counter.upTo k) :
    t.lines.countP (fun l => l.isAt loc && l.order.isAtomicOp) = k := by
  rw [hlines.countP_eq, ← Counter.length_upTo k, ← hk, numbersAt, List.filter_map, List.length_map,
    List.filter_filter, List.countP_eq_length_filter]
  congr 1
  apply List.filter_congr
  intro l hl
  cases hloc : l.isAt loc with
  | false => simp
  | true =>
    have hstore := isStore_iff_exists_loc.mpr ⟨loc, isAt_iff.mp hloc⟩
    have hiff := h.atomics l hl
    rw [hstore] at hiff
    cases hop : l.order.isAtomicOp <;> simp_all

variable {l : Line} (hnext : Next t l)

include hnext

theorem dense_seqNos_push : Counter.Dense ((ls ++ [l]).map (·.seqNo)) := by
  rw [List.map_append, List.map_singleton]
  obtain hzero | hok := hnext.seqNo
  · rw [hzero]
    exact h.seqNos.append_zero
  · obtain ⟨k, hk, heq⟩ := h.nextSeqNo hlines
    rw [Counter.next_eq_ok (heq.symm.trans hok)]
    exact .append_next hk

theorem dense_numbersAt_push (loc : Location) : Counter.Dense (numbersAt loc (ls ++ [l])) := by
  rw [numbersAt, List.filter_append, List.map_append]
  cases hloc : l.isAt loc with
  | false =>
    rw [List.filter_cons_of_neg (by simp [hloc]), List.filter_nil, List.map_nil, List.append_nil]
    exact h.atomicNos loc
  | true =>
    rw [List.filter_cons_of_pos (by simp [hloc]), List.filter_nil, List.map_singleton]
    cases hop : l.order.isAtomicOp with
    | false =>
      rw [hnext.plain (by simp [hop])]
      exact (h.atomicNos loc).append_zero
    | true =>
      have hok := hnext.atomicNo hop loc (isAt_iff.mp hloc)
      obtain ⟨k, hk, heq⟩ := h.nextAtomicNo hlines (clash?_eq_none_of_nextAtomicNo hok)
      rw [Counter.next_eq_ok (heq.symm.trans hok)]
      exact .append_next hk

theorem isAtomic_iff_push : l.atomicNo ≠ 0 ↔ l.isStore = true ∧ l.order.isAtomicOp = true := by
  refine ⟨hnext.isAtomic, ?_⟩
  rintro ⟨hstore, hop⟩
  obtain ⟨loc, hloc⟩ := isStore_iff_exists_loc.mp hstore
  have hok := hnext.atomicNo hop loc hloc
  obtain ⟨k, -, heq⟩ := h.nextAtomicNo hlines (clash?_eq_none_of_nextAtomicNo hok)
  have hno := Counter.next_eq_ok (heq.symm.trans hok)
  omega

omit h in
theorem clashes_push {k : Line} (hk : k ∈ ls) (hkno : k.atomicNo ≠ 0) (hlno : l.atomicNo ≠ 0)
    {p q : Location} (hp : k.loc? = some p) (hq : l.loc? = some q) : p.clashes q = false := by
  have hok := hnext.atomicNo (hnext.isAtomic hlno).2 q hq
  exact clashes_of_clash? (clash?_eq_none_of_nextAtomicNo hok k (hlines.mem_iff.mpr hk)) hkno hp

/-- A line with the next numbers goes behind the others. -/
theorem Sequenced.push : Sequenced (ls ++ [l]) := by
  refine ⟨dense_seqNos_push h hlines hnext, dense_numbersAt_push h hlines hnext, ?_, ?_⟩
  · intro k hk
    rcases List.mem_append.mp hk with hk | hk
    · exact h.atomics k hk
    · rw [List.mem_singleton.mp hk]
      exact isAtomic_iff_push h hlines hnext
  · intro j hj k hk hjno hkno p q hp hq
    rcases List.mem_append.mp hj with hold | hnew <;>
      rcases List.mem_append.mp hk with hold' | hnew'
    · exact h.apart j hold k hold' hjno hkno p q hp hq
    · obtain rfl := List.mem_singleton.mp hnew'
      exact clashes_push hlines hnext hold hjno hkno hp hq
    · obtain rfl := List.mem_singleton.mp hnew
      rw [Location.clashes_comm]
      exact clashes_push hlines hnext hold' hkno hjno hq hp
    · obtain rfl := List.mem_singleton.mp hnew
      obtain rfl := List.mem_singleton.mp hnew'
      obtain rfl : p = q := Option.some.inj (hp.symm.trans hq)
      exact clashes_self p

end Next

section Order

variable {ls : List Line} (h : Sequenced ls)

include h

/-- Of two lines the one pushed first has the lower number. -/
theorem Sequenced.seqNo_lt {k l : Line} (hkl : [k, l].Sublist ls) (hk : k.seqNo ≠ 0)
    (hl : l.seqNo ≠ 0) : k.seqNo < l.seqNo := by
  obtain ⟨n, hn⟩ := h.seqNos
  have hsub := (hkl.map (·.seqNo)).filter (· ≠ 0)
  rw [hn] at hsub
  have hpair := (Counter.pairwise_upTo n).sublist hsub
  simpa [hk, hl] using hpair

theorem Sequenced.atomicNo_lt {k l : Line} (hkl : [k, l].Sublist ls) (hk : k.atomicNo ≠ 0)
    (hl : l.atomicNo ≠ 0) (hloc : k.loc? = l.loc?) : k.atomicNo < l.atomicNo := by
  have hmem : k ∈ ls := hkl.mem (List.mem_cons_self ..)
  obtain ⟨loc, hkloc⟩ := isStore_iff_exists_loc.mp ((h.atomics k hmem).mp hk).1
  have hlloc : l.loc? = some loc := hloc ▸ hkloc
  obtain ⟨n, hn⟩ := h.atomicNos loc
  have hsub := ((hkl.filter (·.isAt loc)).map (·.atomicNo)).filter (· ≠ 0)
  rw [hn] at hsub
  have hpair := (Counter.pairwise_upTo n).sublist hsub
  simpa [isAt_iff.mpr hkloc, isAt_iff.mpr hlloc, hk, hl] using hpair

/-- The numbers of a table are valid if each buffer stands in the order of its pushes. -/
theorem Sequenced.numbered {t : Table} (hlines : t.lines.Perm ls)
    (hsub : ∀ s ∈ t.slots, s.buffer.lines.Sublist ls) : t.Numbered := by
  have hatomic : (ls.filter (·.atomicNo ≠ 0)).Pairwise fun a b =>
      a.loc? = b.loc? → a.atomicNo < b.atomicNo := by
    rw [List.pairwise_iff_forall_sublist]
    intro a b hab hloc
    have ha := (List.mem_filter.mp (hab.mem (List.mem_cons_self ..))).2
    have hb := (List.mem_filter.mp (hab.mem (List.mem_cons_of_mem _ (List.mem_cons_self ..)))).2
    exact h.atomicNo_lt (hab.trans List.filter_sublist) (by simpa using ha) (by simpa using hb) hloc
  obtain ⟨n, hn⟩ := h.seqNos
  refine ⟨?_, fun s hs => ?_, ?_, fun s hs => hatomic.sublist ((hsub s hs).filter _)⟩
  · have hperm := (hlines.map (·.seqNo)).filter (· ≠ 0)
    rw [hn] at hperm
    exact hperm.nodup_iff.mpr (Counter.nodup_upTo n)
  · have hsub' := ((hsub s hs).map (·.seqNo)).filter (· ≠ 0)
    rw [hn] at hsub'
    refine List.pairwise_cons.mpr ⟨fun n hn => ?_, (Counter.pairwise_upTo n).sublist hsub'⟩
    have hpos := (Counter.mem_upTo.mp (hsub'.mem hn)).1
    omega
  · have hperm := hlines.filter (·.atomicNo ≠ 0)
    refine (hperm.pairwise_iff fun hab hloc heq => hab hloc.symm heq.symm).mpr ?_
    exact hatomic.imp fun hab hloc => Int.ne_of_lt (hab hloc)

end Order

end Line

end StoreBuffer
