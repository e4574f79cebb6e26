import Mathlib.Data.List.Pairwise
import Mathlib.Logic.Function.Basic
import StoreBuffer.Proofs.Host.Image
import StoreBuffer.Proofs.Memory.Region

/-! # The heap of the scripted host

The heap only grows: an object starts at the next multiple of eight behind all objects before it,
and takes up one byte if it is empty. Objects that are freed leave their bytes unused, and an object
whose size is changed stays within the size it was allocated with. So the objects of all times lie
one behind the other (`Scripted.Laid`), and the live one with the greatest base at or below a
pointer is the only one that may contain it. -/

namespace StoreBuffer

namespace Region

/-- The bytes that the heap sets aside for an object. -/
def room (r : Region) : Nat := max r.size.toNat 1

/-- The regions start at different addresses and share none. -/
def Apart (r s : Region) : Prop :=
  r.base ≠ s.base ∧ ∀ a, ¬ (r.contains a = true ∧ s.contains a = true)

theorem Apart.symm {r s : Region} (h : r.Apart s) : s.Apart r :=
  ⟨h.1.symm, fun a ha => h.2 a ha.symm⟩

theorem apart_of_room_le {r s : Region} (h : r.base.val.toNat + r.room ≤ s.base.val.toNat) :
    r.Apart s := by
  unfold room at h
  refine ⟨fun heq => ?_, fun a ha => ?_⟩
  · rw [heq] at h
    omega
  · rw [contains_iff, contains_iff] at ha
    omega

end Region

namespace Objects

theorem mem_insertInto_iff {r s : Region} {rs : List Region}
    (hd : rs.Pairwise fun r s => s.base.val < r.base.val) :
    s ∈ insertInto r rs ↔ s = r ∨ s ∈ rs ∧ s.base ≠ r.base := by
  induction rs with
  | nil => simp [insertInto]
  | cons q rest ih =>
    obtain ⟨hq, hrest⟩ := List.pairwise_cons.mp hd
    have hne : s ∈ rest → s.base ≠ q.base := fun hs heq => by
      have hlt := hq s hs
      rw [heq] at hlt
      exact UInt64.lt_irrefl _ hlt
    rw [insertInto]
    split
    · grind
    · split
      · rename_i hlt
        have hne' : s ∈ rest → s.base ≠ r.base := fun hs heq => by
          have hlt' := UInt64.lt_trans (hq s hs) hlt
          rw [heq] at hlt'
          exact UInt64.lt_irrefl _ hlt'
        grind
      · grind

variable {o : Objects}

theorem mem_insert_iff (hd : o.Descending) {r s : Region} :
    s ∈ (o.insert r).regions ↔ s = r ∨ s ∈ o.regions ∧ s.base ≠ r.base :=
  mem_insertInto_iff hd

theorem mem_erase_iff {base : Addr} {r : Region} :
    r ∈ (o.erase base).regions ↔ r ∈ o.regions ∧ r.base ≠ base := by
  simp [erase]

end Objects

namespace Scripted

/-- The object is in the record of sizes by base. -/
def Live (sizes : Addr → Option UInt64) (r : Region) : Prop := sizes r.base = some r.size

/-- The hosts that a fresh one of `n` bytes becomes when objects are allocated, freed and given other
sizes, no larger than the first, while bytes are read and written; with all objects that have been
allocated, latest first, and the sizes of those that have not been freed. -/
inductive Heaped (n : Nat) : Scripted → List Region → (Addr → Option UInt64) → Prop
  | create : Heaped n (create n) [] fun _ => none
  | allocate {h past sizes} (run : Heaped n h past sizes) (size : UInt64) {a : Addr}
    (heq : (h.allocate size).1 = some a) :
    Heaped n (h.allocate size).2 (⟨a, size⟩ :: past) (Function.update sizes a (some size))
  | refuse {h past sizes} (run : Heaped n h past sizes) (size : UInt64)
    (heq : (h.allocate size).1 = none) : Heaped n (h.allocate size).2 past sizes
  | free {h past sizes} (run : Heaped n h past sizes) (a : Addr) :
    Heaped n (h.free a).2 past (Function.update sizes a none)
  | setObjectSize {h past sizes} (run : Heaped n h past sizes) (a : Addr) (size : UInt64)
    (hle : (sizes a).isSome = true → ∀ r ∈ past, r.base = a → size ≤ r.size) :
    Heaped n (h.setObjectSize a size).2 past
      (Function.update sizes a ((sizes a).map fun _ => size))
  | read {h past sizes} (run : Heaped n h past sizes) (size : AccessSize) (a : Addr) :
    Heaped n (h.read size a).2 past sizes
  | write {h past sizes} (run : Heaped n h past sizes) (size : AccessSize) (a : Addr)
    (value : UInt64) : Heaped n (h.write size a value) past sizes

/-- How objects lie in the heap, the live ones within those that have been allocated. -/
structure Laid (n : Nat) (h : Scripted) (past : List Region) (sizes : Addr → Option UInt64) :
    Prop where
  size : h.arena.size = n
  heapEnd : h.heapEnd ≤ n
  aligned : ∀ r ∈ past, 8 ∣ r.base.val.toNat
  inside : ∀ r ∈ past, base.val.toNat ≤ r.base.val.toNat ∧
    r.base.val.toNat + r.room ≤ base.val.toNat + h.heapEnd
  /-- Each object lies behind those allocated before it. -/
  stacked : past.Pairwise fun r s => s.base.val.toNat + s.room ≤ r.base.val.toNat
  live : ∀ r, Live sizes r → ∃ p ∈ past, p.base = r.base ∧ r.size ≤ p.size
  registry : ∀ r, r ∈ h.objects.regions ↔ Live sizes r
  descending : h.objects.Descending

/-- Where the next object starts. -/
def heapStart (h : Scripted) : Nat := (h.heapEnd + (alignment - 1)) / alignment * alignment

theorem heapEnd_le_heapStart (h : Scripted) : h.heapEnd ≤ h.heapStart := by
  unfold heapStart alignment
  omega

/-- What there is room for is allocated and zeroed, and nothing else. -/
theorem allocate_cases (h : Scripted) (size : UInt64) :
    let object : Region := ⟨base.offset (UInt64.ofNat h.heapStart), size⟩
    (h.heapStart + object.room ≤ h.arena.size ∧
        h.allocate size = (some object.base, { h with
          arena := ⟨Arena.overlay h.arena.bytes h.heapStart (List.replicate object.room 0)⟩
          heapEnd := h.heapStart + object.room
          objects := h.objects.insert object })) ∨
      (h.arena.size < h.heapStart + object.room ∧ h.allocate size = (none, h)) := by
  intro object
  unfold allocate Arena.zero? Arena.covers
  dsimp only
  by_cases hroom : h.heapStart + object.room ≤ h.arena.size
  · have hroom' : (h.heapEnd + (alignment - 1)) / alignment * alignment + max size.toNat 1 ≤
        h.arena.size := hroom
    refine .inl ⟨hroom, ?_⟩
    rw [if_pos (decide_eq_true hroom')]
    rfl
  · have hroom' : ¬ (h.heapEnd + (alignment - 1)) / alignment * alignment + max size.toNat 1 ≤
        h.arena.size := hroom
    refine .inr ⟨Nat.not_le.mp hroom, ?_⟩
    rw [if_neg (by simpa using hroom')]

section

variable {n : Nat} {h : Scripted} {past : List Region} {sizes : Addr → Option UInt64}

theorem toNat_heapStart (hfit : base.val.toNat + n < 2 ^ 64) (hstart : h.heapStart ≤ n) :
    (base.offset (UInt64.ofNat h.heapStart)).val.toNat = base.val.toNat + h.heapStart := by
  rw [Addr.offset, UInt64.toNat_add, UInt64.toNat_ofNat_of_lt' (by rw [UInt64.size]; omega),
    Nat.mod_eq_of_lt (by omega)]

theorem live_update_some {a : Addr} {size : UInt64} {r : Region} :
    Live (Function.update sizes a (some size)) r ↔ r = ⟨a, size⟩ ∨ Live sizes r ∧ r.base ≠ a := by
  unfold Live
  rcases r with ⟨b, s⟩
  by_cases hb : b = a
  · subst hb
    simp [eq_comm]
  · simp [hb]

theorem live_update_none {a : Addr} {r : Region} :
    Live (Function.update sizes a none) r ↔ Live sizes r ∧ r.base ≠ a := by
  unfold Live
  by_cases hb : r.base = a
  · simp [hb]
  · simp [hb]

/-- Objects that no operation moves stay laid out. -/
theorem Laid.congr {h' : Scripted} (hl : Laid n h past sizes)
    (hsize : h'.arena.size = h.arena.size) (hend : h'.heapEnd = h.heapEnd)
    (hobjects : h'.objects = h.objects) : Laid n h' past sizes :=
  ⟨hsize.trans hl.size, hend ▸ hl.heapEnd, hl.aligned, hend ▸ hl.inside, hl.stacked, hl.live,
    hobjects ▸ hl.registry, hobjects ▸ hl.descending⟩

/-- The new object lies behind all others. -/
theorem Laid.push (hfit : base.val.toNat + n < 2 ^ 64) (hl : Laid n h past sizes) {object : Region}
    (hobject : object.base = base.offset (UInt64.ofNat h.heapStart))
    (hroom : h.heapStart + object.room ≤ h.arena.size) {arena : Arena}
    (hsize : arena.size = h.arena.size) :
    Laid n { h with arena, heapEnd := h.heapStart + object.room, objects := h.objects.insert object }
      (object :: past) (Function.update sizes object.base (some object.size)) := by
  have hle := heapEnd_le_heapStart h
  have hn := hl.size
  have hbase : object.base.val.toNat = base.val.toNat + h.heapStart := by
    rw [hobject]
    exact toNat_heapStart hfit (by omega)
  refine ⟨hsize.trans hn, by dsimp only; omega, fun r hr => ?_, fun r hr => ?_, ?_, fun r hr => ?_,
    fun r => ?_, Objects.descending_insert hl.descending object⟩
  · rcases List.mem_cons.mp hr with rfl | hr
    · rw [hbase, show base.val.toNat = 8 * 0x2000000 from rfl, heapStart, alignment]
      omega
    · exact hl.aligned r hr
  · dsimp only
    rcases List.mem_cons.mp hr with rfl | hr
    · omega
    · have hin := hl.inside r hr
      omega
  · refine List.pairwise_cons.mpr ⟨fun r hr => ?_, hl.stacked⟩
    have hin := hl.inside r hr
    omega
  · rcases live_update_some.mp hr with rfl | ⟨hr, -⟩
    · exact ⟨object, List.mem_cons_self .., rfl, UInt64.le_refl _⟩
    · obtain ⟨p, hp, hsame⟩ := hl.live r hr
      exact ⟨p, List.mem_cons_of_mem _ hp, hsame⟩
  · rw [live_update_some, ← hl.registry]
    exact Objects.mem_insert_iff hl.descending

/-- Another size within the first one leaves the object where it is. -/
theorem Laid.resize (hl : Laid n h past sizes) {a : Addr} {size : UInt64}
    (hle : (sizes a).isSome = true → ∀ r ∈ past, r.base = a → size ≤ r.size) :
    Laid n (h.setObjectSize a size).2 past
      (Function.update sizes a ((sizes a).map fun _ => size)) := by
  unfold Scripted.setObjectSize
  cases hfind : h.objects.find? a with
  | none =>
    have hfree : sizes a = none := by
      by_contra hsome
      obtain ⟨s, hs⟩ := Option.ne_none_iff_exists'.mp hsome
      have hmem := (hl.registry ⟨a, s⟩).mpr hs
      simpa using List.find?_eq_none.mp hfind _ hmem
    rwa [hfree, Option.map_none, Function.update_eq_self_iff.mpr hfree.symm]
  | some old =>
    have hold : old.base = a := by simpa using List.find?_some hfind
    have hlive := (hl.registry old).mp (List.mem_of_find?_eq_some hfind)
    have hsome : sizes a = some old.size := hold ▸ hlive
    rw [hsome, Option.map_some]
    refine { hl with
      live := fun r hr => ?_
      registry := fun r => ?_
      descending := Objects.descending_insert hl.descending _ }
    · rcases live_update_some.mp hr with rfl | ⟨hr, -⟩
      · obtain ⟨p, hp, hbase, -⟩ := hl.live old hlive
        exact ⟨p, hp, hbase.trans hold, hle (by rw [hsome]; rfl) p hp (hbase.trans hold)⟩
      · exact hl.live r hr
    · rw [live_update_some, ← hl.registry]
      exact Objects.mem_insert_iff hl.descending

/-- Every operation keeps the layout. -/
theorem Heaped.laid (hfit : base.val.toNat + n < 2 ^ 64) (hrun : Heaped n h past sizes) :
    Laid n h past sizes := by
  induction hrun with
  | create =>
    exact ⟨Array.size_replicate, Nat.zero_le n, nofun, nofun, .nil, nofun,
      fun _ => ⟨nofun, nofun⟩, .nil⟩
  | @allocate h past sizes _ size a heq ih =>
    obtain ⟨hroom, heq'⟩ | ⟨-, heq'⟩ := allocate_cases h size
    · rw [heq'] at heq ⊢
      obtain rfl := Option.some.inj heq
      exact ih.push hfit rfl hroom (Arena.size_overlay ..)
    · rw [heq'] at heq
      contradiction
  | @refuse h past sizes _ size heq ih =>
    obtain ⟨-, heq'⟩ | ⟨-, heq'⟩ := allocate_cases h size
    · rw [heq'] at heq
      contradiction
    · rwa [heq']
  | @free h past sizes _ a ih =>
    exact { ih with
      live := fun r hr => ih.live r (live_update_none.mp hr).1
      registry := fun r => by
        rw [live_update_none, ← ih.registry]
        exact Objects.mem_erase_iff
      descending := Objects.descending_erase ih.descending a }
  | setObjectSize _ a size hle ih => exact ih.resize hle
  | @read h past sizes _ size a ih =>
    unfold Scripted.read
    split
    · exact ih
    · exact ih.congr rfl rfl rfl
  | @write h past sizes _ size a value ih =>
    unfold Scripted.write
    split
    · rename_i arena heq
      obtain ⟨o, -, ho⟩ := Option.bind_eq_some_iff.mp heq
      exact ih.congr (Arena.size_of_write? ho) rfl rfl
    · exact ih.congr rfl rfl rfl

/-! ## Live objects -/

/-- Of two allocated objects the one with the smaller base ends before the other one starts. -/
theorem Laid.past_room_le (hl : Laid n h past sizes) {p q : Region} (hp : p ∈ past) (hq : q ∈ past)
    (hlt : p.base.val.toNat < q.base.val.toNat) :
    p.base.val.toNat + p.room ≤ q.base.val.toNat := by
  have hstacked := hl.stacked
  clear hl
  induction past with
  | nil => contradiction
  | cons r rest ih =>
    obtain ⟨hr, hrest⟩ := List.pairwise_cons.mp hstacked
    rcases List.mem_cons.mp hp with rfl | hp' <;> rcases List.mem_cons.mp hq with rfl | hq'
    · omega
    · have := hr q hq'
      omega
    · exact hr p hp'
    · exact ih hp' hq' hrest

/-- So does a live one. -/
theorem Laid.room_le (hl : Laid n h past sizes) {r s : Region} (hr : Live sizes r)
    (hs : Live sizes s) (hlt : r.base.val.toNat < s.base.val.toNat) :
    r.base.val.toNat + r.room ≤ s.base.val.toNat := by
  obtain ⟨p, hp, hpr, hle⟩ := hl.live r hr
  obtain ⟨q, hq, hqs, -⟩ := hl.live s hs
  have hle := UInt64.le_iff_toNat_le.mp hle
  have hpq := hl.past_room_le hp hq (by rwa [hpr, hqs])
  rw [hpr, hqs] at hpq
  unfold Region.room at hpq ⊢
  omega

theorem Laid.live_apart (hl : Laid n h past sizes) {r s : Region} (hr : Live sizes r)
    (hs : Live sizes s) (hne : r ≠ s) : r.Apart s := by
  rcases Nat.lt_trichotomy r.base.val.toNat s.base.val.toNat with hlt | heq | hlt
  · exact Region.apart_of_room_le (hl.room_le hr hs hlt)
  · have hbase : r.base = s.base := congrArg Addr.mk (UInt64.toNat_inj.mp heq)
    have hsize : r.size = s.size := by
      unfold Live at hr hs
      rw [hbase, hs] at hr
      exact (Option.some.inj hr).symm
    exact absurd (by cases r; cases s; simp_all) hne
  · exact (Region.apart_of_room_le (hl.room_le hs hr hlt)).symm

theorem Laid.live_inside (hl : Laid n h past sizes) {r : Region} (hr : Live sizes r) :
    8 ∣ r.base.val.toNat ∧ base.val.toNat ≤ r.base.val.toNat ∧
      r.base.val.toNat + r.size.toNat ≤ base.val.toNat + n := by
  obtain ⟨p, hp, hbase, hle⟩ := hl.live r hr
  have hle := UInt64.le_iff_toNat_le.mp hle
  have hend := hl.heapEnd
  obtain ⟨hfrom, hto⟩ := hl.inside p hp
  unfold Region.room at hto
  rw [← hbase]
  exact ⟨hl.aligned p hp, hfrom, by omega⟩

/-- The object with the greatest base at or below a pointer is the one that contains it, if any
does. -/
theorem Laid.containing?_eq_some_iff (hl : Laid n h past sizes) (p : Addr) (r : Region) :
    h.objects.containing? p = some r ↔ Live sizes r ∧ r.contains p = true := by
  rw [← hl.registry]
  refine ⟨Objects.contains_of_containing?, fun ⟨hr, hin⟩ => ?_⟩
  obtain ⟨above, below, hsplit⟩ := List.append_of_mem hr
  have hdescending := hl.descending
  rw [Objects.Descending, hsplit, List.pairwise_append] at hdescending
  have hle := (Region.contains_iff r p).mp hin
  have hfind : h.objects.regions.find? (·.base.val ≤ p.val) = some r := by
    rw [List.find?_eq_some_iff_append]
    refine ⟨decide_eq_true (UInt64.le_iff_toNat_le.mpr hle.1), above, below, hsplit, fun s hs => ?_⟩
    have hs' : s ∈ h.objects.regions := by
      rw [hsplit]
      exact List.mem_append_left _ hs
    have hroom := hl.room_le ((hl.registry r).mp hr) ((hl.registry s).mp hs')
      (UInt64.lt_iff_toNat_lt.mp (hdescending.2.2 s hs r (List.mem_cons_self ..)))
    have hbehind : ¬ s.base.val ≤ p.val := by
      rw [UInt64.le_iff_toNat_le]
      unfold Region.room at hroom
      omega
    simpa using hbehind
  rw [Objects.containing?, hfind, Option.filter_some, if_pos hin]

/-! ## New objects -/

/-- A byte of the arena is read as it is. -/
theorem read_one_eq (h : Scripted) {a : Addr} (hle : base.val.toNat ≤ a.val.toNat)
    (hlt : a.val.toNat < base.val.toNat + h.arena.size) :
    h.read .one a = (Word.ofBytes [h.image a], h) := by
  have hcovers : h.Covers ⟨a, 8⟩ := (covers_iff ..).mpr ⟨hle, by
    show a.val.toNat - base.val.toNat + 1 ≤ h.arena.size
    omega⟩
  have hoffset : h.offset? a AccessSize.one.bytes = some (a.val.toNat - base.val.toNat) :=
    offset?_eq hcovers
  have hin : a.val.toNat - base.val.toNat < h.arena.bytes.size := by
    unfold Arena.size at hlt
    omega
  have hcov : h.arena.covers (a.val.toNat - base.val.toNat) AccessSize.one.bytes = true :=
    decide_eq_true hin
  have hread : h.arena.read? (a.val.toNat - base.val.toNat) AccessSize.one.bytes =
      some [h.image a] := by
    rw [Arena.read?, if_pos hcov, image_of_le hle, Array.getElem?_eq_getElem hin]
    refine congrArg some (List.ext_getElem ?_ fun k hk hk' => ?_)
    · simp [AccessSize.bytes]
      omega
    · have hzero : k = 0 := by simpa using hk'
      simp [hzero]
  unfold read
  rw [hoffset, Option.bind_some, hread]

/-- Outside the arena zero is read, which is also what its image holds there. -/
theorem read_one_fst (h : Scripted) (a : Addr) : (h.read .one a).1 = Word.ofBytes [h.image a] := by
  by_cases hin : base.val.toNat ≤ a.val.toNat ∧ a.val.toNat < base.val.toNat + h.arena.size
  · rw [read_one_eq h hin.1 hin.2]
  · have hcovers : ¬ h.Covers ⟨a, 8⟩ := fun hc => by
      obtain ⟨hle, hend⟩ := (covers_iff ..).mp hc
      have hbytes : Width.byteSize 8 = 1 := rfl
      dsimp only at hle hend
      omega
    have hoffset : h.offset? a AccessSize.one.bytes = none :=
      Option.not_isSome_iff_eq_none.mp hcovers
    have himage : h.image a = 0 := by
      by_cases hle : base.val.toNat ≤ a.val.toNat
      · rw [image_of_le hle, Array.getElem?_eq_none (by unfold Arena.size at hin; omega)]
        rfl
      · exact image_of_lt (by omega)
    unfold read
    rw [hoffset, himage]
    rfl

/-- A new object is zero and the rest of memory as before. -/
theorem image_allocate (hfit : h.Fits) {size : UInt64} {a : Addr}
    (ha : (h.allocate size).1 = some a) (b : Addr) :
    (h.allocate size).2.image b =
      if a.val.toNat ≤ b.val.toNat ∧ b.val.toNat < a.val.toNat + Region.room ⟨a, size⟩ then 0
      else h.image b := by
  obtain ⟨hroom, heq⟩ | ⟨-, heq⟩ := allocate_cases h size
  · have hstart := toNat_heapStart hfit (h := h) (by omega)
    rw [heq] at ha ⊢
    obtain rfl := Option.some.inj ha
    dsimp only at hroom ⊢
    rw [hstart]
    generalize Region.room ⟨base.offset (UInt64.ofNat h.heapStart), size⟩ = room at *
    have hbytes (i : Nat) := Arena.getElem?_overlay h.arena.bytes h.heapStart i
      (List.replicate room 0) (by rw [List.length_replicate]; exact hroom)
    rw [List.length_replicate] at hbytes
    by_cases hle : base.val.toNat ≤ b.val.toNat
    · rw [image_of_le hle, image_of_le hle, hbytes]
      by_cases hin : h.heapStart ≤ b.val.toNat - base.val.toNat ∧
          b.val.toNat - base.val.toNat < h.heapStart + room
      · rw [if_pos hin, if_pos (by omega), List.getElem?_replicate_of_lt (by omega)]
        rfl
      · rw [if_neg hin, if_neg (by omega)]
    · rw [image_of_lt (by omega), image_of_lt (by omega), ite_self]
  · rw [heq] at ha
    contradiction

/-- What a new object reads. -/
theorem read_allocated (hfit : h.Fits) {size : UInt64} {a b : Addr}
    (ha : (h.allocate size).1 = some a) (hb : (⟨a, size⟩ : Region).contains b = true) :
    (h.allocate size).2.read .one b = (0, (h.allocate size).2) := by
  have hin := (Region.contains_iff _ b).mp hb
  have himage := image_allocate hfit ha b
  have hcovers : base.val.toNat ≤ b.val.toNat ∧
      b.val.toNat < base.val.toNat + (h.allocate size).2.arena.size := by
    obtain ⟨hroom, heq⟩ | ⟨-, heq⟩ := allocate_cases h size
    · have hstart := toNat_heapStart hfit (h := h) (by omega)
      rw [heq] at ha ⊢
      obtain rfl := Option.some.inj ha
      dsimp only [Region.room] at hroom hin ⊢
      rw [show Arena.size ⟨_⟩ = _ from Arena.size_overlay ..]
      unfold Arena.size at hroom
      omega
    · rw [heq] at ha
      contradiction
  rw [if_pos (by dsimp only [Region.room] at hin ⊢; omega)] at himage
  rw [read_one_eq _ hcovers.1 hcovers.2, himage]
  rfl

/-! ## The registry -/

/-- Whatever was allocated, freed, given another size and written before: live objects lie apart, at
multiples of eight and inside the arena; a pointer is looked up as the one live object it points
into, if there is one; a new object lies apart from all allocated before it, also from those freed,
is zero, and leaves the bytes before it alone; and a refused one leaves the whole host alone. -/
theorem heap_registered (hfit : base.val.toNat + n < 2 ^ 64) (hrun : Heaped n h past sizes) :
    (∀ r, Live sizes r → 8 ∣ r.base.val.toNat ∧ base.val.toNat ≤ r.base.val.toNat ∧
        r.base.val.toNat + r.size.toNat ≤ base.val.toNat + n) ∧
      (∀ r s, Live sizes r → Live sizes s → r ≠ s → r.Apart s) ∧
      (∀ p r, (Host.objectAt p h).1 = some r ↔ Live sizes r ∧ r.contains p = true ∧
        ∀ s, Live sizes s → s.contains p = true → s = r) ∧
      (∀ p, (Host.objectAt p h).1 = none ↔ ∀ r, Live sizes r → r.contains p = false) ∧
      (∀ size a, (h.allocate size).1 = some a →
        (∀ r ∈ past, r.Apart ⟨a, size⟩) ∧
          (∀ b, (⟨a, size⟩ : Region).contains b = true →
            (h.allocate size).2.read .one b = (0, (h.allocate size).2)) ∧
          ∀ b, b.val < a.val → ((h.allocate size).2.read .one b).1 = (h.read .one b).1) ∧
      ∀ size, (h.allocate size).1 = none → (h.allocate size).2 = h := by
  have hl := hrun.laid hfit
  have hfits : h.Fits := by
    unfold Fits
    rw [hl.size]
    exact hfit
  refine ⟨fun r => hl.live_inside, fun r s => hl.live_apart, fun p r => ?_, fun p => ?_,
    fun size a ha => ⟨fun r hr => ?_, fun b => read_allocated hfits ha, fun b hb => ?_⟩,
    fun size hnone => ?_⟩
  · refine (hl.containing?_eq_some_iff p r).trans ⟨fun ⟨hr, hin⟩ => ⟨hr, hin, fun s hs hs' => ?_⟩,
      fun ⟨hr, hin, _⟩ => ⟨hr, hin⟩⟩
    by_contra hne
    exact (hl.live_apart hs hr hne).2 p ⟨hs', hin⟩
  · show h.objects.containing? p = none ↔ _
    simp only [Option.eq_none_iff_forall_ne_some, ne_eq, hl.containing?_eq_some_iff, not_and,
      Bool.not_eq_true]
  · exact Region.apart_of_room_le
      ((List.pairwise_cons.mp ((hrun.allocate size ha).laid hfit).stacked).1 r hr)
  · have hlt := UInt64.lt_iff_toNat_lt.mp hb
    rw [read_one_fst, read_one_fst, image_allocate hfits ha, if_neg (by omega)]
  · obtain ⟨-, heq⟩ | ⟨-, heq⟩ := allocate_cases h size
    · rw [heq] at hnone
      contradiction
    · rw [heq]

/-- An object is freed, an empty one and one of sixteen bytes are allocated where bytes have been
written before, and the second one is cut to four. For nine more there is no room then. -/
theorem heap_registered_cut :
    let h₁ := ((create 40).allocate 3).2
    let h₂ := (h₁.free base).2.write .one (base.offset 16) 9
    let h₃ := (h₂.allocate 0).2
    let h₄ := (h₃.allocate 16).2
    let h := (h₄.setObjectSize (base.offset 16) 4).2
    (h₃.allocate 16).1 = some (base.offset 16) ∧ (h₃.read .one (base.offset 16)).1 = 9 ∧
      h₄.read .one (base.offset 16) = (0, h₄) ∧
      (Host.objectAt (base.offset 8) h).1 = none ∧
      (Host.objectAt (base.offset 19) h).1 = some ⟨base.offset 16, 4⟩ ∧
      (Host.objectAt (base.offset 20) h).1 = none ∧ (h.allocate 9).2 = h := by
  intro h₁ h₂ h₃ h₄ h
  have hsecond : (h₃.allocate 16).1 = some (base.offset 16) := by decide +kernel
  have hrun₂ := ((Heaped.create (n := 40)).allocate 3 (a := base) (by decide +kernel)).free base
  have hrun₃ := (hrun₂.write .one (base.offset 16) 9).allocate 0 (a := base.offset 8)
    (by decide +kernel)
  have hrun := (hrun₃.allocate 16 hsecond).setObjectSize (base.offset 16) 4 (by decide +kernel)
  obtain ⟨-, -, -, -, hnew, -⟩ := heap_registered (by decide) hrun₃
  obtain ⟨-, -, -, -, -, hrefused⟩ := heap_registered (by decide) hrun
  exact ⟨hsecond, by decide +kernel, (hnew 16 _ hsecond).2.1 _ (by decide), by decide +kernel,
    by decide +kernel, by decide +kernel, hrefused 9 (by decide +kernel)⟩

end

end Scripted

end StoreBuffer
