import StoreBuffer.Access.Fault
import StoreBuffer.Proofs.Memory.Region
import StoreBuffer.Proofs.Memory.Word

/-! # Flat memory

An image gives every address its byte. `Image.read` and `Image.write` are little-endian accesses of
a location, and `Image.overlay` applies writes one after the other. There are no buffers and no
bounds here: an image is what the machines of this library are compared with. -/

namespace StoreBuffer

namespace Location

/-- The bytes of the location end below the top of the address space. -/
def Fits (l : Location) : Prop := l.region.Fits

instance (l : Location) : Decidable l.Valid := by
  unfold Valid; infer_instance

/-- The write of the low bits of `value`. -/
def holding (l : Location) (value : UInt64) : Write := ⟨l, Width.truncate l.width value⟩

theorem toNat_size (l : Location) : l.size.toNat = Width.byteSize l.width := by
  have := Width.byteSize_le l.width
  rw [size, UInt64.toNat_ofNat']
  exact Nat.mod_eq_of_lt (by omega)

theorem fits_iff (l : Location) :
    l.Fits ↔ l.addr.val.toNat + Width.byteSize l.width < 2 ^ 64 := by
  rw [Fits, Region.Fits, region, toNat_size]

theorem toNat_offset {l : Location} (h : l.Fits) {k : Nat} (hk : k < Width.byteSize l.width) :
    (l.addr.offset (UInt64.ofNat k)).val.toNat = l.addr.val.toNat + k := by
  rw [fits_iff] at h
  rw [Addr.offset, UInt64.toNat_add, UInt64.toNat_ofNat', Nat.mod_eq_of_lt (by omega : k < 2 ^ 64)]
  exact Nat.mod_eq_of_lt (by omega)

theorem contains_region (l : Location) (a : Addr) : l.region.contains a = true ↔
    l.addr.val.toNat ≤ a.val.toNat ∧ a.val.toNat < l.addr.val.toNat + Width.byteSize l.width := by
  rw [Region.contains_iff, region, toNat_size]

theorem contains_offset {l : Location} (h : l.Fits) {k : Nat}
    (hk : k < Width.byteSize l.width) :
    l.region.contains (l.addr.offset (UInt64.ofNat k)) = true := by
  rw [contains_region, toNat_offset h hk]
  omega

theorem overlaps_self {l : Location} (h : l.Fits) (hw : l.width ≠ 0) :
    l.region.overlaps l.region = true := by
  have hpos := Width.byteSize_pos hw
  rw [Region.overlaps_iff_exists h h]
  have hc := contains_offset h hpos
  exact ⟨_, hc, hc⟩

end Location

namespace Write

/-- A write of a valid width whose bytes end below the top of the address space. -/
def Placed (w : Write) : Prop := Width.Valid w.loc.width ∧ w.loc.Fits

/-- The write shares no byte with the location. -/
def Apart (l : Location) (w : Write) : Prop :=
  w.loc.Fits ∧ w.region.overlaps l.region = false

theorem ofStore_eq_holding {l : Location} (h : Width.Valid l.width) (value : UInt64) :
    ofStore l value = l.holding value := by
  have hw : l.width % 256 = l.width := by
    have h := h.2
    unfold Width.greatest at h
    omega
  rw [ofStore, hw]
  rfl

theorem byteAt?_eq_none {w : Write} {a : Addr} (h : w.region.contains a = false) :
    w.byteAt? a = none := by
  rw [byteAt?, h]
  rfl

/-- The write covers byte `k` of a location at its address with byte `k` of its value. -/
theorem byteAt?_offset {w : Write} (h : w.loc.Fits) {k : Nat}
    (hk : k < Width.byteSize w.loc.width) :
    w.byteAt? (w.loc.addr.offset (UInt64.ofNat k)) = some (Word.byte w.value k) := by
  have hn := Location.toNat_offset h hk
  have hle : w.loc.addr.val ≤ (w.loc.addr.offset (UInt64.ofNat k)).val := by
    rw [UInt64.le_iff_toNat_le, hn]
    omega
  have hsub : ((w.loc.addr.offset (UInt64.ofNat k)).val - w.loc.addr.val).toNat = k := by
    rw [UInt64.toNat_sub_of_le _ _ hle, hn]
    omega
  rw [byteAt?, region, Location.contains_offset h hk, if_pos rfl, hsub]

end Write

/-- The byte at every address. -/
abbrev Image := Addr → UInt8

namespace Image

/-- The value at a location, little-endian. -/
def read (i : Image) (l : Location) : UInt64 :=
  Width.truncate l.width <| Word.ofBytes <| (List.range (Width.byteSize l.width)).map fun k =>
    i (l.addr.offset (UInt64.ofNat k))

/-- The bytes a write covers are replaced. -/
def write (i : Image) (w : Write) : Image := fun a => (w.byteAt? a).getD (i a)

/-- Writes one after the other. -/
def overlay (i : Image) (ws : List Write) : Image := ws.foldl write i

theorem overlay_nil (i : Image) : i.overlay [] = i := rfl

theorem overlay_cons (i : Image) (w : Write) (ws : List Write) :
    i.overlay (w :: ws) = (i.write w).overlay ws := rfl

theorem overlay_append (i : Image) (vs ws : List Write) :
    i.overlay (vs ++ ws) = (i.overlay vs).overlay ws := List.foldl_append

theorem testBit_read {l : Location} (h : Width.Valid l.width) (i : Image) (j : Nat) :
    (i.read l).toNat.testBit j = (decide (j < l.width) &&
      (i (l.addr.offset (UInt64.ofNat (j / 8)))).toNat.testBit (j % 8)) :=
  Word.testBit_truncate_ofBytes h.2 _ j

/-- A load depends on the bytes of its location only. -/
theorem read_congr {l : Location} (h : l.Fits) {i i' : Image}
    (heq : ∀ a, l.region.contains a = true → i a = i' a) : i.read l = i'.read l := by
  have hmap : ((List.range (Width.byteSize l.width)).map fun k =>
      i (l.addr.offset (UInt64.ofNat k))) =
      (List.range (Width.byteSize l.width)).map fun k => i' (l.addr.offset (UInt64.ofNat k)) := by
    apply List.map_congr_left
    intro k hk
    exact heq _ (Location.contains_offset h (List.mem_range.mp hk))
  rw [read, read, hmap]

theorem truncate_read (i : Image) (l : Location) :
    Width.truncate l.width (i.read l) = i.read l := Width.truncate_truncate ..

theorem write_of_not_contains {w : Write} {a : Addr} (h : w.region.contains a = false)
    (i : Image) : i.write w a = i a := by
  rw [write, Write.byteAt?_eq_none h]
  rfl

theorem read_write_apart {w : Write} {l : Location} (hl : l.Fits) (hw : w.Apart l) (i : Image) :
    (i.write w).read l = i.read l :=
  read_congr hl fun _ ha =>
    write_of_not_contains (Region.not_contains_of_not_overlaps hw.1 hl hw.2 ha) i

/-- Writes that do not cover an address may be left out there. -/
theorem overlay_filter_apply {α : Type} {f : α → Write} {xs : List α} {p : α → Bool} {a : Addr}
    (hxs : ∀ x ∈ xs, p x = false → (f x).region.contains a = false) {i i' : Image}
    (heq : i a = i' a) : i.overlay ((xs.filter p).map f) a = i'.overlay (xs.map f) a := by
  induction xs generalizing i i' with
  | nil => exact heq
  | cons x rest ih =>
    have hrest := fun y hy => hxs y (List.mem_cons_of_mem x hy)
    rw [List.map_cons, overlay_cons]
    cases hk : p x with
    | true =>
      rw [List.filter_cons_of_pos hk, List.map_cons, overlay_cons]
      apply ih hrest
      rw [write, write, heq]
    | false =>
      rw [List.filter_cons_of_neg (by simp [hk])]
      apply ih hrest
      rw [heq, write_of_not_contains (hxs x (List.mem_cons_self ..) hk)]

theorem overlay_of_not_contains {α : Type} {f : α → Write} {xs : List α} {a : Addr}
    (hxs : ∀ x ∈ xs, (f x).region.contains a = false) (i : Image) :
    i.overlay (xs.map f) a = i a := by
  have hnone : xs.filter (fun _ => false) = [] := by simp
  rw [← overlay_filter_apply (p := fun _ => false) (fun x hx _ => hxs x hx) rfl, hnone]
  rfl

/-- Writes that share no byte with a location may be left out. -/
theorem overlay_filter_apart {l : Location} (hl : l.Fits) {ws : List Write} {p : Write → Bool}
    (hws : ∀ w ∈ ws, p w = false → w.Apart l) {i i' : Image} {a : Addr}
    (ha : l.region.contains a = true) (heq : i a = i' a) :
    i.overlay (ws.filter p) a = i'.overlay ws a := by
  have hcover : ∀ w ∈ ws, p w = false → w.region.contains a = false := fun w hw hp =>
    Region.not_contains_of_not_overlaps (hws w hw hp).1 hl (hws w hw hp).2 ha
  have happly := overlay_filter_apply (f := id) hcover heq
  rwa [List.map_id, List.map_id] at happly

theorem read_overlay_filter_apart {l : Location} (hl : l.Fits) {ws : List Write}
    {p : Write → Bool} (hws : ∀ w ∈ ws, p w = false → w.Apart l) (i : Image) :
    (i.overlay (ws.filter p)).read l = (i.overlay ws).read l :=
  read_congr hl fun _ ha => overlay_filter_apart hl hws ha rfl

theorem read_overlay_apart {ws : List Write} {l : Location} (hl : l.Fits)
    (hws : ∀ w ∈ ws, w.Apart l) (i : Image) : (i.overlay ws).read l = i.read l := by
  have hnone : ws.filter (fun _ => false) = [] := by simp
  rw [← read_overlay_filter_apart hl (p := fun _ => false) (fun w hw _ => hws w hw), hnone]
  rfl

/-- A write that shares no byte with a location may come before any others. -/
theorem read_overlay_write_apart {w : Write} {l : Location} (hl : l.Fits) (hw : w.Apart l)
    (ws : List Write) (i : Image) : ((i.write w).overlay ws).read l = (i.overlay ws).read l := by
  apply read_congr hl
  intro a ha
  have hall : (i.write w).overlay (ws.filter fun _ => true) a = i.overlay ws a :=
    overlay_filter_apart hl (by simp) ha
      (write_of_not_contains (Region.not_contains_of_not_overlaps hw.1 hl hw.2 ha) i)
  rwa [List.filter_eq_self.mpr (by simp)] at hall

/-- A load from the address of a write that is at least as wide finds the write's value. -/
theorem read_write_of_le {w : Write} {l : Location} (hw : w.loc.Fits) (hl : Width.Valid l.width)
    (haddr : w.loc.addr = l.addr) (hle : l.width ≤ w.loc.width) (i : Image) :
    (i.write w).read l = Width.truncate l.width w.value := by
  apply Word.eq_of_testBit
  intro j
  have hmin : min l.width 64 = l.width := Nat.min_eq_left hl.2
  rw [testBit_read hl, Width.testBit_truncate, hmin]
  by_cases hj : j < l.width
  · have hk : j / 8 < Width.byteSize w.loc.width := by
      have := Width.byteSize_mono hle
      have := Width.le_byteSize hl.2
      omega
    have hbyte : i.write w (l.addr.offset (UInt64.ofNat (j / 8))) = Word.byte w.value (j / 8) := by
      rw [write, ← haddr, Write.byteAt?_offset hw hk]
      rfl
    rw [hbyte, Word.testBit_byte _ _ (Nat.mod_lt _ (by decide)), Nat.div_add_mod]
  · simp [hj]

theorem read_write_holding {l : Location} (hl : l.Fits) (hv : Width.Valid l.width)
    (value : UInt64) (i : Image) :
    (i.write (l.holding value)).read l = Width.truncate l.width value := by
  rw [read_write_of_le (w := l.holding value) hl hv rfl (Nat.le_refl _)]
  exact Width.truncate_truncate ..

/-- The byte at an address is that of the newest write that covers it. -/
theorem overlay_apply (i : Image) (ws : List Write) (a : Addr) :
    i.overlay ws a = (ws.reverse.findSome? (·.byteAt? a)).getD (i a) := by
  induction ws generalizing i with
  | nil => rfl
  | cons w rest ih =>
    rw [overlay_cons, ih, List.reverse_cons, List.findSome?_append]
    cases rest.reverse.findSome? (·.byteAt? a) with
    | some b => rfl
    | none => cases h : w.byteAt? a <;> simp [write, h]

end Image

end StoreBuffer
