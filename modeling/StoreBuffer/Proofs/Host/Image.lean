import StoreBuffer.Host.Scripted
import StoreBuffer.Proofs.Memory.Image

/-! # The scripted host's memory as an image

Accesses that lie in the arena are the accesses of flat memory. Whatever an access does, it leaves
the rest of the host alone: `Scripted.frame` is the host without the bytes of its arena and the
faults it has recorded. -/

namespace StoreBuffer.Scripted

/-- The bytes of the location lie in the arena. -/
def Covers (h : Scripted) (l : Location) : Prop :=
  (h.offset? l.addr (Width.byteSize l.width)).isSome = true

instance (h : Scripted) (l : Location) : Decidable (h.Covers l) := by
  unfold Covers; infer_instance

/-- The arena ends below the top of the address space. -/
def Fits (h : Scripted) : Prop := base.val.toNat + h.arena.size < 2 ^ 64

/-- The bytes of the arena where it lies, zero elsewhere. -/
def image (h : Scripted) : Image := fun a =>
  if base.val ≤ a.val then (h.arena.bytes[(a.val - base.val).toNat]?).getD 0 else 0

/-- All of the host that memory accesses leave alone. -/
def frame (h : Scripted) : Scripted := { h with arena := Arena.zeros h.arena.size, faults := [] }

/-- All of the host that neither memory accesses nor choices change. -/
def still (h : Scripted) : Scripted := { h.frame with trace := [] }

/-- A write inside the arena whose value is cut to its width. -/
structure Accepts (h : Scripted) (w : Write) : Prop where
  width : Width.Valid w.loc.width
  value : Width.truncate w.loc.width w.value = w.value
  covers : h.Covers w.loc

theorem covers_iff (h : Scripted) (l : Location) : h.Covers l ↔
    base.val.toNat ≤ l.addr.val.toNat ∧
      l.addr.val.toNat - base.val.toNat + Width.byteSize l.width ≤ h.arena.size := by
  unfold Covers offset?
  by_cases hb : base.val ≤ l.addr.val
  · have hle := UInt64.le_iff_toNat_le.mp hb
    rw [if_pos hb, UInt64.toNat_sub_of_le _ _ hb]
    simp [Arena.covers, hle, apply_ite Option.isSome]
  · have hle : ¬ base.val.toNat ≤ l.addr.val.toNat := fun h => hb (UInt64.le_iff_toNat_le.mpr h)
    simp [hb, hle]

theorem offset?_eq {h : Scripted} {l : Location} (hc : h.Covers l) :
    h.offset? l.addr (Width.byteSize l.width) =
      some (l.addr.val.toNat - base.val.toNat) := by
  obtain ⟨hle, hin⟩ := (covers_iff h l).mp hc
  have hb := UInt64.le_iff_toNat_le.mpr hle
  rw [offset?, if_pos hb, UInt64.toNat_sub_of_le _ _ hb]
  exact if_pos (decide_eq_true hin)

theorem location_fits {h : Scripted} (hfit : h.Fits) {l : Location} (hc : h.Covers l) :
    l.Fits := by
  obtain ⟨hle, hin⟩ := (covers_iff h l).mp hc
  rw [Location.fits_iff]
  unfold Fits at hfit
  omega

theorem image_of_le {h : Scripted} {a : Addr} (hle : base.val.toNat ≤ a.val.toNat) :
    h.image a = (h.arena.bytes[a.val.toNat - base.val.toNat]?).getD 0 := by
  have hb := UInt64.le_iff_toNat_le.mpr hle
  rw [image, if_pos hb, UInt64.toNat_sub_of_le _ _ hb]

theorem image_of_lt {h : Scripted} {a : Addr} (hlt : a.val.toNat < base.val.toNat) :
    h.image a = 0 := by
  have hb : ¬ base.val ≤ a.val := fun h => by
    have := UInt64.le_iff_toNat_le.mp h
    omega
  rw [image, if_neg hb]

theorem covers_congr {h h' : Scripted} (hsize : h'.arena.size = h.arena.size) (l : Location) :
    h'.Covers l ↔ h.Covers l := by
  rw [covers_iff, covers_iff, hsize]

theorem fits_congr {h h' : Scripted} (hsize : h'.arena.size = h.arena.size) :
    h'.Fits ↔ h.Fits := by
  rw [Fits, Fits, hsize]

theorem write_eq_of_covers {h : Scripted} {l : Location} (hw : l.width ≠ 0) (hc : h.Covers l)
    (value : UInt64) : write (Width.accessSize l.width) l.addr value h =
      { h with arena := ⟨Arena.overlay h.arena.bytes (l.addr.val.toNat - base.val.toNat)
        (Word.toBytes (Width.byteSize l.width) value)⟩ } := by
  have hin := ((covers_iff h l).mp hc).2
  have hcov : h.arena.covers (l.addr.val.toNat - base.val.toNat)
      (Word.toBytes (Width.byteSize l.width) value).length = true := by
    rw [Word.length_toBytes]
    exact decide_eq_true hin
  unfold write
  rw [Width.bytes_accessSize hw, offset?_eq hc, Option.bind_some, Arena.write?, if_pos hcov]

theorem frame_write (size : AccessSize) (a : Addr) (value : UInt64) (h : Scripted) :
    (write size a value h).frame = h.frame := by
  unfold write
  split
  · rename_i arena heq
    obtain ⟨o, -, ho⟩ := Option.bind_eq_some_iff.mp heq
    simp [frame, Arena.size_of_write? ho]
  · rfl

theorem frame_store (w : Write) (h : Scripted) : (Memory.store w h).frame = h.frame :=
  frame_write ..

theorem frame_storeAll (ws : List Write) (h : Scripted) :
    (Memory.storeAll ws h).frame = h.frame := by
  induction ws generalizing h with
  | nil => rfl
  | cons w rest ih => exact (ih (Memory.store w h)).trans (frame_store w h)

theorem trace_storeAll (ws : List Write) (h : Scripted) :
    (Memory.storeAll ws h).trace = h.trace := by
  show (Memory.storeAll ws h).frame.trace = h.trace
  rw [frame_storeAll]
  rfl

/-- A store inside the arena is a write to flat memory. -/
theorem image_store {h : Scripted} {w : Write} (hv : Width.Valid w.loc.width)
    (hc : h.Covers w.loc) :
    (Memory.store w h).image = h.image.write (w.loc.holding w.value) := by
  have hw : w.loc.width ≠ 0 := fun h0 => by
    have := hv.1
    omega
  obtain ⟨hle, hin⟩ := (covers_iff h w.loc).mp hc
  have hstore : Memory.store w h = _ :=
    write_eq_of_covers hw hc (Width.truncate w.loc.width w.value)
  have hlen := Word.length_toBytes (Width.byteSize w.loc.width) (Width.truncate w.loc.width w.value)
  rw [hstore]
  funext a
  by_cases hb : base.val.toNat ≤ a.val.toNat
  · rw [image_of_le hb, Image.write, image_of_le hb]
    rw [Arena.getElem?_overlay _ _ _ _ (by rw [hlen]; exact hin), hlen]
    cases hr : w.loc.region.contains a with
    | true =>
      obtain ⟨hle', hlt⟩ := (Location.contains_region _ _).mp hr
      have hsub : a.val.toNat - base.val.toNat - (w.loc.addr.val.toNat - base.val.toNat) =
          (a.val - w.loc.addr.val).toNat := by
        rw [UInt64.toNat_sub_of_le _ _ (UInt64.le_iff_toNat_le.mpr hle')]
        omega
      have hk : (a.val - w.loc.addr.val).toNat < Width.byteSize w.loc.width := by omega
      have hbyte : (w.loc.holding w.value).byteAt? a = some
          (Word.byte (Width.truncate w.loc.width w.value) (a.val - w.loc.addr.val).toNat) :=
        if_pos hr
      rw [if_pos (by omega), hsub, hbyte, Word.toBytes, List.getElem?_map,
        List.getElem?_range hk, Option.map_some, Option.getD_some, Option.getD_some]
    | false =>
      have hr' := mt (Location.contains_region w.loc a).mpr (by simp [hr])
      have hnone : (w.loc.holding w.value).byteAt? a = none := Write.byteAt?_eq_none hr
      rw [if_neg (by omega), hnone, Option.getD_none]
  · have hr : (w.loc.holding w.value).region.contains a = false := by
      rw [← Bool.not_eq_true, Write.region, Location.contains_region]
      dsimp only [Location.holding]
      omega
    rw [image_of_lt (by omega), Image.write_of_not_contains hr, image_of_lt (by omega)]

theorem size_of_still {h h' : Scripted} (heq : h'.still = h.still) :
    h'.arena.size = h.arena.size := by
  simpa [still, frame, Arena.zeros, Arena.size] using congrArg (·.arena.size) heq

theorem still_storeAll (ws : List Write) (h : Scripted) :
    (Memory.storeAll ws h).still = h.still := by
  rw [still, frame_storeAll, still]

theorem Accepts.placed {h : Scripted} (hfit : h.Fits) {w : Write} (hw : h.Accepts w) : w.Placed :=
  ⟨hw.width, location_fits hfit hw.covers⟩

theorem Accepts.congr {h h' : Scripted} (hsize : h'.arena.size = h.arena.size) {w : Write}
    (hw : h.Accepts w) : h'.Accepts w :=
  ⟨hw.width, hw.value, (covers_congr hsize _).mpr hw.covers⟩

theorem accepts_holding {h : Scripted} {l : Location} (hv : Width.Valid l.width) (hc : h.Covers l)
    (value : UInt64) : h.Accepts (l.holding value) :=
  ⟨hv, Width.truncate_truncate .., hc⟩

theorem image_storeAll {h : Scripted} {ws : List Write} (hws : ∀ w ∈ ws, h.Accepts w) :
    (Memory.storeAll ws h).image = h.image.overlay ws := by
  induction ws generalizing h with
  | nil => rfl
  | cons w rest ih =>
    have hw := hws w (List.mem_cons_self ..)
    have hsize : (Memory.store w h).arena.size = h.arena.size :=
      size_of_still (still_storeAll [w] h)
    have hrest := ih (h := Memory.store w h) fun v hv =>
      (hws v (List.mem_cons_of_mem _ hv)).congr hsize
    have hself : w.loc.holding w.value = w := by rw [Location.holding, hw.value]
    rw [image_store hw.width hw.covers, hself] at hrest
    exact hrest

/-- A load inside the arena is a read of flat memory and leaves the host as it was. -/
theorem load_eq {h : Scripted} (hfit : h.Fits) {l : Location} (hv : Width.Valid l.width)
    (hc : h.Covers l) : Memory.load l h = (h.image.read l, h) := by
  have hw : l.width ≠ 0 := fun h0 => by
    have := hv.1
    omega
  obtain ⟨hle, hin⟩ := (covers_iff h l).mp hc
  have hl := location_fits hfit hc
  have hread : read (Width.accessSize l.width) l.addr h = (Word.ofBytes
      (h.arena.bytes.extract (l.addr.val.toNat - base.val.toNat)
        (l.addr.val.toNat - base.val.toNat + Width.byteSize l.width)).toList, h) := by
    unfold read
    have hcov : h.arena.covers (l.addr.val.toNat - base.val.toNat) (Width.byteSize l.width) = true :=
      decide_eq_true hin
    rw [Width.bytes_accessSize hw, offset?_eq hc, Option.bind_some, Arena.read?, if_pos hcov]
  have hbytes : (h.arena.bytes.extract (l.addr.val.toNat - base.val.toNat)
      (l.addr.val.toNat - base.val.toNat + Width.byteSize l.width)).toList =
      (List.range (Width.byteSize l.width)).map fun k =>
        h.image (l.addr.offset (UInt64.ofNat k)) := by
    unfold Arena.size at hin
    apply List.ext_getElem
    · simp
      omega
    · intro k hk hk'
      have hk'' : k < Width.byteSize l.width := by simpa using hk'
      have hn := Location.toNat_offset hl hk''
      have hidx : l.addr.val.toNat + k - base.val.toNat =
          l.addr.val.toNat - base.val.toNat + k := by omega
      simp only [List.getElem_map, List.getElem_range, Array.getElem_toList, Array.getElem_extract]
      rw [image_of_le (by omega), hn, hidx, Array.getElem?_eq_getElem (by omega)]
      rfl
  have hload : Memory.load l h = (Width.truncate l.width (read (Width.accessSize l.width) l.addr h).1,
    (read (Width.accessSize l.width) l.addr h).2) := rfl
  rw [hload, hread, hbytes]
  rfl

end StoreBuffer.Scripted
