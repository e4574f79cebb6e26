import StoreBuffer.Proofs.Buffer.Forwarding
import StoreBuffer.Proofs.Host.Image

/-! # The newest write to a location

Where all writes that share bytes with a location are to exactly that location, what is read there is
the value of the newest of them. This holds of the writes a thread has pending and of those brought
to memory, which may lie outside the arena as long as the location itself does not. -/

namespace StoreBuffer

namespace Write

/-- A write as buffers hold them that shares bytes with the location only if it is to that location. -/
structure Matches (loc : Location) (w : Write) : Prop where
  width : Width.Valid w.loc.width
  value : Width.truncate w.loc.width w.value = w.value
  loc : w.region.overlaps loc.region = true → w.loc = loc

/-- The value of the newest write that shares bytes with the location. -/
def newest (loc : Location) (ws : List Write) : Option UInt64 :=
  (ws.filter (·.region.overlaps loc.region)).getLast?.map (·.value)

theorem newest_cons (loc : Location) (w : Write) (ws : List Write) : newest loc (w :: ws) =
    (newest loc ws).or (if w.region.overlaps loc.region then some w.value else none) := by
  unfold newest
  cases hw : w.region.overlaps loc.region with
  | false =>
    rw [List.filter_cons_of_neg (by simp [hw])]
    simp
  | true =>
    rw [List.filter_cons_of_pos (by simpa using hw), List.getLast?_cons]
    cases (ws.filter (·.region.overlaps loc.region)).getLast? <;> rfl

theorem newest_append (loc : Location) (ws vs : List Write) :
    newest loc (ws ++ vs) = (newest loc vs).or (newest loc ws) := by
  unfold newest
  rw [List.filter_append, List.getLast?_append, Option.map_or]

end Write

namespace Scripted

/-- A write outside the arena is refused. -/
theorem arena_store_of_not_covers {h : Scripted} {w : Write} (hv : Width.Valid w.loc.width)
    (hc : ¬ h.Covers w.loc) : (Memory.store w h).arena = h.arena := by
  have hw : w.loc.width ≠ 0 := fun h0 => by
    have := hv.1
    omega
  have hnone : h.offset? w.loc.addr (Width.byteSize w.loc.width) = none := by
    rwa [Covers, Option.not_isSome_iff_eq_none] at hc
  show (write (Width.accessSize w.loc.width) w.loc.addr _ h).arena = _
  rw [write, Width.bytes_accessSize hw, hnone]
  rfl

variable {h : Scripted} {loc : Location}

/-- A load inside the arena looks at nothing else. -/
theorem load_congr {h' : Scripted} (hfit : h.Fits) (hv : Width.Valid loc.width)
    (hc : h.Covers loc) (harena : h'.arena = h.arena) :
    (Memory.load loc h').1 = (Memory.load loc h).1 := by
  have hsize := congrArg Arena.size harena
  have himage : h'.image = h.image := by
    unfold image
    rw [harena]
  rw [load_eq hfit hv hc, load_eq ((fits_congr hsize).mpr hfit) hv ((covers_congr hsize _).mpr hc),
    himage]

theorem load_store (hfit : h.Fits) (hv : Width.Valid loc.width) (hc : h.Covers loc) {w : Write}
    (hw : w.Matches loc) : (Memory.load loc (Memory.store w h)).1 =
      if w.region.overlaps loc.region then w.value else (Memory.load loc h).1 := by
  have hsize : (Memory.store w h).arena.size = h.arena.size := size_of_still (still_storeAll [w] h)
  have hload := load_eq ((fits_congr hsize).mpr hfit) hv ((covers_congr hsize _).mpr hc)
  have hself : w.loc.holding w.value = w := by rw [Location.holding, hw.value]
  by_cases hover : w.region.overlaps loc.region = true
  · obtain rfl := hw.loc hover
    rw [if_pos hover, hload, image_store hv hc,
      Image.read_write_holding (location_fits hfit hc) hv, hw.value]
  · rw [if_neg hover]
    by_cases hin : h.Covers w.loc
    · rw [hload, load_eq hfit hv hc, image_store hw.width hin, hself,
        Image.read_write_apart (location_fits hfit hc)
          ⟨location_fits hfit hin, Bool.eq_false_iff.mpr hover⟩]
    · exact load_congr hfit hv hc (arena_store_of_not_covers hw.width hin)

/-- Memory holds the newest write to the location, or what it held before. -/
theorem load_storeAll (hfit : h.Fits) (hv : Width.Valid loc.width) (hc : h.Covers loc)
    {ws : List Write} (hws : ∀ w ∈ ws, w.Matches loc) :
    (Memory.load loc (Memory.storeAll ws h)).1 =
      (Write.newest loc ws).getD (Memory.load loc h).1 := by
  induction ws generalizing h with
  | nil => rfl
  | cons w rest ih =>
    have hsize : (Memory.store w h).arena.size = h.arena.size :=
      size_of_still (still_storeAll [w] h)
    have hrest := ih ((fits_congr hsize).mpr hfit) ((covers_congr hsize _).mpr hc)
      fun v hv => hws v (List.mem_cons_of_mem _ hv)
    show (Memory.load loc (Memory.storeAll rest (Memory.store w h))).1 = _
    rw [hrest, load_store hfit hv hc (hws w (List.mem_cons_self ..)), Write.newest_cons]
    cases Write.newest loc rest with
    | some v => rfl
    | none => cases w.region.overlaps loc.region <;> rfl

end Scripted

/-- A thread sees its own newest write to the location, or what memory holds. -/
theorem Machine.forward_newest {σ : Type} {m : Machine σ} {t : ThreadId} {loc : Location}
    (ht : ∀ w ∈ m.table.pending t, w.Matches loc) (v : UInt64) :
    (m.forward t loc v).1 =
      (Write.newest loc (m.table.pending t)).getD (Width.truncate loc.width v) := by
  unfold forward
  cases hb : m.table.buffer? t with
  | none =>
    rw [Table.pending_of_no_buffer hb]
    rfl
  | some b =>
    rw [Table.pending_of_buffer? hb] at ht ⊢
    have hnewest : Write.newest loc b.pending =
        (b.pendingNewestFirst loc.region).head?.map (·.value) := by
      rw [Write.newest, Buffer.pendingNewestFirst_eq, List.filter_reverse, List.head?_reverse]
    dsimp only
    unfold Buffer.shortcut? Buffer.merge
    cases hfirst : b.pendingNewestFirst loc.region with
    | nil =>
      rw [hnewest, hfirst]
      rfl
    | cons w ws =>
      have hmem : w ∈ b.pendingNewestFirst loc.region := hfirst ▸ List.mem_cons_self ..
      rw [Buffer.pendingNewestFirst_eq, List.mem_filter, List.mem_reverse] at hmem
      have hw := ht w hmem.1
      obtain rfl := hw.loc hmem.2
      rw [hnewest, hfirst]
      simp [hw.value]

end StoreBuffer
