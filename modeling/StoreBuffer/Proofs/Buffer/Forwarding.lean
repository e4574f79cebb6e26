import StoreBuffer.Machine.Visibility
import StoreBuffer.Proofs.Memory.Image
import StoreBuffer.Proofs.Table.Pending

/-! # Forwarding

A thread sees its own pending writes laid over memory. Both ways in which a buffer answers a load,
the newest store alone and the merge byte by byte, give the value that a load would find once all
pending writes had reached memory. -/

namespace StoreBuffer

namespace Buffer

theorem pendingNewestFirst_eq (b : Buffer) (r : Region) :
    b.pendingNewestFirst r = b.pending.reverse.filter (·.region.overlaps r) := by
  rw [pendingNewestFirst, List.filterMap_reverse]
  rfl

theorem findSome?_pendingNewestFirst {b : Buffer} {l : Location} (hl : l.Fits)
    (hb : ∀ w ∈ b.pending, w.Placed) {a : Addr} (ha : l.region.contains a = true) :
    (b.pendingNewestFirst l.region).findSome? (·.byteAt? a) =
      b.pending.reverse.findSome? (·.byteAt? a) := by
  have hmem : ∀ w ∈ b.pending.reverse, w.Placed := fun w hw => hb w (List.mem_reverse.mp hw)
  rw [pendingNewestFirst_eq]
  generalize b.pending.reverse = ws at hmem ⊢
  induction ws with
  | nil => rfl
  | cons w rest ih =>
    have hrest := ih fun v hv => hmem v (List.mem_cons_of_mem _ hv)
    cases ho : w.region.overlaps l.region with
    | true =>
      rw [List.filter_cons_of_pos (by simpa using ho), List.findSome?_cons, List.findSome?_cons,
        hrest]
    | false =>
      -- what does not overlap the location covers none of its bytes
      have hw := (hmem w (List.mem_cons_self ..)).2
      have hnone := Write.byteAt?_eq_none (Region.not_contains_of_not_overlaps hw hl ho ha)
      rw [List.filter_cons_of_neg (by simp [ho]), hrest, List.findSome?_cons, hnone]

/-- Each byte of the location comes from the newest pending write that covers it. -/
theorem overlay_pending_apply {b : Buffer} {l : Location} (hl : l.Fits)
    (hb : ∀ w ∈ b.pending, w.Placed) (i : Image) {a : Addr} (ha : l.region.contains a = true) :
    i.overlay b.pending a =
      ((b.pendingNewestFirst l.region).findSome? (·.byteAt? a)).getD (i a) := by
  rw [Image.overlay_apply, findSome?_pendingNewestFirst hl hb ha]

theorem read_overlay_of_shortcut? {b : Buffer} {l : Location} (hl : l.Fits)
    (hv : Width.Valid l.width) (hb : ∀ w ∈ b.pending, w.Placed) (i : Image) {value : UInt64}
    (h : b.shortcut? l = some value) : (i.overlay b.pending).read l = value := by
  unfold shortcut? at h
  split at h
  · rename_i w ws hfirst
    split at h
    · rename_i hsame
      obtain ⟨haddr, hle⟩ := hsame
      cases h
      have hw : w.Placed := by
        have hmem : w ∈ b.pendingNewestFirst l.region := hfirst ▸ List.mem_cons_self ..
        rw [pendingNewestFirst_eq] at hmem
        exact hb w (List.mem_reverse.mp (List.mem_filter.mp hmem).1)
      -- the newest overlapping write covers the whole location, so it alone decides the bytes
      have hbytes : ∀ a, l.region.contains a = true →
          i.overlay b.pending a = i.write w a := by
        intro a ha
        have hcov : w.region.contains a = true := by
          have hsize := Width.byteSize_mono hle
          rw [Location.contains_region] at ha
          rw [Write.region, Location.contains_region, haddr]
          omega
        have hsome : (w.byteAt? a).isSome = true := by rw [Write.isSome_byteAt?, hcov]
        obtain ⟨byte, hbyte⟩ := Option.isSome_iff_exists.mp hsome
        rw [overlay_pending_apply hl hb i ha, hfirst, Image.write]
        simp [hbyte]
      rw [Image.read_congr hl hbytes, Image.read_write_of_le hw.2 hv haddr hle]
    · contradiction
  · contradiction

theorem merge_eq_read_overlay {b : Buffer} {l : Location} (hl : l.Fits)
    (hv : Width.Valid l.width) (hb : ∀ w ∈ b.pending, w.Placed) (i : Image) :
    b.merge l (i.read l) = (i.overlay b.pending).read l := by
  unfold merge
  split
  · rename_i hnone
    have hkeep : ∀ a, l.region.contains a = true → i a = i.overlay b.pending a := by
      intro a ha
      rw [overlay_pending_apply hl hb i ha, hnone]
      rfl
    rw [Image.truncate_read, Image.read_congr hl hkeep]
  · apply Word.eq_of_testBit
    intro j
    rw [Word.testBit_truncate_ofBytes hv.2, Image.testBit_read hv]
    by_cases hj : j < l.width
    · have hk : j / 8 < Width.byteSize l.width := by
        have := Width.le_byteSize hv.2
        omega
      rw [overlay_pending_apply hl hb i (Location.contains_offset hl hk)]
      cases (b.pendingNewestFirst l.region).findSome?
          (·.byteAt? (l.addr.offset (UInt64.ofNat (j / 8)))) with
      | some byte => rfl
      | none =>
        -- memory's value is already cut to the width, which bit `j` survives
        rw [Option.getD_none, Option.getD_none, Word.testBit_byte _ _ (Nat.mod_lt _ (by decide)),
          Nat.div_add_mod, Image.testBit_read hv]
        simp [hj]
    · simp [hj]

end Buffer

namespace Machine

variable {σ : Type}

/-- A thread loads what it would find after its pending writes had been written out. -/
theorem forward_value {m : Machine σ} {t : ThreadId} {l : Location} (hl : l.Fits)
    (hv : Width.Valid l.width) (hb : ∀ w ∈ m.table.pending t, w.Placed) (i : Image) :
    (m.forward t l (i.read l)).1 = (i.overlay (m.table.pending t)).read l := by
  unfold forward
  cases hbuf : m.table.buffer? t with
  | none =>
    rw [Table.pending_of_no_buffer hbuf]
    exact Image.truncate_read i l
  | some b =>
    rw [Table.pending_of_buffer? hbuf] at hb ⊢
    cases hs : b.shortcut? l with
    | some value =>
      simp only [hs]
      exact (Buffer.read_overlay_of_shortcut? hl hv hb i hs).symm
    | none =>
      simp only [hs]
      exact Buffer.merge_eq_read_overlay hl hv hb i

end Machine

end StoreBuffer
