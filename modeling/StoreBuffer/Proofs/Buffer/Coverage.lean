import StoreBuffer.Pending.Line
import StoreBuffer.Proofs.Memory.Region

/-! # What a line covers

A line touches a region if the region of its write overlaps it, and it covers an address if it has a
byte for it. The two are one notion for regions that end below the top of the address space. The
limit of a region that ends at the top wraps to zero, so that such a region overlaps nothing, not
even itself, while each of its addresses still is one of its addresses. -/

namespace StoreBuffer

namespace Region

/-- The region ends at the top of the address space at the latest. -/
def InSpace (r : Region) : Prop := r.base.val.toNat + r.size.toNat ≤ 2 ^ 64

instance (r : Region) : Decidable r.InSpace := inferInstanceAs (Decidable (_ ≤ _))

instance (r : Region) : Decidable r.Fits := inferInstanceAs (Decidable (_ < _))

/-- Some address lies in both regions. -/
def Shares (r s : Region) : Prop := ∃ a, r.contains a = true ∧ s.contains a = true

variable {r s : Region}

/-- No address lies in front of a limit that has wrapped to zero. -/
theorem fits_of_overlaps (hr : r.InSpace) (h : r.overlaps s = true) : r.Fits := by
  simp only [overlaps, Bool.and_eq_true, decide_eq_true_eq] at h
  have hlimit : s.base.val.toNat < r.limit.val.toNat := UInt64.lt_iff_toNat_lt.mp h.2.2
  rw [limit, Addr.offset, UInt64.toNat_add] at hlimit
  unfold InSpace at hr
  unfold Fits
  omega

theorem overlaps_iff_of_inSpace (hr : r.InSpace) (hs : s.InSpace) :
    r.overlaps s = true ↔ r.Shares s ∧ r.Fits ∧ s.Fits := by
  constructor
  · intro h
    have hrfits : r.Fits := fits_of_overlaps hr h
    have hsfits : s.Fits := fits_of_overlaps hs (overlaps_comm r s ▸ h)
    exact ⟨(overlaps_iff_exists hrfits hsfits).mp h, hrfits, hsfits⟩
  · rintro ⟨hshares, hrfits, hsfits⟩
    exact (overlaps_iff_exists hrfits hsfits).mpr hshares

end Region

namespace Line

/-- The addresses that a line covers are those of its write. -/
theorem exists_byteAt?_iff {l : Line} {w : Write} (h : l.write? = some w) (r : Region) :
    (∃ a, (l.byteAt? a).isSome = true ∧ r.contains a = true) ↔ w.region.Shares r := by
  simp only [byteAt?_of_write? h, Write.isSome_byteAt?]
  rfl

end Line

namespace Region

variable {r s : Region}

/-- Two regions overlap if and only if they share an address and neither ends at the top of the
address space, and a line touches a region if and only if it covers an address of it, with the same
exception. -/
theorem overlaps_iff_shares (hr : r.InSpace) (hs : s.InSpace) :
    (r.overlaps s = true ↔ r.Shares s ∧ r.Fits ∧ s.Fits) ∧
      ∀ l : Line, (∀ w, l.write? = some w → w.region = r) →
        (l.touches s = true ↔
          (∃ a, (l.byteAt? a).isSome = true ∧ s.contains a = true) ∧ r.Fits ∧ s.Fits) := by
  have hregions := overlaps_iff_of_inSpace hr hs
  refine ⟨hregions, fun l hl => ?_⟩
  cases hw : l.write? with
  | none => simp [Line.touches, Line.byteAt?, hw]
  | some w =>
    have hsame := hl w hw
    rw [Line.touches_of_write? hw, Line.exists_byteAt?_iff hw, hsame]
    exact hregions

/-- A store of 32 bits that ends one byte in front of the top touches the last of its bytes. -/
theorem overlaps_iff_shares_lastByte :
    let l : Line := .store ⟨⟨0xfffffffffffffffb⟩, 32⟩ 0x11223344 .monotonic
    let r : Region := ⟨⟨0xfffffffffffffffb⟩, 4⟩
    let s : Region := ⟨⟨0xfffffffffffffffe⟩, 1⟩
    r.InSpace ∧ s.InSpace ∧ r.overlaps s = true ∧ l.touches s = true := by
  intro l r s
  have hr : r.InSpace := by decide
  have hs : s.InSpace := by decide
  obtain ⟨hregions, hlines⟩ := overlaps_iff_shares hr hs
  have hregion : ∀ w, l.write? = some w → w.region = r := by
    rintro w ⟨⟩
    decide
  exact ⟨hr, hs, hregions.mpr ⟨⟨s.base, by decide, by decide⟩, by decide, by decide⟩,
    (hlines l hregion).mpr ⟨⟨s.base, by decide, by decide⟩, by decide, by decide⟩⟩

/-- The last eight bytes of the address space do not overlap themselves, and a store to them that
has a byte for the first of them does not touch them. -/
theorem top_not_overlaps_itself :
    let r : Region := ⟨⟨0xfffffffffffffff8⟩, 8⟩
    let l : Line := .store ⟨r.base, 64⟩ 5 .monotonic
    r.InSpace ∧ r.contains r.base = true ∧ r.overlaps r = false ∧
      l.byteAt? r.base = some 5 ∧ l.touches r = false := by
  decide

end Region

end StoreBuffer
