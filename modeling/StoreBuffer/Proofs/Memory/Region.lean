import Mathlib.Algebra.Group.Nat.Defs
import StoreBuffer.Memory.Location

/-! # Regions as sets of addresses

`Region.contains` is an interval of numbers whatever the region. `Region.overlaps` compares limits
that wrap, so it speaks of intervals only for regions that end below the top of the address space;
for those two regions overlap exactly when they share an address. -/

namespace StoreBuffer.Region

/-- The region ends below the top of the address space. -/
def Fits (r : Region) : Prop := r.base.val.toNat + r.size.toNat < 2 ^ 64

theorem contains_iff (r : Region) (a : Addr) : r.contains a = true ↔
    r.base.val.toNat ≤ a.val.toNat ∧ a.val.toNat < r.base.val.toNat + r.size.toNat := by
  simp only [contains, Bool.and_eq_true, decide_eq_true_eq]
  constructor
  · rintro ⟨h, hlt⟩
    rw [UInt64.lt_iff_toNat_lt, UInt64.toNat_sub_of_le _ _ h] at hlt
    have h := UInt64.le_iff_toNat_le.mp h
    omega
  · rintro ⟨h, hlt⟩
    have hle := UInt64.le_iff_toNat_le.mpr h
    refine ⟨hle, ?_⟩
    rw [UInt64.lt_iff_toNat_lt, UInt64.toNat_sub_of_le _ _ hle]
    omega

theorem toNat_limit {r : Region} (h : r.Fits) :
    r.limit.val.toNat = r.base.val.toNat + r.size.toNat := by
  rw [limit, Addr.offset, UInt64.toNat_add]
  exact Nat.mod_eq_of_lt h

theorem overlaps_iff {r s : Region} (hr : r.Fits) (hs : s.Fits) : r.overlaps s = true ↔
    0 < r.size.toNat ∧ 0 < s.size.toNat ∧
      r.base.val.toNat < s.base.val.toNat + s.size.toNat ∧
      s.base.val.toNat < r.base.val.toNat + r.size.toNat := by
  have hpos : ∀ x : UInt64, x ≠ 0 ↔ 0 < x.toNat := by
    intro x
    rw [ne_eq, ← UInt64.toNat_inj, UInt64.toNat_zero]
    omega
  simp only [overlaps, Bool.and_eq_true, bne_iff_ne, decide_eq_true_eq, hpos,
    UInt64.lt_iff_toNat_lt, toNat_limit hr, toNat_limit hs, and_assoc]

/-- Regions overlap exactly when they share an address. -/
theorem overlaps_iff_exists {r s : Region} (hr : r.Fits) (hs : s.Fits) :
    r.overlaps s = true ↔ ∃ a, r.contains a = true ∧ s.contains a = true := by
  rw [overlaps_iff hr hs]
  constructor
  · rintro ⟨hr0, hs0, hrs, hsr⟩
    by_cases h : r.base.val.toNat ≤ s.base.val.toNat
    · exact ⟨s.base, (contains_iff ..).mpr ⟨h, hsr⟩, (contains_iff ..).mpr ⟨Nat.le_refl _, by omega⟩⟩
    · exact ⟨r.base, (contains_iff ..).mpr ⟨Nat.le_refl _, by omega⟩,
        (contains_iff ..).mpr ⟨by omega, hrs⟩⟩
  · rintro ⟨a, hra, hsa⟩
    rw [contains_iff] at hra hsa
    omega

theorem not_contains_of_not_overlaps {r s : Region} (hr : r.Fits) (hs : s.Fits)
    (h : r.overlaps s = false) {a : Addr} (ha : s.contains a = true) : r.contains a = false := by
  cases hra : r.contains a with
  | false => rfl
  | true =>
    have := (overlaps_iff_exists hr hs).mpr ⟨a, hra, ha⟩
    rw [h] at this
    contradiction

end StoreBuffer.Region
