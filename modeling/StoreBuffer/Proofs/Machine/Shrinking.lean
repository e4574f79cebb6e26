import StoreBuffer.Proofs.Machine.Departures
import StoreBuffer.Proofs.Machine.Shape
import StoreBuffer.Proofs.Memory.Region

/-! # Shrinking an object

When an object shrinks, the buffers lose the stores that start behind its new end. A store that
starts in front of the new end and reaches past it is not among them: it stays pending, and writes
the bytes that the object gives up once it drains. -/

namespace StoreBuffer

namespace Region

/-- The bytes of the region behind its first `n`. -/
def behind (r : Region) (n : UInt64) : Region := ⟨r.base.offset n, r.size - n⟩

variable {r : Region} {n : UInt64}

theorem toNat_base_behind (h : r.Fits) (hn : n < r.size) :
    (r.behind n).base.val.toNat = r.base.val.toNat + n.toNat := by
  have hlt : n.toNat < r.size.toNat := UInt64.lt_iff_toNat_lt.mp hn
  have hfits : r.base.val.toNat + r.size.toNat < 2 ^ 64 := h
  rw [behind, Addr.offset, UInt64.toNat_add]
  exact Nat.mod_eq_of_lt (by omega)

theorem toNat_size_behind (hn : n < r.size) :
    (r.behind n).size.toNat = r.size.toNat - n.toNat :=
  UInt64.toNat_sub_of_le _ _ (UInt64.le_of_lt hn)

/-- What lies behind the first `n` bytes is the region without them. -/
theorem contains_behind (h : r.Fits) (hn : n < r.size) (a : Addr) :
    (r.behind n).contains a = true ↔
      r.contains a = true ∧ (Region.mk r.base n).contains a = false := by
  have hlt : n.toNat < r.size.toNat := UInt64.lt_iff_toNat_lt.mp hn
  rw [← Bool.not_eq_true, contains_iff, contains_iff, contains_iff, toNat_base_behind h hn,
    toNat_size_behind hn]
  dsimp only
  omega

end Region

/-- The write covers the address and starts in front of it. -/
def Write.Straddles (w : Write) (a : Addr) : Prop := w.loc.addr ≠ a ∧ w.region.contains a = true

instance (w : Write) (a : Addr) : Decidable (w.Straddles a) := inferInstanceAs (Decidable (_ ∧ _))

/-- A write that straddles the base of a region starts in front of the region. -/
theorem Write.Straddles.starts_outside {w : Write} {r : Region} (h : w.Straddles r.base) :
    r.contains w.loc.addr = false := by
  obtain ⟨hne, hcovers⟩ := h
  rw [Region.contains_iff] at hcovers
  have hlt : w.loc.addr.val.toNat ≠ r.base.val.toNat := fun heq =>
    hne (congrArg Addr.mk (UInt64.toNat_inj.mp heq))
  rw [← Bool.not_eq_true, Region.contains_iff]
  dsimp only [Write.region, Location.region] at hcovers
  omega

/-- A write that starts outside a region has a byte in it exactly if it straddles its base. -/
theorem Write.exists_byteAt_iff {w : Write} {r : Region} (hr : 0 < r.size)
    (hw : r.contains w.loc.addr = false) :
    (∃ a, r.contains a = true ∧ (w.byteAt? a).isSome = true) ↔ w.Straddles r.base := by
  have hpos : 0 < r.size.toNat := UInt64.lt_iff_toNat_lt.mp hr
  have hbase : r.contains r.base = true :=
    (Region.contains_iff ..).mpr ⟨Nat.le_refl _, Nat.lt_add_of_pos_right hpos⟩
  rw [← Bool.not_eq_true, Region.contains_iff] at hw
  constructor
  · rintro ⟨a, ha, hbyte⟩
    rw [isSome_byteAt?] at hbyte
    refine ⟨?_, ?_⟩
    · intro heq
      rw [heq] at hw
      omega
    · rw [Region.contains_iff] at ha hbyte ⊢
      dsimp only [region, Location.region] at hbyte ⊢
      omega
  · rintro ⟨-, hcovers⟩
    exact ⟨r.base, hbase, by rwa [isSome_byteAt?]⟩

namespace Machine

variable {σ : Type} [Host σ] {m : Machine σ}

/-- Shrinking an object discards what starts behind its new end. -/
theorem resize_eq_discardRange {ptr : Addr} {newSize : UInt64} {object : Region}
    (hptr : ptr.isNull = false)
    (hobject : (Host.objectAt ptr (Host.hold m.host).2).1 = some object)
    (hless : newSize < object.size) :
    (m.resize ptr newSize).1 = .ok () ∧
      (m.resize ptr newSize).2.table =
        (m.discardRange none (object.behind newSize)).2.table := by
  have hnot : ¬ object.size ≤ newSize := UInt64.not_le.mpr hless
  unfold resize masked
  rw [hptr, if_neg Bool.false_ne_true]
  dsimp only
  have hfound : (Host.objectAt ptr (m.withHost (Host.hold m.host).2).host).1 = some object :=
    hobject
  rw [hfound]
  dsimp only
  rw [if_neg hnot]
  refine ⟨rfl, ?_⟩
  show (Machine.discardRange none (object.behind newSize) (Machine.withHost _ _)).2.table = _
  rw [table_discardRange, table_discardRange]
  rfl

/-- When an object shrinks, every thread loses the pending stores that start behind its new end.
What it keeps still writes a byte that the object gives up if and only if one of its stores
straddled the new end. -/
theorem resize_keeps_straddling {c : Config} {ptr : Addr} {newSize : UInt64} {object : Region}
    (h : Reachable c m) (hptr : ptr.isNull = false)
    (hobject : (Host.objectAt ptr (Host.hold m.host).2).1 = some object)
    (hfits : object.Fits) (hless : newSize < object.size) :
    let shrunk : Region := ⟨object.base, newSize⟩
    let m' := (m.resize ptr newSize).2
    (m.resize ptr newSize).1 = .ok () ∧ ∀ t,
      m'.table.pending t = (m.table.pending t).filter (fun w =>
        !(object.contains w.loc.addr && !shrunk.contains w.loc.addr)) ∧
      ((∃ w ∈ m'.table.pending t, ∃ a, object.contains a = true ∧ shrunk.contains a = false ∧
          (w.byteAt? a).isSome = true) ↔
        ∃ w ∈ m.table.pending t, w.Straddles shrunk.limit) := by
  intro shrunk m'
  obtain ⟨hok, htable⟩ := resize_eq_discardRange hptr hobject hless
  have howners : m.table.owners.Nodup := h.shaped.owners
  have hbehind (a : Addr) : (object.behind newSize).contains a =
      (object.contains a && !shrunk.contains a) := by
    rw [Bool.eq_iff_iff, Region.contains_behind hfits hless]
    simp [shrunk]
  have hpos : 0 < (object.behind newSize).size := by
    rw [UInt64.lt_iff_toNat_lt, Region.toNat_size_behind hless]
    exact Nat.sub_pos_of_lt (UInt64.lt_iff_toNat_lt.mp hless)
  refine ⟨hok, fun t => ?_⟩
  have hpending : m'.table.pending t =
      (m.table.pending t).filter fun w => !(object.behind newSize).contains w.loc.addr := by
    show (m.resize ptr newSize).2.table.pending t = _
    rw [htable, pending_discardRange howners]
    rfl
  refine ⟨by simpa only [hbehind] using hpending, ?_⟩
  have hfreed (a : Addr) : (object.contains a = true ∧ shrunk.contains a = false) ↔
      (object.behind newSize).contains a = true := (Region.contains_behind hfits hless a).symm
  simp only [← and_assoc, hfreed]
  rw [hpending]
  constructor
  · rintro ⟨w, hw, hbyte⟩
    obtain ⟨hmem, hstart⟩ := List.mem_filter.mp hw
    have hstart : (object.behind newSize).contains w.loc.addr = false := by simpa using hstart
    exact ⟨w, hmem, (Write.exists_byteAt_iff hpos hstart).mp hbyte⟩
  · rintro ⟨w, hmem, hstraddles⟩
    have hstart : (object.behind newSize).contains w.loc.addr = false := hstraddles.starts_outside
    exact ⟨w, List.mem_filter.mpr ⟨hmem, by simpa using hstart⟩,
      (Write.exists_byteAt_iff hpos hstart).mpr hstraddles⟩

/-- Thread 1 has stored to both halves of an object of 16 bytes. After the object has shrunk to 8
bytes only the store to the first half is pending, and it writes no byte that was given up. -/
theorem resize_keeps_straddling_halves :
    let x : Addr := Scripted.base
    let object : Region := ⟨x, 16⟩
    let shrunk : Region := ⟨x, 8⟩
    let host := ((Scripted.create 16).allocate 16).2.switchTo ⟨1⟩
    let m₁ := ((create {} host).perform (.store ⟨x, 64⟩ 1 .monotonic)).2
    let m₂ := (m₁.perform (.store ⟨x.offset 8, 32⟩ 2 .monotonic)).2
    let m₃ := (m₂.resize x 8).2
    m₃.table.pending ⟨1⟩ = [⟨⟨x, 64⟩, 1⟩] ∧
      ¬ ∃ w ∈ m₃.table.pending ⟨1⟩, ∃ a, object.contains a = true ∧ shrunk.contains a = false ∧
        (w.byteAt? a).isSome = true := by
  intro x object shrunk host m₁ m₂ m₃
  have hreachable : Reachable {} m₂ := .perform (.perform (.create _) _) _
  have hobject : (Host.objectAt x (Host.hold m₂.host).2).1 = some object := by decide +kernel
  have hfits : object.Fits := by simp [object, Region.Fits, x, Scripted.base]
  have hless : (8 : UInt64) < object.size := by decide
  obtain ⟨-, hthreads⟩ := resize_keeps_straddling hreachable rfl hobject hfits hless
  obtain ⟨hpending, hkept⟩ := hthreads ⟨1⟩
  have hstraddles : ¬ ∃ w ∈ m₂.table.pending ⟨1⟩, w.Straddles shrunk.limit := by decide +kernel
  exact ⟨hpending.trans (by decide +kernel), mt hkept.mp hstraddles⟩

/-- A 64-bit store at the start of an object of 16 bytes survives when the object shrinks to 4: it
is still pending, and a fence of the thread then changes bytes behind the new end. -/
theorem not_resize_clears :
    let x : Addr := Scripted.base
    let w : Write := ⟨⟨x, 64⟩, 0x1122334455667788⟩
    let host := ((Scripted.create 16).allocate 16).2.switchTo ⟨1⟩
    let m₁ := ((create {} host).perform (.store w.loc w.value .monotonic)).2
    let m₂ := (m₁.resize x 4).2
    Reachable {} m₁ ∧ (Host.objectAt x (Host.hold m₁.host).2).1 = some ⟨x, 16⟩ ∧
      m₁.table.pending ⟨1⟩ = [w] ∧ w.region.limit.val ≤ (Region.mk x 16).limit.val ∧
      (m₁.resize x 4).1 = .ok () ∧
      m₂.table.pending ⟨1⟩ = [w] ∧ w.region.overlaps ⟨x.offset 4, 12⟩ = true ∧
      (m₂.host.arena.bytes.toList.drop 4).take 4 = [0, 0, 0, 0] ∧
      ((m₂.fence .seqCst).host.arena.bytes.toList.drop 4).take 4 = [0x44, 0x33, 0x22, 0x11] := by
  intro x w host m₁ m₂
  have hreachable : Reachable {} m₁ := .perform (.create _) _
  have hobject : (Host.objectAt x (Host.hold m₁.host).2).1 = some ⟨x, 16⟩ := by decide +kernel
  have hok : (m₁.resize x 4).1 = .ok () := (resize_eq_discardRange rfl hobject (by decide)).1
  exact ⟨hreachable, hobject, by decide +kernel, by decide, hok, by decide +kernel, by decide,
    by decide +kernel, by decide +kernel⟩

end Machine

end StoreBuffer
