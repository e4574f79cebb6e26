import StoreBuffer.Proofs.Buffer.Coverage
import StoreBuffer.Proofs.Host.Image
import StoreBuffer.Proofs.Table.Pending

/-! # Memory byte by byte

What a line has for an address while it is buffered is what memory has there once the line has been
written, whatever its width and alignment, and a load of any width puts its value together from the
bytes of its location. An access that does not lie in the arena as a whole is refused: it is
recorded as one fault, and a load that is refused reads zero. -/

namespace StoreBuffer

namespace Image

/-- The bytes of a line where it covers an address, those of the image elsewhere. -/
def under (i : Image) (l : Line) : Image := fun a => (l.byteAt? a).getD (i a)

theorem under_eq_write {l : Line} {w : Write} (h : l.write? = some w) (i : Image) :
    i.under l = i.write w := by
  funext a
  rw [under, write, Line.byteAt?_of_write? h]

end Image

namespace Scripted

variable {h : Scripted} {l : Location}

theorem offset?_eq_none (hc : ¬ h.Covers l) :
    h.offset? l.addr (Width.byteSize l.width) = none := by
  unfold Covers at hc
  rwa [Option.not_isSome_iff_eq_none] at hc

theorem store_of_not_covers (hw : l.width ≠ 0) (hc : ¬ h.Covers l) (value : UInt64) :
    Memory.store ⟨l, value⟩ h = h.outside l.addr (Width.byteSize l.width) := by
  show write (Width.accessSize l.width) l.addr _ h = _
  unfold write
  rw [Width.bytes_accessSize hw, offset?_eq_none hc, Option.bind_none]

theorem load_of_not_covers (hw : l.width ≠ 0) (hc : ¬ h.Covers l) :
    Memory.load l h = (0, h.outside l.addr (Width.byteSize l.width)) := by
  have hread : read (Width.accessSize l.width) l.addr h =
      (0, h.outside l.addr (Width.byteSize l.width)) := by
    unfold read
    rw [Width.bytes_accessSize hw, offset?_eq_none hc, Option.bind_none]
  show (Width.truncate l.width (read (Width.accessSize l.width) l.addr h).1,
    (read (Width.accessSize l.width) l.addr h).2) = _
  rw [hread, Width.truncate, UInt64.zero_and]

theorem faults_store (hw : l.width ≠ 0) (hc : h.Covers l) (value : UInt64) :
    (Memory.store ⟨l, value⟩ h).faults = h.faults := by
  have hstore : Memory.store ⟨l, value⟩ h = _ :=
    write_eq_of_covers hw hc (Width.truncate l.width value)
  rw [hstore]

/-- Writing out a line that is pending is writing its value, cut to the width once or twice. -/
theorem storeAll_pendingWrite? {line : Line} {value : UInt64} (hv : Width.Valid l.width)
    (hline : line.write? = some (Write.ofStore l value)) (hpending : line.committed = false) :
    Memory.storeAll line.pendingWrite?.toList h = Memory.store ⟨l, value⟩ h := by
  rw [Line.pendingWrite?_eq_some.mpr ⟨hpending, hline⟩, Write.ofStore_eq_holding hv]
  show write _ _ (Width.truncate l.width (Width.truncate l.width value)) h = _
  rw [Width.truncate_truncate]
  rfl

/-- A store in the arena shows in memory as the line that held it: the bytes that the line has are
found there and all else is as it was, so that a load of any other location finds the line laid over
the old bytes. A load in the arena changes nothing, and an access outside it changes nothing but the
record of faults, to which it adds one. -/
theorem accesses_bytewise (hfit : h.Fits) (hv : Width.Valid l.width) {value : UInt64}
    {line : Line} (hline : line.write? = some (Write.ofStore l value))
    (hpending : line.committed = false) :
    let h' := Memory.store ⟨l, value⟩ h
    Memory.storeAll line.pendingWrite?.toList h = h' ∧
      (h.Covers l → h'.frame = h.frame ∧ h'.faults = h.faults ∧
        (∀ a, h'.image a = (line.byteAt? a).getD (h.image a)) ∧
        ∀ l' : Location, Width.Valid l'.width → h.Covers l' →
          Memory.load l' h' = ((h.image.under line).read l', h')) ∧
      (h.Covers l → Memory.load l h = (h.image.read l, h)) ∧
      (¬ h.Covers l → h' = h.outside l.addr (Width.byteSize l.width) ∧
        Memory.load l h = (0, h') ∧ h'.arena = h.arena ∧
        ∃ fault, h'.faults = h.faults ++ [fault]) := by
  intro h'
  have hw : l.width ≠ 0 := Nat.ne_of_gt hv.1
  refine ⟨storeAll_pendingWrite? hv hline hpending, fun hc => ?_, load_eq hfit hv, fun hc => ?_⟩
  · have hframe : h'.frame = h.frame := frame_store ..
    have himage : h'.image = h.image.under line := by
      rw [Image.under_eq_write hline, Write.ofStore_eq_holding hv]
      exact image_store hv hc
    have hsize : h'.arena.size = h.arena.size := size_of_still (still_storeAll [⟨l, value⟩] h)
    refine ⟨hframe, faults_store hw hc value, congrFun himage, fun l' hv' hc' => ?_⟩
    rw [load_eq ((fits_congr hsize).mpr hfit) hv' ((covers_congr hsize l').mpr hc'), himage]
  · have hstore : h' = h.outside l.addr (Width.byteSize l.width) := store_of_not_covers hw hc value
    rw [hstore]
    exact ⟨rfl, load_of_not_covers hw hc, rfl, _, rfl⟩

/-- A store of 12 bits into the middle of eight bytes, of a value that has more. A load of 20 bits
that starts in front of it finds both its bytes and one old byte on either side, the last one cut.
A store of 33 bits to the last four bytes does not fit. -/
theorem accesses_bytewise_nested :
    let h := Memory.store ⟨⟨base, 64⟩, 0x1122334455667788⟩ (create 16)
    let l : Location := ⟨base.offset 3, 12⟩
    let line : Line := { Line.store l 0xfabc .atomicOp with atomicNo := 1 }
    let l' : Location := ⟨base.offset 2, 20⟩
    let far : Location := ⟨base.offset 12, 33⟩
    h.Fits ∧ h.Covers l ∧ h.Covers l' ∧ ¬ h.Covers far ∧
      (Memory.load l' (Memory.storeAll line.pendingWrite?.toList h)).1 = 0xabc66 ∧
      (Memory.load far h).1 = 0 ∧ (Memory.store ⟨far, 5⟩ h).arena = h.arena := by
  intro h l line l' far
  have hfit : h.Fits := by unfold Fits; decide
  have hcovers : h.Covers l := by decide
  have hcovers' : h.Covers l' := by decide
  have hfar : ¬ h.Covers far := by decide
  have hline : line.write? = some (Write.ofStore l 0xfabc) := rfl
  have hlineFar : (Line.store far 5 .monotonic).write? = some (Write.ofStore far 5) := rfl
  obtain ⟨hsame, hinside, -⟩ := accesses_bytewise hfit (by decide) hline rfl
  obtain ⟨-, -, -, hload⟩ := hinside hcovers
  obtain ⟨-, -, -, houtside⟩ := accesses_bytewise hfit (by decide) hlineFar rfl
  obtain ⟨-, hzero, harena, -⟩ := houtside hfar
  refine ⟨hfit, hcovers, hcovers', hfar, ?_, congrArg Prod.fst hzero, harena⟩
  rw [hsame, hload l' (by decide) hcovers']
  decide

end Scripted

end StoreBuffer
