import StoreBuffer.Host.Basic

/-! # Control flags bit by bit

The mask flag is the lowest bit of the register. Raising it and putting it back are described bit
by bit; two registers with the same bits are the same. -/

namespace StoreBuffer.ControlFlags

/-- Bit `i` of the register. -/
def bit (f : ControlFlags) (i : Nat) : Bool := f.bits.toBitVec.getLsbD i

variable (f g : ControlFlags) (i : Nat)

theorem ext_bit {f g : ControlFlags} (h : ∀ i < 64, f.bit i = g.bit i) : f = g := by
  obtain ⟨⟨b⟩⟩ := f
  obtain ⟨⟨c⟩⟩ := g
  exact congrArg (fun v => ControlFlags.mk ⟨v⟩) (BitVec.eq_of_getLsbD_eq h)

@[simp] theorem bit_or : (f ||| g).bit i = (f.bit i || g.bit i) := BitVec.getLsbD_or

@[simp] theorem bit_and : (f &&& g).bit i = (f.bit i && g.bit i) := BitVec.getLsbD_and

@[simp] theorem bit_complement : (~~~f).bit i = (decide (i < 64) && !f.bit i) := by
  show (~~~f.bits.toBitVec).getLsbD i = _
  rw [BitVec.getLsbD_not]
  rfl

@[simp] theorem bit_mask : mask.bit i = decide (i = 0) := by
  show (1#64).getLsbD i = _
  rw [BitVec.getLsbD_one]
  simp

/-- Only the mask flag goes back. -/
theorem bit_unmask {i : Nat} (hi : i < 64) : (f.unmask g).bit i = if i = 0 then g.bit i else f.bit i := by
  unfold unmask
  rw [bit_or, bit_and, bit_and, bit_complement, bit_mask]
  by_cases h : i = 0 <;> simp [h, hi]

/-- Nothing is left of a mask that was raised and put back. -/
theorem unmask_or_mask : (f ||| mask).unmask f = f := by
  refine ext_bit fun i hi => ?_
  rw [bit_unmask _ _ hi, bit_or, bit_mask]
  by_cases h : i = 0 <;> simp [h]

theorem contains_mask : f.contains mask = f.bit 0 := by
  rw [Bool.eq_iff_iff, contains, beq_iff_eq]
  constructor
  · intro h
    have hbit : (f &&& mask).bit 0 = mask.bit 0 := congrArg (fun b => bit ⟨b⟩ 0) h
    simpa using hbit
  · intro h
    have hboth : f &&& mask = mask := by
      refine ext_bit fun i _ => ?_
      by_cases hi : i = 0 <;> simp [hi, h]
    exact congrArg bits hboth

end StoreBuffer.ControlFlags
