import StoreBuffer.Host.Recorded
import StoreBuffer.Host.Scripted
import StoreBuffer.Proofs.Host.Flags

/-! # Hosts that no call can tell apart

A congruence relates states of two hosts that give the same answers for ever. On a recorded host two
states are such if the inner hosts are the same, whatever has been recorded; what they record apart
from changes of the control flags stays the same if it was. -/

namespace StoreBuffer

namespace Host

variable {σ τ : Type} [Host σ] [Host τ]

/-- Related states give the same answers while the control flags are not looked at, and stay
related. -/
structure Calls (R : σ → τ → Prop) : Prop where
  thread : ∀ {h k}, R h k → Host.thread h = Host.thread k
  choose : ∀ {h k} (n : Nat), R h k →
    (Host.choose n h).1 = (Host.choose n k).1 ∧ R (Host.choose n h).2 (Host.choose n k).2
  objectAt : ∀ {h k} (a : Addr), R h k →
    (Host.objectAt a h).1 = (Host.objectAt a k).1 ∧ R (Host.objectAt a h).2 (Host.objectAt a k).2
  read : ∀ {h k} (size : AccessSize) (a : Addr), R h k →
    (Memory.read size a h).1 = (Memory.read size a k).1 ∧
      R (Memory.read size a h).2 (Memory.read size a k).2
  write : ∀ {h k} (size : AccessSize) (a : Addr) (value : UInt64), R h k →
    R (Memory.write size a value h) (Memory.write size a value k)

/-- Related states give the same answer to every call, and stay related. -/
structure Congruence (R : σ → τ → Prop) : Prop extends Calls R where
  flags : ∀ {h k}, R h k → Host.flags h = Host.flags k
  setFlags : ∀ {h k} (f : ControlFlags), R h k → R (Host.setFlags f h) (Host.setFlags f k)

variable {R : σ → τ → Prop} {h : σ} {k : τ}

theorem Calls.load (hR : Calls R) (loc : Location) (hk : R h k) :
    (Memory.load loc h).1 = (Memory.load loc k).1 ∧ R (Memory.load loc h).2 (Memory.load loc k).2 := by
  obtain ⟨hvalue, hnext⟩ := hR.read (Width.accessSize loc.width) loc.addr hk
  exact ⟨congrArg (Width.truncate loc.width) hvalue, hnext⟩

theorem Calls.storeAll (hR : Calls R) (ws : List Write) (hk : R h k) :
    R (Memory.storeAll ws h) (Memory.storeAll ws k) := by
  induction ws generalizing h k with
  | nil => exact hk
  | cons w rest ih => exact ih (hR.write _ _ _ hk)

theorem Congruence.hold (hR : Congruence R) (hk : R h k) :
    (Host.hold h).1 = (Host.hold k).1 ∧ R (Host.hold h).2 (Host.hold k).2 := by
  have hflags := hR.flags hk
  refine ⟨hflags, ?_⟩
  unfold Host.hold
  rw [hflags]
  exact hR.setFlags _ hk

theorem Congruence.release (hR : Congruence R) (saved : ControlFlags) (hk : R h k) :
    R (Host.release saved h) (Host.release saved k) := by
  unfold Host.release
  rw [hR.flags hk]
  exact hR.setFlags _ hk

end Host

namespace Call

/-- A change of the control flags. -/
def isSetFlags : Call → Bool
  | .setFlags _ => true
  | _ => false

end Call

namespace Recorded

variable {σ : Type}

/-- The calls that have moved data or made a choice. -/
def work (h : Recorded σ) : List Call := h.calls.filter (!·.isSetFlags)

/-- The inner hosts are the same, and so is what has been recorded but for changes of the flags. -/
structure Agrees (h k : Recorded σ) : Prop where
  inner : h.inner = k.inner
  work : h.work = k.work

theorem Agrees.refl (h : Recorded σ) : h.Agrees h := ⟨rfl, rfl⟩

theorem Agrees.trans {h k l : Recorded σ} (hk : h.Agrees k) (hl : k.Agrees l) : h.Agrees l :=
  ⟨hk.inner.trans hl.inner, hk.work.trans hl.work⟩

theorem Agrees.exists_calls {h k : Recorded σ} (hk : h.Agrees k) : ∃ calls, k = ⟨h.inner, calls⟩ :=
  ⟨k.calls, by rw [hk.inner]⟩

/-- One more call, with the same outcome. -/
theorem Agrees.note {h k : Recorded σ} (hk : h.Agrees k) (inner : σ) (c : Call) :
    (note ⟨inner, h.calls⟩ c).Agrees (note ⟨inner, k.calls⟩ c) := by
  refine ⟨rfl, ?_⟩
  have hwork : h.calls.filter (!·.isSetFlags) = k.calls.filter (!·.isSetFlags) := hk.work
  show (c :: h.calls).filter _ = (c :: k.calls).filter _
  rw [List.filter_cons, List.filter_cons, hwork]

variable [Host σ]

theorem congruence_agrees : Host.Congruence (@Agrees σ) where
  thread hk := congrArg (fun inner : σ => Host.thread inner) hk.inner
  flags hk := congrArg (fun inner : σ => Host.flags inner) hk.inner
  setFlags f hk := by
    obtain ⟨calls, rfl⟩ := hk.exists_calls
    exact hk.note ..
  choose n hk := by
    obtain ⟨calls, rfl⟩ := hk.exists_calls
    exact ⟨rfl, hk.note ..⟩
  objectAt a hk := by
    obtain ⟨calls, rfl⟩ := hk.exists_calls
    exact ⟨rfl, rfl, hk.work⟩
  read size a hk := by
    obtain ⟨calls, rfl⟩ := hk.exists_calls
    exact ⟨rfl, hk.note ..⟩
  write size a value hk := by
    obtain ⟨calls, rfl⟩ := hk.exists_calls
    exact hk.note ..

/-- Raising the mask and putting it back is not seen. -/
theorem agrees_release (h : Recorded Scripted) :
    (Host.release (Host.hold h).1 (Host.hold h).2).Agrees h := by
  refine ⟨?_, rfl⟩
  show { h.inner with flags := (h.inner.flags ||| ControlFlags.mask).unmask h.inner.flags } = h.inner
  rw [ControlFlags.unmask_or_mask]

end Recorded

end StoreBuffer
