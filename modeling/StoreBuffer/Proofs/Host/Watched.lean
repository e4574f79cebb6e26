import StoreBuffer.Proofs.Host.Congruence

/-! # Watched hosts

A host wrapped so that every call in which it may change its control flags is written down, with the
flags before and after. A machine cannot tell it from the host inside. -/

namespace StoreBuffer

/-- What a host is asked for. -/
inductive Service where
  | read (size : AccessSize) (a : Addr)
  | write (size : AccessSize) (a : Addr) (value : UInt64)
  | choose (branches : Nat)
  | objectAt (a : Addr)
deriving DecidableEq, Repr

def Service.isChoice : Service → Bool
  | .choose _ => true
  | _ => false

/-- A call, with the control flags that the host was called with and those that it left. -/
structure Visit where
  service : Service
  before : ControlFlags
  after : ControlFlags
deriving DecidableEq, Repr

/-- The flags as the host last left them, `initial` if it was not called. -/
def Visit.left (initial : ControlFlags) : List Visit → ControlFlags
  | [] => initial
  | v :: _ => v.after

/-- The control flags are a register, and no other call touches the mask flag. Calls may change the
other flags. -/
structure Host.KeepsMask (σ : Type) [Host σ] : Prop where
  setFlags : ∀ (f : ControlFlags) (h : σ), Host.flags (Host.setFlags f h) = f
  read : ∀ (size : AccessSize) (a : Addr) (h : σ),
    (Host.flags (Memory.read size a h).2).contains .mask = (Host.flags h).contains .mask
  write : ∀ (size : AccessSize) (a : Addr) (value : UInt64) (h : σ),
    (Host.flags (Memory.write size a value h)).contains .mask = (Host.flags h).contains .mask
  choose : ∀ (n : Nat) (h : σ),
    (Host.flags (Host.choose n h).2).contains .mask = (Host.flags h).contains .mask
  objectAt : ∀ (a : Addr) (h : σ),
    (Host.flags (Host.objectAt a h).2).contains .mask = (Host.flags h).contains .mask

structure Watched (σ : Type) where
  inner : σ
  /-- Latest first. -/
  visits : List Visit := []

namespace Watched

variable {σ : Type} [Host σ]

/-- A call that left the inner host as `next`. -/
def visit (h : Watched σ) (s : Service) (next : σ) : Watched σ :=
  ⟨next, ⟨s, Host.flags h.inner, Host.flags next⟩ :: h.visits⟩

instance : Host (Watched σ) where
  read size a h :=
    let r := Memory.read size a h.inner
    (r.1, h.visit (.read size a) r.2)
  write size a value h := h.visit (.write size a value) (Memory.write size a value h.inner)
  choose n h :=
    let r := Host.choose n h.inner
    (r.1, h.visit (.choose n) r.2)
  flags h := Host.flags h.inner
  setFlags f h := { h with inner := Host.setFlags f h.inner }
  thread h := Host.thread h.inner
  objectAt a h :=
    let r := Host.objectAt a h.inner
    (r.1, h.visit (.objectAt a) r.2)
  choose_lt n h hn := Host.choose_lt n h.inner hn

variable {f : ControlFlags} {h : Watched σ}

/-- The mask has been raised over the flags `f`, and every call has found it raised. -/
structure Inside (f : ControlFlags) (h : Watched σ) : Prop where
  masked : ∀ v ∈ h.visits, v.before.contains .mask = true
  raised : (Host.flags h.inner).contains .mask = true
  flags : Host.flags h.inner = Visit.left (f ||| .mask) h.visits

theorem Inside.hold (hσ : Host.KeepsMask σ) (g : σ) :
    Inside (Host.flags g) (Host.hold (⟨g, []⟩ : Watched σ)).2 := by
  have hflags : Host.flags (Host.setFlags (Host.flags g ||| .mask) g) = Host.flags g ||| .mask :=
    hσ.setFlags _ g
  refine ⟨nofun, ?_, hflags⟩
  show (Host.flags (Host.setFlags (Host.flags g ||| .mask) g)).contains .mask = true
  rw [hflags, ControlFlags.contains_mask, ControlFlags.bit_or, ControlFlags.bit_mask]
  simp

theorem Inside.visit (hh : Inside f h) {s : Service} {next : σ}
    (hnext : (Host.flags next).contains .mask = (Host.flags h.inner).contains .mask) :
    Inside f (h.visit s next) :=
  ⟨List.forall_mem_cons.mpr ⟨hh.raised, hh.masked⟩, hnext.trans hh.raised, rfl⟩

theorem calls_inside (hσ : Host.KeepsMask σ) (f : ControlFlags) :
    Host.Calls fun (h : Watched σ) (k : σ) => h.inner = k ∧ Inside f h where
  thread := by
    rintro h _ ⟨rfl, -⟩
    rfl
  choose n := by
    rintro ⟨rfl, hh⟩
    exact ⟨rfl, rfl, hh.visit (hσ.choose n _)⟩
  objectAt a := by
    rintro ⟨rfl, hh⟩
    exact ⟨rfl, rfl, hh.visit (hσ.objectAt a _)⟩
  read size a := by
    rintro ⟨rfl, hh⟩
    exact ⟨rfl, rfl, hh.visit (hσ.read size a _)⟩
  write size a value := by
    rintro ⟨rfl, hh⟩
    exact ⟨rfl, hh.visit (hσ.write size a value _)⟩

/-- The mask flag has been put back to what it is in `f`; the other flags are those that the host
left. -/
structure Restored (f : ControlFlags) (h : Watched σ) : Prop where
  masked : ∀ v ∈ h.visits, v.before.contains .mask = true
  mask : (Host.flags h.inner).contains .mask = f.contains .mask
  others : ∀ i, 0 < i → i < 64 → (Host.flags h.inner).bit i = (Visit.left f h.visits).bit i

theorem Inside.release (hσ : Host.KeepsMask σ) (hh : Inside f h) :
    Restored f (Host.release f h) := by
  have hflags : Host.flags (Host.release f h).inner =
      (Visit.left (f ||| .mask) h.visits).unmask f := by
    rw [← hh.flags]
    exact hσ.setFlags _ _
  refine ⟨hh.masked, ?_, fun i hpos hi => ?_⟩
  · rw [hflags, ControlFlags.contains_mask, ControlFlags.contains_mask,
      ControlFlags.bit_unmask _ _ (by decide), if_pos rfl]
  · show _ = (Visit.left f h.visits).bit i
    rw [hflags, ControlFlags.bit_unmask _ _ hi, if_neg (by omega)]
    cases h.visits with
    | nil =>
      rw [Visit.left, Visit.left, ControlFlags.bit_or, ControlFlags.bit_mask,
        decide_eq_false (by omega), Bool.or_false]
    | cons v rest => rfl

theorem restored_nil (g : σ) : Restored (Host.flags g) (⟨g, []⟩ : Watched σ) :=
  ⟨nofun, rfl, fun _ _ _ => rfl⟩

end Watched

end StoreBuffer
