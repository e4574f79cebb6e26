import StoreBuffer.Proofs.Host.Image
import StoreBuffer.Proofs.Machine.Run

/-! # Direct accesses

What loads, stores and compare-and-swaps do to a memory without buffers: one access after the check
of the location, or a load and then a store. An image is such a memory, and accesses in the arena of
a scripted host are accesses of its image. -/

namespace StoreBuffer

/-- Loads, stores, compare-and-swaps and fences. -/
def Op.isAccess : Op → Bool
  | .store .. | .load .. | .fence _ | .cas .. => true
  | .cleanup _ | .resize .. | .debugFence | .dump => false

/-- A direct access to memory, with its outcome and the memory after it. -/
inductive Direct {σ : Type} [Memory σ] (h : σ) : Op → Outcome → σ → Prop
  | store {l v r} (hl : l.Valid) : Direct h (.store l v r) (.ok .done) (Memory.store ⟨l, v⟩ h)
  | load {l r} (hl : l.Valid) :
      Direct h (.load l r) (.ok (.value (Memory.load l h).1)) (Memory.load l h).2
  | fence {r} : Direct h (.fence r) (.ok .done) h
  | different {l e v a b} (hl : l.Valid) (hne : (Memory.load l h).1 ≠ Width.truncate l.width e) :
      Direct h (.cas l e v a b) (.ok (.swap (Memory.load l h).1 false)) (Memory.load l h).2
  | swapped {l e v a b} (hl : l.Valid) (heq : (Memory.load l h).1 = Width.truncate l.width e) :
      Direct h (.cas l e v a b) (.ok (.swap (Width.truncate l.width v) true))
        (Memory.store ⟨l, v⟩ (Memory.load l h).2)
  | invalid {op l f} (hop : l ∈ op.locations) (hl : l.check = .error f) : Direct h op (.error f) h

namespace Width

theorem byteSize_bits (s : AccessSize) : byteSize s.bits = s.bytes := by cases s <;> rfl

theorem byteSize_accessSize {width : Nat} (h : Valid width) :
    byteSize (accessSize width).bits = byteSize width := by
  rw [byteSize_bits, bytes_accessSize (by have := h.1; omega)]

/-- The access is at least as wide as the value. -/
theorem le_bits_accessSize {width : Nat} (h : Valid width) : width ≤ (accessSize width).bits := by
  rw [AccessSize.bits, bytes_accessSize (by have := h.1; omega)]
  exact le_byteSize h.2

end Width

namespace Image

instance : Memory Image where
  read size a i := (i.read ⟨a, size.bits⟩, i)
  write size a value i := i.write ⟨⟨a, size.bits⟩, value⟩

variable {l : Location}

theorem load_eq (hv : Width.Valid l.width) (i : Image) : Memory.load l i = (i.read l, i) := by
  have hvalue : Width.truncate l.width (i.read ⟨l.addr, (Width.accessSize l.width).bits⟩) =
      i.read l := by
    unfold read
    dsimp only
    rw [Width.truncate_truncate_of_le (Width.le_bits_accessSize hv), Width.byteSize_accessSize hv]
  exact congrArg (·, i) hvalue

theorem store_eq (hv : Width.Valid l.width) (v : UInt64) (i : Image) :
    Memory.store ⟨l, v⟩ i = i.write (l.holding v) := by
  have hbytes (a : Addr) : Write.byteAt? ⟨⟨l.addr, (Width.accessSize l.width).bits⟩,
      Width.truncate l.width v⟩ a = (l.holding v).byteAt? a := by
    unfold Write.byteAt? Write.region Location.region Location.size Location.holding
    dsimp only
    rw [Width.byteSize_accessSize hv]
  funext a
  exact congrArg (·.getD (i a)) (hbytes a)

end Image

/-- In the arena, a direct access to a scripted host is one to its image. -/
theorem Direct.image {h h' : Scripted} {op : Op} {o : Outcome} (hp : Direct h op o h') (hfit : h.Fits)
    (hc : ∀ l ∈ op.locations, l.Valid → h.Covers l) : Direct h.image op o h'.image := by
  cases hp with
  | store hl =>
    have hin := hc _ (List.mem_singleton.mpr rfl) hl
    rw [Scripted.image_store hl.2 hin, ← Image.store_eq hl.2]
    exact .store hl
  | @load l r hl =>
    have hload := Scripted.load_eq hfit hl.2 (hc l (List.mem_singleton.mpr rfl) hl)
    have hstep : Direct h.image (.load l r) _ _ := .load hl
    rw [Image.load_eq hl.2] at hstep
    rw [hload]
    exact hstep
  | fence => exact .fence
  | @different l e v a b hl hne =>
    have hload := Scripted.load_eq hfit hl.2 (hc l (List.mem_singleton.mpr rfl) hl)
    rw [hload] at hne ⊢
    have hstep : Direct h.image (.cas l e v a b) _ _ :=
      .different hl (by rwa [Image.load_eq hl.2])
    rw [Image.load_eq hl.2] at hstep
    exact hstep
  | @swapped l e v a b hl heq =>
    have hin := hc l (List.mem_singleton.mpr rfl) hl
    rw [Scripted.load_eq hfit hl.2 hin] at heq ⊢
    have hstep : Direct h.image (.cas l e v a b) _ _ := .swapped hl (by rwa [Image.load_eq hl.2])
    rw [Image.load_eq hl.2, Image.store_eq hl.2] at hstep
    rw [Scripted.image_store hl.2 hin]
    exact hstep
  | invalid hop hl => exact .invalid hop hl

end StoreBuffer
