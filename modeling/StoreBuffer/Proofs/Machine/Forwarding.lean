import StoreBuffer.Proofs.Machine.Operations

/-! # What a thread would load

`Machine.peek` is what a thread would load if no store of another thread became visible first. It is
the value that a load from memory would find once the thread's pending writes had been written, in
whichever way the buffer comes to its answer, so writing them does not change it. -/

namespace StoreBuffer

namespace Table

/-- An empty slot is not looked up once it has been taken away. -/
theorem pending_prune_of_empty {t : Table} {o : ThreadId}
    (h : ∀ s ∈ t.slots, s.owner = o → s.buffer.isEmpty = true) : t.prune.pending o = [] := by
  apply pending_of_no_buffer
  have hnone : t.prune.slots.find? (·.owner = o) = none := by
    rw [List.find?_eq_none]
    intro s hs howner
    obtain ⟨hmem, hkept⟩ := List.mem_filter.mp hs
    rw [h s hmem (by simpa using howner)] at hkept
    contradiction
  rw [buffer?, hnone]
  rfl

end Table

namespace Machine

/-- What thread `t` would load from memory as it is, with its own pending writes laid over it. -/
def peek {σ : Type} [Memory σ] (t : ThreadId) (loc : Location) (m : Machine σ) : UInt64 :=
  (m.forward t loc (Memory.load loc m.host).1).1

variable {m : Machine Scripted} {t : ThreadId} {loc : Location}

theorem peek_eq_read (hfit : m.host.Fits) (hv : Width.Valid loc.width) (hc : m.host.Covers loc)
    (ht : ∀ w ∈ m.table.pending t, m.host.Accepts w) :
    m.peek t loc = (m.tso.seen t).read loc := by
  rw [peek, Scripted.load_eq hfit hv hc]
  exact forward_value (Scripted.location_fits hfit hc) hv (fun w hw => (ht w hw).placed hfit) _

/-- Two machines with memory of one size on which a thread sees the same. -/
theorem peek_congr {m' : Machine Scripted} (hfit : m.host.Fits) (hv : Width.Valid loc.width)
    (hc : m.host.Covers loc) (ht : ∀ w ∈ m.table.pending t, m.host.Accepts w)
    (hsize : m'.host.arena.size = m.host.arena.size)
    (hsub : ∀ w ∈ m'.table.pending t, w ∈ m.table.pending t)
    (hseen : m'.tso.seen t = m.tso.seen t) : m'.peek t loc = m.peek t loc := by
  have ht' : ∀ w ∈ m'.table.pending t, m'.host.Accepts w := fun w hw =>
    (ht w (hsub w hw)).congr hsize
  rw [peek_eq_read hfit hv hc ht, peek_eq_read ((Scripted.fits_congr hsize).mpr hfit) hv
    ((Scripted.covers_congr hsize loc).mpr hc) ht', hseen]

/-! ## Writing out the buffer -/

theorem load_storeAll_pending (hfit : m.host.Fits) (hv : Width.Valid loc.width)
    (hc : m.host.Covers loc) (ht : ∀ w ∈ m.table.pending t, m.host.Accepts w) :
    (Memory.load loc (Memory.storeAll (m.table.pending t) m.host)).1 =
      (m.tso.seen t).read loc := by
  have hsize := Scripted.size_of_still (Scripted.still_storeAll (m.table.pending t) m.host)
  rw [Scripted.load_eq ((Scripted.fits_congr hsize).mpr hfit) hv
    ((Scripted.covers_congr hsize loc).mpr hc), Scripted.image_storeAll ht]
  rfl

theorem pending_flush_self (m : Machine Scripted) (t : ThreadId) :
    (m.flush t).table.pending t = [] := by
  unfold flush
  cases hb : m.table.buffer? t with
  | none => exact Table.pending_of_no_buffer hb
  | some b =>
    apply Table.pending_prune_of_empty
    intro s hs howner
    rw [Table.retire_eq_mapLines] at hs
    obtain ⟨q, hq, rfl⟩ := List.mem_map.mp hs
    obtain ⟨p, -, rfl⟩ := List.mem_map.mp hq
    by_cases hp : p.owner = t
    · simp [hp, Buffer.map, Buffer.isEmpty]
    · have hsame : (if p.owner = t then { p with buffer := {} } else p).owner = p.owner := by
        rw [if_neg hp]
      exact absurd (hsame.symm.trans howner) hp

/-- A thread sees the same before and after its buffer is written out. -/
theorem seen_flush_self (ht : ∀ w ∈ m.table.pending t, m.host.Accepts w) :
    (m.flush t).tso.seen t = m.tso.seen t := by
  show (m.flush t).host.image.overlay ((m.flush t).table.pending t) = _
  rw [pending_flush_self, host_flush, Scripted.image_storeAll ht]
  rfl

/-- Whatever flags change and whatever is logged around it, writing out the buffer of a thread does not
change what the thread would load. -/
theorem peek_of_flushed (m₁ : Machine Scripted) {m' : Machine Scripted} (hfit : m.host.Fits)
    (hv : Width.Valid loc.width) (hc : m.host.Covers loc)
    (ht : ∀ w ∈ m.table.pending t, m.host.Accepts w)
    (htable₁ : m₁.table = m.table) (harena₁ : m₁.host.arena = m.host.arena)
    (htable : m'.table = (m₁.flush t).table)
    (harena : m'.host.arena = (m₁.flush t).host.arena) : m'.peek t loc = m.peek t loc := by
  have hsize₁ := congrArg Arena.size harena₁
  have hsize : (m₁.flush t).host.arena.size = m₁.host.arena.size := by
    rw [host_flush]
    exact Scripted.size_of_still (Scripted.still_storeAll ..)
  have ht₁ : ∀ w ∈ m₁.table.pending t, m₁.host.Accepts w := by
    rw [htable₁]
    exact fun w hw => (ht w hw).congr hsize₁
  refine peek_congr hfit hv hc ht ?_ ?_ ?_
  · rw [harena, hsize, hsize₁]
  · rw [htable, pending_flush_self]
    exact fun _ => List.not_mem_nil.elim
  · rw [tso_congr htable harena, seen_flush_self ht₁, tso_congr htable₁ harena₁]

theorem peek_debugFence (hfit : m.host.Fits) (hv : Width.Valid loc.width)
    (hc : m.host.Covers loc) (ht : ∀ w ∈ m.table.pending t, m.host.Accepts w)
    (hthread : m.thread = t) : m.debugFence.peek t loc = m.peek t loc := by
  subst hthread
  exact peek_of_flushed m.held hfit hv hc ht rfl rfl rfl rfl

/-- A bypassed fence does nothing, any other that is sequentially consistent writes out the buffer. -/
theorem peek_strongFence (hfit : m.host.Fits) (hv : Width.Valid loc.width)
    (hc : m.host.Covers loc) (ht : ∀ w ∈ m.table.pending t, m.host.Accepts w)
    (hthread : m.thread = t) {order : Order} (hseq : (order ||| m.minOrder).isSeqCst = true) :
    (m.fence order).peek t loc = m.peek t loc := by
  subst hthread
  cases hdirect : m.host.flags.bypassed with
  | true =>
    have hidle : m.fence order = (m.masked fun _ m => ((), m)).2 := by
      unfold fence masked
      dsimp only
      rw [show (Host.hold m.host).1.bypassed = true from hdirect]
      rfl
    rw [hidle]
    exact peek_congr hfit hv hc ht rfl (fun _ => id) rfl
  | false =>
    let m₁ := m.held.noteOperation (.fenceIssued m.thread (order ||| m.minOrder))
    have hflushed : m.fence order = (m.masked fun _ _ => ((), m₁.flush m.thread)).2 := by
      unfold fence masked
      dsimp only
      rw [show (Host.hold m.host).1.bypassed = false from hdirect, if_neg Bool.false_ne_true,
        if_pos hseq]
      rfl
    obtain ⟨log, hlog⟩ := noteOperation_eq (m := m.held)
      (.fenceIssued m.thread (order ||| m.minOrder))
    have hm₁ : m₁ = { m.held with log } := hlog
    rw [hflushed]
    exact peek_of_flushed m₁ hfit hv hc ht (by rw [hm₁]; rfl) (by rw [hm₁]; rfl) rfl rfl

/-! ## Forwarding -/

/-- Where the newest store alone answers a load, the merge gives the same value. -/
theorem shortcut?_eq_merge {b : Buffer} (hfit : m.host.Fits) (hv : Width.Valid loc.width)
    (hc : m.host.Covers loc) (hb : ∀ w ∈ b.pending, m.host.Accepts w) {value : UInt64}
    (h : b.shortcut? loc = some value) : b.merge loc (Memory.load loc m.host).1 = value := by
  have hl := Scripted.location_fits hfit hc
  have hplaced := fun w hw => (hb w hw).placed hfit
  rw [Scripted.load_eq hfit hv hc, Buffer.merge_eq_read_overlay hl hv hplaced,
    Buffer.read_overlay_of_shortcut? hl hv hplaced _ h]

/-- What a thread would load is what it would find in memory after its pending writes, whatever
fences and committed lines stand between them. The two ways in which its buffer answers agree, and
neither a debug fence nor a sequentially consistent fence of the thread makes a difference. -/
theorem peek_eq_load_flushed (hfit : m.host.Fits) (hv : Width.Valid loc.width)
    (hc : m.host.Covers loc) (ht : ∀ w ∈ m.table.pending t, m.host.Accepts w) :
    m.peek t loc = (Memory.load loc (Memory.storeAll (m.table.pending t) m.host)).1 ∧
      (∀ b, m.table.buffer? t = some b → ∀ value, b.shortcut? loc = some value →
        b.merge loc (Memory.load loc m.host).1 = value) ∧
      (m.thread = t → m.debugFence.peek t loc = m.peek t loc ∧
        ∀ order : Order, (order ||| m.minOrder).isSeqCst = true →
          (m.fence order).peek t loc = m.peek t loc) := by
  refine ⟨?_, fun b hb value => ?_, fun hthread => ⟨?_, fun order => ?_⟩⟩
  · rw [peek_eq_read hfit hv hc ht, load_storeAll_pending hfit hv hc ht]
  · rw [Table.pending_of_buffer? hb] at ht
    exact shortcut?_eq_merge hfit hv hc ht
  · exact peek_debugFence hfit hv hc ht hthread
  · exact peek_strongFence hfit hv hc ht hthread

/-- A committed line, a fence and three pending writes of 32, 12 and 20 bits that share bytes. The load
of 24 bits is put together from two of the writes and memory. -/
theorem peek_eq_load_flushed_merged :
    let lines : List Line :=
      [{ Line.store ⟨⟨0x10000000⟩, 32⟩ 0x55555555 .monotonic with committed := true },
        .store ⟨⟨0x10000000⟩, 8⟩ 0x11 .monotonic, .fence .release,
        .store ⟨⟨0x10000001⟩, 12⟩ 0xabc .release, .store ⟨⟨0x10000003⟩, 20⟩ 0x12345 .monotonic]
    let m : Machine Scripted :=
      { create {} { Scripted.create 16 with thread := ⟨1⟩ } with table := ⟨[⟨⟨1⟩, ⟨lines⟩⟩]⟩ }
    let loc : Location := ⟨⟨0x10000000⟩, 30⟩
    m.peek ⟨1⟩ loc = 0x050abc11 ∧
      m.peek ⟨1⟩ loc = (Memory.load loc (Memory.storeAll (m.table.pending ⟨1⟩) m.host)).1 ∧
      m.debugFence.peek ⟨1⟩ loc = m.peek ⟨1⟩ loc := by
  intro lines m loc
  have hpending : ∀ w ∈ m.table.pending ⟨1⟩, m.host.Accepts w := by
    have heq : m.table.pending ⟨1⟩ = [⟨⟨⟨0x10000000⟩, 8⟩, 0x11⟩, ⟨⟨⟨0x10000001⟩, 12⟩, 0xabc⟩,
        ⟨⟨⟨0x10000003⟩, 20⟩, 0x12345⟩] := by decide +kernel
    rw [heq]
    simp only [List.mem_cons, List.not_mem_nil, or_false]
    rintro w (rfl | rfl | rfl) <;> exact ⟨by decide, by decide, by decide⟩
  have hcovers : m.host.Covers loc := by decide
  obtain ⟨hload, -, hfences⟩ := peek_eq_load_flushed (by unfold Scripted.Fits; decide)
    (by decide) hcovers hpending
  exact ⟨by decide +kernel, hload, (hfences rfl).1⟩

end Machine

end StoreBuffer
