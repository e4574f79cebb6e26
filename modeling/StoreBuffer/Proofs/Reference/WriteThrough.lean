import Mathlib.Data.Set.Function
import StoreBuffer.Proofs.Machine.Faults
import StoreBuffer.Proofs.Reference.Flat

/-! # Bytes that are written through

A set of bytes is written through if no write to any of them is ever pending: whoever stores there
goes past the queues. `Tso.Mirrors` says that memory holds, at these bytes, what a flat memory holds
to which every write came in the order of issue. Drains do not show there, and operations keep it.
Without capacity all bytes are written through. -/

namespace StoreBuffer

namespace Location

/-- Some byte of the location is in the set. -/
def Meets (l : Location) (X : Set Addr) : Prop := ∃ a ∈ X, l.region.contains a = true

/-- Every byte of the location is in the set. -/
def Within (l : Location) (X : Set Addr) : Prop := ∀ a, l.region.contains a = true → a ∈ X

theorem Within.meets {l : Location} {X : Set Addr} (h : l.Within X) (hl : l.Fits)
    (hv : Width.Valid l.width) : l.Meets X := by
  have hpos : 0 < Width.byteSize l.width := Width.byteSize_pos (by have := hv.1; omega)
  have hfirst := contains_offset hl hpos
  exact ⟨_, h _ hfirst, hfirst⟩

end Location

namespace Op

/-- The locations that an operation may write. -/
def targets : Op → List Location
  | .store l .. | .cas l .. => [l]
  | .load .. | .fence _ | .cleanup _ | .resize .. | .debugFence | .dump => []

/-- A load or compare-and-swap of a location within the set. -/
def Reads (X : Set Addr) : Op → Prop
  | .load l _ | .cas l .. => l.Within X
  | _ => False

end Op

/-- If the issue writes, it does so past the buffers. -/
def Issue.writesThrough (least : Order) (i : Issue) : Bool :=
  match i.op with
  | .store _ _ r | .cas _ _ _ r _ => i.flags.bypassed || (r ||| least).isSeqCst
  | _ => true

/-- Memory after an operation with outcome `o`, if its write takes effect at once. -/
def Image.after (memory : Image) (op : Op) (o : Outcome) : Image :=
  match op, o with
  | .store l v _, .ok _ => memory.write (l.holding v)
  | .cas l _ v _ _, .ok (.swap _ true) => memory.write (l.holding v)
  | _, _ => memory

namespace Flat

/-- What a load or compare-and-swap answers and which choices have been made after it, if it looks
at flat memory. Only a weak compare-and-swap whose values agree makes one, to fail or not. -/
inductive Finds (least : Order) (direct : Bool) (s : Flat) : Op → Outcome → List ChoicePoint → Prop
  | load {l r} : Finds least direct s (.load l r) (.ok (.value (s.memory.read l))) s.trace
  | different {l e v a f} (h : s.memory.read l ≠ Width.truncate l.width e) :
      Finds least direct s (.cas l e v a f) (.ok (.swap (s.memory.read l) false)) s.trace
  | swapped {l e v a f} (h : s.memory.read l = Width.truncate l.width e) :
      Finds least direct s (.cas l e v a f) (.ok (.swap (Width.truncate l.width v) true))
        (s.ask (!direct && (a ||| least).isWeakCas) 0).trace
  | spurious {l e v a f} (h : s.memory.read l = Width.truncate l.width e)
      (hweak : direct = false ∧ (a ||| least).isWeakCas = true) :
      Finds least direct s (.cas l e v a f) (.ok (.swap (s.memory.read l) false)) (s.ask true 1).trace
  | invalid {op l f} (h : l ∈ op.locations) (hl : ¬ l.Valid) :
      Finds least direct s op (.error f) s.trace

/-- A run lists every issue with its outcome and the choices made until after it. At the bytes of the
set it is one of flat memory, on which every write has taken effect in the order of issue. -/
inductive RunAt (X : Set Addr) (least : Order) : Flat → List (Issue × Outcome × List ChoicePoint) → Prop
  | nil (s : Flat) : RunAt X least s []
  | cons {s : Flat} {i : Issue} {o : Outcome} {trace : List ChoicePoint}
      {rest : List (Issue × Outcome × List ChoicePoint)}
      (hfinds : i.op.Reads X → s.Finds least i.flags.bypassed i.op o trace)
      (hrest : RunAt X least ⟨s.memory.after i.op o, trace⟩ rest) :
      RunAt X least s ((i, o, trace) :: rest)

end Flat

namespace Image

theorem eqOn_write {i i' : Image} {X : Set Addr} (h : Set.EqOn i i' X) (w : Write) :
    Set.EqOn (i.write w) (i'.write w) X := by
  intro a ha
  rw [write, write, h ha]

/-- A write to other bytes does not show. -/
theorem eqOn_write_off {i i' : Image} {X : Set Addr} (h : Set.EqOn i i' X) {w : Write}
    (hw : ∀ a ∈ X, w.region.contains a = false) : Set.EqOn (i.write w) i' X := by
  intro a ha
  rw [write_of_not_contains (hw a ha), h ha]

end Image

namespace Tso

variable {X : Set Addr} {memory : Image} {s s' s'' : Tso} {t : ThreadId} {least : Order} {i : Issue}
  {o : Outcome}

/-- No write to a byte of the set is pending, and memory holds there what `memory` holds. -/
structure Mirrors (X : Set Addr) (memory : Image) (s : Tso) : Prop where
  clear : ∀ t, ∀ w ∈ s.queue t, ∀ a ∈ X, w.region.contains a = false
  eqOn : Set.EqOn s.memory memory X

/-- What is drained does not touch the set. -/
theorem Mirrors.drain (h : Mirrors X memory s) (hs : Drain s s') : Mirrors X memory s' := by
  refine ⟨fun u v hv => h.clear u v (mem_queue_of_drains (.single hs) hv), ?_⟩
  cases hs with
  | @oldest t w rest hq =>
    exact Image.eqOn_write_off h.eqOn (h.clear t w (hq ▸ List.mem_cons_self ..))

theorem Mirrors.drains (h : Mirrors X memory s) (hs : Drains s s') : Mirrors X memory s' := by
  induction hs with
  | refl => exact h
  | tail _ hlast ih => exact ih.drain hlast

theorem Mirrors.assign (h : Mirrors X memory s) (w : Write) :
    Mirrors X (memory.write w) (s.assign w) := ⟨h.clear, Image.eqOn_write h.eqOn w⟩

/-- A store goes past the queues, or to other bytes. -/
theorem Mirrors.store (h : Mirrors X memory s) {direct : Bool} {order : Order} {w : Write}
    (hw : (direct || order.isSeqCst) = true ∨ ∀ a ∈ X, w.region.contains a = false) :
    Mirrors X (memory.write w) (s.store t direct order w) := by
  unfold Tso.store
  cases direct with
  | true => exact h.assign w
  | false =>
    cases hseq : order.isSeqCst with
    | true => exact (h.drains (drains_settle s t)).assign w
    | false =>
      have hoff := hw.resolve_left (by simp [hseq])
      refine ⟨fun u v hv => ?_, (Image.eqOn_write_off h.eqOn.symm hoff).symm⟩
      rcases mem_queue_enqueue hv with hv | ⟨-, rfl⟩
      · exact h.clear u v hv
      · exact hoff

/-- Pending writes may disappear. -/
theorem Mirrors.discard (h : Mirrors X memory s) (hmemory : s'.memory = s.memory)
    (hqueue : ∀ t, ∀ w ∈ s'.queue t, w ∈ s.queue t) : Mirrors X memory s' :=
  ⟨fun t w hw => h.clear t w (hqueue t w hw), hmemory ▸ h.eqOn⟩

/-- An issue that writes to the set past the queues takes effect there at once. -/
theorem Mirrors.reaction (h : Mirrors X memory s)
    (hthrough : ∀ l ∈ i.op.targets, l.Meets X → i.writesThrough least = true)
    (hr : Reaction least i s o s') : Mirrors X (memory.after i.op o) s' := by
  obtain ⟨u, flags, heap, op⟩ := i
  have hstore {l : Location} (hl : l ∈ op.targets) {r : Order}
      (hthrough' : Issue.writesThrough least ⟨u, flags, heap, op⟩ = true →
        (flags.bypassed || r.isSeqCst) = true) (v : UInt64) :
      Mirrors X (memory.write (l.holding v)) (s.store u flags.bypassed r (l.holding v)) := by
    refine h.store ?_
    by_cases hmeets : l.Meets X
    · exact .inl (hthrough' (hthrough l hl hmeets))
    · refine .inr fun a ha => ?_
      rw [← Bool.not_eq_true]
      exact fun hcontains => hmeets ⟨a, ha, hcontains⟩
  cases o with
  | error f =>
    have hsame : memory.after op (.error f) = memory := by cases op <;> rfl
    cases hr with
    | unchanged => rwa [hsame]
    | cleanup => exact h.discard rfl fun _ _ => mem_queue_discard
  | ok a =>
    cases hr with
    | store => exact hstore (List.mem_singleton_self _) id _
    | load => exact h
    | fence =>
      dsimp only
      split
      · exact h.drains (drains_settle s u)
      · exact h
    | swapped _ =>
      refine hstore (List.mem_singleton_self _) (fun hw => ?_) _
      rwa [Order.isSeqCst_union_atomicOp]
    | different _ => exact h
    | spurious _ _ => exact h
    | cleanup => exact h.discard rfl fun _ _ => mem_queue_discard
    | resize => exact h.discard rfl fun _ _ hw => (List.mem_filter.mp hw).1
    | debugFence => exact h.drains (drains_settle s u)
    | dump => exact h.drains (drains_settle s u)

/-- What is pending shares no bytes with a location within the set. -/
theorem Mirrors.apart (h : Mirrors X memory s) {l : Location} (hl : l.Fits) (hin : l.Within X)
    {w : Write} (hfits : w.loc.Fits) (hw : w ∈ s.queue t) : w.region.overlaps l.region = false := by
  rw [← Bool.not_eq_true, Write.region, Region.overlaps_iff_exists hfits hl]
  rintro ⟨a, hwa, hla⟩
  rw [← Write.region, h.clear t w hw a (hin a hla)] at hwa
  contradiction

/-- A thread finds in a location within the set what the flat memory holds. -/
theorem Mirrors.load (h : Mirrors X memory s) {l : Location} (hl : l.Fits) (hin : l.Within X)
    (hplaced : ∀ w ∈ s.queue t, w.Placed) (direct : Bool) :
    s.load t direct l = memory.read l := by
  have hmemory : s.memory.read l = memory.read l :=
    Image.read_congr hl fun a ha => h.eqOn (hin a ha)
  cases direct with
  | true => exact hmemory
  | false =>
    show (s.memory.overlay (s.queue t)).read l = _
    rw [Image.read_overlay_apart hl fun w hw =>
      ⟨(hplaced w hw).2, h.apart hl hin (hplaced w hw).2 hw⟩, hmemory]

/-! ## Without capacity -/

/-- Where nothing is pending nothing drains. -/
theorem eq_of_drains_idle (h : ∀ t, s.queue t = []) (hs : Drains s s') : s' = s := by
  induction hs with
  | refl => rfl
  | tail _ hlast ih =>
    subst ih
    cases hlast with
    | @oldest t w rest hq =>
      rw [h t] at hq
      contradiction

/-- If nothing is pending before an issue or after it, its write has taken effect at once. -/
theorem memory_of_idle (h : ∀ t, s.queue t = []) (hr : Reaction least i s o s')
    (hs : Drains s' s'') (hidle : ∀ t, s''.queue t = []) :
    s''.memory = s.memory.after i.op o := by
  obtain ⟨u, flags, heap, op⟩ := i
  have hseen (x : Tso) (hx : x.queue u = []) : x.seen u = x.memory := by
    rw [seen, hx]
    rfl
  -- drains do not change what the thread itself sees, and in the end that is memory
  suffices hthread : s'.Alone u ∧ s'.seen u = s.memory.after op o by
    rw [← hseen s'' (hidle u), hthread.1.seen_drains hs, hthread.2]
  have halone : s.Alone u := fun t _ => h t
  have hkept : s.Alone u ∧ s.seen u = s.memory := ⟨halone, hseen s (h u)⟩
  have hsettled : (s.settle u).Alone u ∧ (s.settle u).seen u = s.memory :=
    ⟨halone.settle, (halone.seen_drains (drains_settle s u)).trans hkept.2⟩
  have hstored (r : Order) (w : Write) : (s.store u flags.bypassed r w).Alone u ∧
      (s.store u flags.bypassed r w).seen u = s.memory.write w := by
    cases flags.bypassed with
    | true => exact ⟨halone, hseen (s.assign w) (h u)⟩
    | false =>
      obtain ⟨halone', hseen'⟩ := halone.store r w
      exact ⟨halone', hseen'.trans (by rw [hkept.2])⟩
  have hdiscarded {x : Tso} (hmemory : x.memory = s.memory) (hsub : ∀ t, ∀ w ∈ x.queue t, w ∈ s.queue t) :
      x.Alone u ∧ x.seen u = s.memory := by
    have hempty (t : ThreadId) : x.queue t = [] :=
      List.eq_nil_iff_forall_not_mem.mpr fun w hw => by simpa [h t] using hsub t w hw
    exact ⟨fun t _ => hempty t, (hseen x (hempty u)).trans hmemory⟩
  cases o with
  | error f =>
    have hsame : s.memory.after op (.error f) = s.memory := by cases op <;> rfl
    cases hr with
    | unchanged => rwa [hsame]
    | cleanup => exact hdiscarded rfl fun _ _ => mem_queue_discard
  | ok a =>
    cases hr with
    | store => exact hstored _ _
    | load => exact hkept
    | fence =>
      dsimp only
      split
      · exact hsettled
      · exact hkept
    | swapped _ => exact hstored _ _
    | different _ => exact hkept
    | spurious _ _ => exact hkept
    | cleanup => exact hdiscarded rfl fun _ _ => mem_queue_discard
    | resize => exact hdiscarded rfl fun _ _ hw => (List.mem_filter.mp hw).1
    | debugFence => exact hsettled
    | dump => exact hsettled

end Tso

end StoreBuffer
