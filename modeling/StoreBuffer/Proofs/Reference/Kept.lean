import StoreBuffer.Proofs.Machine.Faults

/-! # Values that nobody else changes

`Tso.Kept l o x` says that the location `l` holds `x` and that nobody is about to change it: with no
owner memory holds `x` and no pending write touches `l`; with an owner, `x` is what the owner sees and
only the owner has pending writes to `l`. Drains, and operations that spare the location, keep it. -/

namespace StoreBuffer

/-- The operation neither writes bytes of the location nor gives up an object that it starts in. -/
def Issue.spares (l : Location) (i : Issue) : Bool :=
  match i.op with
  | .store k .. | .cas k .. => !k.region.overlaps l.region
  | .cleanup ptrs => !Tso.released i.objects (ptrs.filter (!·.isNull)) l.addr
  | .resize ptr size => !Tso.cutOff i.objects ptr size l.addr
  | .load .. | .fence _ | .debugFence | .dump => true

namespace Tso

/-- Memory as the owner sees it, or as it is. -/
def view (s : Tso) : Option ThreadId → Image
  | none => s.memory
  | some t => s.seen t

/-- The location holds `x`, for its owner if it has one, and only the owner has writes to it. -/
structure Kept (l : Location) (owner : Option ThreadId) (x : UInt64) (s : Tso) : Prop where
  value : (s.view owner).read l = x
  apart : ∀ t, owner ≠ some t → ∀ w ∈ s.queue t, w.Apart l
  own : ∀ t, owner = some t → ∀ w ∈ s.queue t, w.Apart l ∨ w.loc = l

variable {l : Location} {o : Option ThreadId} {x : UInt64} {s s' : Tso} {t : ThreadId}

/-- A thread sees the value if there is no other owner. -/
theorem Kept.read_seen (h : Kept l o x s) (hl : l.Fits) (ho : o = none ∨ o = some t) :
    (s.seen t).read l = x := by
  rcases ho with rfl | rfl
  · rw [seen, Image.read_overlay_apart hl (h.apart t (by simp))]
    exact h.value
  · exact h.value

/-- The value of an owner with nothing pending is memory's. -/
theorem Kept.release (h : Kept l (some t) x s) (hempty : s.queue t = []) : Kept l none x s := by
  refine ⟨?_, ?_, by simp⟩
  · have hvalue : (s.memory.overlay (s.queue t)).read l = x := h.value
    rwa [hempty] at hvalue
  · intro u _ w hw
    by_cases hu : u = t
    · subst hu
      rw [hempty] at hw
      contradiction
    · exact h.apart u (by simpa using Ne.symm hu) w hw

theorem Kept.take (h : Kept l none x s) (hl : l.Fits) (t : ThreadId) : Kept l (some t) x s :=
  ⟨h.read_seen hl (.inl rfl), fun u _ => h.apart u (by simp), fun u _ w hw =>
    .inl (h.apart u (by simp) w hw)⟩

theorem Kept.drain (h : Kept l o x s) (hl : l.Fits) (hs : Drain s s') : Kept l o x s' := by
  cases hs with
  | @oldest t w rest hq =>
    have hsub : ∀ u, ∀ v ∈ Function.update s.queue t rest u, v ∈ s.queue u := by
      intro u v hv
      by_cases hu : u = t
      · subst hu
        rw [hq]
        exact List.mem_cons_of_mem _ (by simpa using hv)
      · simpa [hu] using hv
    refine ⟨?_, fun u hu v hv => h.apart u hu v (hsub u v hv),
      fun u hu v hv => h.own u hu v (hsub u v hv)⟩
    have hw : w ∈ s.queue t := hq ▸ List.mem_cons_self ..
    cases o with
    | none =>
      show (s.memory.write w).read l = x
      rw [Image.read_write_apart hl (h.apart t (by simp) w hw)]
      exact h.value
    | some u =>
      by_cases hu : u = t
      · subst hu
        have hvalue : (s.memory.overlay (s.queue u)).read l = x := h.value
        show ((s.memory.write w).overlay (Function.update s.queue u rest u)).read l = x
        rwa [Function.update_self, ← Image.overlay_cons, ← hq]
      · show ((s.memory.write w).overlay (Function.update s.queue t rest u)).read l = x
        rw [Function.update_of_ne hu,
          Image.read_overlay_write_apart hl (h.apart t (by simpa using hu) w hw)]
        exact h.value

theorem Kept.drains (h : Kept l o x s) (hl : l.Fits) (hs : Drains s s') : Kept l o x s' := by
  induction hs with
  | refl => exact h
  | tail _ hlast ih => exact ih.drain hl hlast

theorem Kept.assign (h : Kept l o x s) (hl : l.Fits) {w : Write} (hw : w.Apart l) :
    Kept l o x (s.assign w) := by
  refine ⟨?_, h.apart, h.own⟩
  cases o with
  | none =>
    show (s.memory.write w).read l = x
    rw [Image.read_write_apart hl hw]
    exact h.value
  | some t =>
    show ((s.memory.write w).overlay (s.queue t)).read l = x
    rw [Image.read_overlay_write_apart hl hw]
    exact h.value

theorem Kept.enqueue (h : Kept l o x s) (hl : l.Fits) {w : Write} (hw : w.Apart l) :
    Kept l o x (s.enqueue t w) := by
  refine ⟨?_, ?_, ?_⟩
  · cases o with
    | none => exact h.value
    | some u =>
      have hvalue : (s.memory.overlay (s.queue u)).read l = x := h.value
      show (s.memory.overlay ((s.enqueue t w).queue u)).read l = x
      by_cases hu : u = t
      · subst hu
        have hqueue : (s.enqueue u w).queue u = s.queue u ++ [w] := Function.update_self ..
        rw [hqueue, Image.overlay_append, Image.overlay_cons, Image.overlay_nil,
          Image.read_write_apart hl hw, hvalue]
      · have hqueue : (s.enqueue t w).queue u = s.queue u := Function.update_of_ne hu ..
        rw [hqueue, hvalue]
  · intro u hu v hv
    rcases mem_queue_enqueue hv with hv | ⟨-, rfl⟩
    · exact h.apart u hu v hv
    · exact hw
  · intro u hu v hv
    rcases mem_queue_enqueue hv with hv | ⟨-, rfl⟩
    · exact h.own u hu v hv
    · exact .inl hw

theorem Kept.store (h : Kept l o x s) (hl : l.Fits) {w : Write} (hw : w.Apart l) (direct : Bool)
    (order : Order) : Kept l o x (s.store t direct order w) := by
  unfold Tso.store
  split
  · exact h.assign hl hw
  · split
    · exact (h.drains hl (drains_settle s t)).assign hl hw
    · exact h.enqueue hl hw

/-- Pending writes that start elsewhere may disappear. -/
theorem Kept.discard (h : Kept l o x s) (hl : l.Fits) (hmemory : s'.memory = s.memory)
    {p : ThreadId → Write → Bool} (hqueue : ∀ t, s'.queue t = (s.queue t).filter (p t))
    (hp : ∀ t w, p t w = false → w.loc.addr ≠ l.addr) : Kept l o x s' := by
  have hsub : ∀ t, ∀ w ∈ s'.queue t, w ∈ s.queue t := by
    intro t w hw
    rw [hqueue] at hw
    exact (List.mem_filter.mp hw).1
  refine ⟨?_, fun t ht w hw => h.apart t ht w (hsub t w hw),
    fun t ht w hw => h.own t ht w (hsub t w hw)⟩
  cases o with
  | none =>
    have hvalue : s.memory.read l = x := h.value
    show s'.memory.read l = x
    rwa [hmemory]
  | some t =>
    show (s'.memory.overlay (s'.queue t)).read l = x
    rw [hmemory, hqueue, Image.read_overlay_filter_apart hl]
    · exact h.value
    · intro w hw hdrop
      rcases h.own t rfl w hw with hapart | hloc
      · exact hapart
      · exact absurd (by rw [hloc]) (hp t w hdrop)

theorem Kept.discardAt (h : Kept l o x s) (hl : l.Fits) {p : Addr → Bool}
    (hp : p l.addr = true) : Kept l o x (s.discard t fun w => p w.loc.addr) := by
  refine h.discard hl (p := fun u w => if u = t then p w.loc.addr else true) rfl ?_ ?_
  · intro u
    by_cases hu : u = t
    · subst hu
      simp [Tso.discard]
    · have hall : (s.queue u).filter (fun _ => true) = s.queue u :=
        List.filter_eq_self.mpr fun _ _ => rfl
      simp [Tso.discard, hu, hall]
  · intro u w hdrop haddr
    split at hdrop
    · rw [haddr, hp] at hdrop
      contradiction
    · contradiction

/-- An operation that spares the location keeps it, whether it succeeds or faults. -/
theorem Kept.reaction (h : Kept l o x s) (hl : l.Fits) {least : Order} {i : Issue}
    (hspares : i.spares l = true) {r : Outcome}
    (hfits : ∀ a, r = .ok a → ∀ k ∈ i.op.locations, k.Fits) (hr : Reaction least i s r s') :
    Kept l o x s' := by
  obtain ⟨u, flags, heap, op⟩ := i
  have hreleased {ptrs : List Addr} (hnone : released heap ptrs l.addr = false) :
      Kept l o x (s.discard u fun w => !released heap ptrs w.loc.addr) :=
    h.discardAt (p := fun a => !released heap ptrs a) hl (by rw [hnone]; rfl)
  cases r with
  | error f =>
    cases hr with
    | unchanged => exact h
    | @cleanup ptrs n =>
      apply hreleased
      have hnone : released heap (ptrs.filter (!·.isNull)) l.addr = false := by
        simpa [Issue.spares] using hspares
      unfold released at hnone ⊢
      rw [List.any_eq_false] at hnone ⊢
      exact fun p hp => hnone p (List.mem_of_mem_take hp)
  | ok a =>
    have hapart {k : Location} (hk : k.Fits) (hno : k.region.overlaps l.region = false)
        (v : UInt64) : (k.holding v).Apart l := ⟨hk, hno⟩
    cases hr with
    | @store k v r =>
      have hno : k.region.overlaps l.region = false := by simpa [Issue.spares] using hspares
      exact h.store hl (hapart (hfits _ rfl k (List.mem_singleton_self k)) hno v) ..
    | load => exact h
    | fence =>
      split
      · exact h.drains hl (drains_settle ..)
      · exact h
    | @swapped k e v a f =>
      have hno : k.region.overlaps l.region = false := by simpa [Issue.spares] using hspares
      exact h.store hl (hapart (hfits _ rfl k (List.mem_singleton_self k)) hno v) ..
    | different => exact h
    | spurious => exact h
    | cleanup =>
      apply hreleased
      simpa [Issue.spares] using hspares
    | @resize ptr size =>
      have hnone : cutOff heap ptr size l.addr = false := by simpa [Issue.spares] using hspares
      refine h.discard hl (p := fun _ w => !cutOff heap ptr size w.loc.addr) rfl (fun _ => rfl) ?_
      intro t w hdrop haddr
      rw [haddr, hnone] at hdrop
      contradiction
    | debugFence => exact h.drains hl (drains_settle ..)
    | dump => exact h.drains hl (drains_settle ..)

end Tso

end StoreBuffer
