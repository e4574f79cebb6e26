import StoreBuffer.Proofs.Reference.Sequential

/-! # Flat memory for one thread

What is left of a machine on which one thread runs: a memory without buffers, and the choices that
the host was asked to make. A compare-and-swap compares and writes at once; a weak one whose values
agree asks whether to fail. `Tso.Alone` says that a thread's own writes are the only ones pending, so
that what it sees does not depend on how far they are drained. -/

namespace StoreBuffer

/-- The two notices that memory is about to be released. -/
def Op.isNotice : Op → Bool
  | .cleanup _ | .resize .. => true
  | _ => false

/-- Memory, and the choices made so far. -/
@[ext] structure Flat where
  memory : Image
  trace : List ChoicePoint

namespace Flat

/-- A weak compare-and-swap asks the host to choose between two branches, others do not ask. -/
def ask (weak : Bool) (chosen : Nat) (s : Flat) : Flat :=
  if weak then { s with trace := s.trace ++ [⟨2, chosen⟩] } else s

def write (w : Write) (s : Flat) : Flat := { s with memory := s.memory.write w }

/-- An operation on flat memory. `least` unites with every requested order. A fault changes nothing:
the location is not one to access, or an atomic store that would be buffered is refused. -/
inductive Step (least : Order) (s : Flat) : Op → Outcome → Flat → Prop
  | plain {op a i} (h : s.memory.Effect op a i) : Step least s op (.ok a) { s with memory := i }
  | debugFence : Step least s .debugFence (.ok .done) s
  | dump {text} : Step least s .dump (.ok (.text text)) s
  | different {l e v a f} (h : s.memory.read l ≠ Width.truncate l.width e) :
      Step least s (.cas l e v a f) (.ok (.swap (s.memory.read l) false)) s
  | swapped {l e v a f} (h : s.memory.read l = Width.truncate l.width e) :
      Step least s (.cas l e v a f) (.ok (.swap (Width.truncate l.width v) true))
        ((s.ask (a ||| least).isWeakCas 0).write (l.holding v))
  | spurious {l e v a f} (h : s.memory.read l = Width.truncate l.width e)
      (hweak : (a ||| least).isWeakCas = true) :
      Step least s (.cas l e v a f) (.ok (.swap (s.memory.read l) false)) (s.ask true 1)
  | invalid {op l f} (h : l ∈ op.locations) (hl : ¬ l.Valid) : Step least s op (.error f) s
  | refusedStore {l v r f} (hatomic : (r ||| least).isAtomicOp = true)
      (hseq : (r ||| least).isSeqCst = false) : Step least s (.store l v r) (.error f) s
  | refusedSwap {l e v a b f} (h : s.memory.read l = Width.truncate l.width e)
      (hseq : (a ||| least).isSeqCst = false) :
      Step least s (.cas l e v a b) (.error f) (s.ask (a ||| least).isWeakCas 0)

/-- A run lists every operation with its outcome and the state after it. -/
inductive Run (least : Order) : Flat → List (Op × Outcome × Flat) → Prop
  | nil (s : Flat) : Run least s []
  | cons {s s' : Flat} {op : Op} {o : Outcome} {rest : List (Op × Outcome × Flat)}
      (hstep : Step least s op o s') (hrest : Run least s' rest) :
      Run least s ((op, o, s') :: rest)

/-- Answers and memory follow from the operation and the choice that it asked for. -/
theorem Step.det {least : Order} {s s₁ s₂ : Flat} {op : Op} {a₁ a₂ : Answer}
    (h₁ : Step least s op (.ok a₁) s₁) (h₂ : Step least s op (.ok a₂) s₂)
    (htrace : s₁.trace = s₂.trace) (hop : op ≠ .dump) : a₁ = a₂ ∧ s₁ = s₂ := by
  cases h₁ with
  | plain h =>
    cases h <;> cases h₂ <;> rename_i h' <;> cases h' <;> exact ⟨rfl, rfl⟩
  | debugFence => cases h₂ with
    | plain h => contradiction
    | debugFence => exact ⟨rfl, rfl⟩
  | dump => contradiction
  | different hne => cases h₂ with
    | plain h => contradiction
    | different => exact ⟨rfl, rfl⟩
    | swapped h | spurious h => contradiction
  | swapped h => cases h₂ with
    | plain h => contradiction
    | different hne => contradiction
    | swapped => exact ⟨rfl, rfl⟩
    | spurious _ hweak =>
      rw [hweak] at htrace
      have htrace : s.trace ++ [⟨2, 0⟩] = s.trace ++ [⟨2, 1⟩] := htrace
      simp at htrace
  | spurious h hweak => cases h₂ with
    | plain h => contradiction
    | different hne => contradiction
    | swapped =>
      rw [hweak] at htrace
      have htrace : s.trace ++ [⟨2, 1⟩] = s.trace ++ [⟨2, 0⟩] := htrace
      simp at htrace
    | spurious => exact ⟨rfl, rfl⟩

end Flat

namespace Tso

/-- No other thread has writes pending. -/
def Alone (t : ThreadId) (s : Tso) : Prop := ∀ u, u ≠ t → s.queue u = []

variable {t : ThreadId} {s s' : Tso}

theorem Alone.drains (h : s.Alone t) (hs : Drains s s') : s'.Alone t := by
  intro u hu
  rw [List.eq_nil_iff_forall_not_mem]
  intro w hw
  have hmem := mem_queue_of_drains hs hw
  rw [h u hu] at hmem
  contradiction

/-- What drains the thread already saw. -/
theorem Alone.seen_drain (h : s.Alone t) (hs : Drain s s') : s'.seen t = s.seen t := by
  cases hs with
  | @oldest u w rest hq =>
    have hu : u = t := by
      by_contra hu
      rw [h u hu] at hq
      contradiction
    subst hu
    show (s.memory.write w).overlay (Function.update s.queue u rest u) = s.memory.overlay (s.queue u)
    rw [Function.update_self, hq, Image.overlay_cons]

theorem Alone.seen_drains (h : s.Alone t) (hs : Drains s s') : s'.seen t = s.seen t := by
  induction hs with
  | refl => rfl
  | tail hfront hlast ih => exact ((h.drains hfront).seen_drain hlast).trans ih

theorem Alone.settle (h : s.Alone t) : (s.settle t).Alone t := h.drains (drains_settle s t)

/-- A store, buffered or not, is the newest that the thread sees. -/
theorem Alone.store (h : s.Alone t) (r : Order) (w : Write) :
    (s.store t false r w).Alone t ∧ (s.store t false r w).seen t = (s.seen t).write w := by
  unfold Tso.store
  cases r.isSeqCst with
  | true =>
    refine ⟨h.settle, ?_⟩
    show ((s.seen t).write w).overlay (Function.update s.queue t [] t) = _
    rw [Function.update_self, Image.overlay_nil]
  | false =>
    refine ⟨fun u hu => (Function.update_of_ne hu ..).trans (h u hu), ?_⟩
    show s.memory.overlay (Function.update s.queue t (s.queue t ++ [w]) t) = _
    rw [Function.update_self, Image.overlay_append]
    rfl

end Tso

end StoreBuffer
