import Mathlib.Logic.Function.Basic
import Mathlib.Logic.Relation
import StoreBuffer.Proofs.Machine.Run
import StoreBuffer.Proofs.Memory.Image

/-! # The reference machine

Total store order without any bookkeeping: one flat memory and one queue of pending writes for each
thread. The oldest write of any queue may reach memory at any moment. A thread sees its own queue
laid over memory; what orders its accesses empties its queue first. -/

namespace StoreBuffer

structure Tso where
  memory : Image
  queue : ThreadId → List Write

namespace Tso

/-- Nothing is pending. -/
def start (memory : Image) : Tso := ⟨memory, fun _ => []⟩

/-- Memory as the thread sees it. -/
def seen (s : Tso) (t : ThreadId) : Image := s.memory.overlay (s.queue t)

/-- The oldest `n` writes of a thread reach memory. -/
def release (s : Tso) (t : ThreadId) (n : Nat) : Tso :=
  ⟨s.memory.overlay ((s.queue t).take n), Function.update s.queue t ((s.queue t).drop n)⟩

/-- All writes of a thread reach memory. -/
def settle (s : Tso) (t : ThreadId) : Tso := ⟨s.seen t, Function.update s.queue t []⟩

def enqueue (s : Tso) (t : ThreadId) (w : Write) : Tso :=
  { s with queue := Function.update s.queue t (s.queue t ++ [w]) }

/-- A write past the queues. -/
def assign (s : Tso) (w : Write) : Tso := { s with memory := s.memory.write w }

/-- The writes that `keep` refuses disappear from the queue of a thread. -/
def discard (s : Tso) (t : ThreadId) (keep : Write → Bool) : Tso :=
  { s with queue := Function.update s.queue t ((s.queue t).filter keep) }

/-- The writes that `keep` refuses disappear from every queue. -/
def discardAll (s : Tso) (keep : Write → Bool) : Tso :=
  { s with queue := fun u => (s.queue u).filter keep }

/-- The oldest write of some queue reaches memory. -/
inductive Drain : Tso → Tso → Prop
  | oldest {s : Tso} {t : ThreadId} {w : Write} {rest : List Write} (h : s.queue t = w :: rest) :
      Drain s ⟨s.memory.write w, Function.update s.queue t rest⟩

abbrev Drains : Tso → Tso → Prop := Relation.ReflTransGen Drain

/-- A store: past the queues in a direct mode, behind the queue's other writes in a buffered one. A
sequentially consistent store finds the queue empty. -/
def store (s : Tso) (t : ThreadId) (direct : Bool) (order : Order) (w : Write) : Tso :=
  if direct then s.assign w
  else if order.isSeqCst then (s.settle t).assign w
  else s.enqueue t w

/-- The value a thread loads. -/
def load (s : Tso) (t : ThreadId) (direct : Bool) (l : Location) : UInt64 :=
  (if direct then s.memory else s.seen t).read l

/-- The address lies in an object that one of the pointers points into. -/
def released (heap : Objects) (ptrs : List Addr) (a : Addr) : Bool :=
  ptrs.any fun p => (heap.containing? p).any (·.contains a)

/-- The address lies in the part of an object that a change of its size gives up. -/
def cutOff (heap : Objects) (ptr : Addr) (newSize : UInt64) (a : Addr) : Bool :=
  !ptr.isNull && (heap.containing? ptr).any fun object => decide (newSize < object.size) &&
    Region.contains ⟨object.base.offset newSize, object.size - newSize⟩ a

/-- What an operation of thread `t` does at one moment. `least` unites with every requested order;
a direct mode leaves the queues out of loads and stores. -/
inductive Effect (least : Order) (t : ThreadId) (direct : Bool) (heap : Objects) (s : Tso) :
    Op → Answer → Tso → Prop
  | store {l v r} : Effect least t direct heap s (.store l v r) .done
      (s.store t direct (r ||| least) (l.holding v))
  | load {l r} : Effect least t direct heap s (.load l r) (.value (s.load t direct l)) s
  | fence {r} : Effect least t direct heap s (.fence r) .done
      (if !direct && (r ||| least).isSeqCst then s.settle t else s)
  | swapped {l e v a f} (h : s.load t direct l = Width.truncate l.width e) :
      Effect least t direct heap s (.cas l e v a f) (.swap (Width.truncate l.width v) true)
        (s.store t direct (a ||| least ||| .atomicOp) (l.holding v))
  | different {l e v a f} (h : s.load t direct l ≠ Width.truncate l.width e) :
      Effect least t direct heap s (.cas l e v a f) (.swap (s.load t direct l) false) s
  | spurious {l e v a f} (h : s.load t direct l = Width.truncate l.width e)
      (hweak : direct = false ∧ (a ||| least).isWeakCas = true) :
      Effect least t direct heap s (.cas l e v a f) (.swap (s.load t direct l) false) s
  | cleanup {ptrs} : Effect least t direct heap s (.cleanup ptrs) .done
      (s.discard t fun w => !released heap (ptrs.filter (!·.isNull)) w.loc.addr)
  | resize {ptr size} : Effect least t direct heap s (.resize ptr size) .done
      (s.discardAll fun w => !cutOff heap ptr size w.loc.addr)
  | debugFence : Effect least t direct heap s .debugFence .done (s.settle t)
  | dump {text} : Effect least t direct heap s .dump (.text text) (s.settle t)

/-- An operation, with any number of drains before and after it. -/
def Step (least : Order) (i : Issue) (s : Tso) (a : Answer) (s' : Tso) : Prop :=
  ∃ x y, Drains s x ∧ Effect least i.thread i.flags.bypassed i.objects x i.op a y ∧ Drains y s'

/-- A run lists every operation with its answer and the state after it. -/
inductive Run (least : Order) : Tso → List (Issue × Answer × Tso) → Prop
  | nil (s : Tso) : Run least s []
  | cons {s s' : Tso} {i : Issue} {a : Answer} {rest : List (Issue × Answer × Tso)}
      (hstep : Step least i s a s') (hrest : Run least s' rest) :
      Run least s ((i, a, s') :: rest)

@[ext] theorem ext {s s' : Tso} (hmemory : s.memory = s'.memory)
    (hqueue : ∀ t, s.queue t = s'.queue t) : s = s' := by
  cases s
  cases s'
  simp_all [funext_iff]

theorem discard_true (s : Tso) (t : ThreadId) : (s.discard t fun _ => true) = s := by
  apply Tso.ext
  · rfl
  · intro u
    by_cases hu : u = t
    · subst hu
      simp [discard]
    · exact Function.update_of_ne hu ..

theorem discard_discard (s : Tso) (t : ThreadId) (p q : Write → Bool) :
    (s.discard t p).discard t q = s.discard t fun w => p w && q w := by
  apply Tso.ext
  · rfl
  · intro u
    by_cases hu : u = t
    · subst hu
      simp [discard, List.filter_filter, Bool.and_comm]
    · simp [discard, hu]

theorem settle_eq_release (s : Tso) (t : ThreadId) :
    s.settle t = s.release t (s.queue t).length := by
  simp [settle, release, seen]

theorem release_zero (s : Tso) (t : ThreadId) : s.release t 0 = s := by
  simp [release, Image.overlay_nil]

theorem release_succ {s : Tso} {t : ThreadId} {w : Write} {rest : List Write}
    (h : s.queue t = w :: rest) (n : Nat) : s.release t (n + 1) =
      Tso.release ⟨s.memory.write w, Function.update s.queue t rest⟩ t n := by
  simp [release, h, Image.overlay_cons]

theorem drains_release (s : Tso) (t : ThreadId) (n : Nat) : Drains s (s.release t n) := by
  induction n generalizing s with
  | zero => rw [release_zero]
  | succ n ih =>
    cases h : s.queue t with
    | nil =>
      have hsame : s.release t (n + 1) = s := by
        apply Tso.ext
        · simp [release, h, Image.overlay_nil]
        · intro u
          by_cases hu : u = t
          · subst hu
            simp [release, h]
          · simp [release, hu]
      rw [hsame]
    | cons w rest =>
      rw [release_succ h]
      exact .head (.oldest h) (ih _)

theorem drains_settle (s : Tso) (t : ThreadId) : Drains s (s.settle t) := by
  rw [settle_eq_release]
  exact drains_release ..

theorem release_queue_self (s : Tso) (t : ThreadId) (n : Nat) :
    (s.release t n).queue t = (s.queue t).drop n := Function.update_self ..

theorem release_queue_of_ne (s : Tso) {t u : ThreadId} (h : u ≠ t) (n : Nat) :
    (s.release t n).queue u = s.queue u := Function.update_of_ne h ..

theorem mem_queue_of_drains {s s' : Tso} (hs : Drains s s') {u : ThreadId} {w : Write}
    (h : w ∈ s'.queue u) : w ∈ s.queue u := by
  induction hs with
  | refl => exact h
  | tail _ hstep ih =>
    cases hstep with
    | @oldest t v rest hq =>
      apply ih
      by_cases hu : u = t
      · subst hu
        rw [hq]
        exact List.mem_cons_of_mem _ (by simpa using h)
      · simpa [hu] using h

theorem mem_queue_enqueue {s : Tso} {t u : ThreadId} {v w : Write}
    (h : v ∈ (s.enqueue t w).queue u) : v ∈ s.queue u ∨ u = t ∧ v = w := by
  by_cases hu : u = t
  · subst hu
    simpa [enqueue] using h
  · exact .inl (by simpa [enqueue, hu] using h)

theorem mem_queue_discard {s : Tso} {t u : ThreadId} {keep : Write → Bool} {w : Write}
    (h : w ∈ (s.discard t keep).queue u) : w ∈ s.queue u := by
  by_cases hu : u = t
  · subst hu
    have hmem : w ∈ (s.queue u).filter keep := by simpa [discard] using h
    exact (List.mem_filter.mp hmem).1
  · simpa [discard, hu] using h

end Tso

end StoreBuffer
