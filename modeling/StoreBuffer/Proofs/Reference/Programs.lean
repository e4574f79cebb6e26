import StoreBuffer.Machine.Visibility
import StoreBuffer.Proofs.Machine.Run
import StoreBuffer.Proofs.Memory.Image

/-! # Programs of buffered stores and loads

A program is a list of issues. `Program.Plain` describes those in which every access to a location
names it alike and in which threads that load do not store; `Program.Stays` those in which a thread
that has stored where others store as well stores nowhere else afterwards; `Program.Bounded` those
whose branches and numbers can be counted. -/

namespace StoreBuffer

/-- The locations an operation stores to, as far as it names them. -/
def Op.stored : Op → List Location
  | .store l .. => [l]
  | _ => []

theorem Op.locations_of_stored {op : Op} {l : Location} (h : l ∈ op.stored) :
    l ∈ op.locations := by
  cases op with
  | store k v r => exact h
  | _ => contradiction

theorem Op.mem_stored {op : Op} {l : Location} {v : UInt64} {r : Order} (h : op = .store l v r) :
    l ∈ op.stored := by
  rw [h]
  exact List.mem_singleton_self l

namespace Issue

/-- A store that goes to the buffer of its thread, or a load that looks there first. -/
def plain (least : Order) (i : Issue) : Bool :=
  !i.flags.bypassed && match i.op with
    | .store _ _ r => !(r ||| least).isSeqCst
    | .load .. => true
    | _ => false

theorem not_bypassed_of_plain {least : Order} {i : Issue} (h : i.plain least = true) :
    i.flags.bypassed = false := by
  rw [plain, Bool.and_eq_true, Bool.not_eq_true'] at h
  exact h.1

theorem not_seqCst_of_plain {least : Order} {i : Issue} (h : i.plain least = true) {l : Location}
    {v : UInt64} {r : Order} (hop : i.op = .store l v r) : (r ||| least).isSeqCst = false := by
  simpa [plain, hop, not_bypassed_of_plain h] using h

/-- What a store of the thread writes. -/
def written? (t : ThreadId) (i : Issue) : Option Write :=
  match i.op with
  | .store l v _ => if i.thread = t then some (l.holding v) else none
  | _ => none

/-- A store to the location that takes a number. -/
def numbers (least : Order) (l : Location) (i : Issue) : Bool :=
  match i.op with
  | .store k _ r => decide (k = l) && (r ||| least).isAtomicOp
  | _ => false

end Issue

namespace Program

/-- What a thread writes, in program order. -/
def writes (t : ThreadId) (is : List Issue) : List Write := is.filterMap (·.written? t)

/-- Nobody but the thread stores to the location. -/
def Own (is : List Issue) (t : ThreadId) (l : Location) : Prop :=
  ∀ i ∈ is, l ∈ i.op.stored → i.thread = t

instance (is : List Issue) (t : ThreadId) (l : Location) : Decidable (Own is t l) := by
  unfold Own; infer_instance

/-- Bound on the ways to drain what the threads have pending to a location. -/
def branches (capacity : Nat) (l : Location) (is : List Issue) : Nat :=
  (is.map (·.thread)).eraseDups.foldr
    (fun t n => (min capacity ((writes t is).countP (·.loc = l)) + 1) * n) 1

/-- Buffered stores and loads of locations that are equal or share no byte; threads that load do not
store. -/
structure Plain (least : Order) (is : List Issue) : Prop where
  plain : ∀ i ∈ is, i.plain least = true
  valid : ∀ i ∈ is, ∀ l ∈ i.op.locations, l.Valid
  apart : ∀ i ∈ is, ∀ j ∈ is, ∀ l ∈ i.op.locations, ∀ k ∈ j.op.locations,
    l = k ∨ l.region.overlaps k.region = false
  loaders : ∀ i ∈ is, ∀ j ∈ is, i.thread = j.thread → i.op.stored = [] → j.op.stored = []

/-- After a store to a location to which other threads store as well, a thread stores to no other
location. -/
def Stays (is : List Issue) : Prop :=
  is.Pairwise fun i j => i.thread = j.thread → ∀ l ∈ i.op.stored, ∀ k ∈ j.op.stored,
    l = k ∨ Own is i.thread l

instance (is : List Issue) : Decidable (Stays is) := by
  unfold Stays; infer_instance

/-- The ways to drain are counted without loss, and there are numbers for all atomic stores. -/
structure Bounded (c : Config) (is : List Issue) : Prop where
  branches : ∀ i ∈ is, ∀ l ∈ i.op.locations, branches c.capacity l is ≤ Visibility.greatestTotal
  numbers : ∀ i ∈ is, ∀ l ∈ i.op.stored,
    (is.countP (·.numbers c.minOrder l) : Int) ≤ Counter.greatest

theorem written?_eq_some {t : ThreadId} {i : Issue} {w : Write} : i.written? t = some w ↔
    i.thread = t ∧ ∃ l v r, i.op = .store l v r ∧ w = l.holding v := by
  obtain ⟨u, flags, heap, op⟩ := i
  cases op with
  | store l v r =>
    simp only [Issue.written?, Option.ite_none_right_eq_some, Option.some.injEq]
    constructor
    · rintro ⟨hu, rfl⟩
      exact ⟨hu, l, v, r, rfl, rfl⟩
    · rintro ⟨hu, l', v', r', hop, rfl⟩
      cases hop
      exact ⟨hu, rfl⟩
  | _ => simp [Issue.written?]

theorem mem_writes {t : ThreadId} {is : List Issue} {w : Write} : w ∈ writes t is ↔
    ∃ i ∈ is, i.thread = t ∧ ∃ l v r, i.op = .store l v r ∧ w = l.holding v := by
  simp only [writes, List.mem_filterMap, written?_eq_some]

theorem stored_of_mem_writes {t : ThreadId} {is : List Issue} {w : Write} (h : w ∈ writes t is) :
    ∃ i ∈ is, i.thread = t ∧ w.loc ∈ i.op.stored := by
  obtain ⟨i, hi, ht, l, v, r, hop, rfl⟩ := mem_writes.mp h
  exact ⟨i, hi, ht, Op.mem_stored hop⟩

theorem stays_writes {is : List Issue} (h : Stays is) (t : ThreadId) :
    (writes t is).Pairwise fun v w => v.loc = w.loc ∨ Own is t v.loc := by
  unfold writes
  rw [List.pairwise_filterMap]
  refine h.imp fun {i j} hij v hv w hw => ?_
  obtain ⟨hi, l, a, r, hop, rfl⟩ := written?_eq_some.mp hv
  obtain ⟨hj, k, b, q, hop', rfl⟩ := written?_eq_some.mp hw
  rw [hop, hop', hi] at hij
  exact hij hj.symm l (List.mem_singleton_self l) k (List.mem_singleton_self k)

/-- Factors that are at most as great, and one where they have no counterpart. -/
theorem foldr_mul_le {α β : Type} [DecidableEq β] (f : α → Nat) (g : β → Nat) (key : α → β)
    {xs : List α} {ys : List β} (hkey : (xs.map key).Nodup)
    (hle : ∀ x ∈ xs, f x = 1 ∨ key x ∈ ys ∧ f x ≤ g (key x)) (hg : ∀ y, 1 ≤ g y) :
    xs.foldr (f · * ·) 1 ≤ ys.foldr (g · * ·) 1 := by
  induction xs generalizing ys with
  | nil =>
    induction ys with
    | nil => exact Nat.le_refl 1
    | cons y rest ih =>
      have ih := ih nofun
      exact Nat.le_trans ih (Nat.le_mul_of_pos_left _ (hg y))
  | cons x rest ih =>
    obtain ⟨hx, hrest⟩ := List.nodup_cons.mp hkey
    rw [List.foldr_cons]
    rcases hle x (List.mem_cons_self ..) with hone | ⟨hmem, hfx⟩
    · rw [hone, Nat.one_mul]
      exact ih hrest fun z hz => hle z (List.mem_cons_of_mem x hz)
    · have hperm : ys.foldr (g · * ·) 1 = (key x :: ys.erase (key x)).foldr (g · * ·) 1 :=
        (List.perm_cons_erase hmem).foldr_eq' (f := fun y n => g y * n)
          (fun a _ b _ n => Nat.mul_left_comm (g b) (g a) n) 1
      rw [hperm, List.foldr_cons]
      refine Nat.mul_le_mul hfx (ih hrest fun z hz => ?_)
      refine (hle z (List.mem_cons_of_mem x hz)).imp_right fun ⟨hzmem, hfz⟩ => ⟨?_, hfz⟩
      have hne : key z ≠ key x := fun heq => hx (List.mem_map.mpr ⟨z, hz, heq⟩)
      exact (List.mem_erase_of_ne hne).mpr hzmem

end Program

end StoreBuffer
