import Mathlib.Logic.Relation
import StoreBuffer.Session.Entry

/-! # What calls do to a session

The calls of entry points as data, and for each the effect that it is to have: its reply, the fault
it finds, and what becomes of the session and of the guest, in terms of the operations of a machine.
A call has one effect. Guest code moves an embedding by acting on the guest and by such calls. -/

namespace StoreBuffer

/-- A call of an entry point. -/
inductive EntryCall where
  | init (hasHost : Bool) (text : Option Json.Bytes)
  | teardown
  | store (loc : Location) (value : UInt64) (order : Nat)
  | load (loc : Location) (order : Nat)
  | fence (order : Nat)
  | cas (loc : Location) (expected value : UInt64) (success failure : Nat)
  | cleanup (count : Int) (ptrs : Option (List Addr))
  | resize (ptr : Addr) (newSize : UInt64)
  | debugFence
  | dump
  | bufferSize
  | minOrdering
deriving DecidableEq, Repr

/-- What comes back from a call. -/
inductive Reply where
  | nothing
  | word (v : UInt64)
  | swap (v : UInt64) (success : Bool)
  | number (n : Int)
  /-- A text that is printed, if there is one. -/
  | printed (text : Option String)
deriving DecidableEq, Repr

/-- The order whose flags are the low seven bits of a number. -/
def Order.low (n : Nat) : Order := ⟨BitVec.ofNat 7 (n % 128)⟩

theorem Order.ofNat_eq_low (n : Nat) : ofNat n = low n := by
  unfold ofNat low
  refine congrArg Order.mk (BitVec.eq_of_toNat_eq ?_)
  rw [BitVec.toNat_ofNat, BitVec.toNat_ofNat]
  exact (Nat.mod_mod n 128).symm

namespace EntryCall

/-- Starting and ending a session is possible without one. -/
def needsSession : EntryCall → Bool
  | init .. | teardown => false
  | _ => true

/-- The operation that a call stands for. -/
def op? : EntryCall → Option Op
  | store loc value order => some (.store loc value (.low order))
  | load loc order => some (.load loc (.low order))
  | fence order => some (.fence (.low order))
  | cas loc expected value success failure =>
    some (.cas loc expected value (.low success) (.low failure))
  | cleanup count (some ptrs) => if 0 < count then some (.cleanup (ptrs.take count.toNat)) else none
  | resize ptr newSize => some (.resize ptr newSize)
  | debugFence => some .debugFence
  | dump => some .dump
  | cleanup _ none | init .. | teardown | bufferSize | minOrdering => none

/-- The fault of a call that is refused before any operation. -/
def refusal? : EntryCall → Option Fault
  | cleanup count ptrs =>
    if count < 0 then some (.invalidCleanupCount count)
    else if 0 < count ∧ ptrs = none then some .nullAddress
    else none
  | _ => none

/-- The reply that hands over the answer of an operation. -/
def reply : EntryCall → Answer → Reply
  | load .., .value v => .word v
  | cas .., .swap v success => .swap v success
  | dump, .text s => .printed (some s)
  | _, _ => .nothing

/-- The reply without a session or after a fault. -/
def neutral : EntryCall → Reply
  | load .. => .word 0
  | cas .. => .swap 0 false
  | dump => .printed none
  | bufferSize | minOrdering => .number (-1)
  | _ => .nothing

/-- A refused call stands for no operation. -/
theorem op?_of_refusal? {c : EntryCall} {f : Fault} (h : c.refusal? = some f) : c.op? = none := by
  cases c with
  | cleanup count ptrs =>
    cases ptrs with
    | none => rfl
    | some ptrs =>
      refine if_neg fun hpositive => ?_
      have hneg : ¬ count < 0 := by omega
      have hnone : (cleanup count (some ptrs)).refusal? = none :=
        (if_neg hneg).trans (if_neg fun h => nomatch h.2)
      rw [hnone] at h
      contradiction
  | _ => contradiction

theorem op?_noPointers (ptrs : Option (List Addr)) : (cleanup 0 ptrs).op? = none := by
  cases ptrs <;> rfl

end EntryCall

namespace Embedding

variable {κ : Type} [Guest κ]

/-- What a call does by itself: its reply, the fault it finds, and what becomes of the session and
of the guest. -/
inductive Effect (p : Embedding κ) :
    EntryCall → Reply → Option Fault → Option Session → κ → Prop
  | hostMissing {text} : Effect p (.init false text) (.number (-1)) none p.session p.guest
  | configRejected {text reason} (h : Config.ofTerminated text = .error reason) :
      Effect p (.init true (some text)) (.number (-2)) none p.session p.guest
  | startedByDefault :
      Effect p (.init true none) (.number 0) none
        (some { config := {}, table := {}, stats := {} }) p.guest
  | started {text config} (h : Config.ofTerminated text = .ok config) :
      Effect p (.init true (some text)) (.number 0) none
        (some { config, table := {}, stats := {} }) p.guest
  | teardown : Effect p .teardown .nothing none none p.guest
  | noSession {c} (hs : p.session = none) (hc : c.needsSession = true) :
      Effect p c c.neutral none none p.guest
  | performed {c op s a m} (hs : p.session = some s) (hop : c.op? = some op)
      (h : (p.machine s).perform op = (.ok a, m)) :
      Effect p c (c.reply a) none (some m.toSession) m.host
  | faulted {c op s f m} (hs : p.session = some s) (hop : c.op? = some op)
      (h : (p.machine s).perform op = (.error f, m)) :
      Effect p c c.neutral (some f) (some m.toSession) m.host
  | refused {c s f} (hs : p.session = some s) (hf : c.refusal? = some f) :
      Effect p c .nothing (some f) (some s) p.guest
  | noPointers {s ptrs} (hs : p.session = some s) :
      Effect p (.cleanup 0 ptrs) .nothing none (some s) p.guest
  | bufferSize {s} (hs : p.session = some s) :
      Effect p .bufferSize (.number s.config.capacity) none (some s) p.guest
  | minOrdering {s} (hs : p.session = some s) :
      Effect p .minOrdering (.number s.config.minOrder.toNat) none (some s) p.guest

/-- A call has one effect. -/
theorem Effect.det {p : Embedding κ} {c : EntryCall} {r r' : Reply} {f f' : Option Fault}
    {s s' : Option Session} {g g' : κ} (h : p.Effect c r f s g) (h' : p.Effect c r' f' s' g') :
    r = r' ∧ f = f' ∧ s = s' ∧ g = g' := by
  cases h with
  | hostMissing | configRejected | startedByDefault | started | teardown =>
    cases h' <;> simp_all [EntryCall.op?, EntryCall.refusal?, EntryCall.needsSession]
  | noSession => cases h' <;> simp_all [EntryCall.needsSession]
  -- a call that stands for an operation is not refused
  | performed hs hop | faulted hs hop =>
    cases h' with
    | refused _ hf =>
      rw [EntryCall.op?_of_refusal? hf] at hop
      contradiction
    | noPointers =>
      rw [EntryCall.op?_noPointers] at hop
      contradiction
    | performed | faulted | noSession => simp_all
    | _ => contradiction
  | refused hs hf =>
    cases h' with
    | performed _ hop | faulted _ hop =>
      rw [EntryCall.op?_of_refusal? hf] at hop
      contradiction
    | refused | noSession => simp_all
    | _ => contradiction
  | noPointers =>
    cases h' with
    | performed _ hop | faulted _ hop =>
      rw [EntryCall.op?_noPointers] at hop
      contradiction
    | noPointers | noSession => simp_all
    | _ => contradiction
  | bufferSize | minOrdering => cases h' <;> first | contradiction | simp_all

/-- What guest code can do: act on the guest, the callbacks that it will answer with included, and
call entry points, for which it needs the lock to be free. Of a call that finds a fault, this is the
part up to the fault handler, whose doings follow as moves of their own. -/
inductive Moves : Embedding κ → Embedding κ → Prop
  | act (p : Embedding κ) (g : κ) : Moves p { p with guest := g }
  | call {p q : Embedding κ} {c r f} (hfree : p.locked = false)
      (heffect : p.Effect c r f q.session q.guest) (hleft : q.locked = false) : Moves p q

theorem free_of_moves {p q : Embedding κ} (h : Relation.ReflTransGen Moves p q)
    (hfree : p.locked = false) : q.locked = false := by
  induction h with
  | refl => exact hfree
  | tail hfront hlast ih =>
    cases hlast with
    | act => exact ih
    | call _ _ hleft => exact hleft

end Embedding

end StoreBuffer
