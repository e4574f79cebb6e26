import StoreBuffer.Proofs.Session.Effect
import StoreBuffer.Session.ScriptedGuest

/-! # The session protocol

A guest calls entry points in any order, with any arguments, and does what it likes in between. Every
call finds the lock free, has its effect and gives the lock up; then the fault handler is called, if
there is a fault. A handler is guest code: it acts on the guest and calls entry points, and no
more. -/

namespace StoreBuffer

/-- The fault handler is guest code. -/
def FaultHandler.Lawful (κ : Type) [Guest κ] [FaultHandler κ] : Prop :=
  ∀ (kind : FaultKind) (message : String) (p : Embedding κ), p.locked = false →
    Relation.ReflTransGen Embedding.Moves p (FaultHandler.onFault kind message p)

namespace Embedding

section

variable {κ : Type} {p : Embedding κ}

theorem enter_none {α : Type} (hs : p.session = none) (entry : EntryPoint)
    (f : Machine κ → α × Machine κ) :
    p.enter entry f = (none, (p.lock.note (.notStarted entry)).unlock) := by
  unfold enter
  rw [hs]

theorem enter_some {α : Type} {s : Session} (hs : p.session = some s) (entry : EntryPoint)
    (f : Machine κ → α × Machine κ) :
    p.enter entry f = (some (f (p.machine s)).1, (p.lock.resume (f (p.machine s)).2).unlock) := by
  unfold enter
  rw [hs]
  rfl

end

variable {κ : Type} [Guest κ] [FaultHandler κ] {p : Embedding κ} {s : Session}

/-- Calls an entry point. -/
def call (c : EntryCall) (p : Embedding κ) : Reply × Embedding κ :=
  match c with
  | .init hasHost text =>
    let r := p.init hasHost text
    (.number (Refusal.code r.1), r.2)
  | .teardown => (.nothing, p.teardown)
  | .store loc value order => (.nothing, p.store loc value order)
  | .load loc order =>
    let r := p.load loc order
    (.word r.1, r.2)
  | .fence order => (.nothing, p.fence order)
  | .cas loc expected value success failure =>
    let r := p.cas loc expected value success failure
    (.swap r.1.1 r.1.2, r.2)
  | .cleanup count ptrs => (.nothing, p.cleanup count ptrs)
  | .resize ptr newSize => (.nothing, p.resize ptr newSize)
  | .debugFence => (.nothing, p.debugFence)
  | .dump =>
    let r := p.dump
    (.printed r.1, r.2)
  | .bufferSize =>
    let r := p.bufferSize
    (.number r.1, r.2)
  | .minOrdering =>
    let r := p.minOrdering
    (.number r.1, r.2)

/-- Tells the guest about a fault, if there is one. -/
def tell (f : Option Fault) (p : Embedding κ) : Embedding κ :=
  f.elim p fun f => p.deliver f.kind f.message

/-- How a call goes: with the lock free it does its work, and has given the lock up again when the
fault handler is called, once and with nothing left to do, or not at all if there is no fault. From
then on there is nothing but the handler's own doings. -/
structure Contract (p : Embedding κ) (c : EntryCall) (r : Reply) (q : Embedding κ) : Prop where
  free : p.locked = false
  worked : ∃ (f : Option Fault) (w : Embedding κ), p.Effect c r f w.session w.guest ∧
    w.locked = false ∧ q = w.tell f ∧ Relation.ReflTransGen Moves w q

/-- Every call of a sequence, between the embeddings before and after it, and its reply. Before each
call the guest acts. -/
def calls (p : Embedding κ) :
    List ((κ → κ) × EntryCall) → List (Embedding κ × EntryCall × Reply × Embedding κ)
  | [] => []
  | (act, c) :: rest =>
    let p := { p with guest := act p.guest }
    (p, c, p.call c) :: (p.call c).2.calls rest

/-! ## Calls keep the contract -/

/-- A call that does its work and then tells the guest. -/
theorem contract_of_tell (hlawful : FaultHandler.Lawful κ) (hfree : p.locked = false)
    {c : EntryCall} {r : Reply} {f : Option Fault} {w : Embedding κ}
    (heffect : p.Effect c r f w.session w.guest) (hleft : w.locked = false) :
    p.Contract c r (w.tell f) := by
  -- the work is done and the lock free by the time the handler is called
  refine ⟨hfree, f, w, heffect, hleft, rfl, ?_⟩
  cases f with
  | none => exact .refl
  | some f => exact hlawful _ _ w hleft

/-- A call that enters the session for an operation. -/
theorem contract_of_run (hlawful : FaultHandler.Lawful κ) (hfree : p.locked = false)
    (hs : p.session = some s) {c : EntryCall} {op : Op} (hop : c.op? = some op) {α : Type}
    {f : Machine κ → Except Fault α × Machine κ} {g : α → Answer}
    (hperform : ∀ m, m.perform op = ((f m).1.map g, (f m).2)) (entry : EntryPoint)
    {k : Option α → Reply} (hreply : ∀ a, k (some a) = c.reply (g a))
    (hneutral : k none = c.neutral) :
    p.Contract c (k (p.run entry f).1) (p.run entry f).2 := by
  have hentered := enter_some hs entry f
  have hperformed := hperform (p.machine s)
  unfold run
  rw [hentered]
  generalize f (p.machine s) = r at hperformed ⊢
  obtain ⟨o, m⟩ := r
  cases o with
  | ok a =>
    have heffect := Effect.performed hs hop hperformed
    rw [← hreply] at heffect
    exact contract_of_tell (w := (p.lock.resume m).unlock) hlawful hfree heffect rfl
  | error e =>
    have heffect := Effect.faulted hs hop hperformed
    rw [← hneutral] at heffect
    exact contract_of_tell (w := (p.lock.resume m).unlock.note (.faultReported entry e)) hlawful
      hfree heffect rfl

/-- A call that enters the session for an operation that cannot fault. -/
theorem contract_of_enter (hlawful : FaultHandler.Lawful κ) (hfree : p.locked = false)
    (hs : p.session = some s) {c : EntryCall} {op : Op} (hop : c.op? = some op) {α : Type}
    {f : Machine κ → α × Machine κ} {g : α → Answer}
    (hperform : ∀ m, m.perform op = (.ok (g (f m).1), (f m).2)) (entry : EntryPoint)
    {k : Option α → Reply} (hreply : ∀ a, k (some a) = c.reply (g a)) :
    p.Contract c (k (p.enter entry f).1) (p.enter entry f).2 := by
  have heffect := Effect.performed hs hop (hperform (p.machine s))
  rw [enter_some hs, hreply]
  exact contract_of_tell (w := (p.lock.resume (f (p.machine s)).2).unlock) hlawful hfree heffect rfl

/-- A call that is refused before the session is entered. -/
theorem contract_of_refuse (hlawful : FaultHandler.Lawful κ) (hfree : p.locked = false)
    (hs : p.session = some s) {c : EntryCall} {f : Fault} (hf : c.refusal? = some f)
    (entry : EntryPoint) : p.Contract c .nothing (p.refuse entry f) := by
  have heffect := Effect.refused hs hf
  rw [← hs] at heffect
  unfold refuse
  rw [hs]
  exact contract_of_tell (w := p.note (.faultReported entry f)) hlawful hfree heffect hfree

/-- Without a session a call does nothing. -/
theorem contract_noSession (hlawful : FaultHandler.Lawful κ) (hfree : p.locked = false)
    (hs : p.session = none) {c : EntryCall} (hc : c.needsSession = true) :
    p.Contract c (p.call c).1 (p.call c).2 := by
  have hidle {w : Embedding κ} (hsession : w.session = none) (hguest : w.guest = p.guest)
      (hleft : w.locked = false) : p.Contract c c.neutral w := by
    have heffect : p.Effect c c.neutral none w.session w.guest := by
      rw [hsession, hguest]
      exact .noSession hs hc
    exact contract_of_tell hlawful hfree heffect hleft
  cases c with
  | init | teardown => contradiction
  | cleanup count ptrs =>
    have hrefuse (f : Fault) : p.refuse .cleanup f = p := by
      unfold refuse
      rw [hs]
      rfl
    unfold call cleanup
    dsimp only
    rw [hrefuse, hrefuse]
    split
    · exact hidle hs rfl hfree
    · split
      · exact hidle hs rfl hfree
      · split
        · exact hidle hs rfl hfree
        · unfold run
          rw [enter_none hs]
          exact hidle hs rfl rfl
  | store | load | cas | resize =>
    unfold call
    simp only [store, load, cas, resize, run, enter_none hs]
    exact hidle hs rfl rfl
  | fence | debugFence | dump | bufferSize | minOrdering =>
    unfold call
    simp only [fence, debugFence, dump, bufferSize, minOrdering, enter_none hs]
    exact hidle hs rfl rfl

theorem contract_init (hlawful : FaultHandler.Lawful κ) (hfree : p.locked = false) (hasHost : Bool)
    (text : Option Json.Bytes) :
    p.Contract (.init hasHost text) (p.call (.init hasHost text)).1
      (p.call (.init hasHost text)).2 := by
  have hinstall (config : Config) (w : Embedding κ) :
      (w.install config).session = some { config, table := {}, stats := {} } ∧
        (w.install config).guest = w.guest ∧ (w.install config).locked = w.locked := by
    unfold install
    split <;> exact ⟨rfl, rfl, rfl⟩
  have hstarted {config : Config} (heffect : p.Effect (.init hasHost text) (.number 0) none
      (some { config, table := {}, stats := {} }) p.guest) :
      p.Contract (.init hasHost text) (.number 0)
        ((p.note (.sessionStarted config)).install config) := by
    obtain ⟨hsession, hguest, hlocked⟩ := hinstall config (p.note (.sessionStarted config))
    rw [← hsession, ← show _ = p.guest from hguest] at heffect
    exact contract_of_tell (f := none) hlawful hfree heffect (hlocked.trans hfree)
  unfold call init
  dsimp only
  cases hasHost with
  | false => exact contract_of_tell (f := none) (w := p.note _) hlawful hfree .hostMissing hfree
  | true =>
    cases text with
    | none => exact hstarted .startedByDefault
    | some text =>
      cases hparse : Config.ofTerminated text with
      | error reason =>
        simp only [Option.elim, hparse, if_true]
        exact contract_of_tell (f := none) (w := p.note _) hlawful hfree (.configRejected hparse)
          hfree
      | ok config =>
        simp only [Option.elim, hparse, if_true]
        exact hstarted (.started hparse)

theorem contract_teardown (hlawful : FaultHandler.Lawful κ) (hfree : p.locked = false) :
    p.Contract .teardown (p.call .teardown).1 (p.call .teardown).2 := by
  have heffect : p.Effect .teardown .nothing none p.teardown.session p.teardown.guest := by
    unfold teardown
    cases hs : p.session with
    | none =>
      have hended := Effect.teardown (p := p)
      rw [← hs] at hended
      exact hended
    | some s => exact .teardown
  have hleft : p.teardown.locked = false := by
    unfold teardown
    split <;> exact hfree
  exact contract_of_tell (f := none) hlawful hfree heffect hleft

theorem contract_cleanup (hlawful : FaultHandler.Lawful κ) (hfree : p.locked = false)
    (hs : p.session = some s) (count : Int) (ptrs : Option (List Addr)) :
    p.Contract (.cleanup count ptrs) (p.call (.cleanup count ptrs)).1
      (p.call (.cleanup count ptrs)).2 := by
  unfold call cleanup
  dsimp only
  by_cases hnegative : count < 0
  · rw [if_pos hnegative]
    have hf : (EntryCall.cleanup count ptrs).refusal? = some (.invalidCleanupCount count) :=
      if_pos hnegative
    exact contract_of_refuse hlawful hfree hs hf .cleanup
  rw [if_neg hnegative]
  by_cases hzero : count = 0
  · subst hzero
    have heffect : p.Effect (.cleanup 0 ptrs) .nothing none (some s) p.guest := .noPointers hs
    rw [← hs] at heffect
    exact contract_of_tell (f := none) hlawful hfree heffect hfree
  have hpositive : 0 < count := by omega
  rw [if_neg hzero]
  cases ptrs with
  | none =>
    have hf : (EntryCall.cleanup count none).refusal? = some .nullAddress :=
      (if_neg hnegative).trans (if_pos ⟨hpositive, rfl⟩)
    exact contract_of_refuse hlawful hfree hs hf .cleanup
  | some ptrs =>
    have hop : (EntryCall.cleanup count (some ptrs)).op? =
        some (.cleanup (ptrs.take count.toNat)) := if_pos hpositive
    exact contract_of_run (k := fun _ => .nothing) hlawful hfree hs hop (fun _ => rfl) .cleanup
      (fun _ => rfl) rfl

/-- Any call, with or without a session. -/
theorem contract_call (hlawful : FaultHandler.Lawful κ) (hfree : p.locked = false) (c : EntryCall) :
    p.Contract c (p.call c).1 (p.call c).2 := by
  cases hs : p.session with
  | none =>
    cases c with
    | init hasHost text => exact contract_init hlawful hfree hasHost text
    | teardown => exact contract_teardown hlawful hfree
    | _ => exact contract_noSession hlawful hfree hs rfl
  | some s =>
    cases c with
    | init hasHost text => exact contract_init hlawful hfree hasHost text
    | teardown => exact contract_teardown hlawful hfree
    | store loc value order =>
      have hop : (EntryCall.store loc value order).op? = some (.store loc value (.ofNat order)) := by
        rw [Order.ofNat_eq_low]
        rfl
      exact contract_of_run (k := fun _ => .nothing) hlawful hfree hs hop (fun _ => rfl) .store
        (fun _ => rfl) rfl
    | load loc order =>
      have hop : (EntryCall.load loc order).op? = some (.load loc (.ofNat order)) := by
        rw [Order.ofNat_eq_low]
        rfl
      exact contract_of_run (k := fun v => .word (v.getD 0)) hlawful hfree hs hop
        (fun _ => rfl) .load (fun _ => rfl) rfl
    | fence order =>
      have hop : (EntryCall.fence order).op? = some (.fence (.ofNat order)) := by
        rw [Order.ofNat_eq_low]
        rfl
      exact contract_of_enter (g := fun _ => .done) (k := fun _ => .nothing) hlawful hfree hs hop
        (fun _ => rfl) .fence fun _ => rfl
    | cas loc expected value success failure =>
      have hop : (EntryCall.cas loc expected value success failure).op? =
          some (.cas loc expected value (.ofNat success) (.ofNat failure)) := by
        rw [Order.ofNat_eq_low, Order.ofNat_eq_low]
        rfl
      exact contract_of_run (k := fun a => .swap (a.getD (0, false)).1 (a.getD (0, false)).2)
        hlawful hfree hs hop (fun _ => rfl) .cas (fun _ => rfl) rfl
    | cleanup count ptrs => exact contract_cleanup hlawful hfree hs count ptrs
    | resize ptr newSize =>
      exact contract_of_run (k := fun _ => .nothing) hlawful hfree hs rfl (fun _ => rfl) .resize
        (fun _ => rfl) rfl
    | debugFence =>
      exact contract_of_enter (g := fun _ => .done) (k := fun _ => .nothing) hlawful hfree hs rfl
        (fun _ => rfl) .debugFence fun _ => rfl
    | dump =>
      exact contract_of_enter (k := .printed) hlawful hfree hs rfl (fun _ => rfl) .dump
        fun _ => rfl
    | bufferSize =>
      have heffect := Effect.bufferSize hs
      unfold call bufferSize
      rw [enter_some hs]
      exact contract_of_tell (f := none) (w := (p.lock.resume (p.machine s)).unlock) hlawful hfree
        heffect rfl
    | minOrdering =>
      have heffect := Effect.minOrdering hs
      unfold call minOrdering
      rw [enter_some hs]
      exact contract_of_tell (f := none) (w := (p.lock.resume (p.machine s)).unlock) hlawful hfree
        heffect rfl

/-- Whatever a guest does, every one of its calls keeps the contract. -/
theorem calls_contract (hlawful : FaultHandler.Lawful κ) (hfree : p.locked = false)
    (steps : List ((κ → κ) × EntryCall)) :
    ∀ x ∈ p.calls steps, x.1.Contract x.2.1 x.2.2.1 x.2.2.2 := by
  induction steps generalizing p with
  | nil => exact fun x hx => absurd hx List.not_mem_nil
  | cons step rest ih =>
    obtain ⟨act, c⟩ := step
    rw [calls]
    have hcontract := contract_call (p := { p with guest := act p.guest }) hlawful hfree c
    obtain ⟨f, w, heffect, hleft, hq, hmoves⟩ := hcontract.worked
    exact List.forall_mem_cons.mpr ⟨hcontract, ih (free_of_moves hmoves hleft)⟩

end Embedding

namespace ScriptedGuest

/-- The handler of a scripted guest asks for the buffer size and writes the fault down. -/
theorem lawful : FaultHandler.Lawful ScriptedGuest := by
  intro kind message p hfree
  have hasked : Embedding.Moves p p.bufferSize.2 := by
    unfold Embedding.bufferSize
    cases hs : p.session with
    | none =>
      rw [Embedding.enter_none hs]
      have heffect := Embedding.Effect.noSession (c := .bufferSize) hs rfl
      rw [← hs] at heffect
      exact .call hfree heffect rfl
    | some s =>
      rw [Embedding.enter_some hs]
      exact .call hfree (.bufferSize hs) rfl
  exact .tail (.single hasked) (.act _ _)

/-- Faults that the guest has been told of. -/
def faults (g : ScriptedGuest) : List Call :=
  g.calls.filter fun
    | .fault .. => true
    | _ => false

end ScriptedGuest

namespace Embedding

/-- A guest that calls too early, starts a session, stores, and makes three mistakes, at each of which
its handler asks for the buffer size. Two further starts are refused; the store is still there to be
loaded. A third one brings its own capacity, and the store is lost with the old session. -/
theorem calls_contract_scripted :
    let x : Location := ⟨ScriptedGuest.base, 32⟩
    let text := "\x7b\"buffer\":\x7b\"capacity\":5\x7d\x7d".toUTF8.data.toList
    let p : Embedding ScriptedGuest := { guest := { memory := Arena.zeros 8 } }
    let steps : List ((ScriptedGuest → ScriptedGuest) × EntryCall) :=
      [.load x 3, .init true none, .store x 7 0b1000011, .load ⟨.null, 32⟩ 3, .cleanup (-1) none,
        .cleanup 1 none, .init false none, .init true (some [0xff]), .load x 3,
        .init true (some text), .bufferSize, .load x 3, .teardown, .debugFence,
        .bufferSize].map (id, ·)
    ((p.calls steps).map fun e => (e.2.2.1, e.2.2.2.guest.faults.length)) =
      [(.word 0, 0), (.number 0, 0), (.nothing, 0), (.word 0, 1), (.nothing, 2), (.nothing, 3),
        (.number (-1), 3), (.number (-2), 3), (.word 7, 3), (.number 0, 3), (.number 5, 3),
        (.word 0, 3), (.nothing, 3), (.nothing, 3), (.number (-1), 3)] ∧
      (∀ e ∈ p.calls steps, e.2.2.2.guest.memory.bytes = p.guest.memory.bytes) ∧
      ∀ e ∈ p.calls steps, e.1.Contract e.2.1 e.2.2.1 e.2.2.2 :=
  ⟨by decide +kernel, by decide +kernel, calls_contract ScriptedGuest.lawful rfl _⟩

end Embedding

end StoreBuffer
