import StoreBuffer.Machine.Operations

/-! # Machines in lockstep

Two machines, on hosts that need not be of one kind, go through an operation side by side. What the
steps inside an operation keep between them, the operation keeps as well, and both give the same
answer. The relation may change where the mask is raised and where it is put back. -/

namespace StoreBuffer.Machine

variable {σ τ : Type}

/-- The same answer, and related machines. -/
structure Both (Q : Machine σ → Machine τ → Prop) {α : Type} (r : α × Machine σ)
    (r' : α × Machine τ) : Prop where
  answer : r.1 = r'.1
  next : Q r.2 r'.2

variable [Host σ] [Host τ]

/-- Related machines take the steps of an operation together. -/
structure Lockstep (Q : Machine σ → Machine τ → Prop) : Prop where
  thread : ∀ {m m'}, Q m m' → m.thread = m'.thread
  hasForeign : ∀ {m m'} (t : ThreadId), Q m m' → m.table.hasForeign t = m'.table.hasForeign t
  note : ∀ {m m'} (e : Event), Q m m' → Q (m.note e) (m'.note e)
  noteOperation : ∀ {m m'} (e : Event), Q m m' → Q (m.noteOperation e) (m'.noteOperation e)
  /-- Any counter but the one for fences. -/
  count : ∀ {m m'} (f : Stats → Stats),
    (∀ s n, f { s with fencesBuffered := n } = { f s with fencesBuffered := n }) → Q m m' →
      Q (m.count f) (m'.count f)
  choose : ∀ {m m'} (n : Nat), Q m m' →
    (Host.choose n m.host).1 = (Host.choose n m'.host).1 ∧
      Q (m.withHost (Host.choose n m.host).2) (m'.withHost (Host.choose n m'.host).2)
  objectAt : ∀ {m m'} (a : Addr), Q m m' →
    (Host.objectAt a m.host).1 = (Host.objectAt a m'.host).1 ∧
      Q (m.withHost (Host.objectAt a m.host).2) (m'.withHost (Host.objectAt a m'.host).2)
  read : ∀ {m m'} (loc : Location), Q m m' →
    (Memory.load loc m.host).1 = (Memory.load loc m'.host).1 ∧
      Q (m.withHost (Memory.load loc m.host).2) (m'.withHost (Memory.load loc m'.host).2)
  write : ∀ {m m'} (w : Write), Q m m' →
    Q (m.withHost (Memory.store w m.host)) (m'.withHost (Memory.store w m'.host))
  flush : ∀ {m m'} (t : ThreadId), Q m m' → Q (m.flush t) (m'.flush t)
  resolve : ∀ {m m'} (t : ThreadId) (loc : Location), Q m m' →
    Q (m.resolve t loc false) (m'.resolve t loc false)
  forward : ∀ {m m'} (t : ThreadId) (loc : Location) (v : UInt64), Q m m' →
    Both Q (m.forward t loc v) (m'.forward t loc v)
  push : ∀ {m m'} (t : ThreadId) {loc : Location} (value : UInt64) {order : Order}, loc.Valid →
    order.isSeqCst = false → Q m m' →
      Both Q (m.push t (.store loc value order)) (m'.push t (.store loc value order))
  pushFence : ∀ {m m'} (t : ThreadId) (order : Order), Q m m' →
    Q (m.pushFence t (.fence order)).2 (m'.pushFence t (.fence order)).2
  discardRange : ∀ {m m'} (only : Option ThreadId) (range : Region), Q m m' →
    Both Q (m.discardRange only range) (m'.discardRange only range)

namespace Lockstep

variable {Q : Machine σ → Machine τ → Prop} {m : Machine σ} {m' : Machine τ}

theorem storeDirect (hQ : Lockstep Q) (h : Q m m') (w : Write) :
    Q (m.storeDirect w) (m'.storeDirect w) :=
  hQ.count (fun s => { s with storesDirect := s.storesDirect + 1 }) (fun _ _ => rfl) (hQ.write w h)

theorem storeAs (hQ : Lockstep Q) (h : Q m m') (loc : Location) (value : UInt64) (order : Order)
    (direct : Bool) :
    Both Q (m.storeAs loc value order direct) (m'.storeAs loc value order direct) := by
  unfold Machine.storeAs
  rw [hQ.thread h]
  cases hcheck : loc.check with
  | error f => exact ⟨rfl, h⟩
  | ok u =>
    dsimp only
    split
    · exact ⟨rfl, hQ.storeDirect h _⟩
    · cases hseq : order.isSeqCst with
      | true => exact ⟨rfl, hQ.storeDirect (hQ.flush _ h) _⟩
      | false => exact hQ.push _ value ((Location.check_eq_ok_iff loc).mp hcheck) hseq h

theorem loadAs (hQ : Lockstep Q) (h : Q m m') (loc : Location) (direct : Bool) :
    Both Q (m.loadAs loc direct) (m'.loadAs loc direct) := by
  have hcount := hQ.count (fun s => { s with loads := s.loads + 1 }) (fun _ _ => rfl) h
  unfold Machine.loadAs
  split
  · exact ⟨rfl, h⟩
  · dsimp only
    generalize m.count _ = m₁ at hcount ⊢
    generalize m'.count _ = m₁' at hcount ⊢
    split
    · obtain ⟨hvalue, hnext⟩ := hQ.read loc hcount
      exact ⟨congrArg Except.ok hvalue, hnext⟩
    · rw [hQ.thread hcount, hQ.hasForeign _ hcount]
      have hresolved : Q
          (if m₁'.table.hasForeign m₁'.thread then m₁.resolve m₁'.thread loc false else m₁)
          (if m₁'.table.hasForeign m₁'.thread then m₁'.resolve m₁'.thread loc false else m₁') := by
        split
        · exact hQ.resolve _ loc hcount
        · exact hcount
      generalize (if m₁'.table.hasForeign m₁'.thread then
        m₁.resolve m₁'.thread loc false else m₁) = m₂ at hresolved ⊢
      generalize (if m₁'.table.hasForeign m₁'.thread then
        m₁'.resolve m₁'.thread loc false else m₁') = m₂' at hresolved ⊢
      obtain ⟨hvalue, hnext⟩ := hQ.read loc hresolved
      rw [hvalue]
      obtain ⟨hanswer, hforwarded⟩ := hQ.forward m₁'.thread loc (Memory.load loc m₂'.host).1 hnext
      exact ⟨congrArg Except.ok hanswer, hforwarded⟩

theorem swapAs (hQ : Lockstep Q) (h : Q m m') (loc : Location) (expected value observed : UInt64)
    (order : Order) (direct : Bool) :
    Both Q (m.swapAs loc expected value observed order direct)
      (m'.swapAs loc expected value observed order direct) := by
  have hchoice : (if (!direct && order.isWeakCas) = true then Host.choose 2 m.host
          else (0, m.host)).1 =
        (if (!direct && order.isWeakCas) = true then Host.choose 2 m'.host else (0, m'.host)).1 ∧
      Q (m.withHost (if (!direct && order.isWeakCas) = true then Host.choose 2 m.host
          else (0, m.host)).2)
        (m'.withHost (if (!direct && order.isWeakCas) = true then Host.choose 2 m'.host
          else (0, m'.host)).2) := by
    split
    · exact hQ.choose 2 h
    · exact ⟨rfl, h⟩
  unfold Machine.swapAs
  dsimp only
  rw [hQ.thread h]
  generalize (if (!direct && order.isWeakCas) = true then Host.choose 2 m.host
    else (0, m.host)) = choice at hchoice ⊢
  generalize (if (!direct && order.isWeakCas) = true then Host.choose 2 m'.host
    else (0, m'.host)) = choice' at hchoice ⊢
  obtain ⟨hanswer, hchosen⟩ := hchoice
  rw [hanswer]
  split
  · exact ⟨rfl, hQ.noteOperation _ (hQ.count
      (fun s => { s with casSpuriousFailures := s.casSpuriousFailures + 1 }) (fun _ _ => rfl) hchosen)⟩
  · obtain ⟨hanswer, hnext⟩ := hQ.storeAs hchosen loc value (order ||| .atomicOp) direct
    generalize (m.withHost choice.2).storeAs loc value (order ||| .atomicOp) direct = r
      at hanswer hnext ⊢
    generalize (m'.withHost choice'.2).storeAs loc value (order ||| .atomicOp) direct = r'
      at hanswer hnext ⊢
    obtain ⟨o, m₁⟩ := r
    obtain ⟨o', m₁'⟩ := r'
    obtain rfl : o = o' := hanswer
    cases o with
    | error f => exact ⟨rfl, hnext⟩
    | ok u => exact ⟨rfl, hQ.noteOperation _ hnext⟩

theorem dropObjects (hQ : Lockstep Q) (h : Q m m') (t : ThreadId) (ptrs : List Addr) :
    Both Q (m.dropObjects t ptrs) (m'.dropObjects t ptrs) := by
  induction ptrs generalizing m m' with
  | nil => exact ⟨rfl, h⟩
  | cons ptr rest ih =>
    obtain ⟨hanswer, hfound⟩ := hQ.objectAt ptr h
    unfold Machine.dropObjects
    dsimp only
    rw [hanswer]
    split
    · exact ⟨rfl, hfound⟩
    · obtain ⟨hcount, hnext⟩ := hQ.discardRange (some t) _ hfound
      rw [hcount]
      exact ih (hQ.note _ hnext)

end Lockstep

/-- `Q` holds while the mask is raised, `Q₀` before and `Q₁` after. -/
structure Masking (Q₀ Q Q₁ : Machine σ → Machine τ → Prop) : Prop extends Lockstep Q where
  started : ∀ {m m'}, Q₀ m m' → m.thread = m'.thread ∧ m.minOrder = m'.minOrder
  noted : ∀ {m m'} (e : Event), Q₀ m m' → Q₀ (m.noteOperation e) (m'.noteOperation e)
  dumped : ∀ {m m'}, Q₀ m m' → Q₀ (m.note (.dumped m.report)) (m'.note (.dumped m'.report))
  hold : ∀ {m m'}, Q₀ m m' → Host.flags m.host = Host.flags m'.host ∧
    Q (m.withHost (Host.hold m.host).2) (m'.withHost (Host.hold m'.host).2)
  release : ∀ {m m' n n'}, Q₀ m m' → Q n n' →
    Q₁ (n.withHost (Host.release (Host.flags m.host) n.host))
      (n'.withHost (Host.release (Host.flags m'.host) n'.host))
  /-- Nothing is done and the mask not touched. -/
  idle : ∀ {m m'}, Q₀ m m' → Q₁ m m'

namespace Masking

variable {Q₀ Q Q₁ : Machine σ → Machine τ → Prop} {m : Machine σ} {m' : Machine τ}

theorem masked (hQ : Masking Q₀ Q Q₁) (h : Q₀ m m') {α : Type}
    {body : Bool → Machine σ → α × Machine σ} {body' : Bool → Machine τ → α × Machine τ}
    (hbody : ∀ direct {m m'}, Q m m' → Both Q (body direct m) (body' direct m')) :
    Both Q₁ (m.masked body) (m'.masked body') := by
  obtain ⟨hflags, hheld⟩ := hQ.hold h
  obtain ⟨hanswer, hnext⟩ := hbody (Host.flags m'.host).bypassed hheld
  have hreleased := hQ.release h hnext
  rw [hflags] at hreleased
  unfold Machine.masked Host.hold
  dsimp only
  rw [hflags]
  unfold Host.hold at hanswer hreleased
  rw [hflags] at hanswer hreleased
  exact ⟨hanswer, hreleased⟩

theorem store (hQ : Masking Q₀ Q Q₁) (h : Q₀ m m') (loc : Location) (value : UInt64)
    (order : Order) : Both Q₁ (m.store loc value order) (m'.store loc value order) := by
  obtain ⟨hthread, hleast⟩ := hQ.started h
  unfold Machine.store
  rw [hthread, hleast]
  exact hQ.masked (hQ.noted _ h) fun direct _ _ h => hQ.storeAs h loc value _ direct

theorem load (hQ : Masking Q₀ Q Q₁) (h : Q₀ m m') (loc : Location) (order : Order) :
    Both Q₁ (m.load loc order) (m'.load loc order) := by
  unfold Machine.load
  rw [(hQ.started h).2]
  refine hQ.masked h fun direct m m' h => ?_
  obtain ⟨hanswer, hnext⟩ := hQ.loadAs h loc direct
  generalize m.loadAs loc direct = r at hanswer hnext ⊢
  generalize m'.loadAs loc direct = r' at hanswer hnext ⊢
  obtain ⟨o, m₁⟩ := r
  obtain ⟨o', m₁'⟩ := r'
  obtain rfl : o = o' := hanswer
  cases o with
  | error f => exact ⟨rfl, hnext⟩
  | ok v =>
    dsimp only
    rw [hQ.thread hnext]
    exact ⟨rfl, hQ.noteOperation _ hnext⟩

theorem cas (hQ : Masking Q₀ Q Q₁) (h : Q₀ m m') (loc : Location) (expected value : UInt64)
    (success failure : Order) :
    Both Q₁ (m.cas loc expected value success failure)
      (m'.cas loc expected value success failure) := by
  unfold Machine.cas
  rw [(hQ.started h).2]
  refine hQ.masked h fun direct m m' h => ?_
  obtain ⟨hanswer, hnext⟩ := hQ.loadAs h loc direct
  generalize m.loadAs loc direct = r at hanswer hnext ⊢
  generalize m'.loadAs loc direct = r' at hanswer hnext ⊢
  obtain ⟨o, m₁⟩ := r
  obtain ⟨o', m₁'⟩ := r'
  obtain rfl : o = o' := hanswer
  cases o with
  | error f => exact ⟨rfl, hnext⟩
  | ok observed =>
    have hcount := hQ.count (fun s => { s with casValueFailures := s.casValueFailures + 1 })
      (fun _ _ => rfl) hnext
    dsimp only
    split
    · exact hQ.swapAs hnext ..
    · rw [hQ.thread hcount]
      exact ⟨rfl, hQ.noteOperation _ hcount⟩

theorem fence (hQ : Masking Q₀ Q Q₁) (h : Q₀ m m') (order : Order) :
    Q₁ (m.fence order) (m'.fence order) := by
  unfold Machine.fence
  rw [(hQ.started h).2]
  refine (hQ.masked h fun direct m m' h => ?_).next
  split
  · exact ⟨rfl, h⟩
  · dsimp only
    rw [hQ.thread h]
    split
    · exact ⟨rfl, hQ.flush _ (hQ.noteOperation _ h)⟩
    · split
      · exact ⟨rfl, hQ.pushFence _ _ (hQ.noteOperation _ h)⟩
      · exact ⟨rfl, hQ.noteOperation _ h⟩

theorem cleanup (hQ : Masking Q₀ Q Q₁) (h : Q₀ m m') (ptrs : List Addr) :
    Both Q₁ (m.cleanup ptrs) (m'.cleanup ptrs) := by
  refine hQ.masked h fun _ m m' h => ?_
  rw [hQ.thread h]
  exact hQ.dropObjects h _ _

theorem resize (hQ : Masking Q₀ Q Q₁) (h : Q₀ m m') (ptr : Addr) (newSize : UInt64) :
    Both Q₁ (m.resize ptr newSize) (m'.resize ptr newSize) := by
  unfold Machine.resize
  split
  · exact ⟨rfl, hQ.idle h⟩
  · refine hQ.masked h fun _ m m' h => ?_
    obtain ⟨hanswer, hfound⟩ := hQ.objectAt ptr h
    dsimp only
    rw [hanswer]
    split
    · exact ⟨rfl, hfound⟩
    · split
      · exact ⟨rfl, hfound⟩
      · obtain ⟨hcount, hnext⟩ := hQ.discardRange none _ hfound
        rw [hcount]
        exact ⟨rfl, hQ.note _ hnext⟩

theorem debugFence (hQ : Masking Q₀ Q Q₁) (h : Q₀ m m') : Q₁ m.debugFence m'.debugFence := by
  refine (hQ.masked h fun _ m m' h => ?_).next
  rw [hQ.thread h]
  exact ⟨rfl, hQ.flush _ h⟩

/-- Operations keep machines in lockstep. The answers are the same, reports of the buffers apart. -/
theorem perform (hQ : Masking Q₀ Q Q₁) (h : Q₀ m m') (op : Op) :
    (op ≠ .dump → (m.perform op).1 = (m'.perform op).1) ∧
      Q₁ (m.perform op).2 (m'.perform op).2 := by
  have hsame {α : Type} {r : Except Fault α × Machine σ} {r' : Except Fault α × Machine τ}
      (hr : Both Q₁ r r') (f : Except Fault α → Outcome) :
      (op ≠ .dump → f r.1 = f r'.1) ∧ Q₁ r.2 r'.2 := ⟨fun _ => congrArg f hr.answer, hr.next⟩
  cases op with
  | store loc value order => exact hsame (hQ.store h loc value order) (·.map fun _ => .done)
  | load loc order => exact hsame (hQ.load h loc order) (·.map .value)
  | fence order => exact ⟨fun _ => rfl, hQ.fence h order⟩
  | cas loc expected value success failure =>
    exact hsame (hQ.cas h loc expected value success failure) (·.map fun a => .swap a.1 a.2)
  | cleanup ptrs => exact hsame (hQ.cleanup h ptrs) (·.map fun _ => .done)
  | resize ptr newSize => exact hsame (hQ.resize h ptr newSize) (·.map fun _ => .done)
  | debugFence => exact ⟨fun _ => rfl, hQ.debugFence h⟩
  | dump => exact ⟨fun hop => absurd rfl hop, hQ.debugFence (hQ.dumped h)⟩

end Masking

end StoreBuffer.Machine
