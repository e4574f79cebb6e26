import StoreBuffer.Proofs.Machine.Faults
import StoreBuffer.Proofs.Machine.Numbers
import StoreBuffer.Proofs.Machine.ReadBack

/-! # When an operation faults, and what it leaves then

An access faults over its address or its width, and a buffered atomic store also if it can get no
number; a pointer faults if it points into no object (`Machine.Faults`). A fault undoes nothing and
leaves nothing half done: stores, loads and notices of shrinking objects have not begun, a swap has
come as far as its store, and a cleanup as far as the first pointer at fault (`Machine.left`). Only
the log may tell that something was tried. -/

namespace StoreBuffer

namespace Location

instance (l : Location) : Decidable l.Valid := decidable_of_iff _ (check_eq_ok_iff l)

theorem exists_check_error_iff (l : Location) : (∃ f, l.check = .error f) ↔ ¬ l.Valid := by
  rw [← check_eq_ok_iff]
  cases l.check <;> simp

end Location

namespace Scripted

/-- A pointer that a cleanup accepts: to nothing at all or into an object. -/
def knows (h : Scripted) (p : Addr) : Bool := p.isNull || (h.objects.containing? p).isSome

/-- Raising the mask and putting it back. -/
theorem release_hold (h : Scripted) : Host.release h.flags (Host.hold h).2 = h := by
  show ({ h with flags := (h.flags ||| .mask).unmask h.flags } : Scripted) = h
  rw [ControlFlags.unmask_or_mask]

end Scripted

namespace Machine

section

variable {σ : Type}

/-- The machine apart from what it has logged. -/
def unlogged (m : Machine σ) : Machine σ := { m with log := [] }

theorem unlogged_ext {m m' : Machine σ} (hconfig : m.config = m'.config)
    (htable : m.table = m'.table) (hstats : m.stats = m'.stats) (hhost : m.host = m'.host) :
    m.unlogged = m'.unlogged := by
  obtain ⟨⟨_, _, _⟩, _, _⟩ := m
  obtain ⟨⟨_, _, _⟩, _, _⟩ := m'
  cases hconfig
  cases htable
  cases hstats
  cases hhost
  rfl

theorem unlogged_noteOperation (m : Machine σ) (e : Event) :
    (m.noteOperation e).unlogged = m.unlogged := by
  obtain ⟨log, hlog⟩ := noteOperation_eq (m := m) e
  rw [hlog]
  rfl

section

variable {m m' : Machine σ} (h : m.unlogged = m'.unlogged)

include h

theorem unlogged_withHost (host : σ) :
    (m.withHost host).unlogged = (m'.withHost host).unlogged :=
  congrArg (fun n : Machine σ => n.withHost host) h

theorem host_of_unlogged : m.host = m'.host := by
  show m.unlogged.host = m'.unlogged.host
  rw [h]

theorem table_of_unlogged : m.table = m'.table := by
  show m.unlogged.table = m'.unlogged.table
  rw [h]

end

end

variable {m : Machine Scripted}

/-! ## Stores -/

/-- No store of the effective order to the location is accepted: it may not be accessed, or an
atomic line for the buffer gets no number. -/
def Refuses (m : Machine Scripted) (loc : Location) (order : Order) : Prop :=
  loc.addr = .null ∨ ¬ Width.Valid loc.width ∨
    m.host.flags.bypassed = false ∧ order.isSeqCst = false ∧ order.isAtomicOp = true ∧
      (m.table.Obstructed loc ∨ m.table.atomicsAt loc = 32767)

theorem refuses_iff (m : Machine Scripted) (loc : Location) (order : Order) :
    m.Refuses loc order ↔ ¬ loc.Valid ∨
      m.host.flags.bypassed = false ∧ order.isSeqCst = false ∧ order.isAtomicOp = true ∧
        (m.table.Obstructed loc ∨ m.table.atomicsAt loc = 32767) := by
  rw [Refuses, Location.Valid, not_and_or, not_not, or_assoc]

/-- The number at its location is all that a store may lack. -/
theorem numbered_store_error_iff {loc : Location} (hv : Width.Valid loc.width) (value : UInt64)
    {order : Order} (hseq : order.isSeqCst = false) {f : Fault} :
    m.numbered (.store loc value order) = .error f ↔
      order.isAtomicOp = true ∧ m.table.nextAtomicNo loc = .error f := by
  have hloc : (Line.store loc value order).loc? = some loc := by
    rw [Line.store, Write.ofStore_eq_holding hv]
    rfl
  have horder : (Line.store loc value order).order = order := rfl
  unfold numbered
  rw [hloc, horder, hseq]
  cases order.isAtomicOp with
  | false => simp [bind, Except.bind, pure, Except.pure]
  | true =>
    cases hn : m.table.nextAtomicNo loc with
    | error f => simp [bind, Except.bind, hn]
    | ok n => simp [bind, Except.bind, pure, Except.pure, hn]

theorem storeAs_error_iff (h : m.table.Ranked) (loc : Location) (value : UInt64) (order : Order)
    (direct : Bool) : (∃ f, (m.storeAs loc value order direct).1 = .error f) ↔
      ¬ loc.Valid ∨ direct = false ∧ order.isSeqCst = false ∧ order.isAtomicOp = true ∧
        (m.table.Obstructed loc ∨ m.table.atomicsAt loc = 32767) := by
  by_cases hv : loc.Valid
  · unfold storeAs
    rw [(Location.check_eq_ok_iff loc).mpr hv]
    cases direct with
    | true => simp [hv]
    | false =>
      cases hseq : order.isSeqCst with
      | true => simp [hv]
      | false =>
        have hnumber := exists_congr fun f =>
          numbered_store_error_iff (m := m) hv.2 value hseq (f := f)
        rw [exists_and_left, h.nextAtomicNo_error_iff] at hnumber
        simp only [Bool.false_eq_true, if_false, hv, not_true, false_or, true_and, ← hnumber]
        unfold push
        cases m.numbered (.store loc value order) with
        | error f => simp
        | ok l => simp
  · obtain ⟨f, hf⟩ := (Location.exists_check_error_iff loc).mpr hv
    unfold storeAs
    rw [hf]
    exact ⟨fun _ => .inl hv, fun _ => ⟨f, rfl⟩⟩

theorem loadAs_error_iff (m : Machine Scripted) (loc : Location) (direct : Bool) :
    (∃ f, (m.loadAs loc direct).1 = .error f) ↔ ¬ loc.Valid := by
  rw [← Location.exists_check_error_iff]
  unfold loadAs
  cases loc.check with
  | error f => simp
  | ok u => cases direct <;> simp

/-! ## Under the mask -/

theorem masked_snd {α : Type} (body : Bool → Machine Scripted → α × Machine Scripted) :
    (m.masked body).2 = (body m.host.flags.bypassed m.held).2.withHost
      (Host.release m.host.flags (body m.host.flags.bypassed m.held).2.host) := rfl

/-- What leaves the machine alone while the mask is raised leaves it alone. -/
theorem masked_idle {α : Type} {body : Bool → Machine Scripted → α × Machine Scripted}
    (h : (body m.host.flags.bypassed m.held).2 = m.held) : (m.masked body).2 = m := by
  rw [masked_snd, h]
  show m.withHost (Host.release m.host.flags (Host.hold m.host).2) = m
  rw [Scripted.release_hold]
  rfl

theorem store_error_iff (h : m.table.Ranked) (loc : Location) (value : UInt64) (order : Order) :
    (∃ f, (m.store loc value order).1 = .error f) ↔ m.Refuses loc (order ||| m.minOrder) := by
  let noted := m.noteOperation (.storeIssued m.thread loc value (order ||| m.minOrder))
  have htable : noted.held.table = m.table := table_noteOperation _
  have hhost : noted.host = m.host := host_noteOperation _
  have hinner := storeAs_error_iff (m := noted.held) (by rwa [htable]) loc value
    (order ||| m.minOrder) m.host.flags.bypassed
  rw [htable] at hinner
  rw [refuses_iff, ← hinner, ← hhost]
  rfl

theorem unlogged_store_error {loc : Location} {value : UInt64} {order : Order} {f : Fault}
    (herr : (m.store loc value order).1 = .error f) :
    (m.store loc value order).2.unlogged = m.unlogged := by
  have hidle : (m.store loc value order).2 =
      m.noteOperation (.storeIssued m.thread loc value (order ||| m.minOrder)) :=
    masked_idle (storeAs_error herr)
  rw [hidle, unlogged_noteOperation]

theorem load_error_iff (m : Machine Scripted) (loc : Location) (order : Order) :
    (∃ f, (m.load loc order).1 = .error f) ↔ ¬ loc.Valid := by
  rw [← loadAs_error_iff m.held loc m.host.flags.bypassed, load, masked_fst]
  cases m.held.loadAs loc m.host.flags.bypassed with
  | mk o m' => cases o <;> simp

theorem load_error {loc : Location} {order : Order} {f : Fault}
    (herr : (m.load loc order).1 = .error f) : (m.load loc order).2 = m := by
  apply masked_idle
  rw [load, masked_fst] at herr
  cases hload : m.held.loadAs loc m.host.flags.bypassed with
  | mk o m' =>
    rw [hload] at herr
    cases o with
    | error g =>
      have hsame := loadAs_error (congrArg Prod.fst hload)
      rwa [hload] at hsame
    | ok v => contradiction

/-! ## Swaps -/

/-- The machine of a swap that has come to its store: the load is done, and a weak swap has asked
whether to fail. -/
def halfway (loc : Location) (success failure : Order) (m : Machine Scripted) : Machine Scripted :=
  let loaded := m.load loc failure
  loaded.2.withHost (secondThought (success ||| m.minOrder) True loaded.2.host).2

section Swaps

variable {loc : Location} {expected value observed : UInt64} {success failure : Order}

theorem swapAs_error {order : Order} {direct : Bool} {f : Fault}
    (herr : (m.swapAs loc expected value observed order direct).1 = .error f) :
    (m.swapAs loc expected value observed order direct).2 = m.withHost
      (if (!direct && order.isWeakCas) = true then Host.choose 2 m.host else (0, m.host)).2 := by
  unfold swapAs at herr ⊢
  dsimp only at herr ⊢
  generalize (if (!direct && order.isWeakCas) = true then Host.choose 2 m.host
    else (0, m.host)) = choice at herr ⊢
  split at herr
  · contradiction
  · rename_i hgo
    rw [if_neg hgo]
    cases hs : (m.withHost choice.2).storeAs loc value (order ||| .atomicOp) direct with
    | mk r m' =>
      rw [hs] at herr
      cases r with
      | error g =>
        have hsame := storeAs_error (congrArg Prod.fst hs)
        rwa [hs] at hsame
      | ok u => contradiction

/-- A swap whose accesses go straight to memory does not fail. -/
theorem cas_bypassed_ne_error (hv : loc.Valid) (hdirect : m.host.flags.bypassed = true)
    (f : Fault) : (m.cas loc expected value success failure).1 ≠ .error f := by
  intro herr
  rw [cas, masked_fst, hdirect, loadAs_bypassed hv] at herr
  dsimp only at herr
  split at herr
  · rw [swapAs_bypassed hv] at herr
    contradiction
  · contradiction

/-- The load in a swap is that of a load operation. -/
theorem exists_load (h : m.table.owners.Nodup) (hv : loc.Valid)
    (hplain : m.host.flags.bypassed = false) (order : Order) :
    ∃ observed inner, m.held.loadAs loc false = (.ok observed, inner) ∧
      (m.load loc order).1 = .ok observed ∧
      (m.load loc order).2.unlogged =
        (inner.withHost (Host.release m.host.flags inner.host)).unlogged ∧
      (inner.table.linesOf m.thread).map Line.unnumbered =
        (m.table.linesOf m.thread).map Line.unnumbered := by
  obtain ⟨observed, inner, hload, -, -, hown⟩ := exists_loadAs (m := m.held) h hv
  refine ⟨observed, inner, hload, ?_, ?_, hown⟩
  · rw [load, masked_fst, hplain, hload]
  · rw [load, masked_snd, hplain, hload]
    dsimp only
    rw [host_noteOperation]
    exact unlogged_withHost (unlogged_noteOperation ..) _

/-- A swap that fails over its store leaves what the load and the second thought leave. -/
theorem unlogged_cas_error (h : m.table.owners.Nodup) (hv : loc.Valid) {f : Fault}
    (herr : (m.cas loc expected value success failure).1 = .error f) :
    (m.cas loc expected value success failure).2.unlogged =
        (m.halfway loc success failure).unlogged ∧
      ((m.cas loc expected value success failure).2.table.linesOf m.thread).map Line.unnumbered =
        (m.table.linesOf m.thread).map Line.unnumbered := by
  have hplain : m.host.flags.bypassed = false :=
    Bool.eq_false_iff.mpr fun hdirect => cas_bypassed_ne_error hv hdirect f herr
  obtain ⟨observed, inner, hload, -, hloaded, hown⟩ := exists_load h hv hplain failure
  have hhost : (m.load loc failure).2.host = Host.release m.host.flags inner.host :=
    host_of_unlogged hloaded
  rw [cas, masked_fst, hplain, hload] at herr
  rw [cas, masked_snd, hplain, hload]
  dsimp only at herr ⊢
  split at herr
  · rename_i hagree
    rw [if_pos hagree, swapAs_error herr]
    refine ⟨?_, hown⟩
    unfold halfway
    dsimp only
    rw [hhost, secondThought_release]
    have hchoice : (if (!false && (success ||| m.minOrder).isWeakCas) = true then
        Host.choose 2 inner.host else (0, inner.host)) =
        secondThought (success ||| m.minOrder) True inner.host := by
      simp [secondThought]
    rw [hchoice]
    exact (unlogged_withHost hloaded _).symm
  · contradiction

/-- A swap gets to its store if the load finds what is expected and the host does not let it fail;
then all depends on the store. -/
theorem cas_error_iff {c : Config} (h : Reachable c m) (hv : loc.Valid) :
    (∃ f, (m.cas loc expected value success failure).1 = .error f) ↔
      (m.load loc failure).1 = .ok (Width.truncate loc.width expected) ∧
        (secondThought (success ||| m.minOrder) True (m.load loc failure).2.host).1 ≠ 1 ∧
        (m.halfway loc success failure).Refuses loc (success ||| m.minOrder ||| .atomicOp) := by
  have hflags : (m.halfway loc success failure).host.flags = m.host.flags :=
    (steady_secondThought (success ||| m.minOrder) True (m.load loc failure).2.host).1.trans
      (flags_perform m (.load loc failure))
  rw [refuses_iff, hflags]
  cases hplain : m.host.flags.bypassed with
  | true =>
    constructor
    · rintro ⟨f, hf⟩
      exact absurd hf (cas_bypassed_ne_error hv hplain f)
    · rintro ⟨-, -, hinvalid | ⟨hdirect, -⟩⟩
      · exact absurd hv hinvalid
      · contradiction
  | false =>
    obtain ⟨observed, inner, hload, hvalue, hloaded, -⟩ :=
      exists_load h.shaped.owners hv hplain failure
    have hhost : (m.load loc failure).2.host = Host.release m.host.flags inner.host :=
      host_of_unlogged hloaded
    have htable : (m.load loc failure).2.table = inner.table :=
      (table_of_unlogged hloaded).trans rfl
    have hranked : inner.table.Ranked := htable ▸ (h.perform (.load loc failure)).ranked
    have hcas := cas_of_loadAs hplain hload expected value success failure
    dsimp only at hcas
    have hasked : (secondThought (success ||| m.minOrder) True (m.load loc failure).2.host).1 =
        (secondThought (success ||| m.minOrder) True inner.host).1 := by
      rw [hhost, secondThought_release]
    have htable' : (m.halfway loc success failure).table = inner.table := htable
    rw [hvalue, hasked, htable']
    by_cases hagree : observed = Width.truncate loc.width expected
    · have hthought : secondThought (success ||| m.minOrder)
          (observed = Width.truncate loc.width expected) inner.host =
          secondThought (success ||| m.minOrder) True inner.host := by
        simp [secondThought, hagree]
      rw [hthought] at hcas
      by_cases hfail : (secondThought (success ||| m.minOrder) True inner.host).1 = 1
      · obtain ⟨hanswer, -⟩ := hcas.1 fun hgo => hgo.2 hfail
        rw [hanswer]
        simp [hfail]
      · obtain ⟨hanswer, -⟩ := hcas.2 ⟨hagree, hfail⟩
        have hstore := storeAs_error_iff (m := inner.withHost
          (secondThought (success ||| m.minOrder) True inner.host).2) hranked loc value
          (success ||| m.minOrder ||| .atomicOp) false
        have hmap (o : Except Fault Unit) : (∃ f, o.map (fun _ =>
            (Width.truncate loc.width value, true)) = .error f) ↔ ∃ f, o = .error f := by
          cases o <;> simp [Except.map]
        rw [hanswer, hmap, hstore, hagree]
        simp [hfail, withHost]
    · obtain ⟨hanswer, -⟩ := hcas.1 fun hgo => hagree hgo.1
      rw [hanswer]
      simp [hagree]

end Swaps

/-! ## Notices of released memory -/

/-- The objects are dropped up to the first pointer into none, and that is where the fault is. -/
theorem dropObjects_eq_known (t : ThreadId) (ptrs : List Addr) :
    let known := ptrs.takeWhile fun p => (m.host.objects.containing? p).isSome
    (m.dropObjects t known).1 = .ok () ∧
      (m.dropObjects t ptrs).2 = (m.dropObjects t known).2 ∧
      ((∃ f, (m.dropObjects t ptrs).1 = .error f) ↔
        ∃ p ∈ ptrs, m.host.objects.containing? p = none) := by
  induction ptrs generalizing m with
  | nil => exact ⟨rfl, rfl, by simp [dropObjects]⟩
  | cons p rest ih =>
    cases hobject : m.host.objects.containing? p with
    | none =>
      have hdrop : m.dropObjects t (p :: rest) = (.error (.unknownObject p), m) := by
        have hfound : (Host.objectAt p m.host).1 = none := hobject
        unfold dropObjects
        dsimp only
        rw [hfound]
        rfl
      rw [List.takeWhile_cons_of_neg (by simp [hobject]), hdrop]
      exact ⟨rfl, rfl, by simp [hobject]⟩
    | some object =>
      let m₁ := (m.discardRange (some t) object).2.note
        (.cleanedUp t object (m.discardRange (some t) object).1)
      have hhost : m₁.host = m.host := host_discardRange (some t) object
      have hdrop (ps : List Addr) : m.dropObjects t (p :: ps) = m₁.dropObjects t ps := by
        have hfound : (Host.objectAt p m.host).1 = some object := hobject
        rw [dropObjects]
        dsimp only
        rw [hfound]
        rfl
      have hrest := ih (m := m₁)
      rw [hhost] at hrest
      obtain ⟨hok, hsame, hiff⟩ := hrest
      rw [List.takeWhile_cons_of_pos (by simp [hobject])]
      dsimp only
      rw [hdrop, hdrop]
      exact ⟨hok, hsame, hiff.trans (by simp [hobject])⟩

/-- Null pointers do not count. -/
theorem filter_takeWhile_knows (h : Scripted) (ptrs : List Addr) :
    (ptrs.takeWhile h.knows).filter (!·.isNull) =
      (ptrs.filter (!·.isNull)).takeWhile fun p => (h.objects.containing? p).isSome := by
  induction ptrs with
  | nil => rfl
  | cons p rest ih =>
    by_cases hnull : p.isNull = true
    · simp [Scripted.knows, hnull, ih]
    · by_cases hobject : (h.objects.containing? p).isSome = true <;>
        simp [Scripted.knows, hnull, hobject, ih]

theorem cleanup_eq_known (m : Machine Scripted) (ptrs : List Addr) :
    (m.cleanup (ptrs.takeWhile m.host.knows)).1 = .ok () ∧
      (m.cleanup ptrs).2 = (m.cleanup (ptrs.takeWhile m.host.knows)).2 ∧
      ((∃ f, (m.cleanup ptrs).1 = .error f) ↔ ∃ p ∈ ptrs, m.host.knows p = false) := by
  obtain ⟨hok, hsame, hiff⟩ :=
    dropObjects_eq_known (m := m.held) m.held.thread (ptrs.filter (!·.isNull))
  have hobjects : m.held.host.objects = m.host.objects := rfl
  rw [hobjects, ← filter_takeWhile_knows] at hok hsame
  refine ⟨hok, ?_, ?_⟩
  · rw [cleanup, cleanup, masked_snd, masked_snd, hsame]
  · rw [cleanup, masked_fst, hiff, hobjects]
    simp [Scripted.knows, and_assoc]

theorem resize_error_iff (m : Machine Scripted) (ptr : Addr) (size : UInt64) :
    (∃ f, (m.resize ptr size).1 = .error f) ↔ m.host.knows ptr = false := by
  unfold resize Scripted.knows
  cases ptr.isNull with
  | true => simp
  | false =>
    rw [if_neg Bool.false_ne_true, masked_fst, Bool.false_or]
    have hfound : (Host.objectAt ptr m.held.host).1 = m.host.objects.containing? ptr := rfl
    dsimp only
    rw [hfound]
    cases m.host.objects.containing? ptr with
    | none => simp
    | some object =>
      dsimp only
      split <;> simp

theorem resize_error {ptr : Addr} {size : UInt64} {f : Fault}
    (herr : (m.resize ptr size).1 = .error f) : (m.resize ptr size).2 = m := by
  unfold resize at herr ⊢
  split at herr
  · contradiction
  · rename_i hnull
    rw [if_neg hnull]
    apply masked_idle
    rw [masked_fst] at herr
    dsimp only at herr ⊢
    cases hobject : (Host.objectAt ptr m.held.host).1 with
    | none => rfl
    | some object =>
      rw [hobject] at herr
      dsimp only at herr
      split at herr <;> contradiction

/-! ## Operations -/

/-- When an operation faults. -/
def Faults (m : Machine Scripted) : Op → Prop
  | .store loc _ order => m.Refuses loc (order ||| m.minOrder)
  | .load loc _ => ¬ loc.Valid
  | .cas loc expected _ success failure =>
    ¬ loc.Valid ∨
      (m.load loc failure).1 = .ok (Width.truncate loc.width expected) ∧
        (secondThought (success ||| m.minOrder) True (m.load loc failure).2.host).1 ≠ 1 ∧
        (m.halfway loc success failure).Refuses loc (success ||| m.minOrder ||| .atomicOp)
  | .cleanup ptrs => ∃ p ∈ ptrs, m.host.knows p = false
  | .resize ptr _ => m.host.knows ptr = false
  | .fence _ | .debugFence | .dump => False

/-- What an operation leaves if it faults. -/
def left (m : Machine Scripted) : Op → Machine Scripted
  | .cas loc _ _ success failure => if loc.Valid then m.halfway loc success failure else m
  | .cleanup ptrs => (m.cleanup (ptrs.takeWhile m.host.knows)).2
  | .store .. | .load .. | .resize .. | .fence _ | .debugFence | .dump => m

theorem cas_of_not_valid {loc : Location} (hv : ¬ loc.Valid) (expected value : UInt64)
    (success failure : Order) : (∃ f, (m.cas loc expected value success failure).1 = .error f) ∧
      (m.cas loc expected value success failure).2 = m := by
  obtain ⟨f, hf⟩ := (Location.exists_check_error_iff loc).mpr hv
  refine ⟨⟨f, ?_⟩, masked_idle ?_⟩
  · rw [cas, masked_fst, loadAs_unchecked hf]
  · rw [loadAs_unchecked hf]

theorem exists_map_error {α β : Type} {o : Except Fault α} {g : α → β} :
    (∃ f, o.map g = .error f) ↔ ∃ f, o = .error f := by
  cases o <;> simp [Except.map]

/-- An operation faults exactly if it should. -/
theorem perform_error_iff {c : Config} (h : Reachable c m) (op : Op) :
    (∃ f, (m.perform op).1 = .error f) ↔ m.Faults op := by
  cases op with
  | store loc value order => exact exists_map_error.trans (store_error_iff h.ranked loc value order)
  | load loc order => exact exists_map_error.trans (load_error_iff m loc order)
  | cas loc expected value success failure =>
    refine exists_map_error.trans ?_
    by_cases hv : loc.Valid
    · exact (cas_error_iff h hv).trans (by simp [Faults, hv])
    · exact iff_of_true (cas_of_not_valid hv ..).1 (.inl hv)
  | cleanup ptrs => exact exists_map_error.trans (cleanup_eq_known m ptrs).2.2
  | resize ptr size => exact exists_map_error.trans (resize_error_iff m ptr size)
  | fence | debugFence | dump => exact ⟨fun ⟨_, hf⟩ => (nomatch hf), False.elim⟩

/-- In every state that can be reached an operation faults if and only if it should: a store that is
not bypassed over a null address, a width out of range, or for want of a number, when its effective
order is that of an atomic operation and not sequentially consistent; any other store and a load
over the first two; a swap over what its load or its store would fault over; a cleanup or a resize
over a pointer into no object. What is left then is the machine itself, or for a swap what the load
and the choice of a weak one leave, its own lines untouched, or for a cleanup what the pointers up
to there leave, which are accepted. -/
theorem faults_exactly {c : Config} (h : Reachable c m) (op : Op) :
    ((∃ f, (m.perform op).1 = .error f) ↔ m.Faults op) ∧
      (∀ f, (m.perform op).1 = .error f → (m.perform op).2.unlogged = (m.left op).unlogged) ∧
      (∀ loc expected value success failure, op = .cas loc expected value success failure →
        ∀ f, (m.perform op).1 = .error f →
          ((m.perform op).2.table.linesOf m.thread).map Line.unnumbered =
            (m.table.linesOf m.thread).map Line.unnumbered) ∧
      ∀ ptrs, op = .cleanup ptrs →
        (m.perform (.cleanup (ptrs.takeWhile m.host.knows))).1 = .ok .done := by
  refine ⟨perform_error_iff h op, fun f herr => ?_, ?_, ?_⟩
  · cases op with
    | store loc value order => exact unlogged_store_error (eq_error_of_map herr)
    | load loc order => exact congrArg unlogged (load_error (eq_error_of_map herr))
    | cas loc expected value success failure =>
      by_cases hv : loc.Valid
      · rw [left, if_pos hv]
        exact (unlogged_cas_error h.shaped.owners hv (eq_error_of_map herr)).1
      · rw [left, if_neg hv]
        exact congrArg unlogged (cas_of_not_valid hv ..).2
    | cleanup ptrs => exact congrArg unlogged (cleanup_eq_known m ptrs).2.1
    | resize ptr size => exact congrArg unlogged (resize_error (eq_error_of_map herr))
    | fence | debugFence | dump => contradiction
  · rintro loc expected value success failure rfl f herr
    by_cases hv : loc.Valid
    · exact (unlogged_cas_error h.shaped.owners hv (eq_error_of_map herr)).2
    · rw [show (m.perform (.cas loc expected value success failure)).2 = m from
        (cas_of_not_valid hv ..).2]
  · rintro ptrs rfl
    have hok := (cleanup_eq_known m ptrs).1
    show (m.cleanup _).1.map _ = _
    rw [hok]
    rfl

/-- Thread 2 has a store of 32 bits and an atomic one of 64 bits in its buffer. A weak swap of
thread 1 on the 32 bits lets the first one be drained, is not chosen to fail, and then finds the
other one in the way of its own store. -/
theorem faults_exactly_obstructed :
    let x : Location := ⟨⟨0x10000000⟩, 32⟩
    let y : Location := ⟨⟨0x10000000⟩, 64⟩
    let m₁ := ((create {} ((Scripted.create 16).withScript [1, 0])).issue
      { thread := ⟨2⟩, op := .store x 5 .monotonic }).2
    let m₂ := (m₁.issue { thread := ⟨2⟩, op := .store y 6 .atomicOp }).2
    let m := m₂.withHost (m₂.host.switchTo ⟨1⟩)
    let op := Op.cas x 5 7 .weakCas .monotonic
    m.Faults op ∧ (∃ f, (m.perform op).1 = .error f) ∧ (m.left op).host.trace = [⟨3, 1⟩, ⟨2, 0⟩] ∧
      (m.perform op).2.unlogged = (m.left op).unlogged := by
  intro x y m₁ m₂ m op
  have hreachable : Reachable {} m := .host (.issue (.issue (.create _) _) _) _
  have hspec := faults_exactly hreachable op
  have herr : (m.perform op).1 = .error (.overlappingAtomics x y) := by decide +kernel
  exact ⟨hspec.1.mp ⟨_, herr⟩, ⟨_, herr⟩, by decide +kernel, hspec.2.1 _ herr⟩

end Machine

end StoreBuffer
