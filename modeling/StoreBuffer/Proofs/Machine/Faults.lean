import StoreBuffer.Proofs.Machine.Soundness

/-! # What a fault leaves behind

An operation that faults has drained at most, except that a cleanup has discarded what it came to
before the pointer at fault. -/

namespace StoreBuffer

namespace Tso

/-- What an operation of thread `t` that faults does at one moment. -/
inductive Failure (t : ThreadId) (heap : Objects) (s : Tso) : Op → Tso → Prop
  | unchanged {op} : Failure t heap s op s
  | cleanup {ptrs n} : Failure t heap s (.cleanup ptrs)
      (s.discard t fun w => !released heap ((ptrs.filter (!·.isNull)).take n) w.loc.addr)

/-- What an issue does at one moment, if its outcome is `o`. -/
def Reaction (least : Order) (i : Issue) (s : Tso) : Outcome → Tso → Prop
  | .ok a, s' => Effect least i.thread i.flags.bypassed i.objects s i.op a s'
  | .error _, s' => Failure i.thread i.objects s i.op s'

end Tso

namespace Machine

variable {m : Machine Scripted}

abbrev failure (m : Machine Scripted) (op : Op) (x y : Tso) : Prop :=
  Tso.Failure m.host.thread m.host.objects x op y

/-! ## Only valid locations are accessed -/

theorem valid_of_loadAs {l : Location} {direct : Bool} {v : UInt64}
    (hok : (m.loadAs l direct).1 = .ok v) : l.Valid :=
  Location.valid_of_check fun f hf => by simp [loadAs, hf] at hok

/-- An operation that succeeds accesses valid locations. -/
theorem valid_of_perform {op : Op} {a : Answer} (hok : (m.perform op).1 = .ok a) :
    ∀ l ∈ op.locations, l.Valid := by
  cases op with
  | store l v r =>
    refine List.forall_mem_singleton.mpr (Location.valid_of_check fun f hf => ?_)
    obtain ⟨_, hs, -⟩ := exists_of_map_eq_ok hok
    rw [store, masked_fst, storeAs, hf] at hs
    contradiction
  | load l r =>
    refine List.forall_mem_singleton.mpr (Location.valid_of_check fun f hf => ?_)
    obtain ⟨_, hs, -⟩ := exists_of_map_eq_ok hok
    rw [load, masked_fst, loadAs, hf] at hs
    contradiction
  | cas l e v s f =>
    refine List.forall_mem_singleton.mpr (Location.valid_of_check fun f hf => ?_)
    obtain ⟨_, hs, -⟩ := exists_of_map_eq_ok hok
    rw [cas, masked_fst, loadAs, hf] at hs
    contradiction
  | fence | cleanup | resize | debugFence | dump => exact List.forall_mem_nil _

/-! ## Operations that fault -/

theorem loadAs_error {l : Location} {direct : Bool} {f : Fault}
    (herr : (m.loadAs l direct).1 = .error f) : (m.loadAs l direct).2 = m := by
  unfold loadAs at herr ⊢
  cases hcheck : l.check with
  | error g => rfl
  | ok u =>
    simp only [hcheck] at herr
    split at herr <;> contradiction

theorem reaches_swapAs_error (h : m.Sound) {l : Location} {expected value observed : UInt64}
    {order : Order} {direct : Bool} {f : Fault}
    (herr : (m.swapAs l expected value observed order direct).1 = .error f) :
    m.Reaches (m.swapAs l expected value observed order direct).2 := by
  obtain ⟨m₁, e, hr, -, -, ⟨heq, -⟩ | ⟨g, hstore, heq⟩ | ⟨-, heq⟩⟩ :=
    swapAs_cases h l expected value observed order direct
  · rw [heq] at herr
    contradiction
  · rw [heq, storeAs_error hstore]
    exact hr
  · rw [heq] at herr
    contradiction

theorem moves_store_error (h : m.Sound) {l : Location} {v : UInt64} {r : Order} {f : Fault}
    (herr : (m.store l v r).1 = .error f) :
    Moves (m.failure (.store l v r)) m (m.store l v r).2 := by
  let m₁ := m.noteOperation (.storeIssued m.thread l v (r ||| m.minOrder))
  have h₁ : m.Reaches m₁ := reaches_noteOperation h _
  refine h₁.then (Moves.masked ?_)
  have hsame : (m₁.held.storeAs l v (r ||| m.minOrder) m₁.host.flags.bypassed).2 = m₁.held :=
    storeAs_error herr
  rw [hsame]
  exact (Reaches.refl h₁.sound.held).moves .unchanged

theorem moves_load_error (h : m.Sound) {l : Location} {r : Order} {f : Fault}
    (herr : (m.load l r).1 = .error f) : Moves (m.failure (.load l r)) m (m.load l r).2 := by
  rw [load, masked_fst] at herr
  refine Moves.masked ?_
  cases hload : m.held.loadAs l m.host.flags.bypassed with
  | mk o m' =>
    rw [hload] at herr
    cases o with
    | error g =>
      have hsame := loadAs_error (congrArg Prod.fst hload)
      rw [hload] at hsame
      rw [hsame]
      exact (Reaches.refl h.held).moves .unchanged
    | ok v => contradiction

theorem moves_cas_error (h : m.Sound) {l : Location} (hc : l.Valid → m.host.Covers l)
    {e v : UInt64} {a b : Order} {f : Fault} (herr : (m.cas l e v a b).1 = .error f) :
    Moves (m.failure (.cas l e v a b)) m (m.cas l e v a b).2 := by
  rw [cas, masked_fst] at herr
  refine Moves.masked ?_
  cases hload : m.held.loadAs l m.host.flags.bypassed with
  | mk o m' =>
    rw [hload] at herr
    cases o with
    | error g =>
      have hsame := loadAs_error (congrArg Prod.fst hload)
      rw [hload] at hsame
      rw [hsame]
      exact (Reaches.refl h.held).moves .unchanged
    | ok observed =>
      have hok := congrArg Prod.fst hload
      have hr := (reaches_loadAs h.held (hc (valid_of_loadAs hok)) hok).1
      rw [hload] at hr
      dsimp only at herr hr ⊢
      split at herr
      · rename_i hagree
        rw [if_pos hagree]
        exact (hr.trans (reaches_swapAs_error hr.sound herr)).moves .unchanged
      · contradiction

theorem moves_cleanup_error (h : m.Sound) (ptrs : List Addr) :
    Moves (m.failure (.cleanup ptrs)) m (m.cleanup ptrs).2 := by
  refine Moves.masked ?_
  obtain ⟨n, -, hsound, htso, hconfig, hhost⟩ :=
    dropObjects_spec h.held m.held.thread (ptrs.filter (!·.isNull))
  refine ⟨hsound, ⟨m.held.tso, _, .refl, .cleanup (n := n), ?_⟩, hconfig, by rw [hhost]⟩
  rw [htso]
  exact .refl

theorem moves_resize_error (h : m.Sound) {ptr : Addr} {size : UInt64} {f : Fault}
    (herr : (m.resize ptr size).1 = .error f) :
    Moves (m.failure (.resize ptr size)) m (m.resize ptr size).2 := by
  unfold resize at herr ⊢
  cases hnull : ptr.isNull with
  | true => simp [hnull] at herr
  | false =>
    rw [hnull] at herr
    simp only [Bool.false_eq_true, if_false] at herr ⊢
    rw [masked_fst] at herr
    refine Moves.masked ?_
    cases hobj : (Host.objectAt ptr m.held.host).1 with
    | none => exact (Reaches.refl h.held).moves .unchanged
    | some object =>
      simp only [hobj] at herr
      split at herr <;> contradiction

/-- An operation that faults. -/
theorem moves_perform_error (h : m.Sound) {op : Op}
    (hin : ∀ l ∈ op.locations, l.Valid → m.host.Covers l) {f : Fault}
    (herr : (m.perform op).1 = .error f) : Moves (m.failure op) m (m.perform op).2 := by
  cases op with
  | store l v r => exact moves_store_error h (eq_error_of_map herr)
  | load l r => exact moves_load_error h (eq_error_of_map herr)
  | fence r => contradiction
  | cas l e v a b =>
    exact moves_cas_error h (hin l (List.mem_singleton_self l)) (eq_error_of_map herr)
  | cleanup ptrs => exact moves_cleanup_error h ptrs
  | resize ptr size => exact moves_resize_error h (eq_error_of_map herr)
  | debugFence => contradiction
  | dump => contradiction

/-! ## Whatever the outcome -/

/-- An issue does what its outcome says. -/
theorem moves_reaction (h : m.Sound) {i : Issue}
    (hin : ∀ l ∈ i.op.locations, l.Valid → m.host.Covers l) :
    Moves (fun x y => Tso.Reaction m.minOrder i x (m.issue i).1 y) m (m.issue i).2 := by
  cases hout : (m.issue i).1 with
  | ok a => exact moves_issue h (fun l hl => hin l hl (valid_of_perform hout l hl)) hout
  | error f =>
    have hprepared : (m.withHost (m.host.prepare i)).Sound := h.congr rfl rfl
    have hmoves := moves_perform_error hprepared hin hout
    exact ⟨hmoves.sound, hmoves.steps, hmoves.config, hmoves.size⟩

/-- What an issue leaves of the assumptions on a machine. -/
theorem issue_next (h : m.Sound) {i : Issue}
    (hin : ∀ l ∈ i.op.locations, l.Valid → m.host.Covers l) :
    (m.issue i).2.Sound ∧ (m.issue i).2.config = m.config ∧
      ∀ l, (m.issue i).2.host.Covers l ↔ m.host.Covers l := by
  have hmoves := moves_reaction h hin
  exact ⟨hmoves.sound, hmoves.config, Scripted.covers_congr hmoves.size⟩

/-- Machines stay sound through successes and faults. -/
theorem sound_history (h : m.Sound) {is : List Issue}
    (hin : ∀ i ∈ is, ∀ l ∈ i.op.locations, l.Valid → m.host.Covers l) :
    ∀ e ∈ m.history is, e.2.2.Sound := by
  induction is generalizing m with
  | nil => simp [history]
  | cons i rest ih =>
    obtain ⟨hsound, -, hcov⟩ := issue_next h (hin i (List.mem_cons_self ..))
    intro e he
    rcases List.mem_cons.mp he with rfl | he
    · exact hsound
    · refine ih hsound (fun j hj l hl hv => ?_) e he
      exact (hcov l).mpr (hin j (List.mem_cons_of_mem _ hj) l hl hv)

end Machine

end StoreBuffer
