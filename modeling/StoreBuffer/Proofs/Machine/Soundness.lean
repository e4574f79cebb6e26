import StoreBuffer.Proofs.Machine.Operations

/-! # Every run is a run of the reference machine

Each operation of the simulated program is a step of the reference machine, with the same answer and
from and to what the machine has in memory and pending. A whole history is therefore a run. -/

namespace StoreBuffer.Machine

variable {m : Machine Scripted}

/-- What the running thread does at one moment. -/
abbrev effect (m : Machine Scripted) (op : Op) (a : Answer) (x y : Tso) : Prop :=
  Tso.Effect m.minOrder m.host.thread m.host.flags.bypassed m.host.objects x op a y

theorem moves_store (h : m.Sound) {l : Location} (hc : m.host.Covers l) {v : UInt64} {r : Order}
    (hok : (m.store l v r).1 = .ok ()) :
    Moves (m.effect (.store l v r) .done) m (m.store l v r).2 := by
  let m₁ := m.noteOperation (.storeIssued m.thread l v (r ||| m.minOrder))
  have h₁ : m.Reaches m₁ := reaches_noteOperation h _
  have hhost : m₁.host = m.host := host_noteOperation _
  have hcov : m₁.held.host.Covers l :=
    (Scripted.covers_congr (congrArg (·.arena.size) hhost) l).mpr hc
  refine h₁.then (Moves.masked ((moves_storeAs h₁.sound.held hcov hok).mono ?_))
  rintro x y ⟨-, rfl⟩
  show m.effect _ _ x (x.store m₁.host.thread m₁.host.flags.bypassed (r ||| m.minOrder) _)
  rw [hhost]
  exact .store

theorem moves_load (h : m.Sound) {l : Location} (hc : m.host.Covers l) {r : Order} {v : UInt64}
    (hok : (m.load l r).1 = .ok v) :
    Moves (m.effect (.load l r) (.value v)) m (m.load l r).2 := by
  rw [load, masked_fst] at hok
  refine Moves.masked ?_
  cases hload : m.held.loadAs l m.host.flags.bypassed with
  | mk o m' =>
    rw [hload] at hok
    cases o with
    | error f => contradiction
    | ok v' =>
      cases hok
      obtain ⟨hr, hv⟩ := reaches_loadAs h.held hc (congrArg Prod.fst hload)
      rw [hload] at hr hv
      refine (hr.moves ?_).then (reaches_noteOperation hr.sound _)
      rw [hv]
      exact .load

theorem moves_fence (h : m.Sound) (r : Order) :
    Moves (m.effect (.fence r) .done) m (m.fence r) := by
  have heff (x : Tso) : m.effect (.fence r) .done x _ := .fence
  refine Moves.masked ?_
  cases hb : m.host.flags.bypassed with
  | true =>
    rw [hb] at heff
    exact (Reaches.refl h.held).moves (heff _)
  | false =>
    let m₁ := m.held.noteOperation (.fenceIssued m.held.thread (r ||| m.minOrder))
    have h₁ : m.held.Reaches m₁ := reaches_noteOperation h.held _
    refine h₁.then ?_
    rw [hb] at heff
    simp only [Bool.false_eq_true, if_false]
    cases hseq : (r ||| m.minOrder).isSeqCst with
    | true =>
      have hflush := reaches_flush h₁.sound m.host.thread
      refine ⟨hflush.sound, ⟨m₁.tso, _, .refl, heff _, ?_⟩, hflush.config, hflush.size⟩
      have htso := tso_flush h₁.sound m.host.thread
      rw [hseq]
      show Tso.Drains _ (m₁.flush m.host.thread).tso
      rw [htso]
      exact .refl
    | false =>
      rw [hseq] at heff
      simp only [Bool.false_eq_true, if_false]
      split
      · exact (reaches_pushFence h₁.sound ..).moves (heff _)
      · exact (Reaches.refl h₁.sound).moves (heff _)

theorem moves_cas (h : m.Sound) {l : Location} (hc : m.host.Covers l) {e v : UInt64} {a f : Order}
    {swap : UInt64 × Bool} (hok : (m.cas l e v a f).1 = .ok swap) :
    Moves (m.effect (.cas l e v a f) (.swap swap.1 swap.2)) m (m.cas l e v a f).2 := by
  rw [cas, masked_fst] at hok
  refine Moves.masked ?_
  dsimp only at hok
  cases hload : m.held.loadAs l m.host.flags.bypassed with
  | mk o m' =>
    rw [hload] at hok
    cases o with
    | error f => contradiction
    | ok observed =>
      obtain ⟨hr, hv⟩ := reaches_loadAs h.held hc (congrArg Prod.fst hload)
      rw [hload] at hr hv
      dsimp only at hok hr hv ⊢
      split at hok
      · rename_i hagree
        have hcov : m'.host.Covers l := hr.covers hc
        have hthread : m'.host.thread = m.host.thread := hr.thread
        rw [if_pos hagree]
        refine hr.then ((moves_swapAs hr.sound hcov hok).mono ?_)
        rintro x y ⟨rfl, ⟨rfl, rfl⟩ | ⟨rfl, hdirect, hweak, rfl⟩⟩
        · rw [hthread]
          exact .swapped (hv.symm.trans hagree)
        · rw [hv]
          exact .spurious (hv.symm.trans hagree) ⟨hdirect, hweak⟩
      · rename_i hdiffer
        cases hok
        rw [if_neg hdiffer]
        have hcount : m'.Reaches (m'.count fun s =>
            { s with casValueFailures := s.casValueFailures + 1 }) := .of_eq hr.sound rfl rfl rfl
        refine (hr.moves ?_).then (hcount.trans (reaches_noteOperation hcount.sound _))
        rw [hv] at hdiffer ⊢
        exact .different hdiffer

theorem moves_cleanup (h : m.Sound) {ptrs : List Addr} (hok : (m.cleanup ptrs).1 = .ok ()) :
    Moves (m.effect (.cleanup ptrs) .done) m (m.cleanup ptrs).2 := by
  refine Moves.masked ?_
  obtain ⟨n, hall, hsound, htso, hconfig, hhost⟩ :=
    dropObjects_spec h.held m.held.thread (ptrs.filter (!·.isNull))
  rw [List.take_of_length_le (hall hok)] at htso
  refine ⟨hsound, ⟨m.held.tso, _, .refl, .cleanup, ?_⟩, hconfig, by rw [hhost]⟩
  rw [htso]
  exact .refl

theorem moves_resize (h : m.Sound) {ptr : Addr} {size : UInt64}
    (hok : (m.resize ptr size).1 = .ok ()) :
    Moves (m.effect (.resize ptr size) .done) m (m.resize ptr size).2 := by
  have heff (x : Tso) : m.effect (.resize ptr size) .done x _ := .resize
  have hidle (hkeep : ∀ a, Tso.cutOff m.host.objects ptr size a = false) (x : Tso) :
      m.effect (.resize ptr size) .done x x := by
    have hsame : (x.discardAll fun w => !Tso.cutOff m.host.objects ptr size w.loc.addr) = x :=
      Tso.ext rfl fun u => by simp [Tso.discardAll, hkeep]
    have hx := heff x
    rwa [hsame] at hx
  unfold resize at hok ⊢
  cases hnull : ptr.isNull with
  | true =>
    simp only [if_true]
    exact (Reaches.refl h).moves (hidle (fun w => by simp [Tso.cutOff, hnull]) _)
  | false =>
    rw [hnull] at hok
    simp only [Bool.false_eq_true, if_false] at hok ⊢
    rw [masked_fst] at hok
    refine Moves.masked ?_
    cases hobj : m.host.objects.containing? ptr with
    | none =>
      have hfound : (Host.objectAt ptr m.held.host).1 = none := hobj
      simp [hfound] at hok
    | some object =>
      have hfound : (Host.objectAt ptr m.held.host).1 = some object := hobj
      simp only [hfound] at hok ⊢
      split
      · rename_i hle
        have hlt : ¬ size < object.size := UInt64.not_lt.mpr hle
        exact (Reaches.refl h.held).moves (hidle (fun w => by simp [Tso.cutOff, hobj, hlt]) _)
      · rename_i hle
        have hlt : size < object.size := UInt64.not_le.mp hle
        let range : Region := ⟨object.base.offset size, object.size - size⟩
        have htso : (m.held.discardRange none range).2.tso =
            m.held.tso.discardAll fun w => !Tso.cutOff m.host.objects ptr size w.loc.addr := by
          rw [tso_discardRange_all h.held]
          simp [Tso.cutOff, hnull, hobj, hlt, range]
        refine ⟨(sound_discardRange h.held none range).congr rfl rfl,
          ⟨m.held.tso, _, .refl, heff _, ?_⟩, config_discardRange none range, ?_⟩
        · rw [← htso]
          exact .refl
        · show (m.held.discardRange none range).2.host.arena.size = _
          rw [host_discardRange]

theorem moves_debugFence (h : m.Sound) :
    Moves (m.effect .debugFence .done) m m.debugFence := by
  refine Moves.masked ?_
  have hflush := reaches_flush h.held m.held.thread
  refine ⟨hflush.sound, ⟨m.held.tso, _, .refl, .debugFence, ?_⟩, hflush.config, hflush.size⟩
  rw [tso_flush h.held]
  exact .refl

theorem moves_dump (h : m.Sound) : Moves (m.effect .dump (.text m.dump.1)) m m.dump.2 := by
  have hnote : m.Reaches (m.note (.dumped m.report)) := .of_eq h rfl rfl rfl
  refine hnote.then ((moves_debugFence hnote.sound).mono ?_)
  intro x y heff
  cases heff
  exact .dump

/-- An operation that succeeds is a step of the reference machine. -/
theorem moves_perform (h : m.Sound) {op : Op} (hin : ∀ l ∈ op.locations, m.host.Covers l)
    {a : Answer} (hok : (m.perform op).1 = .ok a) :
    Moves (m.effect op a) m (m.perform op).2 := by
  cases op with
  | store l v r =>
    obtain ⟨_, hs, rfl⟩ := exists_of_map_eq_ok hok
    exact moves_store h (hin l (List.mem_singleton_self l)) hs
  | load l r =>
    obtain ⟨_, hs, rfl⟩ := exists_of_map_eq_ok hok
    exact moves_load h (hin l (List.mem_singleton_self l)) hs
  | fence r =>
    cases hok
    exact moves_fence h r
  | cas l e v s f =>
    obtain ⟨_, hs, rfl⟩ := exists_of_map_eq_ok hok
    exact moves_cas h (hin l (List.mem_singleton_self l)) hs
  | cleanup ptrs =>
    obtain ⟨_, hs, rfl⟩ := exists_of_map_eq_ok hok
    exact moves_cleanup h hs
  | resize ptr size =>
    obtain ⟨_, hs, rfl⟩ := exists_of_map_eq_ok hok
    exact moves_resize h hs
  | debugFence =>
    cases hok
    exact moves_debugFence h
  | dump =>
    cases hok
    exact moves_dump h

/-! ## Runs -/

theorem moves_issue (h : m.Sound) {i : Issue} (hin : ∀ l ∈ i.op.locations, m.host.Covers l)
    {a : Answer} (hok : (m.issue i).1 = .ok a) :
    Moves (fun x y => Tso.Effect m.minOrder i.thread i.flags.bypassed i.objects x i.op a y) m
      (m.issue i).2 := by
  have hprepared : (m.withHost (m.host.prepare i)).Sound := h.congr rfl rfl
  have hmoves := moves_perform hprepared hin hok
  exact ⟨hmoves.sound, hmoves.steps, hmoves.config, hmoves.size⟩

/-- From a sound machine on, a history without faults is a run of the reference machine. -/
theorem exists_run (h : m.Sound) {is : List Issue}
    (hin : ∀ i ∈ is, ∀ l ∈ i.op.locations, m.host.Covers l)
    (hok : ∀ o ∈ m.outcomes is, o.isOk = true) :
    ∃ steps, Tso.Run m.minOrder m.tso steps ∧
      (m.history is).map (fun e => (e.1, e.2.1, e.2.2.tso)) =
        steps.map fun e => (e.1, .ok e.2.1, e.2.2) := by
  induction is generalizing m with
  | nil => exact ⟨[], .nil _, rfl⟩
  | cons i rest ih =>
    have hfirst := hok (m.issue i).1 (List.mem_cons_self ..)
    cases hout : (m.issue i).1 with
    | error f =>
      rw [hout] at hfirst
      contradiction
    | ok a =>
      have hmoves := moves_issue h (hin i (List.mem_cons_self ..)) hout
      have hcov : ∀ j ∈ rest, ∀ l ∈ j.op.locations, (m.issue i).2.host.Covers l := by
        intro j hj l hl
        exact (Scripted.covers_congr hmoves.size l).mpr (hin j (List.mem_cons_of_mem _ hj) l hl)
      obtain ⟨steps, hrun, hsame⟩ := ih hmoves.sound hcov fun o ho =>
        hok o (List.mem_cons_of_mem _ ho)
      have hleast : (m.issue i).2.minOrder = m.minOrder := congrArg Config.minOrder hmoves.config
      rw [hleast] at hrun
      refine ⟨(i, a, (m.issue i).2.tso) :: steps, .cons hmoves.steps hrun, ?_⟩
      rw [history, List.map_cons, List.map_cons, hsame, ← hout]

/-- Whatever threads do in whatever order, and whatever the host chooses: as long as accesses lie
in the arena and nothing faults, the machine and the reference machine give the same answers and
hold the same memory and the same pending writes after every operation. An arena below the top of
the address space is all that a host can map. -/
theorem history_is_run (c : Config) {h : Scripted} (hfit : h.Fits) {is : List Issue}
    (hin : ∀ i ∈ is, ∀ l ∈ i.op.locations, h.Covers l)
    (hok : ∀ o ∈ (create c h).outcomes is, o.isOk = true) :
    ∃ steps, Tso.Run c.minOrder (Tso.start h.image) steps ∧
      ((create c h).history is).map (fun e => (e.1, e.2.1, e.2.2.tso)) =
        steps.map fun e => (e.1, .ok e.2.1, e.2.2) :=
  exists_run (sound_create c hfit) hin hok

/-- Two threads with stores of different widths to the same bytes, a partial flush chosen by the
host, a compare-and-swap, a fence and a dump. -/
theorem history_is_run_mixedWidths :
    let x : Location := ⟨⟨0x10000000⟩, 32⟩
    let y : Location := ⟨⟨0x10000002⟩, 16⟩
    let is : List Issue :=
      [{ thread := ⟨1⟩, op := .store x 1 .monotonic }, { thread := ⟨2⟩, op := .store y 7 .release },
        { thread := ⟨1⟩, op := .load y .acquire },
        { thread := ⟨2⟩, op := .cas x 0x70001 5 .acqRel .monotonic },
        { thread := ⟨1⟩, op := .fence .seqCst }, { thread := ⟨2⟩, op := .dump }]
    let h := (Scripted.create 16).withScript [0, 1]
    (create {} h).outcomes (is.take 4) =
      [.ok .done, .ok .done, .ok (.value 0), .ok (.swap 5 true)] ∧
    ∃ steps, Tso.Run Order.notAtomic (Tso.start h.image) steps ∧
      ((create {} h).history is).map (fun e => (e.1, e.2.1, e.2.2.tso)) =
        steps.map fun e => (e.1, .ok e.2.1, e.2.2) :=
  ⟨by decide +kernel, history_is_run {} (by unfold Scripted.Fits; decide) (by decide)
    (by decide +kernel)⟩

end StoreBuffer.Machine
