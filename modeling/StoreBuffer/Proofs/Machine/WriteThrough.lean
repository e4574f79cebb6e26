import StoreBuffer.Proofs.Machine.Shape
import StoreBuffer.Proofs.Machine.SingleThread
import StoreBuffer.Proofs.Reference.WriteThrough

/-! # Bytes written through among weak stores

If all writes to a set of bytes go past the buffers, or nothing can be buffered, loads and
compare-and-swaps within the set find flat memory and ask nobody what they see, whatever the same
threads have pending elsewhere. What leaves a buffer in the meantime goes elsewhere too. -/

namespace StoreBuffer

theorem Image.eqOn_after {i i' : Image} {X : Set Addr} (h : Set.EqOn i i' X) (op : Op)
    (o : Outcome) : Set.EqOn (i.after op o) (i'.after op o) X := by
  unfold Image.after
  split
  · exact Image.eqOn_write h _
  · exact Image.eqOn_write h _
  · exact h

/-- The shape of a table without capacity leaves no slot. -/
theorem Table.Shaped.eq_empty {t : Table} (h : t.Shaped 0) : t = {} := by
  obtain ⟨slots⟩ := t
  cases slots with
  | nil => rfl
  | cons s rest =>
    have hs : s ∈ s :: rest := List.mem_cons_self ..
    cases hb : s.buffer.lines with
    | nil =>
      have hfull := h.nonempty s hs
      rw [Buffer.isEmpty, hb] at hfull
      contradiction
    | cons l lines =>
      have hstore := (h.tidy s hs).oldest l (by rw [Buffer.oldest?, hb]; rfl)
      have hnone := h.capped s hs
      rw [Buffer.storeCount, hb, List.countP_cons_of_pos hstore] at hnone
      omega

namespace Machine

variable {m : Machine Scripted} {X : Set Addr} {memory : Image} {l : Location} {e v : UInt64}
  {least a b : Order} {direct : Bool}

/-! ## Accesses -/

/-- No other thread has anything pending within the set, so a load there resolves nothing. -/
theorem resolved_mirrored (h : m.Sound) (hm : m.tso.Mirrors X memory) (hl : l.Fits)
    (hin : l.Within X) :
    m.resolved l = m.count fun s => { s with loads := s.loads + 1 } := by
  have hcount : (m.count fun s => { s with loads := s.loads + 1 }).resolve m.thread l false =
      m.count fun s => { s with loads := s.loads + 1 } :=
    resolve_of_apart (m := m.count fun s => { s with loads := s.loads + 1 }) h.owners
      fun o _ w hw => hm.apart hl hin (h.placed o w hw).2 hw
  unfold resolved
  dsimp only
  split
  · exact hcount
  · rfl

/-- A load within the set finds the memory that is mirrored there and leaves host and buffers as
they are. -/
theorem loadAs_mirrored (h : m.Sound) (hm : m.tso.Mirrors X memory) (hc : m.host.Covers l)
    (hin : l.Within X) (direct : Bool) :
    l.Valid ∧ (m.loadAs l direct).1 = .ok (memory.read l) ∧ m.Reaches (m.loadAs l direct).2 ∧
        (m.loadAs l direct).2.table = m.table ∧ (m.loadAs l direct).2.host = m.host ∨
      ∃ f, m.loadAs l direct = (.error f, m) ∧ ¬ l.Valid := by
  cases hcheck : l.check with
  | error f => exact .inr ⟨f, by simp [loadAs, hcheck], Location.not_valid_of_check hcheck⟩
  | ok u =>
    have hl := Scripted.location_fits h.fits hc
    have hvalid := (Location.check_eq_ok_iff l).mp hcheck
    have hsame : (∃ x, (m.loadAs l direct).1 = .ok x) ∧ (m.loadAs l direct).2.table = m.table ∧
        (m.loadAs l direct).2.host = m.host := by
      cases direct with
      | true =>
        have hload := Scripted.load_eq h.fits hvalid.2 hc
        simp [loadAs, hcheck, withHost, count, hload]
      | false =>
        rw [loadAs_buffered h hcheck hc, resolved_mirrored h hm hl hin]
        exact ⟨⟨_, rfl⟩, table_forward .., host_forward ..⟩
    obtain ⟨⟨x, hx⟩, htable, hhost⟩ := hsame
    obtain ⟨hr, hvalue⟩ := reaches_loadAs h hc hx
    rw [tso_congr htable (congrArg Scripted.arena hhost),
      hm.load hl hin (h.placed m.host.thread) direct] at hvalue
    exact .inl ⟨hvalid, hvalue ▸ hx, hr, htable, hhost⟩

theorem exists_numbered_of_empty (hempty : m.table = {}) (line : Line) :
    ∃ k, m.numbered line = .ok k := by
  have hseq : m.table.nextSeqNo = .ok 1 := by
    rw [hempty]
    rfl
  have hatomic (p : Location) : m.table.nextAtomicNo p = .ok 1 := by
    rw [hempty]
    rfl
  unfold numbered
  rw [hseq]
  simp only [hatomic, bind, Except.bind, pure, Except.pure]
  repeat' split
  all_goals exact ⟨_, rfl⟩

/-- A store that goes past the buffers, or into empty ones, is not refused, and nobody is asked. -/
theorem storeAs_unasked (h : m.Sound) (hc : m.host.Covers l) (hl : l.Valid) {d : Bool} {r : Order}
    (hquiet : (d || r.isSeqCst) = true ∨ m.table = {}) (v : UInt64) :
    (m.storeAs l v r d).1 = .ok () ∧ (m.storeAs l v r d).2.host.trace = m.host.trace := by
  have hcheck := (Location.check_eq_ok_iff l).mpr hl
  have hstore (m' : Machine Scripted) : (m'.storeDirect ⟨l, v⟩).host.trace = m'.host.trace :=
    Scripted.trace_storeAll [⟨l, v⟩] m'.host
  cases d with
  | true =>
    unfold storeAs
    rw [hcheck]
    exact ⟨rfl, hstore m⟩
  | false =>
    cases hseq : r.isSeqCst with
    | true =>
      unfold storeAs
      rw [hcheck, hseq]
      refine ⟨rfl, (hstore _).trans ?_⟩
      rw [host_flush, Scripted.trace_storeAll]
    | false =>
      have hempty := hquiet.resolve_left (by simp [hseq])
      have hok : (m.storeAs l v r false).1 = .ok () := by
        obtain ⟨k, hk⟩ := exists_numbered_of_empty hempty (.store l v r)
        simp [storeAs, hcheck, hseq, push, hk]
      refine ⟨hok, ?_⟩
      obtain ⟨-, hstored⟩ | ⟨f, herr, -⟩ :=
        (sees_of_empty hempty h.fits m.host.thread).storeAs rfl hc v r
      · exact congrArg Flat.trace hstored.flat
      · rw [herr] at hok
        contradiction

/-! ## Operations -/

/-- Once the values agree, a compare-and-swap within the set swaps or is made to fail. -/
theorem finds_swapAs (h : m.Sound) (hc : m.host.Covers l) (hl : l.Valid)
    (hquiet : (direct || (a ||| least).isSeqCst) = true ∨ m.table = {})
    (hagree : memory.read l = Width.truncate l.width e) :
    Flat.Finds least direct ⟨memory, m.host.trace⟩ (.cas l e v a b)
      ((m.swapAs l e v (memory.read l) (a ||| least) direct).1.map fun p => .swap p.1 p.2)
      (m.swapAs l e v (memory.read l) (a ||| least) direct).2.host.trace := by
  unfold swapAs
  dsimp only
  generalize hchoice : (if (!direct && (a ||| least).isWeakCas) = true then Host.choose 2 m.host
    else (0, m.host)) = choice
  obtain ⟨hhost, hchosen⟩ := choose_weak hchoice.symm memory
  have hasked := congrArg Scripted.trace hhost
  have hstill : choice.2.still = m.host.still := by rw [hhost]; rfl
  rcases hchosen with hzero | ⟨hone, hweak⟩
  · have hsound : (m.withHost choice.2).Sound :=
      h.of_subset h.owners (Scripted.size_of_still hstill) fun _ _ => id
    have hcov : choice.2.Covers l :=
      (Scripted.covers_congr (Scripted.size_of_still hstill) l).mpr hc
    obtain ⟨hok, hsame⟩ := storeAs_unasked (m := m.withHost choice.2) (d := direct)
      (r := a ||| least ||| .atomicOp) hsound hcov hl
      (by rwa [Order.isSeqCst_union_atomicOp]) v
    rw [if_neg (by omega)]
    generalize (m.withHost choice.2).storeAs l v (a ||| least ||| .atomicOp) direct = r
      at hok hsame ⊢
    obtain ⟨o, m'⟩ := r
    cases hok
    dsimp only
    rw [host_noteOperation, show m'.host.trace = _ from hsame.trans hasked, hzero]
    exact .swapped hagree
  · rw [hone, hweak] at hasked
    rw [if_pos hone, host_noteOperation]
    show Flat.Finds least direct _ _ _ choice.2.trace
    rw [hasked]
    exact .spurious hagree (by simpa using hweak)

/-- Answer and choices are those of the body. -/
theorem masked_finds {α : Type} {body : Bool → Machine Scripted → α × Machine Scripted}
    {P : α → List ChoicePoint → Prop}
    (h : P (body m.host.flags.bypassed m.held).1 (body m.host.flags.bypassed m.held).2.host.trace) :
    P (m.masked body).1 (m.masked body).2.host.trace := h

theorem finds_load (h : m.Sound) (hm : m.tso.Mirrors X memory) (hc : m.host.Covers l)
    (hin : l.Within X) (r : Order) :
    Flat.Finds m.minOrder m.host.flags.bypassed ⟨memory, m.host.trace⟩ (.load l r)
      ((m.load l r).1.map .value) (m.load l r).2.host.trace := by
  refine masked_finds (P := fun (o : Except Fault UInt64) trace => Flat.Finds m.minOrder
    m.host.flags.bypassed ⟨memory, m.host.trace⟩ (.load l r) (o.map .value) trace) ?_
  have hloaded := loadAs_mirrored h.held hm hc hin m.host.flags.bypassed
  generalize m.held.loadAs l m.host.flags.bypassed = p at hloaded ⊢
  rcases hloaded with ⟨-, hok, -, -, hhost⟩ | ⟨f, rfl, hl⟩
  · obtain ⟨o, m'⟩ := p
    cases hok
    dsimp only
    rw [host_noteOperation, hhost]
    exact .load
  · exact .invalid (List.mem_singleton_self l) hl

theorem finds_cas (h : m.Sound) (hm : m.tso.Mirrors X memory) (hc : m.host.Covers l)
    (hin : l.Within X) (hquiet : (l.Meets X →
      (m.host.flags.bypassed || (a ||| m.minOrder).isSeqCst) = true) ∨ m.table = {}) :
    Flat.Finds m.minOrder m.host.flags.bypassed ⟨memory, m.host.trace⟩ (.cas l e v a b)
      ((m.cas l e v a b).1.map fun p => .swap p.1 p.2) (m.cas l e v a b).2.host.trace := by
  refine masked_finds (P := fun (o : Except Fault (UInt64 × Bool)) trace => Flat.Finds m.minOrder
    m.host.flags.bypassed ⟨memory, m.host.trace⟩ (.cas l e v a b) (o.map fun p => .swap p.1 p.2)
      trace) ?_
  have hloaded := loadAs_mirrored h.held hm hc hin m.host.flags.bypassed
  dsimp only
  generalize m.held.loadAs l m.host.flags.bypassed = p at hloaded ⊢
  rcases hloaded with ⟨hl, hok, hr, htable, hhost⟩ | ⟨f, rfl, hl⟩
  · obtain ⟨o, m'⟩ := p
    cases hok
    dsimp only at hr htable hhost ⊢
    by_cases hagree : memory.read l = Width.truncate l.width e
    · rw [if_pos hagree]
      have hmeets := hin.meets (Scripted.location_fits h.fits hc) hl.2
      have hfound := finds_swapAs (v := v) (b := b) hr.sound (hr.covers hc) hl
        (hquiet.imp (· hmeets) htable.trans) hagree
      rwa [hhost] at hfound
    · rw [if_neg hagree]
      dsimp only
      rw [host_noteOperation]
      show Flat.Finds _ _ _ _ _ m'.host.trace
      rw [hhost]
      exact .different hagree
  · exact .invalid (List.mem_singleton_self l) hl

/-- A load or compare-and-swap within the set looks at the memory that is mirrored there. -/
theorem finds_issue (h : m.Sound) (hm : m.tso.Mirrors X memory) {i : Issue}
    (hin : ∀ l ∈ i.op.locations, m.host.Covers l) (hreads : i.op.Reads X)
    (hquiet : (∀ l ∈ i.op.targets, l.Meets X → i.writesThrough m.minOrder = true) ∨
      m.table = {}) :
    Flat.Finds m.minOrder i.flags.bypassed ⟨memory, m.host.trace⟩ i.op (m.issue i).1
      (m.issue i).2.host.trace := by
  have hprepared : (m.withHost (m.host.prepare i)).Sound := h.congr rfl rfl
  obtain ⟨u, flags, heap, op⟩ := i
  cases op with
  | load l r => exact finds_load hprepared hm (hin l (List.mem_singleton_self l)) hreads r
  | cas l e v a b =>
    exact finds_cas hprepared hm (hin l (List.mem_singleton_self l)) hreads
      (hquiet.imp_left fun hthrough => hthrough l (List.mem_singleton_self l))
  | _ => exact hreads.elim

/-! ## Runs -/

/-- What the set holds is mirrored, and the issues to come write it through, or nothing can be
buffered at all. -/
structure WritesThrough (X : Set Addr) (memory : Image) (m : Machine Scripted) (is : List Issue) :
    Prop where
  mirrors : m.tso.Mirrors X memory
  through : (∀ i ∈ is, ∀ l ∈ i.op.targets, l.Meets X → i.writesThrough m.minOrder = true) ∨
    m.capacity = 0 ∧ m.table = {}

/-- Without capacity the table is as empty after an issue as before it. -/
theorem table_issue_of_no_capacity (hcapacity : m.capacity = 0) (hempty : m.table = {}) (i : Issue) :
    (m.issue i).2.table = {} := by
  have hshaped : m.table.Shaped m.config.capacity := by
    rw [hempty]
    exact ⟨List.nodup_nil, nofun, nofun, nofun⟩
  have hprepared : (m.withHost (m.host.prepare i)).config = m.config ∧
      (m.withHost (m.host.prepare i)).table.Shaped m.config.capacity := ⟨rfl, hshaped⟩
  have hnext := (invariant_shaped m.config).perform i.op hprepared
  have hzero : m.config.capacity = 0 := hcapacity
  rw [hzero] at hnext
  exact hnext.2.eq_empty

theorem queue_of_empty (hempty : m.table = {}) (t : ThreadId) : m.tso.queue t = [] := by
  unfold tso
  rw [hempty]
  rfl

theorem WritesThrough.issue (h : m.Sound) {i : Issue} {rest : List Issue}
    (hm : WritesThrough X memory m (i :: rest)) (hin : ∀ l ∈ i.op.locations, m.host.Covers l) :
    WritesThrough X (memory.after i.op (m.issue i).1) (m.issue i).2 rest := by
  have hmoves := moves_reaction h fun l hl _ => hin l hl
  have hleast : (m.issue i).2.minOrder = m.minOrder := congrArg Config.minOrder hmoves.config
  have hcapacity : (m.issue i).2.capacity = m.capacity := congrArg Config.capacity hmoves.config
  obtain ⟨x, y, hbefore, hreaction, hafter⟩ := hmoves.steps
  rcases hm.through with hthrough | ⟨hzero, hempty⟩
  · refine ⟨?_, .inl fun j hj => ?_⟩
    · have hreacted := (hm.mirrors.drains hbefore).reaction
        (hthrough i (List.mem_cons_self ..)) hreaction
      exact hreacted.drains hafter
    · rw [hleast]
      exact hthrough j (List.mem_cons_of_mem _ hj)
  · have hempty' := table_issue_of_no_capacity hzero hempty i
    refine ⟨⟨fun t w hw => ?_, ?_⟩, .inr ⟨hcapacity.trans hzero, hempty'⟩⟩
    · rw [queue_of_empty hempty'] at hw
      contradiction
    · have hidle := queue_of_empty hempty
      rw [Tso.eq_of_drains_idle hidle hbefore] at hreaction
      rw [Tso.memory_of_idle hidle hreaction hafter (queue_of_empty hempty')]
      exact Image.eqOn_after hm.mirrors.eqOn _ _

theorem WritesThrough.history (h : m.Sound) {is : List Issue} (hm : WritesThrough X memory m is)
    (hin : ∀ i ∈ is, ∀ l ∈ i.op.locations, m.host.Covers l) :
    Flat.RunAt X m.minOrder ⟨memory, m.host.trace⟩
      ((m.history is).map fun e => (e.1, e.2.1, e.2.2.host.trace)) := by
  induction is generalizing m memory with
  | nil => exact .nil _
  | cons i rest ih =>
    have hfirst := hin i (List.mem_cons_self ..)
    obtain ⟨hsound, hconfig, hcov⟩ := issue_next h fun l hl _ => hfirst l hl
    have hrest := ih hsound (hm.issue h hfirst) fun j hj l hl =>
      (hcov l).mpr (hin j (List.mem_cons_of_mem _ hj) l hl)
    have hleast : (m.issue i).2.minOrder = m.minOrder := congrArg Config.minOrder hconfig
    rw [hleast] at hrest
    refine .cons (fun hreads => ?_) hrest
    exact finds_issue h hm.mirrors hfirst hreads
      (hm.through.imp (fun hthrough => hthrough i (List.mem_cons_self ..)) And.right)

/-- Bytes that are written through are sequentially consistent inside a weak program. On a machine on
which nothing is buffered at first, whatever weak stores the threads have pending on other bytes and
however the host drains them: if the writes that meet the set go past the buffers, or there is no
capacity to buffer any, then loads and compare-and-swaps within the set find what the writes in
the order of issue have left in flat memory, and what they see is not for the host to choose. -/
theorem history_is_flat_at (X : Set Addr) (hempty : m.table = {}) (hfit : m.host.Fits)
    {is : List Issue} (hin : ∀ i ∈ is, ∀ l ∈ i.op.locations, m.host.Covers l)
    (hthrough : m.capacity = 0 ∨
      ∀ i ∈ is, ∀ l ∈ i.op.targets, l.Meets X → i.writesThrough m.minOrder = true) :
    Flat.RunAt X m.minOrder ⟨m.host.image, m.host.trace⟩
      ((m.history is).map fun e => (e.1, e.2.1, e.2.2.host.trace)) := by
  have hsound : m.Sound := (sound_create m.config hfit).congr hempty rfl
  have hidle := queue_of_empty hempty
  refine WritesThrough.history hsound ⟨⟨fun t w hw => ?_, fun _ _ => rfl⟩, ?_⟩ hin
  · rw [hidle] at hw
    contradiction
  · exact hthrough.symm.imp_right fun hzero => ⟨hzero, hempty⟩

/-- Two threads hand a flag over past their buffers, with stores of different widths pending on the
bytes around it, one of them drained in part by a load. -/
theorem history_is_flat_at_handover :
    let flag : Location := ⟨⟨0x10000004⟩, 16⟩
    let x : Location := ⟨⟨0x10000000⟩, 32⟩
    let y : Location := ⟨⟨0x10000006⟩, 8⟩
    let X : Set Addr := fun a => a = ⟨0x10000004⟩ ∨ a = ⟨0x10000005⟩
    let is : List Issue :=
      [{ thread := ⟨1⟩, op := .store x 1 .monotonic }, { thread := ⟨2⟩, op := .store y 2 .release },
        { thread := ⟨1⟩, op := .store flag 0x101 .seqCst },
        { thread := ⟨1⟩, op := .store x 3 .monotonic },
        { thread := ⟨2⟩, op := .cas flag 0x101 0x202 (.seqCst ||| .weakCas) .monotonic },
        { thread := ⟨2⟩, op := .load x .acquire }, { thread := ⟨1⟩, op := .load flag .monotonic }]
    let m := create {} ((Scripted.create 16).withScript [1, 1])
    (m.history is).map (fun e => (e.2.1, e.2.2.host.trace.length)) =
      [(.ok .done, 0), (.ok .done, 0), (.ok .done, 0), (.ok .done, 0),
        (.ok (.swap 0x101 false), 1), (.ok (.value 3), 2), (.ok (.value 0x101), 2)] ∧
    Flat.RunAt X m.minOrder ⟨m.host.image, m.host.trace⟩
      ((m.history is).map fun e => (e.1, e.2.1, e.2.2.host.trace)) := by
  intro flag x y X is m
  have hthrough : ∀ i ∈ is, ∀ l ∈ i.op.targets, i.writesThrough m.minOrder = true ∨
      l.region.contains ⟨0x10000004⟩ = false ∧ l.region.contains ⟨0x10000005⟩ = false := by decide
  refine ⟨by decide +kernel, history_is_flat_at X rfl (by unfold Scripted.Fits; decide) (by decide)
    (.inr fun i hi l hl hmeets => (hthrough i hi l hl).resolve_right ?_)⟩
  obtain ⟨a, rfl | rfl, ha⟩ := hmeets <;> simp [ha]

end Machine

end StoreBuffer
