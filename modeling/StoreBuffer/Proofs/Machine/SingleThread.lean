import StoreBuffer.Proofs.Machine.Faults
import StoreBuffer.Proofs.Machine.Visibility
import StoreBuffer.Proofs.Reference.Flat

/-! # One thread sees flat memory

As long as nobody else has stores pending, a thread does not notice its buffer: whatever the widths
and offsets of its accesses, the capacity and the orders, its answers are those of flat memory. No
store is left for the host to order, so that weak compare-and-swaps are all it is asked about. -/

namespace StoreBuffer.Machine

variable {m m' : Machine Scripted} {t : ThreadId} {s : Flat} {l : Location} {e v : UInt64}
  {least a b : Order}

/-- The machine as a thread that is alone sees it. -/
def flat (t : ThreadId) (m : Machine Scripted) : Flat := ⟨m.tso.seen t, m.host.trace⟩

/-- Only thread `t` has stores pending, and it sees the flat memory `s`. -/
structure Sees (t : ThreadId) (s : Flat) (m : Machine Scripted) : Prop where
  sound : m.Sound
  alone : m.tso.Alone t
  flat : m.flat t = s

/-- Nothing is pending at first. -/
theorem sees_of_empty (hempty : m.table = {}) (hfit : m.host.Fits) (t : ThreadId) :
    Sees t ⟨m.host.image, m.host.trace⟩ m := by
  have htso : m.tso = Tso.start m.host.image := by
    unfold tso
    rw [hempty]
    rfl
  refine ⟨(sound_create m.config hfit).congr hempty rfl, ?_, ?_⟩
  · rw [htso]
    exact fun _ _ => rfl
  · rw [Machine.flat, htso]
    rfl

theorem Sees.read (h : Sees t s m) (l : Location) : (m.tso.seen t).read l = s.memory.read l := by
  rw [← h.flat]
  rfl

/-- Drains without a choice are invisible. -/
theorem Sees.reaches (h : Sees t s m) (hr : m.Reaches m')
    (htrace : m'.host.trace = m.host.trace) : Sees t s m' := by
  refine ⟨hr.sound, h.alone.drains hr.drains, ?_⟩
  rw [← h.flat]
  exact Flat.ext (h.alone.seen_drains hr.drains) htrace

theorem Sees.congr (h : Sees t s m) (htable : m'.table = m.table)
    (harena : m'.host.arena = m.host.arena) (htrace : m'.host.trace = m.host.trace) :
    Sees t s m' := by
  have htso := tso_congr htable harena
  refine ⟨h.sound.congr htable harena, htso ▸ h.alone, ?_⟩
  rw [← h.flat, Machine.flat, htso, htrace]
  rfl

theorem Sees.noteOperation (h : Sees t s m) (e : Event) : Sees t s (m.noteOperation e) :=
  h.reaches (reaches_noteOperation h.sound e) (congrArg Scripted.trace (host_noteOperation e))

theorem Sees.held (h : Sees t s m) : Sees t s m.held := h.congr rfl rfl rfl

/-- What a body does while the mask flag is raised is done by the whole. -/
theorem Sees.masked {α : Type} {body : Bool → Machine Scripted → α × Machine Scripted}
    (hdirect : m.host.flags.bypassed = false) (h : Sees t s (body false m.held).2) :
    Sees t s (m.masked body).2 := by
  rw [← hdirect] at h
  exact h.congr rfl rfl rfl

theorem exists_sees_masked {α : Type} {body : Bool → Machine Scripted → α × Machine Scripted}
    {P : α → Flat → Prop} (hdirect : m.host.flags.bypassed = false)
    (h : ∃ s', P (body false m.held).1 s' ∧ Sees t s' (body false m.held).2) :
    ∃ s', P (m.masked body).1 s' ∧ Sees t s' (m.masked body).2 := by
  obtain ⟨s', hP, hs'⟩ := h
  refine ⟨s', ?_, hs'.masked hdirect⟩
  rwa [masked_fst, hdirect]

/-! ## Draining -/

/-- There is nothing to resolve. -/
theorem Sees.resolve_eq (h : Sees t s m) (loc : Location) : m.resolve t loc false = m := by
  refine resolve_of_apart h.sound.owners fun o ho w hw => ?_
  rw [show m.table.pending o = [] from h.alone o ho] at hw
  contradiction

theorem Sees.flush (h : Sees t s m) (u : ThreadId) : Sees t s (m.flush u) := by
  refine h.reaches (reaches_flush h.sound u) ?_
  rw [host_flush, Scripted.trace_storeAll]

theorem Sees.dropOldest (h : Sees t s m) (u : ThreadId) : Sees t s (m.dropOldest u) := by
  refine h.reaches (reaches_dropOldest h.sound u) ?_
  unfold Machine.dropOldest
  split
  · rfl
  · exact Scripted.trace_storeAll ..

theorem Sees.evictWhileOverdue (h : Sees t s m) (n : Nat) :
    Sees t s (m.evictWhileOverdue t n) := by
  induction n generalizing m with
  | zero => exact h
  | succ n ih =>
    unfold Machine.evictWhileOverdue
    split
    · exact h
    · -- resolving the line's location first does nothing, as no other thread has stores to it
      apply ih
      unfold evictOldest
      split
      · rw [h.resolve_eq]
        exact h.dropOldest t
      · exact h.dropOldest t

/-- A pushed store is the newest that the thread sees. -/
theorem Sees.pushLine (h : Sees t s m) {l : Line} {w : Write} (hl : l.pendingWrite? = some w)
    (hw : m.host.Accepts w) : Sees t (s.write w) (m.pushLine t l) := by
  have happended : (m.appended t l).Sound := by
    apply sound_appended h.sound
    intro v hv
    rw [hl] at hv
    cases hv
    exact hw
  have hstore : (m.appended t l).tso = m.tso.store t false .notAtomic w := tso_appended hl
  obtain ⟨halone, hseen⟩ := h.alone.store .notAtomic w
  have hpushed : Sees t (s.write w) (m.appended t l) := by
    refine ⟨happended, hstore ▸ halone, ?_⟩
    rw [Machine.flat, hstore, hseen, host_appended, ← h.flat]
    rfl
  have hevicted := hpushed.evictWhileOverdue ((m.appended t l).table.linesOf t).length
  rw [pushLine_eq]
  exact hevicted.reaches (reaches_prune hevicted.sound) rfl

/-! ## Accesses -/

theorem Sees.storeDirect (h : Sees t s m) (hv : Width.Valid l.width) (hc : m.host.Covers l)
    (value : UInt64) :
    Sees t (s.write (l.holding value)) ((m.flush t).storeDirect ⟨l, value⟩) := by
  have hflush := reaches_flush h.sound t
  have hstore : ((m.flush t).storeDirect ⟨l, value⟩).tso =
      m.tso.store t false .seqCst (l.holding value) := by
    rw [tso_storeDirect hv (hflush.covers hc), tso_flush h.sound]
    rfl
  obtain ⟨halone, hseen⟩ := h.alone.store .seqCst (l.holding value)
  refine ⟨sound_storeDirect hflush.sound _, hstore ▸ halone, ?_⟩
  have htrace : ((m.flush t).storeDirect ⟨l, value⟩).host.trace = m.host.trace := by
    show (Memory.storeAll [⟨l, value⟩] (m.flush t).host).trace = _
    rw [Scripted.trace_storeAll, host_flush, Scripted.trace_storeAll]
  rw [Machine.flat, hstore, hseen, htrace, ← h.flat]
  rfl

/-- A line that takes no number is never refused. -/
theorem isAtomicOp_of_numbered {l : Line} (hseq : l.order.isSeqCst = false) {f : Fault}
    (herr : m.numbered l = .error f) : l.order.isAtomicOp = true := by
  unfold numbered at herr
  simp only [bind, Except.bind, pure, Except.pure, hseq] at herr
  repeat' split at herr
  all_goals first | contradiction | assumption

/-- A store is refused and changes nothing, or it is the newest that the thread sees. -/
theorem Sees.storeAs (h : Sees t s m) (ht : m.host.thread = t) (hc : m.host.Covers l)
    (value : UInt64) (r : Order) :
    (m.storeAs l value r false).1 = .ok () ∧
        Sees t (s.write (l.holding value)) (m.storeAs l value r false).2 ∨
      ∃ f, m.storeAs l value r false = (.error f, m) ∧
        (¬ l.Valid ∨ r.isAtomicOp = true ∧ r.isSeqCst = false) := by
  cases hcheck : l.check with
  | error f =>
    exact .inr ⟨f, by simp [Machine.storeAs, hcheck], .inl (Location.not_valid_of_check hcheck)⟩
  | ok u =>
    have hv := ((Location.check_eq_ok_iff l).mp hcheck).2
    have heq : m.storeAs l value r false =
        if r.isSeqCst then (.ok (), (m.flush t).storeDirect ⟨l, value⟩)
        else m.push t (.store l value r) := by
      unfold Machine.storeAs
      rw [hcheck, ← ht]
      rfl
    rw [heq]
    cases hseq : r.isSeqCst with
    | true => exact .inl ⟨rfl, h.storeDirect hv hc value⟩
    | false =>
      rw [if_neg Bool.false_ne_true]
      unfold push
      cases hn : m.numbered (.store l value r) with
      | error f => exact .inr ⟨f, rfl, .inr ⟨isAtomicOp_of_numbered hseq hn, rfl⟩⟩
      | ok line =>
        have hline := pendingWrite?_numbered_store hv hn
        exact .inl ⟨rfl, h.pushLine hline (Scripted.accepts_holding hv hc value)⟩

theorem Sees.trace_resolved (h : Sees t s m) (ht : m.host.thread = t) (l : Location) :
    (m.resolved l).host.trace = m.host.trace := by
  have hcount : Sees t s (m.count fun s => { s with loads := s.loads + 1 }) := h.congr rfl rfl rfl
  have hthread : (m.count fun s => { s with loads := s.loads + 1 }).thread = t := ht
  unfold resolved
  dsimp only
  rw [hthread, hcount.resolve_eq]
  split <;> rfl

/-- A load finds what flat memory holds, unless it may not look there. -/
theorem Sees.loadAs (h : Sees t s m) (ht : m.host.thread = t) (hc : m.host.Covers l) :
    l.Valid ∧ (m.loadAs l false).1 = .ok (s.memory.read l) ∧ m.Reaches (m.loadAs l false).2 ∧
        Sees t s (m.loadAs l false).2 ∨
      ∃ f, m.loadAs l false = (.error f, m) ∧ ¬ l.Valid := by
  cases hcheck : l.check with
  | error f => exact .inr ⟨f, by simp [Machine.loadAs, hcheck], Location.not_valid_of_check hcheck⟩
  | ok u =>
    -- the value is known from the reference machine; that nothing was chosen is left to show
    have hload := loadAs_buffered h.sound hcheck hc
    obtain ⟨hr, hvalue⟩ := reaches_loadAs h.sound hc (congrArg Prod.fst hload)
    have htrace : (m.loadAs l false).2.host.trace = m.host.trace := by
      rw [hload, host_forward, h.trace_resolved ht]
    have hsees := h.reaches hr htrace
    refine .inl ⟨(Location.check_eq_ok_iff l).mp hcheck, ?_, hr, hsees⟩
    have hread : (m.loadAs l false).2.tso.load m.host.thread false l = s.memory.read l := by
      rw [ht]
      exact hsees.read l
    rw [hload] at hvalue hread ⊢
    rw [hvalue, hread]

/-- The host chooses whether a weak compare-and-swap fails. Nothing but the record of choices
changes. -/
theorem choose_weak {h : Scripted} {weak : Bool} {choice : Nat × Scripted}
    (hchoice : choice = if weak then Host.choose 2 h else (0, h)) (memory : Image) :
    choice.2 = { h with trace := (Flat.ask weak choice.1 ⟨memory, h.trace⟩).trace } ∧
      (choice.1 = 0 ∨ choice.1 = 1 ∧ weak = true) := by
  subst hchoice
  cases weak with
  | false => exact ⟨rfl, .inl rfl⟩
  | true =>
    have hlt := Host.choose_lt 2 h (by decide)
    refine ⟨rfl, ?_⟩
    rw [if_pos rfl]
    simp only [and_true]
    omega

theorem Sees.choose (h : Sees t s m) {weak : Bool} {choice : Nat × Scripted}
    (hchoice : choice = if weak then Host.choose 2 m.host else (0, m.host)) :
    Sees t (s.ask weak choice.1) (m.withHost choice.2) ∧
      (choice.1 = 0 ∨ choice.1 = 1 ∧ weak = true) ∧ choice.2.still = m.host.still := by
  obtain ⟨hhost, hchosen⟩ := choose_weak hchoice (m.tso.seen t)
  rw [hhost]
  refine ⟨⟨h.sound.congr rfl rfl, h.alone, ?_⟩, hchosen, rfl⟩
  rw [← h.flat]
  unfold Flat.ask
  split <;> rfl

/-- Once the values agree, a compare-and-swap is made to fail, is refused, or stores. -/
theorem Sees.swapAs (h : Sees t s m) (ht : m.host.thread = t) (hc : m.host.Covers l)
    (hl : l.Valid) (hagree : s.memory.read l = Width.truncate l.width e) :
    ∃ s', s.Step least (.cas l e v a b)
        ((m.swapAs l e v (s.memory.read l) (a ||| least) false).1.map fun p => .swap p.1 p.2) s' ∧
      Sees t s' (m.swapAs l e v (s.memory.read l) (a ||| least) false).2 := by
  unfold Machine.swapAs
  dsimp only
  rw [Bool.not_false, Bool.true_and]
  generalize hchoice : (if (a ||| least).isWeakCas = true then Host.choose 2 m.host
    else (0, m.host)) = choice
  obtain ⟨hasked, hchosen, hstill⟩ := h.choose hchoice.symm
  rcases hchosen with hchosen | ⟨hchosen, hweak⟩
  · -- it is not made to fail, so what comes of it is what comes of its store
    rw [hchosen] at hasked
    have hthread : choice.2.thread = t := (congrArg Scripted.thread hstill).trans ht
    have hcov : choice.2.Covers l :=
      (Scripted.covers_congr (Scripted.size_of_still hstill) l).mpr hc
    have hstored := hasked.storeAs hthread hcov v (a ||| least ||| .atomicOp)
    rw [if_neg (by omega)]
    generalize hs : (m.withHost choice.2).storeAs l v (a ||| least ||| .atomicOp) false = r
      at hstored ⊢
    rcases hstored with ⟨hok, hstored⟩ | ⟨f, rfl, hwhy⟩
    · obtain ⟨o, m'⟩ := r
      cases hok
      exact ⟨_, .swapped hagree, hstored.noteOperation _⟩
    · obtain ⟨-, hseq⟩ := hwhy.resolve_left (not_not_intro hl)
      rw [Order.isSeqCst_union_atomicOp] at hseq
      exact ⟨_, .refusedSwap hagree hseq, hasked⟩
  · rw [hchosen, hweak] at hasked
    have hcount : Sees t (s.ask true 1) ((m.withHost choice.2).count fun s =>
        { s with casSpuriousFailures := s.casSpuriousFailures + 1 }) := hasked.congr rfl rfl rfl
    rw [if_pos hchosen]
    exact ⟨_, .spurious hagree hweak, hcount.noteOperation _⟩

/-! ## Operations -/

theorem Sees.store (h : Sees t s m) (ht : m.host.thread = t)
    (hdirect : m.host.flags.bypassed = false) (hc : m.host.Covers l) (r : Order) :
    ∃ s', s.Step m.minOrder (.store l v r) ((m.store l v r).1.map fun _ => .done) s' ∧
      Sees t s' (m.store l v r).2 := by
  let m₁ := m.noteOperation (.storeIssued m.thread l v (r ||| m.minOrder))
  have h₁ : Sees t s m₁.held := (h.noteOperation _).held
  have hhost : m₁.host = m.host := host_noteOperation _
  have hthread : m₁.held.host.thread = t := (congrArg Scripted.thread hhost).trans ht
  have hcov : m₁.held.host.Covers l :=
    (Scripted.covers_congr (congrArg (·.arena.size) hhost) l).mpr hc
  refine exists_sees_masked (m := m₁)
    (P := fun (o : Except Fault Unit) s' => s.Step m.minOrder (.store l v r) (o.map fun _ => .done) s')
    (hhost ▸ hdirect) ?_
  rcases h₁.storeAs hthread hcov v (r ||| m.minOrder) with ⟨hok, hstored⟩ | ⟨f, herr, hwhy⟩
  · rw [hok]
    exact ⟨_, .plain .store, hstored⟩
  · rw [herr]
    refine ⟨s, ?_, h₁⟩
    rcases hwhy with hl | ⟨hatomic, hseq⟩
    · exact .invalid (List.mem_singleton_self l) hl
    · exact .refusedStore hatomic hseq

theorem Sees.load (h : Sees t s m) (ht : m.host.thread = t)
    (hdirect : m.host.flags.bypassed = false) (hc : m.host.Covers l) (r : Order) :
    ∃ s', s.Step m.minOrder (.load l r) ((m.load l r).1.map .value) s' ∧
      Sees t s' (m.load l r).2 := by
  refine exists_sees_masked (P := fun (o : Except Fault UInt64) s' =>
    s.Step m.minOrder (.load l r) (o.map .value) s') hdirect ?_
  have hloaded := h.held.loadAs (l := l) ht hc
  generalize m.held.loadAs l false = p at hloaded ⊢
  rcases hloaded with ⟨-, hok, -, hloaded⟩ | ⟨f, rfl, hl⟩
  · obtain ⟨o, m'⟩ := p
    cases hok
    exact ⟨s, .plain .load, hloaded.noteOperation _⟩
  · exact ⟨s, .invalid (List.mem_singleton_self l) hl, h.held⟩

theorem Sees.fence (h : Sees t s m) (hdirect : m.host.flags.bypassed = false) (r : Order) :
    Sees t s (m.fence r) := by
  have hnoted := h.held.noteOperation (.fenceIssued m.held.thread (r ||| m.minOrder))
  refine Sees.masked hdirect ?_
  rw [if_neg Bool.false_ne_true]
  dsimp only
  split
  · exact hnoted.flush _
  · split
    · refine hnoted.reaches (reaches_pushFence hnoted.sound ..) ?_
      unfold pushFence
      repeat' split
      all_goals rfl
    · exact hnoted

theorem Sees.cas (h : Sees t s m) (ht : m.host.thread = t)
    (hdirect : m.host.flags.bypassed = false) (hc : m.host.Covers l) :
    ∃ s', s.Step m.minOrder (.cas l e v a b)
        ((m.cas l e v a b).1.map fun p => .swap p.1 p.2) s' ∧ Sees t s' (m.cas l e v a b).2 := by
  refine exists_sees_masked (P := fun (o : Except Fault (UInt64 × Bool)) s' =>
    s.Step m.minOrder (.cas l e v a b) (o.map fun p => .swap p.1 p.2) s') hdirect ?_
  dsimp only
  have hloaded := h.held.loadAs (l := l) ht hc
  generalize m.held.loadAs l false = p at hloaded ⊢
  rcases hloaded with ⟨hl, hok, hr, hloaded⟩ | ⟨f, rfl, hl⟩
  · obtain ⟨o, m'⟩ := p
    cases hok
    by_cases hagree : s.memory.read l = Width.truncate l.width e
    · simp only [if_pos hagree]
      exact hloaded.swapAs (hr.thread.trans ht) (hr.covers hc) hl hagree
    · simp only [if_neg hagree]
      have hcount : Sees t s (m'.count fun s =>
          { s with casValueFailures := s.casValueFailures + 1 }) := hloaded.congr rfl rfl rfl
      exact ⟨s, .different hagree, hcount.noteOperation _⟩
  · exact ⟨s, .invalid (List.mem_singleton_self l) hl, h.held⟩

theorem Sees.debugFence (h : Sees t s m) (hdirect : m.host.flags.bypassed = false) :
    Sees t s m.debugFence :=
  Sees.masked hdirect (h.held.flush m.held.thread)

/-- Every operation is one on flat memory. -/
theorem Sees.perform (h : Sees t s m) (ht : m.host.thread = t)
    (hdirect : m.host.flags.bypassed = false) {op : Op}
    (hin : ∀ l ∈ op.locations, m.host.Covers l) (hop : op.isNotice = false) :
    ∃ s', s.Step m.minOrder op (m.perform op).1 s' ∧ Sees t s' (m.perform op).2 := by
  cases op with
  | store l v r => exact h.store ht hdirect (hin l (List.mem_singleton_self l)) r
  | load l r => exact h.load ht hdirect (hin l (List.mem_singleton_self l)) r
  | fence r => exact ⟨s, .plain .fence, h.fence hdirect r⟩
  | cas l e v a b => exact h.cas ht hdirect (hin l (List.mem_singleton_self l))
  | debugFence => exact ⟨s, .debugFence, h.debugFence hdirect⟩
  | dump =>
    have hnoted : Sees t s (m.note (.dumped m.report)) := h.congr rfl rfl rfl
    exact ⟨s, .dump, hnoted.debugFence hdirect⟩
  | cleanup ptrs | resize ptr size => contradiction

/-! ## Runs -/

/-- Every history of a thread that is alone is a run on the flat memory that it sees. -/
theorem Sees.history (h : Sees t s m) {is : List Issue}
    (hin : ∀ i ∈ is, ∀ l ∈ i.op.locations, m.host.Covers l)
    (hone : ∀ i ∈ is, i.thread = t ∧ i.flags.bypassed = false ∧ i.op.isNotice = false) :
    s.Run m.minOrder ((m.history is).map fun e => (e.1.op, e.2.1, e.2.2.flat t)) := by
  induction is generalizing m s with
  | nil => exact .nil s
  | cons i rest ih =>
    obtain ⟨hthread, hdirect, hop⟩ := hone i (List.mem_cons_self ..)
    have hprepared : Sees t s (m.withHost (m.host.prepare i)) := h.congr rfl rfl rfl
    obtain ⟨s', hstep, hs'⟩ := hprepared.perform hthread hdirect
      (hin i (List.mem_cons_self ..)) hop
    obtain ⟨-, hconfig, hcov⟩ :=
      issue_next h.sound fun l hl _ => hin i (List.mem_cons_self ..) l hl
    have hrest := ih (m := (m.issue i).2) hs'
      (fun j hj l hl => (hcov l).mpr (hin j (List.mem_cons_of_mem _ hj) l hl))
      fun j hj => hone j (List.mem_cons_of_mem _ hj)
    have hleast : (m.issue i).2.minOrder = m.minOrder := congrArg Config.minOrder hconfig
    rw [hleast] at hrest
    rw [Machine.history, List.map_cons]
    have hflat : (m.issue i).2.flat t = s' := hs'.flat
    rw [hflat]
    exact .cons hstep hrest

/-- Whatever the configuration, the contents of memory, the widths, offsets and orders of the
accesses and the answers to choices: on a machine on which nothing is buffered at first, one thread
finds what it would find in flat memory, and the host is asked about nothing but weak
compare-and-swaps whose values agree. -/
theorem history_is_flat (hempty : m.table = {}) (hfit : m.host.Fits) {is : List Issue}
    (hin : ∀ i ∈ is, ∀ l ∈ i.op.locations, m.host.Covers l)
    (hone : ∀ i ∈ is, i.thread = t ∧ i.flags.bypassed = false ∧ i.op.isNotice = false) :
    Flat.Run m.minOrder ⟨m.host.image, m.host.trace⟩
      ((m.history is).map fun e => (e.1.op, e.2.1, e.2.2.flat t)) :=
  (sees_of_empty hempty hfit t).history hin hone

/-- Stores of 32, 12 and 20 bits to the same bytes with room for one of them, read back in part, and
a weak compare-and-swap that fails once and then swaps. -/
theorem history_is_flat_overlapping :
    let x : Location := ⟨⟨0x10000000⟩, 32⟩
    let y : Location := ⟨⟨0x10000001⟩, 12⟩
    let z : Location := ⟨⟨0x10000002⟩, 20⟩
    let ops : List Op :=
      [.store x 0x44332211 .monotonic, .store y 0xfabc .release, .load z .monotonic,
        .store z 0xfff12345 .monotonic, .load x .acquire, .fence .release,
        .cas y 0xf5bc 7 (.acquire ||| .weakCas) .monotonic, .cas y 0x5bc 7 .weakCas .monotonic,
        .cas y 0xabc 8 .seqCst .monotonic, .debugFence, .load x .seqCst]
    let m := create { capacity := 1 } ((Scripted.create 16).withScript [1])
    let is : List Issue := ops.map fun op => { thread := ⟨1⟩, op }
    m.outcomes is = [.ok .done, .ok .done, .ok (.value 0x440a), .ok .done,
      .ok (.value 0x2345bc11), .ok .done, .ok (.swap 0x5bc false), .ok (.swap 7 true),
      .ok (.swap 7 false), .ok .done, .ok (.value 0x23000711)] ∧
    Flat.Run m.minOrder ⟨m.host.image, m.host.trace⟩
      ((m.history is).map fun e => (e.1.op, e.2.1, e.2.2.flat ⟨1⟩)) :=
  ⟨by decide +kernel, history_is_flat rfl (by unfold Scripted.Fits; decide) (by decide +kernel)
    (by decide +kernel)⟩

end StoreBuffer.Machine
