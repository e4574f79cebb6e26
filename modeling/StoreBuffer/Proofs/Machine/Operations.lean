import StoreBuffer.Proofs.Machine.Draining
import StoreBuffer.Proofs.Machine.Pushing
import StoreBuffer.Proofs.Machine.Run

/-! # Operations on the reference machine

Every operation that succeeds has the effect that the reference machine allows it, at some moment
between drains. `Machine.Moves` says that the drains before, the effect and the drains after lead
from one machine to another. -/

namespace StoreBuffer.Machine

variable {m m' m'' : Machine Scripted} {E E' : Tso → Tso → Prop}

/-- Drains, something that `E` allows, and drains again lead from `m` to `m'`. -/
structure Moves (E : Tso → Tso → Prop) (m m' : Machine Scripted) : Prop where
  sound : m'.Sound
  steps : ∃ x y, Tso.Drains m.tso x ∧ E x y ∧ Tso.Drains y m'.tso
  config : m'.config = m.config
  size : m'.host.arena.size = m.host.arena.size

theorem Moves.mono (h : Moves E m m') (hE : ∀ x y, E x y → E' x y) : Moves E' m m' := by
  obtain ⟨x, y, hx, hxy, hy⟩ := h.steps
  exact ⟨h.sound, ⟨x, y, hx, hE x y hxy, hy⟩, h.config, h.size⟩

theorem Reaches.thread (h : m.Reaches m') : m'.host.thread = m.host.thread := by
  show m'.host.still.thread = m.host.still.thread
  rw [h.still]

theorem Reaches.size (h : m.Reaches m') : m'.host.arena.size = m.host.arena.size :=
  Scripted.size_of_still h.still

theorem Reaches.covers (h : m.Reaches m') {l : Location} (hc : m.host.Covers l) :
    m'.host.Covers l := (Scripted.covers_congr h.size l).mpr hc

theorem Reaches.moves (h : m.Reaches m') (hE : E m'.tso m'.tso) : Moves E m m' :=
  ⟨h.sound, ⟨_, _, h.drains, hE, .refl⟩, h.config, h.size⟩

theorem Reaches.then (h : m.Reaches m') (h' : Moves E m' m'') : Moves E m m'' := by
  obtain ⟨x, y, hx, hxy, hy⟩ := h'.steps
  exact ⟨h'.sound, ⟨x, y, h.drains.trans hx, hxy, hy⟩, h'.config.trans h.config,
    h'.size.trans h.size⟩

theorem Moves.then (h : Moves E m m') (h' : m'.Reaches m'') : Moves E m m'' := by
  obtain ⟨x, y, hx, hxy, hy⟩ := h.steps
  exact ⟨h'.sound, ⟨x, y, hx, hxy, hy.trans h'.drains⟩, h'.config.trans h.config,
    h'.size.trans h.size⟩

/-- Counting and logging is invisible. -/
theorem Reaches.of_eq (h : m.Sound) (htable : m'.table = m.table) (hhost : m'.host = m.host)
    (hconfig : m'.config = m.config) : m.Reaches m' := by
  have htso := tso_congr htable (congrArg Scripted.arena hhost)
  refine ⟨h.congr htable (congrArg Scripted.arena hhost), ?_, hconfig, congrArg Scripted.still hhost⟩
  rw [htso]

theorem reaches_noteOperation (h : m.Sound) (e : Event) : m.Reaches (m.noteOperation e) := by
  unfold noteOperation
  split
  · exact .of_eq h rfl rfl rfl
  · exact .refl h

/-- The machine with the mask flag raised. -/
abbrev held (m : Machine Scripted) : Machine Scripted := m.withHost (Host.hold m.host).2

theorem Sound.held (h : m.Sound) : m.held.Sound := h.congr rfl rfl

theorem masked_fst {α : Type} (body : Bool → Machine Scripted → α × Machine Scripted) :
    (m.masked body).1 = (body m.host.flags.bypassed m.held).1 := rfl

theorem masked_table {α : Type} (body : Bool → Machine Scripted → α × Machine Scripted) :
    (m.masked body).2.table = (body m.host.flags.bypassed m.held).2.table := rfl

theorem masked_tso {α : Type} (body : Bool → Machine Scripted → α × Machine Scripted) :
    (m.masked body).2.tso = (body m.host.flags.bypassed m.held).2.tso := rfl

/-- What a body does while the mask flag is raised is done by the whole. -/
theorem Moves.masked {α : Type} {body : Bool → Machine Scripted → α × Machine Scripted}
    (h : Moves E m.held (body m.host.flags.bypassed m.held).2) : Moves E m (m.masked body).2 :=
  ⟨h.sound.congr rfl rfl, h.steps, h.config, h.size⟩

/-! ## Stores -/

theorem sound_storeDirect (h : m.Sound) (w : Write) : (m.storeDirect w).Sound :=
  h.of_subset h.owners (Scripted.size_of_still (Scripted.still_storeAll [w] m.host)) fun _ _ => id

theorem size_storeDirect (w : Write) :
    (m.storeDirect w).host.arena.size = m.host.arena.size :=
  Scripted.size_of_still (Scripted.still_storeAll [w] m.host)

theorem tso_storeDirect {l : Location} (hv : Width.Valid l.width) (hc : m.host.Covers l)
    (value : UInt64) : (m.storeDirect ⟨l, value⟩).tso = m.tso.assign (l.holding value) :=
  Tso.ext (Scripted.image_store (w := ⟨l, value⟩) hv hc) fun _ => rfl

theorem pendingWrite?_numbered_store {l : Location} (hv : Width.Valid l.width) {value : UInt64}
    {order : Order} {line : Line} (h : m.numbered (.store l value order) = .ok line) :
    line.pendingWrite? = some (l.holding value) := by
  rw [pendingWrite?_numbered h, ← Write.ofStore_eq_holding hv]
  rfl

/-- The machine once a line is pushed and before anything is evicted. -/
def appended (t : ThreadId) (l : Line) (m : Machine Scripted) : Machine Scripted :=
  let m := m.note (.pushed t l)
  let m := if l.isStore then m.count fun s => { s with storesBuffered := s.storesBuffered + 1 }
    else m
  m.withTable (m.table.append t l)

theorem pushLine_eq (t : ThreadId) (l : Line) (m : Machine Scripted) :
    m.pushLine t l = ((m.appended t l).evictExcess t).withTable
      ((m.appended t l).evictExcess t).table.prune := rfl

theorem table_appended (t : ThreadId) (l : Line) :
    (m.appended t l).table = m.table.append t l := by
  unfold appended
  dsimp only
  split <;> rfl

theorem host_appended (t : ThreadId) (l : Line) : (m.appended t l).host = m.host := by
  unfold appended
  dsimp only
  split <;> rfl

theorem config_appended (t : ThreadId) (l : Line) : (m.appended t l).config = m.config := by
  unfold appended
  dsimp only
  split <;> rfl

theorem sound_appended (h : m.Sound) {t : ThreadId} {l : Line}
    (hl : ∀ w, l.pendingWrite? = some w → m.host.Accepts w) : (m.appended t l).Sound := by
  refine ⟨?_, ?_, ?_⟩
  · rw [table_appended]
    exact Table.nodup_owners_append h.owners t l
  · rw [host_appended]
    exact h.fits
  · intro u v hv
    rw [table_appended, Table.pending_append] at hv
    rw [host_appended]
    split at hv
    · rcases List.mem_append.mp hv with hv | hv
      · exact h.accepted u v hv
      · exact hl v (Option.mem_toList.mp hv)
    · exact h.accepted u v hv

theorem tso_appended {t : ThreadId} {l : Line} {w : Write} (hl : l.pendingWrite? = some w) :
    (m.appended t l).tso = m.tso.enqueue t w := by
  apply Tso.ext
  · show (m.appended t l).host.image = m.host.image
    rw [host_appended]
  · intro u
    show (m.appended t l).table.pending u =
      Function.update m.table.pending t (m.table.pending t ++ [w]) u
    rw [table_appended, Table.pending_append, hl, Function.update_apply]
    split
    · rename_i hu
      rw [hu]
      rfl
    · rfl

theorem moves_pushLine (h : m.Sound) {t : ThreadId} {l : Line} {w : Write}
    (hl : l.pendingWrite? = some w) (hw : m.host.Accepts w) :
    Moves (fun x y => x = m.tso ∧ y = x.enqueue t w) m (m.pushLine t l) := by
  have happended : (m.appended t l).Sound := by
    apply sound_appended h
    intro v hv
    rw [hl] at hv
    cases hv
    exact hw
  have hevict := reaches_evictExcess happended t
  have hlast := hevict.trans (reaches_prune hevict.sound)
  have hconfig := config_appended (m := m) t l
  have hhost := host_appended (m := m) t l
  rw [pushLine_eq]
  exact ⟨hlast.sound, ⟨m.tso, _, .refl, ⟨rfl, tso_appended hl⟩, hlast.drains⟩,
    hlast.config.trans hconfig, hlast.size.trans (congrArg (·.arena.size) hhost)⟩

/-- A store that is not refused. -/
theorem moves_storeAs (h : m.Sound) {l : Location} (hc : m.host.Covers l) {value : UInt64}
    {order : Order} {direct : Bool} (hok : (m.storeAs l value order direct).1 = .ok ()) :
    Moves (fun x y => x = m.tso ∧ y = x.store m.host.thread direct order (l.holding value)) m
      (m.storeAs l value order direct).2 := by
  unfold storeAs at hok ⊢
  cases hcheck : l.check with
  | error f => simp [hcheck] at hok
  | ok u =>
    have hv := ((Location.check_eq_ok_iff l).mp hcheck).2
    simp only [hcheck] at hok ⊢
    cases direct with
    | true =>
      refine ⟨sound_storeDirect h _, ⟨m.tso, _, .refl, ⟨rfl, rfl⟩, ?_⟩, rfl, size_storeDirect _⟩
      have htso : (m.storeDirect ⟨l, value⟩).tso =
          m.tso.store m.host.thread true order (l.holding value) := tso_storeDirect hv hc value
      simp only [if_true]
      rw [htso]
    | false =>
      cases hseq : order.isSeqCst with
      | true =>
        have hflush := reaches_flush h m.thread
        have hcov := hflush.covers hc
        refine ⟨sound_storeDirect hflush.sound _, ⟨m.tso, _, .refl, ⟨rfl, rfl⟩, ?_⟩, hflush.config,
          (size_storeDirect _).trans hflush.size⟩
        have htso : ((m.flush m.thread).storeDirect ⟨l, value⟩).tso =
            m.tso.store m.host.thread false order (l.holding value) := by
          rw [tso_storeDirect hv hcov, tso_flush h, Tso.store, hseq]
          rfl
        simp only [Bool.false_eq_true, if_false, if_true]
        rw [htso]
      | false =>
        simp only [hseq, Bool.false_eq_true, if_false] at hok ⊢
        unfold push at hok ⊢
        cases hn : m.numbered (.store l value order) with
        | error f => simp [hn] at hok
        | ok line =>
          have hline := pendingWrite?_numbered_store hv hn
          refine (moves_pushLine h hline (Scripted.accepts_holding hv hc value)).mono ?_
          rintro x y ⟨rfl, rfl⟩
          rw [Tso.store, hseq]
          exact ⟨rfl, rfl⟩

/-- A refused store has changed nothing. -/
theorem storeAs_error {l : Location} {value : UInt64} {order : Order} {direct : Bool} {f : Fault}
    (herr : (m.storeAs l value order direct).1 = .error f) :
    (m.storeAs l value order direct).2 = m := by
  unfold storeAs push at herr ⊢
  repeat' split at herr
  all_goals first | contradiction | simp_all

/-! ## Loads -/

theorem reaches_forward (h : m.Sound) (t : ThreadId) (l : Location) (v : UInt64) :
    m.Reaches (m.forward t l v).2 := by
  unfold forward
  repeat' split
  all_goals exact .of_eq h rfl rfl rfl

theorem tso_forward (t : ThreadId) (l : Location) (v : UInt64) :
    (m.forward t l v).2.tso = m.tso := by
  unfold forward
  repeat' split
  all_goals rfl

theorem host_forward (u : ThreadId) (l : Location) (v : UInt64) (m : Machine Scripted) :
    (m.forward u l v).2.host = m.host := by
  unfold forward
  repeat' split
  all_goals rfl

theorem table_forward (u : ThreadId) (l : Location) (v : UInt64) (m : Machine Scripted) :
    (m.forward u l v).2.table = m.table := by
  unfold forward
  repeat' split
  all_goals rfl

theorem config_forward (u : ThreadId) (l : Location) (v : UInt64) (m : Machine Scripted) :
    (m.forward u l v).2.config = m.config := by
  unfold forward
  repeat' split
  all_goals rfl

/-- The machine once a load of the running thread has resolved the stores of the other threads. -/
def resolved (l : Location) (m : Machine Scripted) : Machine Scripted :=
  let m := m.count fun s => { s with loads := s.loads + 1 }
  if m.table.hasForeign m.thread then m.resolve m.thread l false else m

theorem reaches_resolved (h : m.Sound) (l : Location) : m.Reaches (m.resolved l) := by
  have hcount : m.Reaches (m.count fun s => { s with loads := s.loads + 1 }) :=
    .of_eq h rfl rfl rfl
  unfold resolved
  dsimp only
  split
  · exact hcount.trans (reaches_resolve hcount.sound ..)
  · exact hcount

/-- A load that is not bypassed resolves, reads memory, and lays the thread's own stores over it. -/
theorem loadAs_plain {l : Location} (hok : l.check = .ok ()) : m.loadAs l false =
    let r := Memory.load l (m.resolved l).host
    let f := ((m.resolved l).withHost r.2).forward m.thread l r.1
    (.ok f.1, f.2) := by
  unfold loadAs
  rw [hok]
  rfl

theorem loadAs_buffered (h : m.Sound) {l : Location} (hok : l.check = .ok ())
    (hc : m.host.Covers l) : m.loadAs l false =
      (.ok ((m.resolved l).forward m.thread l ((m.resolved l).host.image.read l)).1,
        ((m.resolved l).forward m.thread l ((m.resolved l).host.image.read l)).2) := by
  have hr := reaches_resolved h l
  have hcov := hr.covers hc
  have hload := Scripted.load_eq hr.sound.fits ((Location.check_eq_ok_iff l).mp hok).2 hcov
  rw [loadAs_plain hok, hload]
  rfl

/-- A load drains, then finds what the reference machine finds. -/
theorem reaches_loadAs (h : m.Sound) {l : Location} (hc : m.host.Covers l) {direct : Bool}
    {v : UInt64} (hok : (m.loadAs l direct).1 = .ok v) : m.Reaches (m.loadAs l direct).2 ∧
      v = (m.loadAs l direct).2.tso.load m.host.thread direct l := by
  cases hcheck : l.check with
  | error f => simp [loadAs, hcheck] at hok
  | ok u =>
    have hv := ((Location.check_eq_ok_iff l).mp hcheck).2
    cases direct with
    | true =>
      have hload : Memory.load l m.host = (m.tso.memory.read l, m.host) :=
        Scripted.load_eq h.fits hv hc
      have heq : m.loadAs l true =
          (.ok (m.tso.memory.read l), m.count fun s => { s with loads := s.loads + 1 }) := by
        unfold loadAs
        rw [hcheck]
        simp only [if_true, count, withHost, hload]
      rw [heq] at hok ⊢
      cases hok
      exact ⟨.of_eq h rfl rfl rfl, rfl⟩
    | false =>
      have hr := reaches_resolved h l
      have hl := Scripted.location_fits h.fits hc
      rw [loadAs_buffered h hcheck hc] at hok ⊢
      cases hok
      refine ⟨hr.trans (reaches_forward hr.sound ..), ?_⟩
      rw [tso_forward]
      exact forward_value hl hv (hr.sound.placed _) _

/-! ## Compare-and-swap -/

/-- The second half of a compare-and-swap is a choice to fail or a store. -/
theorem swapAs_cases (h : m.Sound) (l : Location) (expected value observed : UInt64)
    (order : Order) (direct : Bool) : ∃ m₁ e, m.Reaches m₁ ∧ m₁.table = m.table ∧
      m₁.tso = m.tso ∧
      (m.swapAs l expected value observed order direct = (.ok (observed, false), m₁) ∧
          direct = false ∧ order.isWeakCas = true ∨
        (∃ f, (m₁.storeAs l value (order ||| .atomicOp) direct).1 = .error f ∧
          m.swapAs l expected value observed order direct =
            (.error f, (m₁.storeAs l value (order ||| .atomicOp) direct).2)) ∨
        (m₁.storeAs l value (order ||| .atomicOp) direct).1 = .ok () ∧
          m.swapAs l expected value observed order direct =
            (.ok (Width.truncate l.width value, true),
              (m₁.storeAs l value (order ||| .atomicOp) direct).2.noteOperation e)) := by
  unfold swapAs
  dsimp only
  have hchoice : m.Reaches (m.withHost
      (if (!direct && order.isWeakCas) = true then Host.choose 2 m.host else (0, m.host)).2) := by
    split
    · exact .of_drains h h.owners .refl rfl rfl
    · exact .refl h
  have htso : (m.withHost (if (!direct && order.isWeakCas) = true then Host.choose 2 m.host
      else (0, m.host)).2).tso = m.tso := by
    split <;> rfl
  have hweak (hfail : (if (!direct && order.isWeakCas) = true then Host.choose 2 m.host
      else (0, m.host)).1 = 1) : direct = false ∧ order.isWeakCas = true := by
    split at hfail
    · rename_i hw
      simpa using hw
    · contradiction
  generalize (if (!direct && order.isWeakCas) = true then Host.choose 2 m.host
    else (0, m.host)) = choice at hchoice htso hweak ⊢
  by_cases hfail : choice.1 = 1
  · rw [if_pos hfail]
    have hcount : m.Reaches ((m.withHost choice.2).count fun s =>
        { s with casSpuriousFailures := s.casSpuriousFailures + 1 }) :=
      hchoice.trans (.of_eq hchoice.sound rfl rfl rfl)
    have hnote := hcount.trans (reaches_noteOperation hcount.sound
      (.casFailedSpuriously m.thread l.addr observed))
    refine ⟨_, .casFailed m.thread l.addr expected observed order, hnote, ?_, ?_,
      .inl ⟨rfl, hweak hfail⟩⟩
    · unfold noteOperation
      split <;> rfl
    · unfold noteOperation
      split <;> exact htso
  · rw [if_neg hfail]
    refine ⟨m.withHost choice.2, .casDone m.thread l.addr expected value order, hchoice, rfl, htso,
      .inr ?_⟩
    cases hs : (m.withHost choice.2).storeAs l value (order ||| .atomicOp) direct with
    | mk r m' =>
      cases r with
      | error f => exact .inl ⟨f, rfl, rfl⟩
      | ok u => exact .inr ⟨rfl, rfl⟩

/-- The second half of a compare-and-swap whose values agree. -/
theorem moves_swapAs (h : m.Sound) {l : Location} (hc : m.host.Covers l)
    {expected value observed : UInt64} {order : Order} {direct : Bool} {a : UInt64 × Bool}
    (hok : (m.swapAs l expected value observed order direct).1 = .ok a) :
    Moves (fun x y => x = m.tso ∧
        (a = (Width.truncate l.width value, true) ∧
            y = x.store m.host.thread direct (order ||| .atomicOp) (l.holding value) ∨
          a = (observed, false) ∧ direct = false ∧ order.isWeakCas = true ∧ y = x)) m
      (m.swapAs l expected value observed order direct).2 := by
  obtain ⟨m₁, e, hr, -, htso, ⟨heq, hfail⟩ | ⟨f, herr, heq⟩ | ⟨hstore, heq⟩⟩ :=
    swapAs_cases h l expected value observed order direct
  · rw [heq] at hok ⊢
    cases hok
    exact hr.moves ⟨htso, .inr ⟨rfl, hfail.1, hfail.2, rfl⟩⟩
  · rw [heq] at hok
    contradiction
  · have hmoves := moves_storeAs hr.sound (hr.covers hc) hstore
    rw [heq] at hok ⊢
    cases hok
    refine hr.then ((hmoves.then (reaches_noteOperation hmoves.sound _)).mono ?_)
    rintro x y ⟨hx, hy⟩
    rw [hr.thread] at hy
    exact ⟨hx.trans htso, .inl ⟨rfl, hy⟩⟩

/-! ## Discarding -/

theorem owners_discardRange (h : m.table.owners.Nodup) (only : Option ThreadId) (range : Region) :
    (m.discardRange only range).2.table.owners.Nodup :=
  (sheds_discardRange only range m).owners h

theorem config_discardRange (only : Option ThreadId) (range : Region) :
    (m.discardRange only range).2.config = m.config := (sheds_discardRange only range m).config

theorem sound_discardRange (h : m.Sound) (only : Option ThreadId) (range : Region) :
    (m.discardRange only range).2.Sound := by
  refine h.of_subset (owners_discardRange h.owners only range) ?_ ?_
  · rw [host_discardRange]
  · intro u w hw
    rw [pending_discardRange h.owners] at hw
    split at hw
    · exact (List.mem_filter.mp hw).1
    · exact hw

theorem tso_discardRange_self (h : m.Sound) (t : ThreadId) (range : Region) :
    (m.discardRange (some t) range).2.tso =
      m.tso.discard t fun w => !range.contains w.loc.addr := by
  apply Tso.ext
  · show (m.discardRange (some t) range).2.host.image = m.host.image
    rw [host_discardRange]
  · intro u
    show (m.discardRange (some t) range).2.table.pending u = _
    rw [pending_discardRange h.owners]
    by_cases hu : u = t
    · subst hu
      simp [tso, Tso.discard]
    · simp [tso, Tso.discard, hu, Ne.symm hu]

theorem tso_discardRange_all (h : m.Sound) (range : Region) :
    (m.discardRange none range).2.tso =
      m.tso.discardAll fun w => !range.contains w.loc.addr := by
  apply Tso.ext
  · show (m.discardRange none range).2.host.image = m.host.image
    rw [host_discardRange]
  · intro u
    show (m.discardRange none range).2.table.pending u = _
    rw [pending_discardRange h.owners]
    rfl

/-- The stores into the objects disappear, up to the first pointer to none. -/
theorem dropObjects_spec (h : m.Sound) (t : ThreadId) (ptrs : List Addr) :
    ∃ n, ((m.dropObjects t ptrs).1 = .ok () → ptrs.length ≤ n) ∧
      (m.dropObjects t ptrs).2.Sound ∧
      (m.dropObjects t ptrs).2.tso =
        m.tso.discard t (fun w => !Tso.released m.host.objects (ptrs.take n) w.loc.addr) ∧
      (m.dropObjects t ptrs).2.config = m.config ∧ (m.dropObjects t ptrs).2.host = m.host := by
  induction ptrs generalizing m with
  | nil =>
    refine ⟨0, fun _ => Nat.le_refl 0, h, ?_, rfl, rfl⟩
    exact (Tso.discard_true ..).symm
  | cons p rest ih =>
    unfold dropObjects
    dsimp only
    cases hobj : (Host.objectAt p m.host).1 with
    | none =>
      refine ⟨0, fun hok => ?_, h, ?_, rfl, rfl⟩
      · contradiction
      · exact (Tso.discard_true ..).symm
    | some object =>
      let m₁ := (m.discardRange (some t) object).2.note
        (.cleanedUp t object (m.discardRange (some t) object).1)
      have h₁ : m₁.Sound := (sound_discardRange h (some t) object).congr rfl rfl
      have hhost : m₁.host = m.host := host_discardRange (some t) object
      obtain ⟨n, hall, hsound, htso, hconfig, hsame⟩ := ih h₁
      refine ⟨n + 1, fun hok => Nat.succ_le_succ (hall hok), hsound, ?_, ?_, ?_⟩
      · have hone : m₁.tso = m.tso.discard t fun w => !object.contains w.loc.addr :=
          tso_discardRange_self h t object
        have hcontaining : m.host.objects.containing? p = some object := hobj
        refine htso.trans ?_
        rw [hone, hhost, Tso.discard_discard]
        congr 1
        funext w
        simp [Tso.released, hcontaining]
      · exact hconfig.trans (config_discardRange (some t) object)
      · exact hsame.trans hhost

end StoreBuffer.Machine
