import StoreBuffer.Proofs.Machine.Lagging

/-! # Issues of a lagging machine

What an issue does to a machine that lags behind the reference machine. A store gets its numbers,
stands behind the other lines of its thread, and what the reference machine has drained since makes
room for it (`Lags.gives_storeAs`). A load finds all paid off that is owed to its location
(`Lags.gives_loadAs`). Either way some answers of the host make the machine answer as the reference
machine does, and lag behind it as before (`Lags.gives_issue`). -/

namespace StoreBuffer

namespace Table

/-- There is a number if no line at another location is in the way and those at the location have
not used up all. -/
theorem exists_nextAtomicNo {t : Table} {l : Location} {n : Nat}
    (hclash : ∀ k ∈ t.lines, k.clash? l = none)
    (hle : ∀ k ∈ t.lines, k.loc? = some l → k.atomicNo ≤ n) (hn : (n : Int) < Counter.greatest) :
    ∃ a, t.nextAtomicNo l = .ok a ∧ a ≤ n + 1 := by
  have hmax (ns : List Int) (a : Int) (ha : a ≤ n) (hns : ∀ b ∈ ns, b ≤ n) :
      ns.foldl max a ≤ n := by
    induction ns generalizing a with
    | nil => exact ha
    | cons b rest ih =>
      refine ih (max a b) ?_ fun c hc => hns c (List.mem_cons_of_mem b hc)
      have hb := hns b (List.mem_cons_self ..)
      omega
  have hgreatest : ((t.lines.filter (·.isAt l)).map (·.atomicNo)).foldl max 0 ≤ n := by
    refine hmax _ 0 (Int.natCast_nonneg n) fun b hb => ?_
    obtain ⟨k, hk, rfl⟩ := List.mem_map.mp hb
    obtain ⟨hk, hat⟩ := List.mem_filter.mp hk
    exact hle k hk (by simpa [Line.isAt] using hat)
  refine ⟨((t.lines.filter (·.isAt l)).map (·.atomicNo)).foldl max 0 + 1, ?_, by omega⟩
  rw [nextAtomicNo_eq, List.findSome?_eq_none_iff.mpr hclash]
  exact if_pos (by omega)

end Table

namespace Machine

variable {c : Config} {is past : List Issue} {room : ThreadId → Nat} {d : Debt}
  {m m' : Machine Scripted} {s s' : Tso} {i : Issue}

theorem Lags.congr (h : Lags c is past room d m s) (htable : m'.table = m.table)
    (harena : m'.host.arena = m.host.arena) (hconfig : m'.config = m.config) :
    Lags c is past room d m' s := by
  refine ⟨h.sound.congr htable harena, hconfig.trans h.config, fun j hj l hl => ?_, h.issued, ?_,
    fun t => ?_, fun t => ?_⟩
  · exact (Scripted.covers_congr (congrArg Arena.size harena) l).mpr (h.covers j hj l hl)
  · rw [tso_congr htable harena]
    exact h.owes
  · rw [htable]
    exact h.queue t
  · rw [htable]
    exact h.lines t

/-- For some answers `f` gives `a` and leads from `m` to a machine with `P`, whatever the host
answers then. -/
def Gives {α : Type} (f : Machine Scripted → α × Machine Scripted) (m : Machine Scripted) (a : α)
    (P : Machine Scripted → Prop) : Prop :=
  ∃ answers m', (∀ more, f (m.answering (answers ++ more)) = (a, m'.answering more)) ∧ P m'

namespace Gives

variable {α β : Type} {f : Machine Scripted → α × Machine Scripted} {a : α}
  {P Q : Machine Scripted → Prop}

theorem mono (h : Gives f m a P) (hPQ : ∀ m', P m' → Q m') : Gives f m a Q := by
  obtain ⟨answers, m', hm', hP⟩ := h
  exact ⟨answers, m', hm', hPQ m' hP⟩

/-- Another function does the same at another machine. -/
theorem congr {g : Machine Scripted → α × Machine Scripted} (h : Gives f m a P)
    (hfg : ∀ answers, g (m'.answering answers) = f (m.answering answers)) : Gives g m' a P := by
  obtain ⟨answers, m', hm', hP⟩ := h
  exact ⟨answers, m', fun more => (hfg _).trans (hm' more), hP⟩

theorem map (h : Gives f m a P) (g : α → β) :
    Gives (fun m => (g (f m).1, (f m).2)) m (g a) P := by
  obtain ⟨answers, m', hm', hP⟩ := h
  exact ⟨answers, m', fun more => by simp only [hm'], hP⟩

theorem masked {body : Bool → Machine Scripted → α × Machine Scripted}
    (h : Gives (body m.host.flags.bypassed) m.held a P)
    (hP : ∀ m', P m' → P (m'.withHost (Host.release m.host.flags m'.host))) :
    Gives (Machine.masked body) m a P := by
  obtain ⟨answers, m', hm', hP'⟩ := h
  refine ⟨answers, _, fun more => ?_, hP m' hP'⟩
  have hbody : body m.host.flags.bypassed (m.answering (answers ++ more)).held =
    (a, m'.answering more) := hm' more
  show ((body m.host.flags.bypassed (m.answering (answers ++ more)).held).1,
    (body m.host.flags.bypassed (m.answering (answers ++ more)).held).2.withHost (Host.release
      m.host.flags (body m.host.flags.bypassed (m.answering (answers ++ more)).held).2.host)) = _
  rw [hbody]
  rfl

end Gives

theorem appended_answering (t : ThreadId) (line : Line) (answers : List Nat) :
    (m.answering answers).appended t line = (m.appended t line).answering answers := by
  unfold appended
  dsimp only
  split <;> rfl

theorem noteOperation_answering (e : Event) (answers : List Nat) :
    (m.answering answers).noteOperation e = (m.noteOperation e).answering answers := by
  unfold noteOperation
  show (if m.config.traceOperations then _ else _) = _
  split <;> rfl

theorem Lags.pruned (h : Lags c is past room d m s) :
    Lags c is past room d (m.withTable m.table.prune) s := by
  have htso : (m.withTable m.table.prune).tso = m.tso :=
    Tso.ext rfl fun t => Table.pending_prune h.sound.owners t
  refine ⟨(reaches_prune h.sound).sound, h.config, h.covers, h.issued, htso ▸ h.owes,
    fun t => ?_, fun t => ?_⟩
  · show (m.table.prune.pending t).Sublist _
    rw [Table.pending_prune h.sound.owners]
    exact h.queue t
  · show Line.Orderly _ _ _ (m.table.prune.linesOf t)
    rw [Table.linesOf_prune h.sound.owners]
    exact h.lines t

theorem Lags.fit (h : Lags c is past room d m s) {room' : ThreadId → Nat}
    (hfits : ∀ t, m.storesOf t ≤ room' t) : Lags c is past room' d m s :=
  { h with lines := fun t => ⟨(h.lines t).committed, hfits t, (h.lines t).numbered⟩ }

theorem forward_answering (t : ThreadId) (l : Location) (v : UInt64) (answers : List Nat) :
    (m.answering answers).forward t l v =
      ((m.forward t l v).1, (m.forward t l v).2.answering answers) := by
  have htable : (m.answering answers).table = m.table := rfl
  rw [forward, forward, htable]
  cases m.table.buffer? t with
  | none => rfl
  | some b =>
    cases hs : b.shortcut? l with
    | none => simp only [hs]
    | some value =>
      simp only [hs]
      rfl

theorem Lags.forwarded (h : Lags c is past room d m s) (t : ThreadId) (l : Location) (v : UInt64) :
    Lags c is past room d (m.forward t l v).2 s := by
  unfold forward
  repeat' split
  all_goals exact h.congr rfl rfl rfl

/-- A thread that loads has nothing pending. -/
theorem Lags.pending_reader (h : Lags c is past room d m s) (hplain : Program.Plain c.minOrder is)
    (hi : i ∈ is) (hload : i.op.stored = []) : m.table.pending i.thread = [] := by
  have hnone : Program.writes i.thread is = [] := by
    refine List.eq_nil_iff_forall_not_mem.mpr fun w hw => ?_
    obtain ⟨j, hj, hthread, hstored⟩ := Program.stored_of_mem_writes hw
    rw [hplain.loaders i hi j hj hthread.symm hload] at hstored
    contradiction
  exact List.sublist_nil.mp (hnone ▸ h.queue_all i.thread)

/-- Without slots of other threads nothing is owed. -/
theorem Lags.eq_nil (h : Lags c is past room d m s) {t : ThreadId}
    (hreader : m.table.pending t = []) (hforeign : m.table.hasForeign t = false) : d = [] := by
  refine List.eq_nil_iff_forall_not_mem.mpr fun e he => ?_
  have hmem : e.2 ∈ m.table.pending e.1 := h.owes.mem_queue he
  by_cases het : e.1 = t
  · rw [het, hreader] at hmem
    contradiction
  · obtain ⟨slot, hslot, howner⟩ := Table.exists_slot (t := m.table) (o := e.1) (by
      intro hnil
      simp [Table.pending, hnil] at hmem)
    have hnone := List.any_eq_false.mp hforeign slot hslot
    simp [howner, het] at hnone

theorem Lags.noted (h : Lags c is past room d m s) (e : Event) :
    Lags c is past room d (m.noteOperation e) s := by
  unfold noteOperation
  split
  · exact h.congr rfl rfl rfl
  · exact h

theorem Lags.prepared (h : Lags c is past room d m s) (i : Issue) :
    Lags c is past room d (m.withHost (m.host.prepare i)) s := h.congr rfl rfl rfl

theorem Lags.held (h : Lags c is past room d m s) : Lags c is past room d m.held s :=
  h.congr rfl rfl rfl

theorem Lags.extended (h : Lags c is past room d m s) (hnext : (past ++ [i]).Sublist is) :
    Lags c is (past ++ [i]) room d m s := by
  have hmore : past.Sublist (past ++ [i]) := List.sublist_append_left ..
  exact ⟨h.sound, h.config, h.covers, hnext, h.owes,
    fun t => (h.queue t).trans (hmore.filterMap _),
    fun t => (h.lines t).mono (Nat.le_refl _) fun _ => hmore.countP_le⟩

/-! ## Stores -/

section Plain

variable (hplain : Program.Plain c.minOrder is) (hstays : Program.Stays is)
  (hbounded : Program.Bounded c is)

include hplain in
/-- No pending or committed line clashes with a location of the program. -/
theorem Lags.clash?_eq_none (h : Lags c is past room d m s) (hi : i ∈ is) {l : Location}
    (hl : l ∈ i.op.locations) {k : Line} (hk : k ∈ m.table.lines) : k.clash? l = none := by
  obtain ⟨o, hk⟩ := Table.mem_linesOf_of_mem_lines h.sound.owners hk
  unfold Line.clash?
  cases hloc : k.loc? with
  | none => simp
  | some q =>
    obtain ⟨j, hj, hq⟩ := List.mem_flatMap.mp ((h.lines o).numbered k hk q hloc).1
    have hno : q.clashes l = false := by
      rcases hplain.apart j hj i hi q (Op.locations_of_stored hq) l hl with rfl | hno
      · simp [Location.clashes]
      · simp [Location.clashes, hno]
    simp [hno]

include hplain hbounded in
/-- A store of the program gets its numbers. -/
theorem Lags.exists_numbered (h : Lags c is past room d m s) (hnext : (past ++ [i]).Sublist is)
    {l : Location} {v : UInt64} {r : Order} (hop : i.op = .store l v r) :
    ∃ line, m.numbered (.store l v (r ||| c.minOrder)) = .ok line ∧
      line.pendingWrite? = some (l.holding v) ∧
      line.atomicNo ≤ ((past ++ [i]).countP (·.numbers c.minOrder l) : Nat) := by
  have hi : i ∈ is := hnext.subset (by simp)
  have hstored := Op.mem_stored hop
  have hvalid := (hplain.valid i hi l (Op.locations_of_stored hstored)).2
  have hseq := Issue.not_seqCst_of_plain (hplain.plain i hi) hop
  have hline : Line.store l v (r ||| c.minOrder) =
      { write? := some (l.holding v), order := r ||| c.minOrder } := by
    rw [Line.store, Write.ofStore_eq_holding hvalid]
  rw [hline]
  unfold numbered
  simp only [Line.loc?, Option.map_some, hseq]
  cases htag : (r ||| c.minOrder).isAtomicOp with
  | false =>
    refine ⟨_, rfl, rfl, ?_⟩
    exact Int.natCast_nonneg _
  | true =>
    have hone : (past ++ [i]).countP (·.numbers c.minOrder l) =
        past.countP (·.numbers c.minOrder l) + 1 := by
      simp [Issue.numbers, hop, htag]
    have hlt : (past.countP (·.numbers c.minOrder l) : Int) < Counter.greatest := by
      have hle := hnext.countP_le (p := (·.numbers c.minOrder l))
      have hgreatest := hbounded.numbers i hi l hstored
      omega
    have hbelow : ∀ k ∈ m.table.lines, k.loc? = some l →
        k.atomicNo ≤ (past.countP (·.numbers c.minOrder l) : Nat) := by
      intro k hk hloc
      obtain ⟨o, hk⟩ := Table.mem_linesOf_of_mem_lines h.sound.owners hk
      exact ((h.lines o).numbered k hk l hloc).2
    obtain ⟨a, ha, hle⟩ := Table.exists_nextAtomicNo (fun k hk =>
      h.clash?_eq_none hplain hi (Op.locations_of_stored hstored) hk) hbelow hlt
    have ha : m.table.nextAtomicNo (l.holding v).loc = .ok a := ha
    refine ⟨_, by rw [if_pos rfl, ha]; rfl, rfl, ?_⟩
    rw [hone]
    exact hle

include hplain in
/-- The new line stands behind the others, and may be one too many. -/
theorem Lags.appended (h : Lags c is past (fun _ => c.capacity) d m s)
    (hnext : (past ++ [i]).Sublist is) {l : Location} {v : UInt64} {r : Order}
    (hop : i.op = .store l v r) {line : Line} (hline : line.pendingWrite? = some (l.holding v))
    (hno : line.atomicNo ≤ ((past ++ [i]).countP (·.numbers c.minOrder l) : Nat)) :
    Lags c is (past ++ [i]) (fun t => if t = i.thread then c.capacity + 1 else c.capacity) d
      (m.appended i.thread line) (s.enqueue i.thread (l.holding v)) := by
  have hi : i ∈ is := hnext.subset (by simp)
  have hstored := Op.mem_stored hop
  have hvalid := (hplain.valid i hi l (Op.locations_of_stored hstored)).2
  have hcovers := h.covers i hi l (Op.locations_of_stored hstored)
  have hmore (k : Location) : past.countP (·.numbers c.minOrder k) ≤
      (past ++ [i]).countP (·.numbers c.minOrder k) := (List.sublist_append_left ..).countP_le
  refine ⟨?_, ?_, ?_, hnext, ?_, fun t => ?_, fun t => ?_⟩
  · refine sound_appended h.sound fun w hw => ?_
    rw [hline] at hw
    cases hw
    exact Scripted.accepts_holding hvalid hcovers v
  · rw [config_appended]
    exact h.config
  · rw [host_appended]
    exact h.covers
  · rw [tso_appended hline]
    exact h.owes.enqueue ..
  · rw [table_appended, Table.pending_append, hline, Program.writes, List.filterMap_append]
    by_cases ht : t = i.thread
    · subst ht
      have hlast : [i].filterMap (·.written? i.thread) = [l.holding v] := by
        simp [Issue.written?, hop]
      rw [if_pos rfl, hlast]
      exact (h.queue i.thread).append (.refl _)
    · rw [if_neg ht]
      exact (h.queue t).trans (List.sublist_append_left ..)
  · rw [table_appended, Table.linesOf_append]
    by_cases ht : t = i.thread
    · rw [if_pos ht, if_pos ht]
      obtain ⟨hnew, hwrite⟩ := Line.pendingWrite?_eq_some.mp hline
      refine ((h.lines t).mono (Nat.le_refl _) hmore).concat hnew fun k hk => ?_
      have hk : (l.holding v).loc = k := by simpa [Line.loc?, hwrite] using hk
      subst hk
      exact ⟨List.mem_flatMap.mpr ⟨i, hi, hstored⟩, hno⟩
    · rw [if_neg ht, if_neg ht]
      exact (h.lines t).mono (Nat.le_refl _) hmore

include hplain hstays hbounded

/-- Once a line is pushed, what the reference machine has drained makes room for it. -/
theorem Lags.may_pushLine (h : Lags c is past (fun _ => c.capacity) d m s)
    (hnext : (past ++ [i]).Sublist is) {l : Location} {v : UInt64} {r : Order}
    (hop : i.op = .store l v r) {line : Line} (hline : line.pendingWrite? = some (l.holding v))
    (hno : line.atomicNo ≤ ((past ++ [i]).countP (·.numbers c.minOrder l) : Nat))
    (hs : Tso.Drains (s.enqueue i.thread (l.holding v)) s')
    (hqueue : (s'.queue i.thread).length ≤ c.capacity) :
    May (pushLine i.thread line) m fun m' =>
      ∃ d', Lags c is (past ++ [i]) (fun _ => c.capacity) d' m' s' := by
  obtain ⟨d', happended⟩ := (h.appended hplain hnext hop hline hno).drains hs
  have hevict := happended.may_evictWhileOverdue hplain hstays hbounded
    (fun u hu => Nat.le_of_eq (if_neg hu)) hqueue
    ((m.appended i.thread line).table.linesOf i.thread).length
  have hfits := hevict.also (R := fun m' => m'.storesOf i.thread ≤ c.capacity) (fun answers => by
    have hfits := storesOf_evictExcess (happended.sound.answering answers) i.thread
    rwa [← happended.config]) fun _ _ => id
  obtain ⟨answers, m', hm', hlags⟩ := hfits.seq (g := fun m => m.withTable m.table.prune)
    (Q := fun m' => ∃ d', Lags c is (past ++ [i]) (fun _ => c.capacity) d' m' s')
    fun m' ⟨⟨d', hm'⟩, hown⟩ => by
      refine .of_free (fun _ => rfl) ⟨d', (hm'.fit fun t => ?_).pruned⟩
      by_cases ht : t = i.thread
      · subst ht
        exact hown
      · have hother := (hm'.lines t).fits
        rwa [if_neg ht] at hother
  refine ⟨answers, m', fun more => ?_, hlags⟩
  rw [pushLine_eq, appended_answering]
  exact hm' more

/-- A store is followed by what the reference machine drains. -/
theorem Lags.gives_storeAs (h : Lags c is past (fun _ => c.capacity) d m s)
    (hnext : (past ++ [i]).Sublist is) (hthread : m.host.thread = i.thread) {l : Location}
    {v : UInt64} {r : Order} (hop : i.op = .store l v r)
    (hs : Tso.Drains (s.enqueue i.thread (l.holding v)) s')
    (hqueue : (s'.queue i.thread).length ≤ c.capacity) :
    Gives (storeAs l v (r ||| c.minOrder) false) m (.ok ()) fun m' =>
      ∃ d', Lags c is (past ++ [i]) (fun _ => c.capacity) d' m' s' := by
  have hi : i ∈ is := hnext.subset (by simp)
  have hcheck := (Location.check_eq_ok_iff l).mpr
    (hplain.valid i hi l (Op.locations_of_stored (Op.mem_stored hop)))
  have hseq := Issue.not_seqCst_of_plain (hplain.plain i hi) hop
  obtain ⟨line, hnumbered, hline, hno⟩ := h.exists_numbered hplain hbounded hnext hop
  obtain ⟨answers, m', hm', hlags⟩ :=
    h.may_pushLine hplain hstays hbounded hnext hop hline hno hs hqueue
  refine ⟨answers, m', fun more => ?_, hlags⟩
  have hnumbered : (m.answering (answers ++ more)).numbered (.store l v (r ||| c.minOrder)) =
      .ok line := hnumbered
  have hpush : (m.answering (answers ++ more)).push (m.answering (answers ++ more)).thread
      (.store l v (r ||| c.minOrder)) = (.ok (), m'.answering more) := by
    unfold push
    rw [hnumbered, ← hm', ← hthread]
    rfl
  simp [storeAs, hcheck, hseq, hpush]

/-! ## Loads -/

/-- What a load of the program has resolved. -/
theorem Lags.may_resolved (h : Lags c is past (fun _ => c.capacity) d m s) (hi : i ∈ is)
    (hload : i.op.stored = []) (hthread : m.host.thread = i.thread) {l : Location}
    (hl : l ∈ i.op.locations) : May (resolved l) m fun m' =>
      ∃ d', Lags c is past (fun _ => c.capacity) d' m' s ∧ ∀ e ∈ d', e.2.loc ≠ l := by
  let m₁ := m.count fun s => { s with loads := s.loads + 1 }
  have h₁ : Lags c is past (fun _ => c.capacity) d m₁ s := h.congr rfl rfl rfl
  have hreader := h.pending_reader hplain hi hload
  cases hforeign : m.table.hasForeign i.thread with
  | false =>
    obtain rfl := h.eq_nil hreader hforeign
    refine ⟨[], m₁, fun more => ?_, [], h₁, nofun⟩
    unfold resolved
    show (if m.table.hasForeign m.host.thread = true then _ else _) = _
    rw [hthread, if_neg (by simp [hforeign])]
    rfl
  | true =>
    obtain ⟨answers, m', hm', hlags⟩ :=
      h₁.may_resolve hplain hstays hbounded (fun _ _ => Nat.le_refl _) hreader hi hl
    refine ⟨answers, m', fun more => ?_, hlags⟩
    unfold resolved
    show (if m.table.hasForeign m.host.thread = true then
      resolve m.host.thread l false (m₁.answering (answers ++ more)) else _) = _
    rw [hthread, if_pos hforeign, hm']

/-- A load finds what the reference machine finds. -/
theorem Lags.gives_loadAs (h : Lags c is past (fun _ => c.capacity) d m s) (hi : i ∈ is)
    (hload : i.op.stored = []) (hthread : m.host.thread = i.thread) {l : Location}
    (hl : l ∈ i.op.locations) :
    Gives (loadAs l false) m (.ok (s.load i.thread false l)) fun m' =>
      ∃ d', Lags c is past (fun _ => c.capacity) d' m' s := by
  have hvalid := hplain.valid i hi l hl
  obtain ⟨answers, m', hm', d', hlags, hpaid⟩ :=
    h.may_resolved hplain hstays hbounded hi hload hthread hl
  have hfits := Scripted.location_fits h.sound.fits (h.covers i hi l hl)
  have hvalue : (m'.forward i.thread l (m'.host.image.read l)).1 = s.load i.thread false l := by
    have hpending := hlags.pending_reader hplain hi hload
    have hqueue : s.queue i.thread = [] := by
      have hqueue : m'.table.pending i.thread = _ := hlags.owes.queue i.thread
      rw [hpending] at hqueue
      exact (List.append_eq_nil_iff.mp hqueue.symm).2
    rw [forward_value hfits hvalid.2 (hlags.sound.placed _), hpending]
    show m'.tso.memory.read l = (s.seen i.thread).read l
    rw [Tso.seen, hqueue, hlags.owes.memory, Image.overlay_nil]
    refine (Image.read_overlay_apart hfits fun w hw => ?_) _ |>.symm
    obtain ⟨e, he, rfl⟩ := List.mem_map.mp hw
    obtain ⟨j, hj, -, hstored⟩ := hlags.stored (hlags.owes.mem_queue he)
    have hstored := Op.locations_of_stored hstored
    exact ⟨Scripted.location_fits h.sound.fits (h.covers j hj _ hstored),
      (hplain.apart j hj i hi _ hstored l hl).resolve_left (hpaid e he)⟩
  refine ⟨answers, (m'.forward i.thread l (m'.host.image.read l)).2, fun more => ?_, d', ?_⟩
  · rw [loadAs_buffered (h.sound.answering _) ((Location.check_eq_ok_iff l).mpr hvalid)
      (h.covers i hi l hl), hm', ← hvalue]
    show (Except.ok ((m'.answering more).forward m.host.thread l (m'.host.image.read l)).1,
      ((m'.answering more).forward m.host.thread l (m'.host.image.read l)).2) = _
    rw [hthread, forward_answering]
  · exact hlags.forwarded ..

/-! ## Issues -/

theorem Lags.gives_store (h : Lags c is past (fun _ => c.capacity) d m s)
    (hnext : (past ++ [i]).Sublist is) {l : Location} {v : UInt64} {r : Order}
    (hop : i.op = .store l v r) (hs : Tso.Drains (s.enqueue i.thread (l.holding v)) s')
    (hqueue : (s'.queue i.thread).length ≤ c.capacity) :
    Gives (·.issue i) m (.ok .done) fun m' =>
      ∃ d', Lags c is (past ++ [i]) (fun _ => c.capacity) d' m' s' := by
  obtain rfl := h.config
  let m₁ := m.withHost (m.host.prepare i)
  let m₂ := m₁.noteOperation (.storeIssued i.thread l v (r ||| m.minOrder))
  have hhost : m₂.host = m.host.prepare i := host_noteOperation _
  have hdirect : m₂.host.flags.bypassed = false := by
    rw [hhost]
    exact Issue.not_bypassed_of_plain (hplain.plain i (hnext.subset (by simp)))
  have hmasked : Gives (masked (storeAs l v (r ||| m.minOrder))) m₂ (.ok ()) fun m' =>
      ∃ d', Lags m.config is (past ++ [i]) (fun _ => m.config.capacity) d' m' s' := by
    refine .masked ?_ fun m' ⟨d', hm'⟩ => ⟨d', hm'.congr rfl rfl rfl⟩
    rw [hdirect]
    exact ((h.prepared i).noted _).held.gives_storeAs hplain hstays hbounded hnext
      (congrArg Scripted.thread hhost) hop hs hqueue
  refine (hmasked.map (Except.map fun _ => Answer.done)).congr fun answers => ?_
  have hnote := noteOperation_answering (m := m₁)
    (.storeIssued i.thread l v (r ||| m.minOrder)) answers
  show perform i.op (m₁.answering answers) = _
  rw [hop, ← hnote]
  rfl

theorem Lags.gives_load (h : Lags c is past (fun _ => c.capacity) d m s)
    (hnext : (past ++ [i]).Sublist is) {l : Location} {r : Order} (hop : i.op = .load l r) :
    Gives (·.issue i) m (.ok (.value (s.load i.thread false l))) fun m' =>
      ∃ d', Lags c is past (fun _ => c.capacity) d' m' s := by
  have hi : i ∈ is := hnext.subset (by simp)
  let m₁ := m.withHost (m.host.prepare i)
  have hdirect : m₁.host.flags.bypassed = false :=
    Issue.not_bypassed_of_plain (hplain.plain i hi)
  obtain ⟨answers, m', hm', d', hlags⟩ := (h.prepared i).held.gives_loadAs hplain hstays hbounded
    hi (by rw [hop]; rfl) rfl (l := l) (by rw [hop]; exact List.mem_singleton_self l)
  let body (bypassed : Bool) (m : Machine Scripted) : Except Fault UInt64 × Machine Scripted :=
    match m.loadAs l bypassed with
    | (.error f, m) => (.error f, m)
    | (.ok value, m) =>
      (.ok value, m.noteOperation (.loadDone m.thread l (r ||| m₁.minOrder) value))
  have hmasked : Gives (masked body) m₁ (.ok (s.load i.thread false l)) fun m' =>
      ∃ d', Lags c is past (fun _ => c.capacity) d' m' s := by
    refine .masked ?_ fun m' ⟨d', hm'⟩ => ⟨d', hm'.congr rfl rfl rfl⟩
    refine ⟨answers, m'.noteOperation (.loadDone m'.thread l (r ||| m₁.minOrder)
      (s.load i.thread false l)), fun more => ?_, d', hlags.noted _⟩
    rw [hdirect, ← noteOperation_answering]
    dsimp only [body]
    rw [hm']
    rfl
  have hbody (answers : List Nat) : (m₁.answering answers).load l r =
      (m₁.answering answers).masked body := by
    unfold load
    dsimp only
    congr 1
    funext bypassed m
    dsimp only [body]
    rcases m.loadAs l bypassed with ⟨_ | _, _⟩ <;> rfl
  refine (hmasked.map (Except.map Answer.value)).congr fun answers => ?_
  show perform i.op (m₁.answering answers) = _
  rw [hop, ← hbody]
  rfl

/-- Whatever the reference machine does with an issue, the machine may answer the same. -/
theorem Lags.gives_issue (h : Lags c is past (fun _ => c.capacity) d m s)
    (hnext : (past ++ [i]).Sublist is) {a : Answer} (hstep : Tso.Step c.minOrder i s a s')
    (hqueue : ∀ t, (s'.queue t).length ≤ c.capacity) :
    Gives (·.issue i) m (.ok a) fun m' =>
      ∃ d', Lags c is (past ++ [i]) (fun _ => c.capacity) d' m' s' := by
  obtain ⟨x, y, hx, heffect, hy⟩ := hstep
  obtain ⟨d₁, h₁⟩ := h.drains hx
  have hplaini := hplain.plain i (hnext.subset (by simp))
  have hdirect := Issue.not_bypassed_of_plain hplaini
  cases hop : i.op with
  | store l v r =>
    rw [hop] at heffect
    cases heffect
    rw [Tso.store, hdirect, Issue.not_seqCst_of_plain hplaini hop] at hy
    exact h₁.gives_store hplain hstays hbounded hnext hop hy (hqueue i.thread)
  | load l r =>
    rw [hop] at heffect
    cases heffect
    rw [hdirect]
    refine (h₁.gives_load hplain hstays hbounded hnext hop).mono fun m' hm' => ?_
    obtain ⟨d', hm'⟩ := hm'
    exact (hm'.extended hnext).drains hy
  | _ => simp [Issue.plain, hop] at hplaini

end Plain

/-! ## What an issue can do -/

theorem pushLine_of_room (h : m.Sound) {t : ThreadId} {l : Line} {w : Write}
    (hl : l.pendingWrite? = some w) (hroom : m.storesOf t < m.capacity) :
    (m.pushLine t l).tso = m.tso.enqueue t w ∧
      ∀ u, (m.pushLine t l).storesOf u = m.storesOf u + if u = t then 1 else 0 := by
  have howners : (m.appended t l).table.owners.Nodup := by
    rw [table_appended]
    exact Table.nodup_owners_append h.owners t l
  have hstores (u : ThreadId) :
      (m.appended t l).storesOf u = m.storesOf u + if u = t then 1 else 0 := by
    unfold storesOf
    rw [table_appended, Table.linesOf_append]
    split
    · rw [List.countP_append]
      simp [Line.isStore, (Line.pendingWrite?_eq_some.mp hl).2]
    · rfl
  have hfits : (m.appended t l).storesOf t ≤ (m.appended t l).capacity := by
    rw [hstores, if_pos rfl, capacity, config_appended]
    exact hroom
  rw [pushLine_eq, evictExcess_of_le hfits]
  refine ⟨?_, fun u => ?_⟩
  · rw [← tso_appended hl]
    exact Tso.ext rfl fun u => Table.pending_prune howners u
  · rw [← hstores]
    exact congrArg (List.countP (·.isStore)) (Table.linesOf_prune howners u)

theorem storeAs_of_room (h : m.Sound) {l : Location} {v : UInt64} {r : Order}
    (hseq : r.isSeqCst = false) (hroom : m.storesOf m.host.thread < m.capacity)
    (hok : (m.storeAs l v r false).1 = .ok ()) :
    (m.storeAs l v r false).2.tso = m.tso.enqueue m.host.thread (l.holding v) ∧
      ∀ u, (m.storeAs l v r false).2.storesOf u =
        m.storesOf u + if u = m.host.thread then 1 else 0 := by
  unfold storeAs at hok ⊢
  cases hcheck : l.check with
  | error f => simp [hcheck] at hok
  | ok u =>
    have hv := ((Location.check_eq_ok_iff l).mp hcheck).2
    simp only [hcheck, hseq, Bool.false_eq_true, if_false] at hok ⊢
    unfold push at hok ⊢
    cases hn : m.numbered (.store l v r) with
    | error f => simp [hn] at hok
    | ok line => exact pushLine_of_room h (pendingWrite?_numbered_store hv hn) hroom

/-- A store for which there is room is buffered, and nothing else happens. -/
theorem issue_store_of_room (h : m.Sound) {l : Location} {v : UInt64} {r : Order}
    (hop : i.op = .store l v r) (hplain : i.plain m.minOrder = true)
    (hroom : m.storesOf i.thread < m.capacity) (hok : (m.issue i).1 = .ok .done) :
    (m.issue i).2.tso = m.tso.enqueue i.thread (l.holding v) ∧
      ∀ u, (m.issue i).2.storesOf u = m.storesOf u + if u = i.thread then 1 else 0 := by
  obtain ⟨log, hlog⟩ := noteOperation_eq (m := m.withHost (m.host.prepare i))
    (.storeIssued i.thread l v (r ||| m.minOrder))
  let m₁ : Machine Scripted := held { m.withHost (m.host.prepare i) with log }
  have hissue : m.issue i = ((m₁.storeAs l v (r ||| m.minOrder) false).1.map fun _ => .done,
      (m₁.storeAs l v (r ||| m.minOrder) false).2.withHost (Host.release i.flags
        (m₁.storeAs l v (r ||| m.minOrder) false).2.host)) := by
    rw [issue, hop, ← Issue.not_bypassed_of_plain hplain]
    show (Except.map _ (masked _ (noteOperation (.storeIssued i.thread l v (r ||| m.minOrder)) _)).1,
      (masked _ (noteOperation (.storeIssued i.thread l v (r ||| m.minOrder)) _)).2) = _
    rw [hlog]
    rfl
  have hstored : (m₁.storeAs l v (r ||| m.minOrder) false).1 = .ok () := by
    rw [hissue] at hok
    cases hs : (m₁.storeAs l v (r ||| m.minOrder) false).1 with
    | error f => simp [hs, Except.map] at hok
    | ok u => rfl
  rw [hissue]
  exact storeAs_of_room (m := m₁) (h.congr rfl rfl) (Issue.not_seqCst_of_plain hplain hop) hroom
    hstored

theorem tso_resolved (h : m.Sound) (l : Location) : ∃ ks,
    (m.resolved l).tso = m.tso.releases ks ∧ (ks.map (·.1)).Nodup ∧
      ∀ k ∈ ks, k.1 ≠ m.host.thread ∧ (k.2 = 0 ∨ ∃ w, (m.tso.queue k.1)[k.2 - 1]? = some w ∧
        w.region.overlaps l.region = true) := by
  unfold resolved
  dsimp only
  split
  · exact tso_resolve (m := m.count _) (h.congr rfl rfl) m.host.thread l
  · exact ⟨[], rfl, List.nodup_nil, nofun⟩

theorem issue_load_eq {l : Location} {r : Order} (hop : i.op = .load l r)
    (hplain : i.plain m.minOrder = true) :
    (m.issue i).1 = ((m.withHost (m.host.prepare i)).held.loadAs l false).1.map .value ∧
      (m.issue i).2.tso = ((m.withHost (m.host.prepare i)).held.loadAs l false).2.tso := by
  rw [issue, hop]
  show ((m.withHost (m.host.prepare i)).load l r).1.map Answer.value = _ ∧
    ((m.withHost (m.host.prepare i)).load l r).2.tso = _
  have hdirect : (m.withHost (m.host.prepare i)).host.flags.bypassed = false :=
    Issue.not_bypassed_of_plain hplain
  rw [load, masked_fst, masked_tso, hdirect]
  rcases (m.withHost (m.host.prepare i)).held.loadAs l false with ⟨f | value, m'⟩
  · exact ⟨rfl, rfl⟩
  · obtain ⟨log, hlog⟩ := noteOperation_eq (m := m')
      (.loadDone m'.thread l (r ||| (m.withHost (m.host.prepare i)).minOrder) value)
    dsimp only
    rw [hlog]
    exact ⟨rfl, rfl⟩

/-- A load brings to memory, of every other thread, nothing or all up to a pending write that shares
bytes with the location. -/
theorem issue_load (h : m.Sound) {l : Location} {r : Order} (hop : i.op = .load l r)
    (hplain : i.plain m.minOrder = true) (hc : m.host.Covers l) {v : UInt64}
    (hok : (m.issue i).1 = .ok (.value v)) : ∃ ks,
      (m.issue i).2.tso = m.tso.releases ks ∧ (ks.map (·.1)).Nodup ∧
        (∀ k ∈ ks, k.1 ≠ i.thread ∧ (k.2 = 0 ∨ ∃ w, (m.tso.queue k.1)[k.2 - 1]? = some w ∧
          w.region.overlaps l.region = true)) ∧
        v = (m.tso.releases ks).load i.thread false l := by
  obtain ⟨hanswer, hafter⟩ := issue_load_eq hop hplain
  let m₁ := (m.withHost (m.host.prepare i)).held
  have h₁ : m₁.Sound := h.congr rfl rfl
  have hloaded : (m₁.loadAs l false).1 = .ok v := by
    rw [hanswer] at hok
    cases hs : (m₁.loadAs l false).1 with
    | error f => simp [m₁, hs, Except.map] at hok
    | ok u =>
      rw [hs] at hok
      cases hok
      rfl
  have hcheck : l.check = .ok () := by
    cases hcheck : l.check with
    | error f => simp [loadAs, hcheck] at hloaded
    | ok u => rfl
  obtain ⟨ks, htso, hnodup, hks⟩ := tso_resolved h₁ l
  have hreleased : (m₁.loadAs l false).2.tso = m.tso.releases ks := by
    rw [loadAs_buffered h₁ hcheck hc, tso_forward, htso]
    rfl
  refine ⟨ks, hafter.trans hreleased, hnodup, hks, ?_⟩
  rw [(reaches_loadAs h₁ hc hloaded).2, hreleased]
  rfl

end Machine

end StoreBuffer
