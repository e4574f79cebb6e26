import StoreBuffer.Proofs.Buffer.Prefix
import StoreBuffer.Proofs.Machine.Answers
import StoreBuffer.Proofs.Machine.Soundness
import StoreBuffer.Proofs.Reference.Programs

/-! # Lagging behind the reference machine

`Machine.Lags` relates a machine in the course of a plain program to the reference machine: the one
owes the other a tame debt, its queues hold what threads have stored, and its lines are orderly. When
a location is resolved, the host can pay off what is owed up to the last write to it, both before a
load (`Lags.may_resolve`) and before an eviction (`Lags.may_evictOldest`). -/

namespace StoreBuffer

namespace Line

/-- The lines of a thread as plain programs make them: what is committed stands in front of what is
pending, the stores fit, and numbers stay within a limit for every location. -/
structure Orderly (room : Nat) (places : List Location) (limit : Location → Nat)
    (ls : List Line) : Prop where
  committed : ls.Pairwise fun a b => b.committed = true → a.pendingWrite? = none
  fits : ls.countP (·.isStore) ≤ room
  numbered : ∀ l ∈ ls, ∀ k, l.loc? = some k → k ∈ places ∧ l.atomicNo ≤ limit k

variable {room : Nat} {places : List Location} {limit : Location → Nat} {ls ls' : List Line}

theorem Orderly.sublist (h : Orderly room places limit ls) (hs : ls'.Sublist ls) :
    Orderly room places limit ls' :=
  ⟨h.committed.sublist hs, Nat.le_trans hs.countP_le h.fits,
    fun l hl => h.numbered l (hs.subset hl)⟩

theorem Orderly.mono (h : Orderly room places limit ls) {room' : Nat} {limit' : Location → Nat}
    (hroom : room ≤ room') (hlimit : ∀ k, limit k ≤ limit' k) :
    Orderly room' places limit' ls := by
  refine ⟨h.committed, Nat.le_trans h.fits hroom, fun l hl k hk => ?_⟩
  obtain ⟨hplace, hle⟩ := h.numbered l hl k hk
  exact ⟨hplace, Int.le_trans hle (Int.ofNat_le.mpr (hlimit k))⟩

/-- A new line stands behind the others and needs room for a store more. -/
theorem Orderly.concat (h : Orderly room places limit ls) {l : Line} (hnew : l.committed = false)
    (hno : ∀ k, l.loc? = some k → k ∈ places ∧ l.atomicNo ≤ limit k) :
    Orderly (room + 1) places limit (ls ++ [l]) := by
  refine ⟨List.pairwise_append.mpr ⟨h.committed, List.pairwise_singleton .., ?_⟩, ?_, ?_⟩
  · intro a _ b hb hcommitted
    rw [List.mem_singleton.mp hb, hnew] at hcommitted
    contradiction
  · rw [List.countP_append]
    exact Nat.add_le_add h.fits List.countP_le_length
  · intro k hk
    rcases List.mem_append.mp hk with hk | hk
    · exact h.numbered k hk
    · rw [List.mem_singleton.mp hk]
      exact hno

theorem lasting_orderly (room : Nat) (places : List Location) (limit : Location → Nat) :
    Lasting (Orderly room places limit) := by
  refine ⟨fun retired ls h => ⟨?_, ?_, ?_⟩, fun n r ls h => ?_, fun ls h =>
    h.sublist ((List.dropWhile_sublist _).trans (List.tail_sublist ls))⟩
  · exact List.pairwise_map.mpr h.committed
  · rw [List.countP_map]
    exact h.fits
  · intro l hl k hk
    obtain ⟨l', hl', rfl⟩ := List.mem_map.mp hl
    obtain ⟨hplace, hle⟩ := h.numbered l' hl' k hk
    exact ⟨hplace, Int.le_trans (atomicNo_renumber_le retired l') hle⟩
  · have hfits := Nat.le_trans (Buffer.countP_drain_le ls n r) h.fits
    rw [Buffer.lines_drain] at hfits ⊢
    have hcommitted (l : Line) (hl : l ∈ ((ls.take n).map Line.commit).filter (!·.touches r)) :
        ∃ l' ∈ ls, l = l'.commit := by
      obtain ⟨l', hl', rfl⟩ := List.mem_map.mp (List.mem_filter.mp hl).1
      exact ⟨l', List.mem_of_mem_take hl', rfl⟩
    refine ⟨List.Pairwise.sublist (List.dropWhile_sublist _) ?_, hfits, fun l hl k hk => ?_⟩
    · refine List.pairwise_append.mpr ⟨?_, h.committed.sublist (List.drop_sublist ..), ?_⟩
      · refine List.Pairwise.imp_of_mem (R := fun _ _ => True) ?_ (List.pairwise_of_forall (by simp))
        intro a b ha _ _ _
        obtain ⟨a', -, rfl⟩ := hcommitted a ha
        exact pendingWrite?_commit a'
      · intro a ha b _ _
        obtain ⟨a', -, rfl⟩ := hcommitted a ha
        exact pendingWrite?_commit a'
    · rcases List.mem_append.mp ((List.dropWhile_sublist _).subset hl) with hl | hl
      · obtain ⟨l', hl', rfl⟩ := hcommitted l hl
        have hsame : l'.commit.loc? = l'.loc? := by
          rw [loc?, write?_commit]
          rfl
        have hno : l'.commit.atomicNo = l'.atomicNo := by
          unfold commit
          split <;> rfl
        rw [hsame] at hk
        rw [hno]
        exact h.numbered l' hl' k hk
      · exact h.numbered l (List.mem_of_mem_drop hl) k hk

/-- If the oldest line is pending, so are all stores. -/
theorem Orderly.length_pending {l : Line} {rest : List Line} {w : Write}
    (h : Orderly room places limit (l :: rest)) (hl : l.pendingWrite? = some w) :
    ((l :: rest).filterMap pendingWrite?).length = (l :: rest).countP (·.isStore) := by
  rw [List.length_filterMap_eq_countP]
  refine List.countP_congr fun k hk => ?_
  have hpending : k.committed = false := by
    rcases List.mem_cons.mp hk with rfl | hk
    · exact (pendingWrite?_eq_some.mp hl).1
    · cases hc : k.committed with
      | false => rfl
      | true =>
        rw [(List.pairwise_cons.mp h.committed).1 k hk hc] at hl
        contradiction
  simp [pendingWrite?, hpending, isStore]

end Line

namespace Tso

theorem Owes.mem_queue {d : Debt} {c s : Tso} (h : Owes d c s) {e : ThreadId × Write}
    (he : e ∈ d) : e.2 ∈ c.queue e.1 := by
  rw [h.queue]
  exact List.mem_append_left _ (List.mem_map.mpr ⟨e, List.mem_filter.mpr ⟨he, by simp⟩, rfl⟩)

end Tso

namespace Machine

/-- In the course of the program `is`, of which `past` has been issued, the machine owes the debt `d`
to the reference machine `s`. -/
structure Lags (c : Config) (is past : List Issue) (room : ThreadId → Nat) (d : Debt)
    (m : Machine Scripted) (s : Tso) : Prop where
  sound : m.Sound
  config : m.config = c
  covers : ∀ i ∈ is, ∀ l ∈ i.op.locations, m.host.Covers l
  issued : past.Sublist is
  owes : Tso.Owes d m.tso s
  queue : ∀ t, (m.table.pending t).Sublist (Program.writes t past)
  lines : ∀ t, Line.Orderly (room t) (is.flatMap (·.op.stored))
    (fun l => past.countP (·.numbers c.minOrder l)) (m.table.linesOf t)

section Lags

variable {c : Config} {is past : List Issue} {room : ThreadId → Nat} {d : Debt}
  {m : Machine Scripted} {s : Tso}

theorem Lags.queue_all (h : Lags c is past room d m s) (t : ThreadId) :
    (m.table.pending t).Sublist (Program.writes t is) :=
  (h.queue t).trans (h.issued.filterMap _)

theorem Lags.stored (h : Lags c is past room d m s) {t : ThreadId} {w : Write}
    (hw : w ∈ m.table.pending t) :
    ∃ i ∈ is, i.thread = t ∧ w.loc ∈ i.op.stored :=
  Program.stored_of_mem_writes ((h.queue_all t).subset hw)

theorem Lags.loc_eq (h : Lags c is past room d m s) (hplain : Program.Plain c.minOrder is)
    {t : ThreadId} {w : Write} (hw : w ∈ m.table.pending t) {i : Issue} (hi : i ∈ is)
    {l : Location} (hl : l ∈ i.op.locations) (hover : w.region.overlaps l.region = true) :
    w.loc = l := by
  obtain ⟨j, hj, -, hloc⟩ := h.stored hw
  refine (hplain.apart j hj i hi _ (Op.locations_of_stored hloc) l hl).resolve_right
    fun hno => ?_
  rw [Write.region, hno] at hover
  contradiction

/-- The debt of a program whose threads stay is tame. -/
theorem Lags.tame (h : Lags c is past room d m s) (hplain : Program.Plain c.minOrder is)
    (hstays : Program.Stays is) : d.Tame (Program.Own is) := by
  refine ⟨fun f hf t hown => ?_, fun t => ?_, fun f hf g hg a hfa hga => ?_⟩
  · obtain ⟨i, hi, hit, hloc⟩ := h.stored (h.owes.mem_queue hf)
    rw [← hit]
    exact hown i hi hloc
  · have hsub : ((d.filter (·.1 = t)).map (·.2)).Sublist (Program.writes t is) := by
      refine List.Sublist.trans ?_ (h.queue_all t)
      have hqueue : m.table.pending t = _ := h.owes.queue t
      rw [hqueue]
      exact List.sublist_append_left ..
    exact List.pairwise_map.mp ((Program.stays_writes hstays t).sublist hsub)
  · obtain ⟨i, hi, -, hf⟩ := h.stored (h.owes.mem_queue hf)
    obtain ⟨j, hj, -, hg⟩ := h.stored (h.owes.mem_queue hg)
    have hf := Op.locations_of_stored hf
    have hg := Op.locations_of_stored hg
    refine (hplain.apart i hi j hj _ hf _ hg).resolve_right fun hno => ?_
    have hfits := Scripted.location_fits h.sound.fits (h.covers i hi _ hf)
    have hfits' := Scripted.location_fits h.sound.fits (h.covers j hj _ hg)
    have hnot := Region.not_contains_of_not_overlaps hfits hfits' hno hga
    rw [Write.region, hnot] at hfa
    contradiction

theorem Lags.branches_le (h : Lags c is past room d m s) (hplain : Program.Plain c.minOrder is)
    (hbounded : Program.Bounded c is) {reader : ThreadId} (hroom : ∀ t, t ≠ reader →
      room t ≤ c.capacity) {i : Issue} (hi : i ∈ is) {l : Location} (hl : l ∈ i.op.locations) :
    (m.table.candidates reader false l.region).foldr (·.states * ·) 1 ≤
      Visibility.greatestTotal := by
  refine Nat.le_trans ?_ (hbounded.branches i hi l hl)
  refine Program.foldr_mul_le Visibility.Candidate.states _ (·.owner)
    (Table.nodup_candidates h.sound.owners ..) (fun e he => ?_) fun t => Nat.succ_pos _
  obtain ⟨hne, hpending⟩ := Table.candidate_eq h.sound.owners he
  have hstates : e.states =
      (m.table.pending e.owner).countP (·.region.overlaps l.region) + 1 := by
    rw [Visibility.Candidate.states, hpending, Buffer.length_pendingAt]
    rfl
  rcases Nat.eq_zero_or_pos ((m.table.pending e.owner).countP (·.region.overlaps l.region)) with
    hzero | hpos
  · exact .inl (by rw [hstates, hzero])
  · obtain ⟨w, hw, -⟩ := List.countP_pos_iff.mp hpos
    obtain ⟨j, hj, hthread, -⟩ := h.stored hw
    refine .inr ⟨List.mem_eraseDups.mpr (List.mem_map.mpr ⟨j, hj, hthread⟩), ?_⟩
    rw [hstates]
    refine Nat.succ_le_succ (Nat.le_min.mpr ⟨?_, ?_⟩)
    · calc (m.table.pending e.owner).countP (·.region.overlaps l.region)
        _ ≤ (m.table.pending e.owner).length := List.countP_le_length
        _ ≤ m.storesOf e.owner := length_pending_le ..
        _ ≤ room e.owner := (h.lines e.owner).fits
        _ ≤ c.capacity := hroom e.owner hne
    · calc (m.table.pending e.owner).countP (·.region.overlaps l.region)
        _ ≤ (m.table.pending e.owner).countP (·.loc = l) := List.countP_mono_left fun v hv hover =>
          decide_eq_true (h.loc_eq hplain hv hi hl hover)
        _ ≤ (Program.writes e.owner is).countP (·.loc = l) := (h.queue_all e.owner).countP_le

/-! ## Paying off -/

/-- What draining leaves of a machine whose lines have lasting properties. -/
structure Drained (P : ThreadId → List Line → Prop) (m m' : Machine Scripted) : Prop where
  sound : m'.Sound
  config : m'.config = m.config
  size : m'.host.arena.size = m.host.arena.size
  queue : ∀ t, (m'.table.pending t).Sublist (m.table.pending t)
  lines : ∀ t, P t (m'.table.linesOf t)

theorem Tso.sublist_of_drains {s s' : Tso} (h : Tso.Drains s s') (t : ThreadId) :
    (s'.queue t).Sublist (s.queue t) := by
  induction h with
  | refl => exact .refl _
  | tail _ hstep ih =>
    refine List.Sublist.trans ?_ ih
    cases hstep with
    | @oldest u w rest hq =>
      by_cases ht : t = u
      · subst ht
        simp [hq]
      · simp [ht]

theorem Reaches.drained {P : ThreadId → List Line → Prop} {m' : Machine Scripted}
    (h : m.Reaches m') (hlines : ∀ t, P t (m'.table.linesOf t)) : Drained P m m' :=
  ⟨h.sound, h.config, h.size, fun t => Tso.sublist_of_drains h.drains t, hlines⟩

theorem May.drained {P : ThreadId → List Line → Prop} {f : Machine Scripted → Machine Scripted}
    {Q : Machine Scripted → Prop} (h : May f m Q)
    (hf : ∀ answers, Drained P (m.answering answers) (f (m.answering answers))) :
    May f m fun m' => Q m' ∧ Drained P m m' :=
  h.also (R := Drained P m) (fun answers => ⟨(hf answers).sound, (hf answers).config,
    (hf answers).size, (hf answers).queue, (hf answers).lines⟩) fun _ _ hr =>
      ⟨hr.sound.congr rfl rfl, hr.config, hr.size, hr.queue, hr.lines⟩

theorem Lags.of_drained (h : Lags c is past room d m s) {d' : Debt} {m' : Machine Scripted}
    (howes : Tso.Owes d' m'.tso s)
    (hdrained : Drained (fun t => Line.Orderly (room t) (is.flatMap (·.op.stored))
      fun l => past.countP (·.numbers c.minOrder l)) m m') : Lags c is past room d' m' s :=
  ⟨hdrained.sound, hdrained.config.trans h.config, fun i hi l hl =>
    (Scripted.covers_congr hdrained.size l).mpr (h.covers i hi l hl), h.issued, howes,
    fun t => (hdrained.queue t).trans (h.queue t), hdrained.lines⟩

theorem Lags.drains (h : Lags c is past room d m s) {s' : Tso} (hs : Tso.Drains s s') :
    ∃ d', Lags c is past room d' m s' := by
  obtain ⟨d', howes⟩ := h.owes.drains hs
  exact ⟨d ++ d', h.sound, h.config, h.covers, h.issued, howes, h.queue, h.lines⟩

theorem Lags.drained_resolve (h : Lags c is past room d m s) (reader : ThreadId) (l : Location)
    (answers : List Nat) :
    Drained (fun t => Line.Orderly (room t) (is.flatMap (·.op.stored))
      fun k => past.countP (·.numbers c.minOrder k)) (m.answering answers)
        ((m.answering answers).resolve reader l false) := by
  have hsound := h.sound.answering answers
  exact (reaches_resolve hsound reader l false).drained
    (lasting_resolve hsound (fun t => Line.lasting_orderly ..) h.lines reader l false)

theorem Lags.drained_evictOldest (h : Lags c is past room d m s) (t : ThreadId) (l : Line)
    (answers : List Nat) :
    Drained (fun t => Line.Orderly (room t) (is.flatMap (·.op.stored))
      fun k => past.countP (·.numbers c.minOrder k)) (m.answering answers)
        ((m.answering answers).evictOldest t l) := by
  have hsound := h.sound.answering answers
  exact (reaches_evictOldest hsound t l).drained
    (lasting_evictOldest hsound (fun t => Line.lasting_orderly ..) h.lines t l)

/-- If the oldest line is committed already, nothing reaches memory when it leaves. -/
theorem Lags.may_evictCommitted (h : Lags c is past room d m s) {t : ThreadId} {l : Line}
    {rest : List Line} (hlines : m.table.linesOf t = l :: rest) (hl : l.pendingWrite? = none) :
    May (evictOldest t l) m fun m' => ∃ d', Lags c is past room d' m' s := by
  have hdrained := h.drained_evictOldest t l
  have heq : (evictOldest t l : Machine Scripted → Machine Scripted) = dropOldest t := by
    funext m
    rw [evictOldest, hl]
  rw [heq] at hdrained ⊢
  have hbefore : m.pendingBefore t 1 = 0 := by
    rw [pendingBefore, hlines]
    simp [hl]
  have htso : (m.dropOldest t).tso = m.tso := by
    rw [tso_dropOldest h.sound, hbefore, Tso.release_zero]
  refine ((May.of_free (P := fun m' => m'.tso = m.tso) (dropOldest_answering t) htso).drained
    hdrained).mono ?_
  rintro m' ⟨htso, hm'⟩
  exact ⟨d, h.of_drained (htso ▸ h.owes) hm'⟩

/-- If the oldest line of a thread is pending and one too many, it is owed: nothing of the thread is
committed, so more is pending than in the reference machine. -/
theorem Lags.exists_owed (h : Lags c is past room d m s) {t : ThreadId}
    (hqueue : (s.queue t).length ≤ c.capacity) {l : Line} {lines : List Line} {w : Write}
    (hlines : m.table.linesOf t = l :: lines) (hfull : m.capacity < m.storesOf t)
    (hl : l.pendingWrite? = some w) :
    ∃ before rest, d = before ++ [(t, w)] ++ rest ∧ ∀ f ∈ before, f.1 ≠ t := by
  have hpending : m.tso.queue t = w :: lines.filterMap Line.pendingWrite? := by
    show (m.table.linesOf t).filterMap _ = _
    rw [hlines, List.filterMap_cons_some hl]
  have hlength : (m.tso.queue t).length = m.storesOf t := by
    have horderly := h.lines t
    rw [hlines] at horderly
    show ((m.table.linesOf t).filterMap _).length = (m.table.linesOf t).countP _
    rw [hlines]
    exact horderly.length_pending hl
  obtain ⟨e, tail, howed⟩ : ∃ e tail, d.filter (·.1 = t) = e :: tail := by
    rw [← h.config] at hqueue
    have hlt : (s.queue t).length < (m.tso.queue t).length :=
      Nat.lt_of_le_of_lt hqueue (hlength ▸ hfull)
    rw [h.owes.queue, List.length_append, List.length_map] at hlt
    exact List.exists_cons_of_length_pos (by omega)
  have hfirst : e.2 = w := by
    have hqueue := h.owes.queue t
    rw [hpending, howed] at hqueue
    exact (List.cons.inj hqueue).1.symm
  obtain ⟨before, rest, hd, hbefore, het, -⟩ := List.filter_eq_cons_iff.mp howed
  have het : e.1 = t := by simpa using het
  refine ⟨before, rest, ?_, fun f hf => by simpa using hbefore f hf⟩
  rw [hd, ← het, ← hfirst]
  simp

/-- A resolution of the location can take what its debtors owe. -/
theorem Lags.overlaps_dues {x rest before : Debt} {e : ThreadId × Write}
    (h : Lags c is past room (x ++ rest) m s) (hplain : Program.Plain c.minOrder is)
    (hx : x = before ++ [e]) (htame : Debt.Tame (Program.Own is) x) {i : Issue} (hi : i ∈ is)
    (hl : e.2.loc ∈ i.op.locations) (t : ThreadId) : x.dues e.2.loc t = 0 ∨
      ∃ w, (m.tso.queue t)[x.dues e.2.loc t - 1]? = some w ∧
        w.region.overlaps e.2.loc.region = true := by
  refine (h.owes.getElem?_dues hx htame t).imp_right ?_
  rintro ⟨w, hw, hloc⟩
  have hvalid := (hplain.valid i hi _ hl).2.1
  have hself := Location.overlaps_self
    (Scripted.location_fits h.sound.fits (h.covers i hi _ hl)) (by omega)
  refine ⟨w, hw, ?_⟩
  rw [Write.region, hloc]
  exact hself

section Plain

variable (hplain : Program.Plain c.minOrder is) (hstays : Program.Stays is)
  (hbounded : Program.Bounded c is)
include hplain hstays hbounded

/-- Before a load of a thread with nothing pending, all that is owed up to the last write to the
location may be paid off. -/
theorem Lags.may_resolve (h : Lags c is past room d m s) {reader : ThreadId}
    (hroom : ∀ t, t ≠ reader → room t ≤ c.capacity) (hreader : m.table.pending reader = [])
    {i : Issue} (hi : i ∈ is) {l : Location} (hl : l ∈ i.op.locations) :
    May (resolve reader l false) m fun m' =>
      ∃ d', Lags c is past room d' m' s ∧ ∀ e ∈ d', e.2.loc ≠ l := by
  have hbranches := h.branches_le hplain hbounded hroom hi hl
  have hdrained := h.drained_resolve reader l
  have htame := h.tame hplain hstays
  by_cases hex : ∃ e ∈ d, e.2.loc = l
  · obtain ⟨before, e, rest, rfl, rfl, hrest⟩ := Debt.exists_last_to hex
    have htame := htame.of_append
    have hk := h.overlaps_dues hplain rfl htame hi hl
    have hzero : Debt.dues e.2.loc reader (before ++ [e]) = 0 := by
      refine (hk reader).resolve_right ?_
      rintro ⟨w, hw, -⟩
      have hnone : m.tso.queue reader = [] := hreader
      simp [hnone] at hw
    have hpos : 0 < Debt.dues e.2.loc e.1 (before ++ [e]) :=
      Debt.dues_pos (Debt.concerns_iff.mpr ⟨e, by simp, rfl, rfl⟩)
    refine ((Machine.may_resolve hbranches hzero hk h.sound e.1).drained hdrained).mono ?_
    rintro m' ⟨⟨ks, htso, hnodup, hks, hall, hlast⟩, hm'⟩
    obtain ⟨js, hjs⟩ := hlast hpos
    have howes := h.owes.advance rfl htame hjs (fun k hk => (hks k hk).2) hnodup
      fun t ht => hall t (Debt.dues_pos ht)
    rw [← htso] at howes
    refine ⟨_, h.of_drained howes hm', fun f hf => ?_⟩
    rcases List.mem_append.mp hf with hf | hf
    · obtain ⟨hf, hnot⟩ := List.mem_filter.mp hf
      intro hloc
      rw [Debt.concerns_iff.mpr ⟨f, hf, rfl, hloc⟩] at hnot
      contradiction
    · exact hrest f hf
  · refine ((Machine.may_resolve hbranches (k := fun _ => 0) rfl (fun _ => .inl rfl) h.sound
      reader).drained hdrained).mono ?_
    rintro m' ⟨⟨ks, htso, -, hks, -⟩, hm'⟩
    rw [Tso.releases_zero fun k hk => (hks k hk).2] at htso
    exact ⟨d, h.of_drained (htso ▸ h.owes) hm', fun e he hloc => hex ⟨e, he, hloc⟩⟩

/-- A line that is owed may leave: what the others owe is paid off first, then the line goes. -/
theorem Lags.may_evictOwed {before rest : Debt} {e : ThreadId × Write}
    (h : Lags c is past room (before ++ [e] ++ rest) m s) (hbefore : ∀ f ∈ before, f.1 ≠ e.1)
    (hroom : ∀ u, u ≠ e.1 → room u ≤ c.capacity) {l : Line} {lines : List Line}
    (hlines : m.table.linesOf e.1 = l :: lines) (hl : l.pendingWrite? = some e.2) :
    May (evictOldest e.1 l) m fun m' => ∃ d', Lags c is past room d' m' s := by
  obtain ⟨i, hi, -, hloc⟩ := h.stored (h.owes.mem_queue (e := e) (by simp))
  have hloc := Op.locations_of_stored hloc
  have htame := (h.tame hplain hstays).of_append
  have hk := h.overlaps_dues hplain rfl htame hi hloc
  have hdue : Debt.dues e.2.loc e.1 (before ++ [e]) = 1 := by
    have hnone : before.countP (·.1 = e.1) = 0 :=
      List.countP_eq_zero.mpr fun f hf => by simpa using hbefore f hf
    rw [Debt.dues, if_pos (Debt.concerns_iff.mpr ⟨e, by simp, rfl, rfl⟩), List.countP_append, hnone]
    simp
  refine ((Machine.may_evictOldest h.sound hlines hl (h.branches_le hplain hbounded hroom hi hloc)
    hdue hk).drained (h.drained_evictOldest e.1 l)).mono ?_
  rintro m' ⟨⟨ks, js, hjs, htso, hnodup, hks, hall⟩, hm'⟩
  have howes := h.owes.advance rfl htame hjs hks hnodup fun u hu => hall u (Debt.dues_pos hu)
  rw [← htso] at howes
  exact ⟨_, h.of_drained howes hm'⟩

/-- The oldest line of a thread that has more pending than in the reference machine may leave. -/
theorem Lags.may_evictOldest (h : Lags c is past room d m s) {t : ThreadId}
    (hroom : ∀ u, u ≠ t → room u ≤ c.capacity) (hqueue : (s.queue t).length ≤ c.capacity)
    {l : Line} (hover : m.overdue? t = some l) :
    May (evictOldest t l) m fun m' => ∃ d', Lags c is past room d' m' s := by
  obtain ⟨lines, hlines, hfull⟩ := linesOf_of_overdue? hover
  cases hl : l.pendingWrite? with
  | none => exact h.may_evictCommitted hlines hl
  | some w =>
    obtain ⟨before, rest, rfl, hbefore⟩ := h.exists_owed hqueue hlines hfull hl
    exact h.may_evictOwed hplain hstays hbounded hbefore hroom hlines hl

theorem Lags.may_evictWhileOverdue (h : Lags c is past room d m s) {t : ThreadId}
    (hroom : ∀ u, u ≠ t → room u ≤ c.capacity) (hqueue : (s.queue t).length ≤ c.capacity)
    (n : Nat) :
    May (evictWhileOverdue t n) m fun m' => ∃ d', Lags c is past room d' m' s := by
  induction n generalizing m d with
  | zero => exact .of_free (fun _ => rfl) ⟨d, h⟩
  | succ n ih =>
    cases hover : m.overdue? t with
    | none =>
      have hstill (answers : List Nat) :
          evictWhileOverdue t (n + 1) (m.answering answers) = m.answering answers := by
        have hover : (m.answering answers).overdue? t = none := hover
        rw [evictWhileOverdue, hover]
      exact ⟨[], m, hstill, d, h⟩
    | some l =>
      have hrest (m' : Machine Scripted) (hm' : ∃ d', Lags c is past room d' m' s) :
          May (evictWhileOverdue t n) m' fun m'' => ∃ d', Lags c is past room d' m'' s := by
        obtain ⟨d', hm'⟩ := hm'
        exact ih hm'
      refine ((h.may_evictOldest hplain hstays hbounded hroom hqueue hover).seq
        hrest).congr fun answers => ?_
      have hover : (m.answering answers).overdue? t = some l := hover
      rw [evictWhileOverdue, hover]

end Plain

end Lags

end Machine

end StoreBuffer
