import StoreBuffer.Proofs.Machine.Visibility

/-! # Answers of the host

`m.answering answers` is the machine whose host goes on with `answers`, whatever its script was.
`Machine.May f m P` says that some answers make `f` lead from `m` to a machine with `P`, and that what
the host answers after them is still free.

The main results are `may_resolve`, the converse of `tso_resolve`, and `may_evictOldest`: if the
branches can be counted, the host may bring to memory, of every other thread, what it likes among
what a resolution can, and any of the threads last. -/

namespace StoreBuffer

namespace Scripted

/-- The host with its script from here on. -/
def answering (answers : List Nat) (h : Scripted) : Scripted :=
  { h with script := h.trace.map (·.chosen) ++ answers }

theorem choose_answering {n a : Nat} (ha : a < n) (more : List Nat) (h : Scripted) :
    Host.choose n (h.answering (a :: more)) =
      (a, answering more { h with trace := h.trace ++ [⟨n, a⟩] }) := by
  have hentry : (h.answering (a :: more)).script[h.trace.length]?.getD 0 = a := by
    simp [answering]
  have hchosen : min ((h.answering (a :: more)).script[h.trace.length]?.getD 0) (n - 1) = a := by
    rw [hentry]
    omega
  show choose n (h.answering (a :: more)) = _
  unfold choose
  dsimp only
  rw [show (h.answering (a :: more)).trace = h.trace from rfl, hchosen]
  simp [answering]

theorem write_answering (size : AccessSize) (a : Addr) (value : UInt64) (answers : List Nat)
    (h : Scripted) :
    write size a value (h.answering answers) = (write size a value h).answering answers := by
  have hoffset : (h.answering answers).offset? = h.offset? := rfl
  have harena : (h.answering answers).arena = h.arena := rfl
  rw [write, write, hoffset, harena]
  cases (h.offset? a size.bytes).bind (h.arena.write? · (Word.toBytes size.bytes value)) <;> rfl

theorem storeAll_answering (ws : List Write) (answers : List Nat) (h : Scripted) :
    Memory.storeAll ws (h.answering answers) = (Memory.storeAll ws h).answering answers := by
  induction ws generalizing h with
  | nil => rfl
  | cons w rest ih =>
    have hfirst : Memory.store w (h.answering answers) = (Memory.store w h).answering answers :=
      write_answering ..
    show Memory.storeAll rest (Memory.store w (h.answering answers)) = _
    rw [hfirst, ih]
    rfl

end Scripted

namespace Visibility

/-- Every list of digits is that of a choice among the ways to drain. -/
theorem exists_choice {cs : List Candidate} {digit : Candidate → Nat}
    (h : ∀ c ∈ cs, digit c < c.states) :
    ∃ n < cs.foldr (·.states * ·) 1, digits n cs = cs.map digit := by
  induction cs with
  | nil => exact ⟨0, Nat.zero_lt_one, rfl⟩
  | cons c rest ih =>
    obtain ⟨n, hn, hdigits⟩ := ih fun d hd => h d (List.mem_cons_of_mem c hd)
    have hc := h c (List.mem_cons_self ..)
    refine ⟨digit c + c.states * n, ?_, ?_⟩
    · have hle := Nat.mul_le_mul_left c.states (Nat.succ_le_of_lt hn)
      rw [Nat.mul_succ] at hle
      rw [List.foldr_cons]
      omega
    · have hmod : (digit c + c.states * n) % c.states = digit c := by
        rw [Nat.add_mul_mod_self_left, Nat.mod_eq_of_lt hc]
      have hdiv : (digit c + c.states * n) / c.states = n := by
        rw [Nat.add_mul_div_left _ _ (by omega), Nat.div_eq_of_lt hc, Nat.zero_add]
      rw [digits, hmod, hdiv, hdigits, List.map_cons]

theorem picks_eq {cs : List Candidate} {n : Nat} {digit : Candidate → Nat}
    (h : digits n cs = cs.map digit) : picks cs n = cs.filterMap fun c => c.pick? (digit c) := by
  have hzip (ds : List Candidate) : ds.zip (ds.map digit) = ds.map fun c => (c, digit c) := by
    induction ds with
    | nil => rfl
    | cons c rest ih => rw [List.map_cons, List.zip_cons_cons, ih, List.map_cons]
  rw [picks, h, hzip, List.filterMap_map]
  rfl

end Visibility

namespace Machine

open Visibility

/-- The machine whose host goes on with the answers. -/
def answering (answers : List Nat) (m : Machine Scripted) : Machine Scripted :=
  m.withHost (m.host.answering answers)

/-- For some answers `f` leads from `m` to a machine with `P`, whatever the host answers then. -/
def May (f : Machine Scripted → Machine Scripted) (m : Machine Scripted)
    (P : Machine Scripted → Prop) : Prop :=
  ∃ answers m', (∀ more, f (m.answering (answers ++ more)) = m'.answering more) ∧ P m'

variable {f g : Machine Scripted → Machine Scripted} {m : Machine Scripted}
  {P Q : Machine Scripted → Prop}

theorem May.of_free (h : ∀ more, f (m.answering more) = (f m).answering more) (hP : P (f m)) :
    May f m P := ⟨[], f m, h, hP⟩

theorem May.mono (h : May f m P) (hPQ : ∀ m', P m' → Q m') : May f m Q := by
  obtain ⟨answers, m', hf, hP⟩ := h
  exact ⟨answers, m', hf, hPQ m' hP⟩

theorem May.seq (h : May f m P) (hg : ∀ m', P m' → May g m' Q) : May (fun m => g (f m)) m Q := by
  obtain ⟨answers, m', hf, hP⟩ := h
  obtain ⟨answers', m'', hg, hQ⟩ := hg m' hP
  refine ⟨answers ++ answers', m'', fun more => ?_, hQ⟩
  rw [List.append_assoc]
  show g (f (m.answering _)) = _
  rw [hf, hg]

theorem May.congr (h : May f m P)
    (hfg : ∀ answers, g (m.answering answers) = f (m.answering answers)) : May g m P := by
  obtain ⟨answers, m', hf, hP⟩ := h
  exact ⟨answers, m', fun more => (hfg _).trans (hf more), hP⟩

/-- What holds whatever the host answers. -/
theorem May.also {R : Machine Scripted → Prop} (h : May f m P)
    (hf : ∀ answers, R (f (m.answering answers)))
    (hR : ∀ m' answers, R (answering answers m') → R m') : May f m fun m' => P m' ∧ R m' := by
  obtain ⟨answers, m', hm', hP⟩ := h
  refine ⟨answers, m', hm', hP, hR m' [] ?_⟩
  rw [← hm']
  exact hf _

theorem Sound.answering (h : m.Sound) (answers : List Nat) : (m.answering answers).Sound :=
  h.congr rfl rfl

theorem flushPart_answering (t : ThreadId) (upTo : Nat) (loc : Location) (answers : List Nat) :
    (m.answering answers).flushPart t upTo loc = (m.flushPart t upTo loc).answering answers := by
  have htable : (m.answering answers).table = m.table := rfl
  rw [flushPart, flushPart, htable]
  cases m.table.buffer? t with
  | none => rfl
  | some b =>
    dsimp only
    rw [show (m.answering answers).host = m.host.answering answers from rfl,
      Scripted.storeAll_answering]
    rfl

theorem drainPicks_answering (loc : Location) (ps : List Pick) (answers : List Nat) :
    (m.answering answers).drainPicks loc ps = (m.drainPicks loc ps).answering answers := by
  have hfold : ps.foldl (drainPick loc) (m.answering answers) =
      (ps.foldl (drainPick loc) m).answering answers := by
    induction ps generalizing m with
    | nil => rfl
    | cons p rest ih =>
      have hfirst : (m.answering answers).drainPick loc p =
          (m.drainPick loc p).answering answers := by
        unfold drainPick
        cases p.upTo with
        | none => rfl
        | some upTo => exact flushPart_answering ..
      rw [List.foldl_cons, hfirst, ih, List.foldl_cons]
  unfold drainPicks
  rw [hfold]
  rfl

theorem dropOldest_answering (t : ThreadId) (answers : List Nat) :
    (m.answering answers).dropOldest t = (m.dropOldest t).answering answers := by
  have htable : (m.answering answers).table = m.table := rfl
  rw [dropOldest, dropOldest, htable]
  cases m.table.buffer? t with
  | none => rfl
  | some b =>
    dsimp only
    rw [show (m.answering answers).host = m.host.answering answers from rfl,
      Scripted.storeAll_answering]
    rfl

theorem exists_chooseDrain {cs : List Candidate} {n : Nat} (hn : n < total cs) (reader : ThreadId)
    (loc : Location) : ∃ m' : Machine Scripted, m'.table = m.table ∧ m'.host.arena = m.host.arena ∧ ∀ more,
      (m.answering (n :: more)).chooseDrain reader loc cs = (n, m'.answering more) := by
  refine ⟨((m.withHost { m.host with trace := m.host.trace ++ [⟨total cs, n⟩] }).count fun s =>
    { s with choicePoints := s.choicePoints + 1 }).note
      (.visibilityChosen reader loc (total cs) n), rfl, rfl, fun more => ?_⟩
  unfold chooseDrain
  rw [show (m.answering (n :: more)).host = m.host.answering (n :: more) from rfl,
    Scripted.choose_answering hn]
  rfl

theorem exists_chooseSource {ps : List Pick} {n : Nat} (hn : n < ps.length) (reader : ThreadId)
    (loc : Location) : ∃ answers, ∃ m' : Machine Scripted, m'.table = m.table ∧ m'.host.arena = m.host.arena ∧ ∀ more,
      (m.answering (answers ++ more)).chooseSource reader loc ps = (n, m'.answering more) := by
  by_cases hmany : 1 < ps.length
  · refine ⟨[n], (m.withHost { m.host with trace := m.host.trace ++ [⟨ps.length, n⟩] }).note
      (.visibilityResolved reader loc.addr ps.length ps[n].owner), rfl, rfl, fun more => ?_⟩
    unfold chooseSource
    rw [if_pos hmany, List.singleton_append,
      show (m.answering (n :: more)).host = m.host.answering (n :: more) from rfl,
      Scripted.choose_answering hn]
    dsimp only
    rw [List.getElem?_eq_getElem hn]
    rfl
  · have hzero : n = 0 := by omega
    subst hzero
    refine ⟨[], m.note (.visibilityResolved reader loc.addr ps.length ps[0].owner), rfl, rfl,
      fun more => ?_⟩
    unfold chooseSource
    rw [if_neg hmany]
    dsimp only
    rw [List.getElem?_eq_getElem hn]
    rfl

/-- A candidate may be drained up to any pending write that shares bytes with the location. -/
theorem exists_digit (h : m.Sound) {reader : ThreadId} {loc : Location} {c : Candidate}
    (hc : c ∈ m.table.candidates reader false loc.region) {n : Nat}
    (hn : n = 0 ∨ ∃ w, (m.tso.queue c.owner)[n - 1]? = some w ∧
      w.region.overlaps loc.region = true) :
    ∃ d < c.states, (0 < n → (c.pick? d).isSome = true) ∧
      ∀ p, c.pick? d = some p → m.takes p = n := by
  obtain ⟨-, hpending⟩ := Table.candidate_eq h.owners hc
  rcases Nat.eq_zero_or_pos n with rfl | hpos
  · refine ⟨0, Nat.succ_pos _, by omega, fun p hp => ?_⟩
    unfold Candidate.pick? at hp
    rw [if_pos rfl] at hp
    split at hp
    · cases hp
      rfl
    · contradiction
  · obtain ⟨w, hw, hover⟩ := hn.resolve_left (by omega)
    obtain ⟨i, l, hl, hlw, hi⟩ := Buffer.getElem?_pending.mp hw
    have hmem : i ∈ c.pending := hpending ▸ Buffer.mem_pendingAt.mpr ⟨l, w, hl, hlw, hover⟩
    obtain ⟨j, hj⟩ := List.mem_iff_getElem?.mp hmem
    have hlt : j < c.pending.length := (List.getElem?_eq_some_iff.mp hj).1
    have hpick : c.pick? (j + 1) = some ⟨c.owner, some i⟩ := by
      rw [Candidate.pick?, if_neg (Nat.succ_ne_zero j), Nat.add_sub_cancel, hj]
    refine ⟨j + 1, Nat.succ_lt_succ hlt, fun _ => by rw [hpick]; rfl, fun p hp => ?_⟩
    rw [hpick] at hp
    cases hp
    show (((m.table.linesOf c.owner).take (i + 1)).filterMap Line.pendingWrite?).length = n
    rw [List.take_add_one, hl, List.filterMap_append, List.length_append, hi]
    simp [hlw]
    omega

theorem exists_candidate_of_getElem? (h : m.Sound) {reader t : ThreadId} {loc : Location} {n : Nat}
    {w : Write} (ht : t ≠ reader) (hw : (m.tso.queue t)[n]? = some w)
    (hover : w.region.overlaps loc.region = true) :
    ∃ c ∈ m.table.candidates reader false loc.region, c.owner = t ∧ c.pending ≠ [] := by
  obtain ⟨i, l, hl, hlw, -⟩ := Buffer.getElem?_pending.mp hw
  have hlines : m.table.linesOf t ≠ [] := by
    intro hnil
    simp [hnil] at hl
  obtain ⟨c, hc, rfl⟩ := Table.exists_candidate ht hlines loc.region
  refine ⟨c, hc, rfl, ?_⟩
  rw [(Table.candidate_eq h.owners hc).2]
  exact List.ne_nil_of_mem (Buffer.mem_pendingAt.mpr ⟨l, w, hl, hlw, hover⟩)

/-- Any thread may come last, if it has been picked at all. -/
theorem exists_source {ps : List Pick} (hps : ps ≠ []) (last : ThreadId) :
    ∃ source < ps.length, ∀ p ∈ ps, p.owner = last →
      ∃ q, ps[source]? = some q ∧ q.owner = last := by
  by_cases hlast : ∃ p ∈ ps, p.owner = last
  · obtain ⟨p, hp, howner⟩ := hlast
    obtain ⟨source, hsource⟩ := List.mem_iff_getElem?.mp hp
    exact ⟨source, (List.getElem?_eq_some_iff.mp hsource).1, fun _ _ _ => ⟨p, hsource, howner⟩⟩
  · exact ⟨0, List.length_pos_iff.mpr hps, fun p hp howner => absurd ⟨p, hp, howner⟩ hlast⟩

section Resolve

variable {reader : ThreadId} {loc : Location}
  (hbranches : (m.table.candidates reader false loc.region).foldr (·.states * ·) 1 ≤ greatestTotal)
  {k : ThreadId → Nat} (hreader : k reader = 0)
  (hk : ∀ t, k t = 0 ∨ ∃ w, (m.tso.queue t)[k t - 1]? = some w ∧
    w.region.overlaps loc.region = true)

include hreader hk

theorem exists_candidate_of_pos (h : m.Sound) {t : ThreadId} (ht : 0 < k t) :
    ∃ c ∈ m.table.candidates reader false loc.region, c.owner = t ∧ c.pending ≠ [] := by
  have hne : t ≠ reader := by
    rintro rfl
    omega
  obtain ⟨w, hw, hover⟩ := (hk t).resolve_left (by omega)
  exact exists_candidate_of_getElem? h hne hw hover

include hbranches

/-- Some branch drains of every thread what is asked for. -/
theorem exists_picks (h : m.Sound) : ∃ n < total (m.table.candidates reader false loc.region),
    (∀ p ∈ picks (m.table.candidates reader false loc.region) n,
      p.owner ≠ reader ∧ m.takes p = k p.owner) ∧
    ∀ t, 0 < k t → ∃ p ∈ picks (m.table.candidates reader false loc.region) n, p.owner = t := by
  have hdigit (c : Candidate) : ∃ d, c ∈ m.table.candidates reader false loc.region →
      d < c.states ∧ (0 < k c.owner → (c.pick? d).isSome = true) ∧
        ∀ p, c.pick? d = some p → m.takes p = k c.owner := by
    by_cases hc : c ∈ m.table.candidates reader false loc.region
    · obtain ⟨d, hd⟩ := exists_digit h hc (hk c.owner)
      exact ⟨d, fun _ => hd⟩
    · exact ⟨0, fun hmem => absurd hmem hc⟩
  obtain ⟨digit, hdigit⟩ := Classical.axiomOfChoice hdigit
  obtain ⟨n, hn, hdigits⟩ := exists_choice fun c hc => (hdigit c hc).1
  have hn : n < total (m.table.candidates reader false loc.region) := by
    show n < min _ _
    rwa [Nat.min_eq_left hbranches]
  refine ⟨n, hn, fun p hp => ?_, fun t ht => ?_⟩
  · rw [picks_eq hdigits] at hp
    obtain ⟨c, hc, hpick⟩ := List.mem_filterMap.mp hp
    rw [(pick?_owner hpick).1]
    exact ⟨(Table.candidate_eq h.owners hc).1, (hdigit c hc).2.2 p hpick⟩
  · obtain ⟨c, hc, rfl, -⟩ := exists_candidate_of_pos hreader hk h ht
    obtain ⟨p, hpick⟩ := Option.isSome_iff_exists.mp ((hdigit c hc).2.1 ht)
    rw [picks_eq hdigits]
    exact ⟨p, List.mem_filterMap.mpr ⟨c, hc, hpick⟩, (pick?_owner hpick).1⟩

/-- The host may resolve the visibility of a location as it likes: of every thread but the reader
nothing, or all up to a pending write that shares bytes with the location, and any thread last. -/
theorem may_resolve (h : m.Sound) (last : ThreadId) :
    May (resolve reader loc false) m fun m' => ∃ ks, m'.tso = m.tso.releases ks ∧
      (ks.map (·.1)).Nodup ∧ (∀ j ∈ ks, j.1 ≠ reader ∧ j.2 = k j.1) ∧
      (∀ t, 0 < k t → t ∈ ks.map (·.1)) ∧
      (0 < k last → ∃ js, ks = js ++ [(last, k last)]) := by
  obtain ⟨n, hn, hmem, hpicked⟩ := exists_picks hbranches hreader hk h
  have hnodup := nodup_picks (Table.nodup_candidates h.owners reader false loc.region) n
  have hcandidate := fun t => exists_candidate_of_pos (t := t) hreader hk h
  generalize hcs : m.table.candidates reader false loc.region = cs
    at hn hmem hpicked hcandidate hnodup
  have hresolve (answers : List Nat) : (m.answering answers).resolve reader loc false =
      if cs.all (·.pending.isEmpty) then m.answering answers
      else
        let drain := (m.answering answers).chooseDrain reader loc cs
        if (picks cs drain.1).isEmpty then drain.2
        else
          let source := drain.2.chooseSource reader loc (picks cs drain.1)
          source.2.drainPicks loc (sourceLast (picks cs drain.1) source.1) := by
    rw [← hcs]
    rfl
  by_cases hall : cs.all (·.pending.isEmpty) = true
  · -- there is no choice, and nothing that could be asked for
    have hzero (t : ThreadId) : ¬ 0 < k t := by
      intro ht
      obtain ⟨c, hc, -, hne⟩ := hcandidate t ht
      exact hne (List.isEmpty_iff.mp (List.all_eq_true.mp hall c hc))
    refine ⟨[], m, fun more => ?_, [], rfl, List.nodup_nil, nofun,
      fun t ht => absurd ht (hzero t), fun ht => absurd ht (hzero last)⟩
    rw [hresolve, if_pos hall]
    rfl
  obtain ⟨m₁, htable₁, harena₁, hdrain⟩ := exists_chooseDrain (m := m) hn reader loc
  by_cases hempty : picks cs n = []
  · have hzero (t : ThreadId) : ¬ 0 < k t := by
      intro ht
      obtain ⟨p, hp, -⟩ := hpicked t ht
      simp [hempty] at hp
    refine ⟨[n], m₁, fun more => ?_, [], tso_congr htable₁ harena₁, List.nodup_nil, nofun,
      fun t ht => absurd ht (hzero t), fun ht => absurd ht (hzero last)⟩
    rw [hresolve, if_neg hall, List.singleton_append, hdrain]
    exact if_pos (List.isEmpty_iff.mpr hempty)
  obtain ⟨source, hsource, hlast⟩ := exists_source hempty last
  obtain ⟨answers, m₂, htable₂, harena₂, hchoose⟩ :=
    exists_chooseSource (m := m₁) hsource reader loc
  have htable := htable₂.trans htable₁
  have harena := harena₂.trans harena₁
  refine ⟨n :: answers, m₂.drainPicks loc (sourceLast (picks cs n) source), fun more => ?_, _,
    tso_drainPicks_sourceLast (h.congr htable harena) htable (tso_congr htable harena) loc
      hnodup source, ?_, ?_, ?_, ?_⟩
  · rw [hresolve, if_neg hall, List.cons_append, hdrain]
    dsimp only
    rw [if_neg (by simpa using hempty), hchoose, drainPicks_answering]
  · rw [List.map_map]
    exact nodup_sourceLast hnodup source
  · intro j hj
    obtain ⟨p, hp, rfl⟩ := List.mem_map.mp hj
    exact hmem p (mem_of_mem_sourceLast hp)
  · intro t ht
    obtain ⟨p, hp, rfl⟩ := hpicked t ht
    have hp := (sourceLast_perm _ source).mem_iff.mpr hp
    exact List.mem_map.mpr ⟨_, List.mem_map.mpr ⟨p, hp, rfl⟩, rfl⟩
  · intro ht
    obtain ⟨p, hp, howner⟩ := hpicked last ht
    obtain ⟨q, hq, hqlast⟩ := hlast p hp howner
    refine ⟨((picks cs n).eraseIdx source).map fun q => (q.owner, m.takes q), ?_⟩
    rw [sourceLast, hq, List.map_append, Option.toList_some, List.map_singleton, hqlast,
      (hmem q (List.mem_of_getElem? hq)).2, hqlast]

end Resolve

/-- The oldest line of a thread may leave after the host has resolved its location as it likes. -/
theorem may_evictOldest (h : m.Sound) {t : ThreadId} {l : Line} {lines : List Line} {w : Write}
    (hlines : m.table.linesOf t = l :: lines) (hl : l.pendingWrite? = some w)
    (hbranches : (m.table.candidates t false w.loc.region).foldr (·.states * ·) 1 ≤ greatestTotal)
    {k : ThreadId → Nat} (hown : k t = 1)
    (hk : ∀ u, k u = 0 ∨ ∃ v, (m.tso.queue u)[k u - 1]? = some v ∧
      v.region.overlaps w.loc.region = true) :
    May (evictOldest t l) m fun m' => ∃ ks js, ks = js ++ [(t, 1)] ∧ m'.tso = m.tso.releases ks ∧
      (ks.map (·.1)).Nodup ∧ (∀ j ∈ ks, j.2 = k j.1) ∧ ∀ u, 0 < k u → u ∈ ks.map (·.1) := by
  let others (u : ThreadId) : Nat := if u = t then 0 else k u
  have hother {u : ThreadId} (hu : u ≠ t) : others u = k u := if_neg hu
  have hothers (u : ThreadId) : others u = 0 ∨ ∃ v, (m.tso.queue u)[others u - 1]? = some v ∧
      v.region.overlaps w.loc.region = true := by
    by_cases hu : u = t
    · exact .inl (if_pos hu)
    · rw [hother hu]
      exact hk u
  have hresolve := ((may_resolve hbranches (if_pos rfl) hothers h t).also (R := fun m' => m'.Sound)
    (fun answers => (reaches_resolve (h.answering answers) t w.loc false).sound)
    fun _ _ hr => hr.congr rfl rfl).also
      (R := fun m' => (m'.table.linesOf t).map Line.unnumbered =
        (m.table.linesOf t).map Line.unnumbered)
      (fun answers => unnumbered_resolve (h.answering answers) t w.loc) fun _ _ => id
  have heq : evictOldest t l =
      fun m : Machine Scripted => (m.resolve t w.loc false).dropOldest t := by
    funext m
    rw [evictOldest, hl]
  rw [heq]
  refine hresolve.seq fun m₁ hm₁ => .of_free (dropOldest_answering t) ?_
  obtain ⟨⟨⟨ks, htso, hnodup, hks, hall, -⟩, hsound⟩, hsame⟩ := hm₁
  have hone : m₁.pendingBefore t 1 = 1 := by
    rw [pendingBefore_congr hsame, pendingBefore, hlines]
    simp [hl]
  have hforeign : t ∉ ks.map (·.1) := by
    intro hmem
    obtain ⟨j, hj, hjt⟩ := List.mem_map.mp hmem
    exact (hks j hj).1 hjt
  refine ⟨_, ks, rfl, ?_, ?_, fun j hj => ?_, fun u hu => ?_⟩
  · rw [tso_dropOldest hsound, hone, htso, Tso.releases_append]
    rfl
  · rw [List.map_append]
    refine List.nodup_append.mpr ⟨hnodup, List.pairwise_singleton .., ?_⟩
    rintro a ha b hb rfl
    have hb : a = t := List.mem_singleton.mp hb
    exact hforeign (hb ▸ ha)
  · rcases List.mem_append.mp hj with hj | hj
    · rw [(hks j hj).2]
      exact hother (hks j hj).1
    · rw [List.mem_singleton.mp hj, hown]
  · rw [List.map_append]
    by_cases hut : u = t
    · exact List.mem_append_right _ (List.mem_singleton.mpr hut)
    · refine List.mem_append_left _ (hall u ?_)
      rwa [hother hut]

end Machine

end StoreBuffer
