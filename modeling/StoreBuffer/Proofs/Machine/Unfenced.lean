import StoreBuffer.Proofs.Host.Congruence
import StoreBuffer.Proofs.Machine.Lockstep
import StoreBuffer.Proofs.Machine.Visibility
import StoreBuffer.Proofs.Table.Unfenced

/-! # Machines that differ in fences only

`Machine.Alike` relates machines whose buffers hold the same stores in the same order and whose hosts
no call can tell apart. Operations keep it: they ask the same choices of both hosts, write the same
to both memories and answer the same. Positions in the buffers differ, so the visibility of stores is
compared by rank. -/

namespace StoreBuffer

/-- The counters, the one for fences left out. -/
def Stats.unfenced (s : Stats) : Stats := { s with fencesBuffered := 0 }

namespace Machine

open Visibility

variable {σ : Type} {R : σ → σ → Prop} {m m' : Machine σ}

/-- The machines differ in fences and logs only, and their hosts are related. -/
structure Alike (R : σ → σ → Prop) (m m' : Machine σ) : Prop where
  host : R m.host m'.host
  config : m.config = m'.config
  stats : m.stats.unfenced = m'.stats.unfenced
  table : m.table.unfenced = m'.table.unfenced
  left : m.table.Tidy
  right : m'.table.Tidy

theorem Alike.withHost (h : Alike R m m') {k k' : σ} (hk : R k k') :
    Alike R (m.withHost k) (m'.withHost k') := ⟨hk, h.config, h.stats, h.table, h.left, h.right⟩

theorem Alike.withTable (h : Alike R m m') {t t' : Table} (ht : t.unfenced = t'.unfenced)
    (hleft : t.Tidy) (hright : t'.Tidy) : Alike R (m.withTable t) (m'.withTable t') :=
  ⟨h.host, h.config, h.stats, ht, hleft, hright⟩

theorem Alike.note (h : Alike R m m') (e e' : Event) : Alike R (m.note e) (m'.note e') :=
  ⟨h.host, h.config, h.stats, h.table, h.left, h.right⟩

theorem Alike.noteOperation (h : Alike R m m') (e e' : Event) :
    Alike R (m.noteOperation e) (m'.noteOperation e') := by
  unfold Machine.noteOperation
  rw [h.config]
  split
  · exact h.note e e'
  · exact h

theorem Alike.count (h : Alike R m m') (f : Stats → Stats)
    (hf : ∀ s, (f s).unfenced = f s.unfenced) : Alike R (m.count f) (m'.count f) := by
  refine ⟨h.host, h.config, ?_, h.table, h.left, h.right⟩
  show (f m.stats).unfenced = (f m'.stats).unfenced
  rw [hf, hf, h.stats]

theorem Alike.capacity (h : Alike R m m') : m.capacity = m'.capacity :=
  congrArg Config.capacity h.config

theorem Alike.minOrder (h : Alike R m m') : m.minOrder = m'.minOrder :=
  congrArg Config.minOrder h.config

/-- A thread has a buffer in both tables, with the same stores, or in none. -/
theorem Alike.buffers (h : Alike R m m') (t : ThreadId) :
    m.table.buffer? t = none ∧ m'.table.buffer? t = none ∨
      ∃ b b', m.table.buffer? t = some b ∧ m'.table.buffer? t = some b' ∧
        b.unfenced = b'.unfenced ∧ b.Tidy ∧ b'.Tidy := by
  have hsame : (m.table.buffer? t).map Buffer.unfenced = (m'.table.buffer? t).map Buffer.unfenced := by
    rw [← Table.buffer?_unfenced, h.table, Table.buffer?_unfenced]
  cases hb : m.table.buffer? t with
  | none =>
    rw [hb] at hsame
    exact .inl ⟨rfl, Option.map_eq_none_iff.mp hsame.symm⟩
  | some b =>
    rw [hb] at hsame
    obtain ⟨b', hb', hsame⟩ := Option.map_eq_some_iff.mp hsame.symm
    exact .inr ⟨b, b', rfl, hb', hsame.symm, h.left.buffer hb, h.right.buffer hb'⟩

theorem Alike.overdue? (h : Alike R m m') (t : ThreadId) : m.overdue? t = m'.overdue? t := by
  unfold Machine.overdue?
  rw [h.capacity]
  rcases h.buffers t with ⟨hb, hb'⟩ | ⟨b, b', hb, hb', hsame, htidy, htidy'⟩
  · rw [hb, hb']
  · rw [hb, hb', Option.filter_some, Option.filter_some, ← Buffer.storeCount_unfenced, hsame,
      Buffer.storeCount_unfenced]
    split
    · rw [Option.bind_some, Option.bind_some, ← Buffer.oldest?_unfenced htidy, hsame,
        Buffer.oldest?_unfenced htidy']
    · rfl

/-- A store gets the same numbers. -/
theorem Alike.numbered (h : Alike R m m') (loc : Location) (value : UInt64) {order : Order}
    (hseq : order.isSeqCst = false) :
    m.numbered (.store loc value order) = m'.numbered (.store loc value order) := by
  have hatomic (p : Location) : m.table.nextAtomicNo p = m'.table.nextAtomicNo p := by
    rw [← Table.nextAtomicNo_unfenced, h.table, Table.nextAtomicNo_unfenced]
  have horder : (Line.store loc value order).order.isSeqCst = false := hseq
  unfold Machine.numbered
  simp only [hatomic, horder, Bool.false_eq_true, if_false]

/-- The thread finds the same stores of its own. -/
theorem Alike.forward (h : Alike R m m') (t : ThreadId) (loc : Location) (v : UInt64) :
    Both (Alike R) (m.forward t loc v) (m'.forward t loc v) := by
  unfold Machine.forward
  rcases h.buffers t with ⟨hb, hb'⟩ | ⟨b, b', hb, hb', hsame, -, -⟩
  · rw [hb, hb']
    exact ⟨rfl, h⟩
  · rw [hb, hb']
    dsimp only
    rw [← Buffer.shortcut?_unfenced, hsame, Buffer.shortcut?_unfenced, ← Buffer.merge_unfenced, hsame,
      Buffer.merge_unfenced]
    split
    · exact ⟨rfl, h.count (fun s => { s with loadsForwarded := s.loadsForwarded + 1 }) fun _ => rfl⟩
    · exact ⟨rfl, h⟩

/-- Nothing but fences and the log has changed. -/
structure Marks (m m' : Machine σ) : Prop where
  host : m'.host = m.host
  config : m'.config = m.config
  stats : m'.stats.unfenced = m.stats.unfenced
  table : m'.table.unfenced = m.table.unfenced
  tidy : m'.table.Tidy

theorem Alike.marks (h : Alike R m m') {m₁ m₁' : Machine σ} (hm : m.Marks m₁)
    (hm' : m'.Marks m₁') : Alike R m₁ m₁' where
  host := hm.host ▸ hm'.host ▸ h.host
  config := hm.config.trans (h.config.trans hm'.config.symm)
  stats := hm.stats.trans (h.stats.trans hm'.stats.symm)
  table := hm.table.trans (h.table.trans hm'.table.symm)
  left := hm.tidy
  right := hm'.tidy

theorem Marks.refl (h : m.table.Tidy) : m.Marks m := ⟨rfl, rfl, rfl, rfl, h⟩

theorem Marks.trans {m'' : Machine σ} (h : m.Marks m') (h' : m'.Marks m'') : m.Marks m'' :=
  ⟨h'.host.trans h.host, h'.config.trans h.config, h'.stats.trans h.stats, h'.table.trans h.table,
    h'.tidy⟩

theorem Marks.withHost (h : m.Marks m') (k : σ) : (m.withHost k).Marks (m'.withHost k) :=
  ⟨rfl, h.config, h.stats, h.table, h.tidy⟩

theorem marks_noteOperation (h : m.table.Tidy) (e : Event) : m.Marks (m.noteOperation e) := by
  unfold Machine.noteOperation
  split <;> exact ⟨rfl, rfl, rfl, rfl, h⟩

theorem marks_pushFence (h : m.table.Tidy) (t : ThreadId) (r : Order) :
    m.Marks (m.pushFence t (.fence r)).2 := by
  have hrest : (m.pushFence t (.fence r)).2.host = m.host ∧
      (m.pushFence t (.fence r)).2.stats.unfenced = m.stats.unfenced := by
    unfold pushFence
    split
    · exact ⟨rfl, rfl⟩
    · split <;> exact ⟨rfl, rfl⟩
  suffices htable : (m.pushFence t (.fence r)).2.table.unfenced = m.table.unfenced ∧
      (m.pushFence t (.fence r)).2.table.Tidy from
    ⟨hrest.1, config_pushFence .., hrest.2, htable.1, htable.2⟩
  obtain ⟨-, htable⟩ | ⟨b, newest, hb, hnewest, ⟨hfence, -, htable⟩ | ⟨hfence, -, htable⟩⟩ :=
    pushFence_cases t (.fence r) m
  · rw [htable]
    exact ⟨rfl, h⟩
  · -- united with the newest line, which is a fence
    obtain ⟨older, hlines, hmodified⟩ :=
      Buffer.exists_modify_newest hnewest fun f => { f with order := f.order ||| (Line.fence r).order }
    have hnone (order : Order) : ¬ ({ newest with order } : Line).isStore = true := by
      show ¬ newest.isStore = true
      simp [Line.isStore_eq_not_isFence, hfence]
    rw [htable, Table.unfenced_modify_id h.owners hb]
    · exact ⟨rfl, h.modify hb (h.buffer hb |>.modifyNewest hnewest hfence _)⟩
    · refine congrArg Buffer.mk ?_
      rw [hmodified, hlines, List.filter_append, List.filter_append,
        List.filter_cons_of_neg (hnone _), List.filter_cons_of_neg (hnone newest.order)]
  · have hnonempty : b.lines ≠ [] := by
      intro hnil
      rw [Buffer.newest?, hnil] at hnewest
      contradiction
    rw [htable, Table.unfenced_modify_id h.owners hb]
    · exact ⟨rfl, h.modify hb (h.buffer hb |>.push (Line.wellFormed_fence r) rfl (.inr hnonempty))⟩
    · refine congrArg Buffer.mk ?_
      rw [Buffer.push, List.filter_append]
      exact List.append_nil _

theorem Alike.pushFence (h : Alike R m m') (t : ThreadId) (r : Order) :
    Alike R (m.pushFence t (.fence r)).2 (m'.pushFence t (.fence r)).2 :=
  h.marks (marks_pushFence h.left t r) (marks_pushFence h.right t r)

/-! ## Draining -/

/-- Departures of the same stores. -/
theorem Alike.departed (h : Alike R m m') {t : ThreadId} {b b' : Buffer}
    (hb : m.table.buffer? t = some b) (hb' : m'.table.buffer? t = some b')
    (hsame : b.unfenced = b'.unfenced) {d d' : Departure} (hd : d.unfenced b = d'.unfenced b') :
    ((m.table.modify t fun _ => d.stay b).retire (d.gone b)).unfenced =
      ((m'.table.modify t fun _ => d'.stay b').retire (d'.gone b')).unfenced := by
  rw [Table.unfenced_departed h.left hb, Table.unfenced_departed h.right hb', hd, hsame, h.table]

theorem Alike.prune (h : Alike R m m') :
    Alike R (m.withTable m.table.prune) (m'.withTable m'.table.prune) := by
  refine h.withTable ?_ h.left.prune h.right.prune
  rw [Table.unfenced_prune h.left, Table.unfenced_prune h.right, h.table]

theorem writes_of_unfenced {b b' : Buffer} (h : b.unfenced = b'.unfenced) :
    b.lines.filterMap Line.pendingWrite? = b'.lines.filterMap Line.pendingWrite? := by
  rw [← Line.filterMap_pendingWrite?_filter, ← Line.filterMap_pendingWrite?_filter b'.lines]
  exact congrArg (fun u : Buffer => u.lines.filterMap Line.pendingWrite?) h

theorem Alike.discardRange (h : Alike R m m') (only : Option ThreadId) (range : Region) :
    Both (Alike R) (m.discardRange only range) (m'.discardRange only range) := by
  have hcount : (m.discardRange only range).1 = (m'.discardRange only range).1 := by
    unfold Machine.discardRange
    dsimp only
    rw [← Table.stores_evict_unfenced, h.table, Table.stores_evict_unfenced]
  have hrest (m : Machine σ) : (m.discardRange only range).2.host = m.host ∧
      (m.discardRange only range).2.stats = { m.stats with
        linesFreed := m.stats.linesFreed + (m.discardRange only range).1 } := by
    unfold Machine.discardRange
    dsimp only
    split <;> exact ⟨rfl, rfl⟩
  have hleft := sheds_discardRange only range m
  have hright := sheds_discardRange only range m'
  refine ⟨hcount, ?_, ?_, ?_, ?_, h.left.thins hleft.table, h.right.thins hright.table⟩
  · rw [(hrest m).1, (hrest m').1]
    exact h.host
  · rw [hleft.config, hright.config, h.config]
  · rw [(hrest m).2, (hrest m').2, hcount]
    have hfreed : m.stats.unfenced.linesFreed = m'.stats.unfenced.linesFreed := by rw [h.stats]
    have hfreed : m.stats.linesFreed = m'.stats.linesFreed := hfreed
    have hstats := congrArg (fun s : Stats => { s with
      linesFreed := m'.stats.linesFreed + (m'.discardRange only range).1 }) h.stats
    rw [hfreed]
    exact hstats
  · rw [table_discardRange, table_discardRange,
      Table.unfenced_prune (h.left.depart only (.range range)),
      Table.unfenced_prune (h.right.depart only (.range range)),
      Table.unfenced_depart h.left only fun _ => rfl,
      Table.unfenced_depart h.right only fun _ => rfl, h.table]

variable [Host σ]

theorem Alike.thread (hR : Host.Congruence R) (h : Alike R m m') : m.thread = m'.thread :=
  hR.thread h.host

/-- The same stores leave, and the same writes come to memory. -/
theorem Alike.drained (hR : Host.Congruence R) (h : Alike R m m') {t : ThreadId} {b b' : Buffer}
    (hb : m.table.buffer? t = some b) (hb' : m'.table.buffer? t = some b')
    (hsame : b.unfenced = b'.unfenced) (d d' : Departure) (hd : d.unfenced b = d'.unfenced b')
    {ws ws' : List Write} (hws : ws = ws') (f : Stats → Stats)
    (hf : ∀ s, (f s).unfenced = f s.unfenced) (log log' : List Event) :
    Alike R
      { m with
        host := Memory.storeAll ws m.host
        table := (m.table.modify t fun _ => d.stay b).retire (d.gone b)
        stats := f m.stats
        log := log }
      { m' with
        host := Memory.storeAll ws' m'.host
        table := (m'.table.modify t fun _ => d'.stay b').retire (d'.gone b')
        stats := f m'.stats
        log := log' } where
  host := hws ▸ hR.storeAll ws h.host
  config := h.config
  stats := by
    show (f m.stats).unfenced = (f m'.stats).unfenced
    rw [hf, hf, h.stats]
  table := h.departed hb hb' hsame hd
  left := h.left.thins (thins_modify h.left.owners hb d)
  right := h.right.thins (thins_modify h.right.owners hb' d')

theorem Alike.flush (hR : Host.Congruence R) (h : Alike R m m') (t : ThreadId) :
    Alike R (m.flush t) (m'.flush t) := by
  unfold Machine.flush
  rcases h.buffers t with ⟨hb, hb'⟩ | ⟨b, b', hb, hb', hsame, -, -⟩
  · rw [hb, hb']
    exact h
  · rw [hb, hb']
    exact (h.drained hR hb hb' hsame .all .all rfl (writes_of_unfenced hsame)
      (fun s => { s with fullFlushes := s.fullFlushes + 1 }) (fun _ => rfl) _ _).prune

/-- Prefixes with as many stores. -/
theorem Alike.flushPart (hR : Host.Congruence R) (h : Alike R m m') (t : ThreadId)
    {upTo upTo' : Nat} (hrank : m.table.rank t upTo = m'.table.rank t upTo') (loc : Location) :
    Alike R (m.flushPart t upTo loc) (m'.flushPart t upTo' loc) := by
  unfold Machine.flushPart
  rcases h.buffers t with ⟨hb, hb'⟩ | ⟨b, b', hb, hb', hsame, -, -⟩
  · rw [hb, hb']
    exact h
  · have hstores : b.storesBefore (upTo + 1) = b'.storesBefore (upTo' + 1) := by
      unfold Table.rank at hrank
      rwa [Table.linesOf_of_buffer? hb, Table.linesOf_of_buffer? hb'] at hrank
    have hwrites : (b.drain (upTo + 1) loc.region).writes =
        (b'.drain (upTo' + 1) loc.region).writes := by
      rw [← Buffer.writes_drain_unfenced, ← Buffer.writes_drain_unfenced b', hsame, hstores]
    have hd : (Departure.front (upTo + 1) loc.region).unfenced b =
        (Departure.front (upTo' + 1) loc.region).unfenced b' := by
      rw [Departure.unfenced, Departure.unfenced, hstores]
    rw [hb, hb']
    exact h.drained hR hb hb' hsame _ _ hd hwrites
      (fun s => { s with partialFlushes := s.partialFlushes + 1 }) (fun _ => rfl) _ _

theorem Alike.dropOldest (hR : Host.Congruence R) (h : Alike R m m') (t : ThreadId) :
    Alike R (m.dropOldest t) (m'.dropOldest t) := by
  unfold Machine.dropOldest
  rcases h.buffers t with ⟨hb, hb'⟩ | ⟨b, b', hb, hb', hsame, htidy, htidy'⟩
  · rw [hb, hb']
    exact h
  · have holdest : (b.erase 0).1 = (b'.erase 0).1 := by
      rw [(Departure.unfenced_erase htidy).2, hsame, ← (Departure.unfenced_erase htidy').2]
    rw [hb, hb']
    exact h.drained hR hb hb' hsame .oldest .oldest rfl (by rw [holdest])
      (fun s => { s with evictions := s.evictions + 1 }) (fun _ => rfl) _ _

/-! ## Resolving -/

theorem rank_congr {t t' : Table} {o : ThreadId}
    (h : (t.linesOf o).map Line.unnumbered = (t'.linesOf o).map Line.unnumbered) :
    t.rank o = t'.rank o := by
  funext i
  unfold Table.rank Buffer.storesBefore
  rw [← Line.countP_unnumbered, List.map_take, h, ← List.map_take, Line.countP_unnumbered]

/-- Draining one thread leaves the stores of the others where they stand. -/
theorem rank_drainPick (h : m.table.owners.Nodup) (loc : Location) (p : Pick) {o : ThreadId}
    (ho : o ≠ p.owner) : (m.drainPick loc p).table.rank o = m.table.rank o := by
  unfold drainPick
  split
  · exact rank_congr ((sheds_flushPart h p.owner _ loc).table.unnumbered_linesOf h ho)
  · rfl

theorem Alike.drainPick (hR : Host.Congruence R) (h : Alike R m m') (loc : Location)
    {p p' : Pick} (hp : p.ranked m.table.rank = p'.ranked m'.table.rank) :
    Alike R (m.drainPick loc p) (m'.drainPick loc p') := by
  obtain ⟨o, upTo⟩ := p
  obtain ⟨o', upTo'⟩ := p'
  obtain ⟨rfl, hrank⟩ := Pick.mk.inj hp
  unfold Machine.drainPick
  cases upTo with
  | none =>
    obtain rfl : upTo' = none := Option.map_eq_none_iff.mp hrank.symm
    exact h
  | some i =>
    obtain ⟨i', rfl, hrank⟩ := Option.map_eq_some_iff.mp hrank.symm
    exact h.flushPart hR o hrank.symm loc

theorem Alike.foldl_drainPick (hR : Host.Congruence R) (h : Alike R m m') (loc : Location)
    {ps ps' : List Pick}
    (hps : ps.map (Pick.ranked m.table.rank) = ps'.map (Pick.ranked m'.table.rank))
    (hnodup : (ps.map (·.owner)).Nodup) :
    Alike R (ps.foldl (Machine.drainPick loc) m) (ps'.foldl (Machine.drainPick loc) m') := by
  induction ps generalizing ps' m m' with
  | nil =>
    obtain rfl : ps' = [] := by simpa using hps.symm
    exact h
  | cons p rest ih =>
    cases ps' with
    | nil => simp at hps
    | cons p' rest' =>
      obtain ⟨hp, hrest⟩ := List.cons.inj hps
      obtain ⟨hfresh, hnodup⟩ := List.nodup_cons.mp hnodup
      refine ih (h.drainPick hR loc hp) ?_ hnodup
      -- the picks that are left belong to other threads, so their ranks are as before
      have howner : p.owner = p'.owner := (Pick.mk.inj hp).1
      have howners : rest.map (·.owner) = rest'.map (·.owner) := by
        have hmap := congrArg (List.map (·.owner)) hrest
        rwa [List.map_map, List.map_map] at hmap
      have hkeep {m : Machine σ} (hn : m.table.owners.Nodup) {p : Pick} {rest : List Pick}
          (hfresh : p.owner ∉ rest.map (·.owner)) :
          rest.map (Pick.ranked (m.drainPick loc p).table.rank) =
            rest.map (Pick.ranked m.table.rank) := by
        refine List.map_congr_left fun q hq => ?_
        have hne : q.owner ≠ p.owner := fun heq => hfresh (List.mem_map.mpr ⟨q, hq, heq⟩)
        rw [Pick.ranked, rank_drainPick hn loc p hne, Pick.ranked]
      rw [hkeep h.left.owners hfresh, hkeep h.right.owners (howner ▸ howners ▸ hfresh)]
      exact hrest

theorem Alike.chooseDrain (hR : Host.Congruence R) (h : Alike R m m') (reader : ThreadId)
    (loc : Location) {cs cs' : List Candidate} (hcs : total cs = total cs') :
    Both (Alike R) (m.chooseDrain reader loc cs) (m'.chooseDrain reader loc cs') := by
  obtain ⟨hanswer, hhost⟩ := hR.choose (total cs) h.host
  unfold Machine.chooseDrain
  rw [← hcs]
  refine ⟨hanswer, ?_⟩
  exact ((h.withHost hhost).count (fun s => { s with choicePoints := s.choicePoints + 1 })
    fun _ => rfl).note _ _

theorem Alike.chooseSource (hR : Host.Congruence R) (h : Alike R m m') (reader : ThreadId)
    (loc : Location) {ps ps' : List Pick} (hps : ps.length = ps'.length) :
    Both (Alike R) (m.chooseSource reader loc ps) (m'.chooseSource reader loc ps') := by
  have hchoice : (if 1 < ps.length then Host.choose ps.length m.host else (0, m.host)).1 =
        (if 1 < ps.length then Host.choose ps.length m'.host else (0, m'.host)).1 ∧
      R (if 1 < ps.length then Host.choose ps.length m.host else (0, m.host)).2
        (if 1 < ps.length then Host.choose ps.length m'.host else (0, m'.host)).2 := by
    split
    · exact hR.choose _ h.host
    · exact ⟨rfl, h.host⟩
  unfold Machine.chooseSource
  rw [← hps]
  generalize (if 1 < ps.length then Host.choose ps.length m.host else (0, m.host)) = r at hchoice ⊢
  generalize (if 1 < ps.length then Host.choose ps.length m'.host else (0, m'.host)) = r'
    at hchoice ⊢
  obtain ⟨hanswer, hhost⟩ := hchoice
  refine ⟨hanswer, ?_⟩
  have hnext := h.withHost hhost
  dsimp only
  cases ps[r.1]? <;> cases ps'[r'.1]? <;>
    exact ⟨hnext.host, hnext.config, hnext.stats, hnext.table, hnext.left, hnext.right⟩

/-- The same stores of other threads become visible. -/
theorem Alike.resolve (hR : Host.Congruence R) (h : Alike R m m') (reader : ThreadId)
    (loc : Location) (own : Bool) :
    Alike R (m.resolve reader loc own) (m'.resolve reader loc own) := by
  have hcs : (m.table.candidates reader own loc.region).map (Candidate.ranked m.table.rank) =
      (m'.table.candidates reader own loc.region).map (Candidate.ranked m'.table.rank) := by
    rw [Table.candidates_unfenced h.left.owners, Table.candidates_unfenced h.right.owners, h.table]
  have hnodup := Table.nodup_candidates h.left.owners reader own loc.region
  unfold Machine.resolve
  generalize m.table.candidates reader own loc.region = cs at hcs hnodup ⊢
  generalize m'.table.candidates reader own loc.region = cs' at hcs ⊢
  have hidle : cs.all (·.pending.isEmpty) = cs'.all (·.pending.isEmpty) := by
    rw [← all_ranked, hcs, all_ranked]
  have htotal : total cs = total cs' := by rw [← total_ranked, hcs, total_ranked]
  have hps (choice : Nat) : (picks cs choice).map (Pick.ranked m.table.rank) =
      (picks cs' choice).map (Pick.ranked m'.table.rank) := by
    rw [← picks_ranked, hcs, picks_ranked]
  obtain ⟨hchoice, hdrain⟩ := h.chooseDrain hR reader loc htotal
  dsimp only
  rw [hidle, hchoice]
  split
  · exact h
  · have htable : (m.chooseDrain reader loc cs).2.table = m.table := rfl
    have htable' : (m'.chooseDrain reader loc cs').2.table = m'.table := rfl
    generalize (m'.chooseDrain reader loc cs').1 = choice
    generalize (m.chooseDrain reader loc cs).2 = m₁ at hdrain htable ⊢
    generalize (m'.chooseDrain reader loc cs').2 = m₁' at hdrain htable' ⊢
    have hps := hps choice
    have hnodup := nodup_picks hnodup choice
    generalize picks cs choice = ps at hps hnodup ⊢
    generalize picks cs' choice = ps' at hps ⊢
    have hlength : ps.length = ps'.length := by simpa using congrArg List.length hps
    have hempty : ps.isEmpty = ps'.isEmpty := by
      rw [Bool.eq_iff_iff, List.isEmpty_iff_length_eq_zero, List.isEmpty_iff_length_eq_zero, hlength]
    obtain ⟨hsource, hsourced⟩ := hdrain.chooseSource hR reader loc hlength
    rw [hempty, hsource]
    split
    · exact hdrain
    · refine (hsourced.foldl_drainPick hR loc ?_ (nodup_sourceLast hnodup _)).prune
      rw [table_chooseSource, table_chooseSource, htable, htable', ← sourceLast_map,
        ← sourceLast_map, hps]

/-! ## Evicting -/

theorem Alike.evictOldest (hR : Host.Congruence R) (h : Alike R m m') (t : ThreadId) (l : Line) :
    Alike R (m.evictOldest t l) (m'.evictOldest t l) := by
  unfold Machine.evictOldest
  split
  · exact (h.resolve hR t _ false).dropOldest hR t
  · exact h.dropOldest hR t

/-- Every eviction takes one store away. -/
theorem storesOf_evictOldest (h : m.table.Tidy) (t : ThreadId) (l : Line) :
    (m.evictOldest t l).table.storesOf t = m.table.storesOf t - 1 := by
  have hdrop {m : Machine σ} (h : m.table.Tidy) :
      (m.dropOldest t).table.storesOf t = m.table.storesOf t - 1 := by
    have holdest := (h.buffers t).oldest
    obtain ⟨retired, hlines⟩ := linesOf_dropOldest m t
    have hrest := Buffer.storeCount_dropLeadingFences ⟨(m.table.linesOf t).tail⟩
    rw [Table.storesOf, hlines, if_pos rfl, List.countP_map]
    refine Eq.trans hrest ?_
    rw [Table.storesOf, Buffer.storeCount]
    cases hl : m.table.linesOf t with
    | nil => rfl
    | cons k rest =>
      rw [hl] at holdest
      rw [List.countP_cons_of_pos (holdest k rfl)]
      rfl
  unfold Machine.evictOldest
  split
  · rename_i w _
    have hsheds := sheds_resolve h.owners t w.loc false
    rw [hdrop (h.thins hsheds.table)]
    have hsame := hsheds.table.unnumbered_linesOf h.owners (o := t) (by simp)
    rw [Table.storesOf, ← Line.countP_unnumbered, hsame, Line.countP_unnumbered, Table.storesOf]
  · exact hdrop h

/-- Fences have no part in how many evictions there are. -/
theorem Alike.evictWhileOverdue (hR : Host.Congruence R) (h : Alike R m m') (t : ThreadId)
    {n n' : Nat} (hn : m.table.storesOf t ≤ n) (hn' : m'.table.storesOf t ≤ n') :
    Alike R (m.evictWhileOverdue t n) (m'.evictWhileOverdue t n') := by
  induction n generalizing m m' n' with
  | zero =>
    have hnone : m.overdue? t = none := by
      cases hover : m.overdue? t with
      | none => rfl
      | some l =>
        obtain ⟨_, -, hlt⟩ := oldest_of_overdue? hover
        omega
    rw [h.overdue? t] at hnone
    cases n' with
    | zero => exact h
    | succ n' =>
      rw [Machine.evictWhileOverdue, Machine.evictWhileOverdue, hnone]
      exact h
  | succ n ih =>
    rw [Machine.evictWhileOverdue, h.overdue? t]
    cases hover : m'.overdue? t with
    | none =>
      cases n' with
      | zero => exact h
      | succ n' =>
        rw [Machine.evictWhileOverdue, hover]
        exact h
    | some l =>
      obtain ⟨_, -, hlt⟩ := oldest_of_overdue? hover
      obtain ⟨k, rfl⟩ : ∃ k, n' = k + 1 := ⟨n' - 1, by omega⟩
      rw [Machine.evictWhileOverdue, hover]
      have hone := h.evictOldest hR t l
      have hleft := storesOf_evictOldest h.left t l
      have hright := storesOf_evictOldest h.right t l
      exact ih hone (by omega) (by omega)

theorem Alike.evictExcess (hR : Host.Congruence R) (h : Alike R m m') (t : ThreadId) :
    Alike R (m.evictExcess t) (m'.evictExcess t) :=
  h.evictWhileOverdue hR t List.countP_le_length List.countP_le_length

/-! ## Pushing -/

theorem Alike.pushLine (hR : Host.Congruence R) (h : Alike R m m') (t : ThreadId) {l : Line}
    (hl : l.WellFormed) (hfresh : l.committed = false) (hstore : l.isStore = true) :
    Alike R (m.pushLine t l) (m'.pushLine t l) := by
  have hcounted := (h.note (.pushed t l) (.pushed t l)).count
    (fun s => { s with storesBuffered := s.storesBuffered + 1 }) fun _ => rfl
  have hstores : (m.table.append t l).unfenced = (m'.table.append t l).unfenced := by
    rw [Table.unfenced_append h.left.owners t hstore, Table.unfenced_append h.right.owners t hstore,
      h.table]
  unfold Machine.pushLine
  dsimp only
  rw [if_pos hstore, if_pos hstore]
  exact ((hcounted.withTable hstores (h.left.append t hl hfresh hstore)
    (h.right.append t hl hfresh hstore)).evictExcess hR t).prune

theorem Alike.push (hR : Host.Congruence R) (h : Alike R m m') (t : ThreadId) {loc : Location}
    (value : UInt64) {order : Order} (hv : loc.Valid) (hseq : order.isSeqCst = false) :
    Both (Alike R) (m.push t (.store loc value order)) (m'.push t (.store loc value order)) := by
  unfold Machine.push
  rw [h.numbered loc value hseq]
  cases hn : m'.numbered (.store loc value order) with
  | error f => exact ⟨rfl, h⟩
  | ok l =>
    have hseqNo := seqNo_numbered hn
    rw [show (Line.store loc value order).order = order from rfl, hseq] at hseqNo
    have hl := unnumbered_numbered hn
    have hstore : l.isStore = true := isStore_numbered hn
    exact ⟨rfl, h.pushLine hR t (Line.wellFormed_of_store hl hv hseq hseqNo)
      (congrArg Line.committed hl) hstore⟩

end Machine

end StoreBuffer
