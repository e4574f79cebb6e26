import StoreBuffer.Host.Scripted
import StoreBuffer.Proofs.Machine.Departures
import StoreBuffer.Proofs.Table.Portions

/-! # The effect of a resolution

What resolving the visibility of a location does, on any host and for any answers: `resolve_effect`
says which choices are asked for, what they mean, which writes reach memory in which order, and what
is left of every line of the table. -/

namespace StoreBuffer.Machine

open Visibility Portion

variable {σ : Type} {m m' m'' : Machine σ} {t : Table} {loc : Location}

section Memory

variable [Memory σ]

/-- The portions have reached memory one after the other. Table and log are left aside. -/
structure Delivers (r : Region) (ps : List Portion) (m m' : Machine σ) : Prop where
  host : m'.host = Memory.storeAll (ps.flatMap (·.writes r)) m.host
  stats : m'.stats = { m.stats with partialFlushes := m.stats.partialFlushes + ps.length }
  config : m'.config = m.config

theorem Delivers.refl (r : Region) (m : Machine σ) : Delivers r [] m m := ⟨rfl, rfl, rfl⟩

theorem Delivers.trans {r : Region} {ps qs : List Portion} (h : Delivers r ps m m')
    (h' : Delivers r qs m' m'') : Delivers r (ps ++ qs) m m'' := by
  refine ⟨?_, ?_, h'.config.trans h.config⟩
  · rw [List.flatMap_append, Memory.storeAll_append, ← h.host, h'.host]
  · rw [h'.stats, h.stats, List.length_append, Nat.add_assoc]

/-- A portion of a buffer that has only been renumbered so far. -/
theorem drainPick_pick {done : List Portion} {p : Portion} (h : t.owners.Nodup)
    (hps : t.Portioned loc.region (done ++ [p])) (hpos : 0 < p.count)
    (hm : m.table = t.settled loc.region done) :
    (m.drainPick loc (p.pick loc.region)).table = t.settled loc.region (done ++ [p]) ∧
      Delivers loc.region [p] m (m.drainPick loc (p.pick loc.region)) := by
  have hmem : p ∈ done ++ [p] := List.mem_append_right _ (List.mem_singleton_self p)
  have hslot := hps.slot p hmem
  have hfresh : p.owner ∉ done.map (·.owner) := by
    have hnodup := hps.owners
    rw [List.map_append, List.nodup_append] at hnodup
    exact fun hin => hnodup.2.2 _ hin _ (List.mem_singleton_self _) rfl
  obtain ⟨n, hn⟩ : ∃ n, p.count = n + 1 := ⟨p.count - 1, by omega⟩
  have hle := hps.le p hmem
  rw [← p.slot.buffer.length_pendingAt, hn] at hle
  have hi := List.getElem?_eq_getElem (Nat.lt_of_succ_le hle)
  have hlawful := renumbering_lawful loc.region done
  have hbuffer : m.table.buffer? p.owner =
      some (p.slot.buffer.map (renumbering loc.region done)) := by
    rw [hm]
    exact Table.buffer?_settled h hslot hfresh
  have hdrain := Buffer.drain_eq (b := p.slot.buffer.map (renumbering loc.region done))
    (by rwa [hlawful.pendingAt_map])
  rw [hlawful.pending_map, hlawful.settled_map, hlawful.buffer_spent_map] at hdrain
  have hpick : p.pick loc.region = ⟨p.owner, some (p.slot.buffer.pendingAt loc.region)[n]⟩ := by
    rw [pick, if_neg (by omega), hn, Nat.add_sub_cancel, hi]
  rw [hpick]
  unfold drainPick flushPart
  dsimp only
  rw [hbuffer]
  dsimp only
  rw [hdrain, ← hn]
  refine ⟨?_, ?_, rfl, rfl⟩
  · rw [hm, Table.settled_append h hslot hfresh]
  · rw [List.flatMap_singleton]
    rfl

/-- Portions of different buffers drain independently. -/
theorem foldl_drainPick (done : List Portion) {rest : List Portion} (h : t.owners.Nodup)
    (hps : t.Portioned loc.region (done ++ rest)) (hpos : ∀ p ∈ rest, 0 < p.count)
    (hm : m.table = t.settled loc.region done) :
    ((rest.map (·.pick loc.region)).foldl (drainPick loc) m).table =
        t.settled loc.region (done ++ rest) ∧
      Delivers loc.region rest m ((rest.map (·.pick loc.region)).foldl (drainPick loc) m) := by
  induction rest generalizing m done with
  | nil =>
    rw [List.append_nil]
    exact ⟨hm, .refl ..⟩
  | cons p rest ih =>
    have hsplit : done ++ p :: rest = done ++ [p] ++ rest := by simp
    rw [hsplit] at hps ⊢
    obtain ⟨htable, hfirst⟩ := drainPick_pick h (hps.sublist (List.sublist_append_left _ _))
      (hpos p (List.mem_cons_self ..)) hm
    obtain ⟨htables, hrest⟩ := ih _ hps (fun q hq => hpos q (List.mem_cons_of_mem p hq)) htable
    exact ⟨htables, hfirst.trans hrest⟩

/-- A pick with nothing to drain does nothing. -/
theorem foldl_drainPick_filter (m : Machine σ) (loc : Location) (ps : List Portion) :
    (ps.map (·.pick loc.region)).foldl (drainPick loc) m =
      ((ps.filter (0 < ·.count)).map (·.pick loc.region)).foldl (drainPick loc) m := by
  induction ps generalizing m with
  | nil => rfl
  | cons p rest ih =>
    by_cases hp : 0 < p.count
    · rw [List.filter_cons_of_pos (by simpa using hp), List.map_cons, List.map_cons,
        List.foldl_cons, List.foldl_cons, ih]
    · have hnone : m.drainPick loc (p.pick loc.region) = m := by
        rw [pick, if_pos (by omega)]
        rfl
      rw [List.filter_cons_of_neg (by simpa using hp), List.map_cons, List.foldl_cons, hnone, ih]

theorem drainPicks_sourceLast {ps : List Portion} (h : m.table.owners.Nodup)
    (hps : m.table.Portioned loc.region ps) (source : Nat) :
    let m' := m.drainPicks loc (sourceLast (ps.map (·.pick loc.region)) source)
    m'.table = (m.table.settled loc.region (drainOrder ps source)).prune ∧
      Delivers loc.region (drainOrder ps source) m m' := by
  have hfold := foldl_drainPick (m := m) [] h (hps.drainOrder source)
    (fun p hp => by simpa using (List.mem_filter.mp hp).2) (Table.settled_nil ..).symm
  unfold drainOrder at hfold ⊢
  rw [← foldl_drainPick_filter, map_moveLast] at hfold
  exact ⟨congrArg Table.prune hfold.1, hfold.2.host, hfold.2.stats, hfold.2.config⟩

end Memory

variable [Host σ] {reader : ThreadId}

theorem all_isEmpty_iff (t : Table) (reader : ThreadId) (r : Region) :
    (t.candidates reader false r).all (·.pending.isEmpty) = true ↔
      ∀ n ∈ t.counts reader r, n = 0 := by
  simp [Table.counts_eq, List.isEmpty_iff]

/-- Nothing is asked for and nothing changes if no other thread has stores to the location pending. -/
theorem resolve_of_none (h : ∀ n ∈ m.table.counts reader loc.region, n = 0) :
    m.resolve reader loc false = m := by
  unfold resolve
  dsimp only
  rw [if_pos ((all_isEmpty_iff ..).mpr h)]

/-- The choice of how far every buffer is drained. -/
def drainChoice (reader : ThreadId) (loc : Location) (m : Machine σ) : Nat × σ :=
  Host.choose (min (branches (m.table.counts reader loc.region)) greatestTotal) m.host

/-- The choice of the buffer that comes last, if there is more than one in play. -/
def sourceChoice (reader : ThreadId) (loc : Location) (m : Machine σ) : Nat × σ :=
  let first := m.drainChoice reader loc
  let playing := m.table.playing reader loc.region first.1
  if 1 < playing.length then Host.choose playing.length first.2 else (0, first.2)

theorem sourceChoice_lt
    (h : 1 < (m.table.playing reader loc.region (m.drainChoice reader loc).1).length) :
    (m.sourceChoice reader loc).1 <
      (m.table.playing reader loc.region (m.drainChoice reader loc).1).length := by
  unfold sourceChoice
  dsimp only
  rw [if_pos h]
  exact Host.choose_lt _ _ (Nat.lt_trans Nat.zero_lt_one h)

/-- The portions that a resolution drains, in their order. -/
def resolution (reader : ThreadId) (loc : Location) (m : Machine σ) : List Portion :=
  drainOrder (m.table.playing reader loc.region (m.drainChoice reader loc).1)
    (m.sourceChoice reader loc).1

/-- Asking how far to drain changes the host, the log and the number of choices made. -/
theorem exists_chooseDrain_eq (reader : ThreadId) (loc : Location) (m : Machine σ) :
    ∃ m₁, m.chooseDrain reader loc (m.table.candidates reader false loc.region) =
        ((m.drainChoice reader loc).1, m₁) ∧
      m₁.host = (m.drainChoice reader loc).2 ∧ m₁.table = m.table ∧
      m₁.stats = { m.stats with choicePoints := m.stats.choicePoints + 1 } ∧
      m₁.config = m.config := by
  rw [chooseDrain, total_eq, ← Table.counts_eq]
  exact ⟨_, rfl, rfl, rfl, rfl, rfl⟩

/-- Asking for the source changes the host and the log. -/
theorem exists_chooseSource_eq (reader : ThreadId) (loc : Location) (ps : List Pick)
    (m : Machine σ) :
    let r := if 1 < ps.length then Host.choose ps.length m.host else (0, m.host)
    ∃ m₁, m.chooseSource reader loc ps = (r.1, m₁) ∧ m₁.host = r.2 ∧ m₁.table = m.table ∧
      m₁.stats = m.stats ∧ m₁.config = m.config := by
  unfold chooseSource
  dsimp only
  cases ps[(if 1 < ps.length then Host.choose ps.length m.host else (0, m.host)).1]? with
  | none => exact ⟨_, rfl, rfl, rfl, rfl, rfl⟩
  | some p => exact ⟨_, rfl, rfl, rfl, rfl, rfl⟩

/-- A resolution that asks drains what the answers say and takes away the buffers that run empty. -/
theorem resolve_of_some (howners : m.table.owners.Nodup)
    (hnonempty : ∀ s ∈ m.table.slots, s.buffer.isEmpty = false)
    (h : ∃ n ∈ m.table.counts reader loc.region, n ≠ 0) :
    let ps := m.resolution reader loc
    let m' := m.resolve reader loc false
    m'.host = Memory.storeAll (ps.flatMap (·.writes loc.region)) (m.sourceChoice reader loc).2 ∧
      m'.table = (m.table.settled loc.region ps).prune ∧
      m'.stats = { m.stats with
        choicePoints := m.stats.choicePoints + 1
        partialFlushes := m.stats.partialFlushes + ps.length } ∧
      m'.config = m.config := by
  have hsome : ¬ (m.table.candidates reader false loc.region).all (·.pending.isEmpty) = true := by
    rw [all_isEmpty_iff]
    obtain ⟨n, hn, hzero⟩ := h
    exact fun hall => hzero (hall n hn)
  obtain ⟨m₁, hdrain, hhost₁, htable₁, hstats₁, hconfig₁⟩ := exists_chooseDrain_eq reader loc m
  have hps : m.table.Portioned loc.region
      (m.table.playing reader loc.region (m.drainChoice reader loc).1) :=
    (Table.portioned_portions howners ..).sublist List.filter_sublist
  unfold resolve resolution sourceChoice
  dsimp only
  rw [if_neg hsome, hdrain]
  dsimp only
  rw [Table.picks_eq_playing]
  generalize m.table.playing reader loc.region (m.drainChoice reader loc).1 = playing at hps ⊢
  by_cases hnil : playing = []
  · subst hnil
    refine ⟨hhost₁, ?_, hstats₁, hconfig₁⟩
    show m₁.table = (m.table.settled loc.region []).prune
    rw [Table.settled_nil, Table.prune_of_nonempty hnonempty, htable₁]
  · rw [if_neg (by simpa using hnil)]
    obtain ⟨m₂, hsource, hhost₂, htable₂, hstats₂, hconfig₂⟩ :=
      exists_chooseSource_eq reader loc (playing.map (·.pick loc.region)) m₁
    rw [List.length_map, hhost₁] at hsource hhost₂
    rw [hsource]
    dsimp only
    have htable := htable₂.trans htable₁
    obtain ⟨hsettled, hdelivers⟩ := drainPicks_sourceLast (m := m₂) (htable ▸ howners)
      (htable ▸ hps) _
    refine ⟨?_, ?_, ?_, hdelivers.config.trans (hconfig₂.trans hconfig₁)⟩
    · rw [hdelivers.host, hhost₂]
    · rw [hsettled, htable]
    · rw [hdelivers.stats, hstats₂, hstats₁]

/-- All that resolving the visibility of a location does, on any host. If no other thread has stores
to it pending, nothing. Otherwise the host is first asked for one of the ways to drain the buffers of
the other threads, each past so many of those stores, and then, if two or more buffers are in play,
for the one that comes last. All writes of a buffer up to the last of these stores reach memory, one
buffer after the other. The stores to the location are gone then, the others are committed, the
numbers close up, and buffers that have run empty are taken away. -/
theorem resolve_effect (m : Machine σ) (reader : ThreadId) (loc : Location)
    (howners : m.table.owners.Nodup) (hnonempty : ∀ s ∈ m.table.slots, s.buffer.isEmpty = false) :
    let counts := m.table.counts reader loc.region
    let m' := m.resolve reader loc false
    ((∀ n ∈ counts, n = 0) → m' = m) ∧
    ((∃ n ∈ counts, n ≠ 0) →
      let offered := min (branches counts) greatestTotal
      let first := Host.choose offered m.host
      let playing := m.table.playing reader loc.region first.1
      let second := if 2 ≤ playing.length then Host.choose playing.length first.2 else (0, first.2)
      let drained := drainOrder playing second.1
      2 ≤ offered ∧ first.1 < offered ∧
      (branches counts ≤ greatestTotal → Set.BijOn (shares counts)
        {choice | choice < offered} {ds | List.Forall₂ (· ≤ ·) ds counts}) ∧
      m'.host = Memory.storeAll (drained.flatMap (·.writes loc.region)) second.2 ∧
      m'.table = (m.table.settled loc.region drained).prune ∧
      m'.stats = { m.stats with
        choicePoints := m.stats.choicePoints + 1
        partialFlushes := m.stats.partialFlushes + drained.length }) := by
  intro counts m'
  refine ⟨resolve_of_none, fun hsome => ?_⟩
  have hbranches : 2 ≤ branches counts := two_le_branches hsome
  have hoffered : 2 ≤ min (branches counts) greatestTotal := le_min hbranches (by decide)
  obtain ⟨hhost, htable, hstats, -⟩ := resolve_of_some howners hnonempty hsome
  refine ⟨hoffered, Host.choose_lt _ _ (Nat.lt_of_lt_of_le Nat.zero_lt_two hoffered), ?_, hhost,
    htable, hstats⟩
  intro hle
  show Set.BijOn _ {choice | choice < min (branches counts) greatestTotal} _
  rw [Nat.min_eq_left hle]
  exact bijOn_shares counts

/-- Thread 1 has stores to `y` and `x` pending and thread 2 one to `x`. The host drains both for a load
of `x` by thread 3, and the buffer of thread 1 last; its store to `y` stays as a committed one. -/
theorem resolve_effect_twoWriters :
    let x : Location := ⟨⟨0x10000000⟩, 32⟩
    let y : Location := ⟨⟨0x10000008⟩, 32⟩
    let first : Slot := ⟨⟨1⟩, ⟨[.store y 1 .monotonic, .store x 1 .monotonic]⟩⟩
    let second : Slot := ⟨⟨2⟩, ⟨[.store x 2 .monotonic]⟩⟩
    let m : Machine Scripted :=
      { table := ⟨[first, second]⟩, host := (Scripted.create 16).withScript [3, 0] }
    (m.resolve ⟨3⟩ x false).host = Memory.storeAll [⟨x, 2⟩, ⟨y, 1⟩, ⟨x, 1⟩]
        { m.host with trace := [⟨4, 3⟩, ⟨2, 0⟩] } ∧
      (m.resolve ⟨3⟩ x false).table = (m.table.settled x.region [⟨second, 1⟩, ⟨first, 1⟩]).prune ∧
      (m.resolve ⟨3⟩ x false).table.slots = [⟨⟨1⟩, ⟨[(Line.store y 1 .monotonic).commit]⟩⟩] := by
  intro x y first second m
  have heffect := (resolve_effect m ⟨3⟩ x (by decide) (by decide)).2 (by decide)
  have hoffered : min (branches (m.table.counts ⟨3⟩ x.region)) greatestTotal = 4 := by
    decide +kernel
  have hfirst : Host.choose 4 m.host = (3, { m.host with trace := [⟨4, 3⟩] }) := rfl
  have hplaying : m.table.playing ⟨3⟩ x.region 3 = [⟨first, 1⟩, ⟨second, 1⟩] := by decide +kernel
  have hsecond : Host.choose 2 { m.host with trace := [⟨4, 3⟩] } =
      (0, { m.host with trace := [⟨4, 3⟩, ⟨2, 0⟩] }) := rfl
  have hdrained : drainOrder [⟨first, 1⟩, ⟨second, 1⟩] 0 = [⟨second, 1⟩, ⟨first, 1⟩] := by decide
  have hwrites : [(⟨second, 1⟩ : Portion), ⟨first, 1⟩].flatMap (writes x.region) =
      [⟨x, 2⟩, ⟨y, 1⟩, ⟨x, 1⟩] := by decide +kernel
  dsimp only at heffect
  rw [hoffered, hfirst, hplaying, show [(⟨first, 1⟩ : Portion), ⟨second, 1⟩].length = 2 from rfl,
    if_pos (Nat.le_refl 2), hsecond, hdrained, hwrites] at heffect
  dsimp only at heffect ⊢
  obtain ⟨-, -, -, hhost, htable, -⟩ := heffect
  exact ⟨hhost, htable, by rw [htable]; decide +kernel⟩

end StoreBuffer.Machine
