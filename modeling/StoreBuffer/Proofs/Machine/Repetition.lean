import StoreBuffer.Proofs.Machine.Observation

/-! # Answers that come to the same

Different first answers to the questions of a load lead to different lines. As long as the stores
pending at the location can be told apart, different second answers lead to different memory, with
one exception: a buffer may be named as the one that comes last although it has nothing to drain and
only holds a committed store to the location. `load_tells_answers` says when two loads come to the
same. -/

namespace StoreBuffer

open Visibility Portion

namespace Portion

variable {ps : List Portion} {p q : Portion}

theorem granted_eq_count (h : (ps.map (·.owner)).Nodup) (hp : p ∈ ps) :
    granted ps p.owner = p.count := by
  cases hq : ps.find? (·.owner = p.owner) with
  | none =>
    rw [List.find?_eq_none] at hq
    exact absurd (decide_eq_true rfl) (hq p hp)
  | some q =>
    have howner : q.owner = p.owner := by simpa using List.find?_some hq
    obtain rfl := List.inj_on_of_nodup_map h (List.mem_of_find?_eq_some hq) hp howner
    rw [granted, hq]
    rfl

/-- A filter does not miss an element that it drops. -/
theorem filter_eraseIdx_of_neg {α : Type} {f : α → Bool} {xs : List α} {i : Nat}
    (h : ∀ x, xs[i]? = some x → f x = false) : (xs.eraseIdx i).filter f = xs.filter f := by
  by_cases hi : i < xs.length
  · have hsplit : xs = xs.take i ++ xs[i] :: xs.drop (i + 1) := by
      rw [← List.drop_eq_getElem_cons hi, List.take_append_drop]
    have hneg : ¬ f xs[i] = true := by simp [h _ (List.getElem?_eq_getElem hi)]
    conv_rhs => rw [hsplit, List.filter_append, List.filter_cons_of_neg hneg]
    rw [List.eraseIdx_eq_take_drop_succ, List.filter_append]
  · rw [List.eraseIdx_of_length_le (Nat.not_lt.mp hi)]

/-- The portion at the source comes last, if it has something to drain. -/
theorem getLast?_drainOrder {source : Nat} (hp : ps[source]? = some p) (hpos : 0 < p.count) :
    (drainOrder ps source).getLast? = some p := by
  have hconcat : drainOrder ps source = (ps.eraseIdx source).filter (0 < ·.count) ++ [p] := by
    rw [drainOrder, hp, List.filter_append]
    simp [hpos]
  rw [hconcat, List.getLast?_concat]

/-- The portions are drained in the order of the table, but for the last one. -/
theorem drainOrder_eq (h : (ps.map (·.owner)).Nodup) {source : Nat}
    (hlast : (drainOrder ps source).getLast? = some q) : drainOrder ps source =
      ps.filter (fun p => decide (p.owner ≠ q.owner) && decide (0 < p.count)) ++ [q] := by
  obtain ⟨first, hsplit⟩ := List.getLast?_eq_some_iff.mp hlast
  have hnodup : ((first ++ [q]).map (·.owner)).Nodup := by
    rw [← hsplit, ((perm_drainOrder ps source).map _).nodup_iff]
    exact h.sublist (List.filter_sublist.map _)
  -- the portion at `source` is the last one, or has nothing to drain
  have hsource : ∀ p, ps[source]? = some p →
      (decide (p.owner ≠ q.owner) && decide (0 < p.count)) = false := by
    intro p hp
    by_cases hpos : 0 < p.count
    · rw [getLast?_drainOrder hp hpos, Option.some.injEq] at hlast
      simp [hlast]
    · simp [hpos]
  have hfirst : first = ps.filter fun p => decide (p.owner ≠ q.owner) && decide (0 < p.count) := by
    have hkept : (first ++ [q]).filter (fun p => decide (p.owner ≠ q.owner)) = first := by
      rw [List.filter_append, List.filter_eq_self.mpr]
      · simp
      · intro p hp
        rw [List.map_append, List.nodup_append] at hnodup
        exact decide_eq_true
          (hnodup.2.2 _ (List.mem_map_of_mem hp) _ (List.mem_singleton_self _))
    rw [← hsplit, drainOrder, List.filter_filter, List.filter_append,
      filter_eraseIdx_of_neg hsource] at hkept
    have hnone : ps[source]?.toList.filter
        (fun p => decide (p.owner ≠ q.owner) && decide (0 < p.count)) = [] := by
      rw [List.filter_eq_nil_iff]
      intro p hp
      rw [hsource p (Option.mem_toList.mp hp)]
      exact Bool.false_ne_true
    rw [hnone, List.append_nil] at hkept
    exact hkept.symm
  rw [hsplit, hfirst]

end Portion

namespace Table

variable {t : Table} {reader : ThreadId} {r : Region} {answers answers' : List Nat}

theorem granted_drained (h : t.owners.Nodup) {p : Portion}
    (hp : p ∈ t.portions reader r (answers.headD 0)) :
    granted (t.drained reader r answers) p.owner = p.count := by
  have howners := (portioned_portions h reader r (answers.headD 0)).owners
  have hdrained {q : Portion} : q ∈ t.drained reader r answers ↔
      q ∈ t.portions reader r (answers.headD 0) ∧ 0 < q.count := by
    rw [drained, mem_drainOrder, playing, List.mem_filter]
    constructor
    · exact fun hq => ⟨hq.1.1, hq.2⟩
    · exact fun hq => ⟨⟨hq.1, by simp [inPlay, hq.2]⟩, hq.2⟩
  by_cases hpos : 0 < p.count
  · exact granted_eq_count (portioned_drained (r := r) h).owners (hdrained.mpr ⟨hp, hpos⟩)
  · rw [granted_eq_zero, Nat.eq_zero_of_not_pos hpos]
    intro hmem
    obtain ⟨q, hq, howner⟩ := List.mem_map.mp hmem
    obtain ⟨hq, hqpos⟩ := hdrained.mp hq
    obtain rfl := List.inj_on_of_nodup_map howners hq hp howner
    exact hpos hqpos

/-- What the other threads are granted is what the first answer says. -/
theorem shares_eq_granted (h : t.owners.Nodup) (reader : ThreadId) (r : Region)
    (answers : List Nat) : shares (t.counts reader r) (answers.headD 0) =
      (t.others reader).map fun s => granted (t.drained reader r answers) s.owner := by
  have hcounts : (t.portions reader r (answers.headD 0)).map (·.count) =
      shares (t.counts reader r) (answers.headD 0) := by
    rw [portions, List.map_map]
    exact List.map_snd_zip (by rw [length_shares, counts, List.length_map])
  rw [← hcounts, ← map_slot_portions t reader r (answers.headD 0), List.map_map]
  exact List.map_congr_left fun p hp => (granted_drained h hp).symm

theorem granted_le (h : t.owners.Nodup) {s : Slot} (hs : s ∈ t.others reader) :
    granted (t.drained reader r answers) s.owner ≤
      s.buffer.pending.countP (·.region.overlaps r) := by
  rw [← map_slot_portions t reader r (answers.headD 0)] at hs
  obtain ⟨p, hp, rfl⟩ := List.mem_map.mp hs
  exact Nat.le_trans (Nat.le_of_eq (granted_drained h hp)) ((portioned_portions h ..).le p hp)

/-- What another thread was granted is missing from what it has pending. -/
theorem countP_pending_settled (r : Region) (answers : List Nat) (h : t.owners.Nodup) {s : Slot}
    (hs : s ∈ t.others reader) :
    ((t.settled r (t.drained reader r answers)).pending s.owner).countP (·.region.overlaps r) +
        granted (t.drained reader r answers) s.owner =
      s.buffer.pending.countP (·.region.overlaps r) := by
  have hbuffer : (⟨t.linesOf s.owner⟩ : Buffer) = s.buffer :=
    congrArg Buffer.mk (linesOf_of_mem h (List.mem_filter.mp hs).1)
  rw [pending_settled, hbuffer]
  exact s.buffer.countP_pending_settled (granted_le h hs)

/-- The first answer shows in what is left pending. -/
theorem headD_eq_of_pending (h : t.owners.Nodup)
    (hlt : answers.headD 0 < branches (t.counts reader r))
    (hlt' : answers'.headD 0 < branches (t.counts reader r))
    (hpending : ∀ o, (t.settled r (t.drained reader r answers)).pending o =
      (t.settled r (t.drained reader r answers')).pending o) :
    answers.headD 0 = answers'.headD 0 := by
  refine (bijOn_shares (t.counts reader r)).injOn hlt hlt' ?_
  rw [shares_eq_granted h, shares_eq_granted h]
  refine List.map_congr_left fun s hs => ?_
  have hleft := countP_pending_settled r answers h hs
  have hleft' := countP_pending_settled r answers' h hs
  rw [hpending] at hleft
  omega

/-- The first answer and the buffer that comes last say what is drained, and in which order. -/
theorem drained_eq_of_last (h : t.owners.Nodup) (hhead : answers.headD 0 = answers'.headD 0)
    (hlast : (t.drained reader r answers).getLast?.map (·.owner) =
      (t.drained reader r answers').getLast?.map (·.owner)) :
    t.drained reader r answers = t.drained reader r answers' := by
  have howners : ((t.playing reader r (answers'.headD 0)).map (·.owner)).Nodup :=
    ((portioned_portions h reader r _).sublist List.filter_sublist).owners
  unfold drained at hlast ⊢
  rw [hhead] at hlast ⊢
  generalize t.playing reader r (answers'.headD 0) = ps at howners hlast ⊢
  cases hq : (drainOrder ps (answers.getD 1 0)).getLast? with
  | none =>
    rw [hq, Option.map_none, eq_comm, Option.map_eq_none_iff] at hlast
    rw [List.getLast?_eq_none_iff.mp hq, List.getLast?_eq_none_iff.mp hlast]
  | some q =>
    rw [hq, Option.map_some, eq_comm, Option.map_eq_some_iff] at hlast
    obtain ⟨q', hq', hsame⟩ := hlast
    have hmem := (mem_drainOrder.mp (List.mem_of_getLast? hq)).1
    have hmem' := (mem_drainOrder.mp (List.mem_of_getLast? hq')).1
    obtain rfl := List.inj_on_of_nodup_map howners hmem' hmem hsame
    rw [drainOrder_eq howners hq, drainOrder_eq howners hq']

/-- Where no two pending stores to the region have one value, the value that is drained last tells
the buffer it came from. -/
theorem last_eq_of_value (h : t.owners.Nodup) (hhead : answers.headD 0 = answers'.headD 0)
    (hdistinct : ((t.others reader).flatMap fun s =>
      (s.buffer.pending.filter (·.region.overlaps r)).map (·.value)).Nodup) {v : UInt64}
    (hvalue : (((t.drained reader r answers).getLast?.bind (·.last? r)).map (·.value)).getD v =
      (((t.drained reader r answers').getLast?.bind (·.last? r)).map (·.value)).getD v) :
    (t.drained reader r answers).getLast?.map (·.owner) =
      (t.drained reader r answers').getLast?.map (·.owner) := by
  have hperm : (t.drained reader r answers).Perm (t.drained reader r answers') := by
    unfold drained
    rw [hhead]
    exact (perm_drainOrder ..).trans (perm_drainOrder ..).symm
  have hlisted {s : Slot} {w : Write}
      (hw : w ∈ s.buffer.pending ∧ w.region.overlaps r = true) :
      w.value ∈ (s.buffer.pending.filter (·.region.overlaps r)).map (·.value) :=
    List.mem_map_of_mem (List.mem_filter.mpr hw)
  cases hp : (t.drained reader r answers).getLast? with
  | none =>
    have hnil := List.getLast?_eq_none_iff.mp hp
    rw [hnil] at hperm
    rw [hperm.nil_eq.symm]
    rfl
  | some p =>
    cases hp' : (t.drained reader r answers').getLast? with
    | none =>
      have hnil := List.getLast?_eq_none_iff.mp hp'
      rw [hnil] at hperm
      rw [hperm.eq_nil] at hp
      contradiction
    | some p' =>
      obtain ⟨hslot, w, hw, hmem⟩ := exists_of_getLast?_drained h hp
      obtain ⟨hslot', w', hw', hmem'⟩ := exists_of_getLast?_drained h hp'
      rw [hp, hp', Option.bind_some, Option.bind_some, hw, hw'] at hvalue
      have hvalue : w.value = w'.value := hvalue
      have hsame := eq_of_mem_flatMap hdistinct hslot hslot' (hlisted hmem)
        (hvalue ▸ hlisted hmem')
      exact congrArg (fun s : Slot => some s.owner) hsame

/-- What the other threads have pending stands in the other slots. -/
theorem forall_pending_of_others (h : t.owners.Nodup) {P : Write → Prop}
    (hall : ∀ s ∈ t.others reader, ∀ w ∈ s.buffer.pending, P w) :
    ∀ o ≠ reader, ∀ w ∈ t.pending o, P w := by
  intro o ho w hw
  obtain ⟨s, hs, rfl, hw'⟩ := (mem_pending_iff h).mp hw
  exact hall s (List.mem_filter.mpr ⟨hs, by simpa using ho⟩) w hw'

end Table

namespace Machine

variable {m : Machine Scripted} {loc : Location}

/-- A load that faults or is bypassed asks for nothing and changes neither table nor arena. -/
theorem load_idle (hidle : ¬ (loc.Valid ∧ m.host.flags.bypassed = false)) (script : List Nat)
    (order : Order) :
    let m' := ((m.answering script).load loc order).2
    m'.table = m.table ∧ m'.host.arena = m.host.arena ∧ m.answered m' = [] := by
  have hheld : (Host.hold (m.answering script).host).1 = m.host.flags := rfl
  have hsame {h : Scripted} (htrace : h.trace = m.host.trace) :
      (h.trace.drop m.host.trace.length).map (·.chosen) = [] := by
    rw [htrace, List.drop_length, List.map_nil]
  unfold load masked loadAs
  dsimp only
  rw [hheld]
  cases hcheck : loc.check with
  | error f => exact ⟨rfl, rfl, hsame rfl⟩
  | ok u =>
    have hbypassed : m.host.flags.bypassed = true := by
      rw [← Bool.not_eq_false]
      exact fun hplain => hidle ⟨(Location.check_eq_ok_iff loc).mp hcheck, hplain⟩
    rw [hbypassed, if_pos rfl]
    dsimp only
    refine ⟨table_noteOperation _, ?_, hsame ?_⟩
    · show (noteOperation _ (_ : Machine Scripted)).host.arena = _
      rw [host_noteOperation]
      exact Scripted.arena_load ..
    · show (noteOperation _ (_ : Machine Scripted)).host.trace = _
      rw [host_noteOperation]
      exact Scripted.trace_load ..

/-- The answers that a load is given. -/
theorem answered_load (howners : m.table.owners.Nodup)
    (hnonempty : ∀ s ∈ m.table.slots, s.buffer.isEmpty = false) (hv : loc.Valid)
    (hplain : m.host.flags.bypassed = false) (script : List Nat) (order : Order) :
    let answers := m.answered ((m.answering script).load loc order).2
    let playing := m.table.playing m.thread loc.region
    ((∀ n ∈ m.table.counts m.thread loc.region, n = 0) → answers = []) ∧
      ((∃ n ∈ m.table.counts m.thread loc.region, n ≠ 0) → ∃ choice source,
        answers = choice :: (if 1 < (playing choice).length then [source] else []) ∧
          (1 < (playing choice).length → source < (playing choice).length)) := by
  obtain ⟨-, -, -, hanswered⟩ := load_loading hv hplain script order
  dsimp only
  rw [hanswered]
  exact ⟨answered_of_none (m := m.loading script), fun h => ⟨_, _,
    answered_of_some (m := m.loading script) howners hnonempty h,
    sourceChoice_lt (m := m.loading script)⟩⟩

/-- The thread whose buffer a load drains last under the answers, if it drains any. -/
def lastDrained (loc : Location) (answers : List Nat) (m : Machine Scripted) : Option ThreadId :=
  (m.table.drained m.thread loc.region answers).getLast?.map (·.owner)

/-- Two machines have the same memory and, but for numbers, the same lines in every buffer. -/
def Coincides (m m' : Machine Scripted) : Prop :=
  m.host.arena = m'.host.arena ∧
    m.table.mapLines Line.unnumbered = m'.table.mapLines Line.unnumbered

section Coincides

variable {capacity : Nat} (h : m.table.Shaped capacity) (script script' : List Nat) (order : Order)

include h

/-- Whether a load asks does not depend on the answers. -/
theorem head?_answered_eq_iff :
    let answers := m.answered ((m.answering script).load loc order).2
    let answers' := m.answered ((m.answering script').load loc order).2
    answers.head? = answers'.head? ↔ answers.headD 0 = answers'.headD 0 := by
  intro answers answers'
  by_cases hasked : loc.Valid ∧ m.host.flags.bypassed = false
  · obtain ⟨hv, hplain⟩ := hasked
    obtain ⟨hnone, hsome⟩ := answered_load h.owners h.nonempty hv hplain script order
    obtain ⟨hnone', hsome'⟩ := answered_load h.owners h.nonempty hv hplain script' order
    by_cases hzero : ∀ n ∈ m.table.counts m.thread loc.region, n = 0
    · have hanswers : answers = answers' := (hnone hzero).trans (hnone' hzero).symm
      rw [hanswers]
      exact iff_of_true rfl rfl
    · obtain ⟨choice, source, hanswers, -⟩ := hsome (by simpa using hzero)
      obtain ⟨choice', source', hanswers', -⟩ := hsome' (by simpa using hzero)
      have hanswers : answers = _ := hanswers
      have hanswers' : answers' = _ := hanswers'
      simp [hanswers, hanswers']
  · have hanswers : answers = answers' :=
      (load_idle hasked script order).2.2.trans (load_idle hasked script' order).2.2.symm
    rw [hanswers]
    exact iff_of_true rfl rfl

variable (hv : loc.Valid) (hplain : m.host.flags.bypassed = false)

include hv hplain

/-- What is left of the buffers tells the first answer. -/
theorem headD_answered_eq_of_lines
    (hlines : ((m.answering script).load loc order).2.table.mapLines Line.unnumbered =
      ((m.answering script').load loc order).2.table.mapLines Line.unnumbered) :
    (m.answered ((m.answering script).load loc order).2).headD 0 =
      (m.answered ((m.answering script').load loc order).2).headD 0 := by
  obtain ⟨htable, -, hlt⟩ := load_drained h.owners h.nonempty hv hplain script order
  obtain ⟨htable', -, hlt'⟩ := load_drained h.owners h.nonempty hv hplain script' order
  refine Table.headD_eq_of_pending h.owners hlt hlt' fun o => ?_
  have hpending := congrArg (Table.pending · o) hlines
  rwa [Table.pending_unnumbered, Table.pending_unnumbered, htable, htable',
    Table.pending_prune (by rw [Table.owners_settled]; exact h.owners),
    Table.pending_prune (by rw [Table.owners_settled]; exact h.owners)] at hpending

/-- Memory tells the buffer that was drained last. -/
theorem lastDrained_eq_of_coincides (hfit : m.host.Fits) (hc : m.host.Covers loc)
    (hothers : ∀ o ≠ m.thread, ∀ w ∈ m.table.pending o,
      w.region.overlaps loc.region = true → w.loc = loc)
    (hdistinct : ((m.table.others m.thread).flatMap fun s =>
      (s.buffer.pending.filter (·.region.overlaps loc.region)).map (·.value)).Nodup)
    (hsame : ((m.answering script).load loc order).2.Coincides
      ((m.answering script').load loc order).2) :
    m.lastDrained loc (m.answered ((m.answering script).load loc order).2) =
      m.lastDrained loc (m.answered ((m.answering script').load loc order).2) := by
  obtain ⟨-, harena, -⟩ := load_drained h.owners h.nonempty hv hplain script order
  obtain ⟨-, harena', -⟩ := load_drained h.owners h.nonempty hv hplain script' order
  have hhead := headD_answered_eq_of_lines h script script' order hv hplain hsame.2
  refine Table.last_eq_of_value (v := (Memory.load loc m.host).1) h.owners hhead hdistinct ?_
  rw [← load_arena_drained h hfit hv hc hothers harena,
    ← load_arena_drained h hfit hv hc hothers (hsame.1.trans harena')]

/-- The first answer and the last buffer determine memory and table. -/
theorem eq_of_answers
    (hhead : (m.answered ((m.answering script).load loc order).2).headD 0 =
      (m.answered ((m.answering script').load loc order).2).headD 0)
    (hlast : m.lastDrained loc (m.answered ((m.answering script).load loc order).2) =
      m.lastDrained loc (m.answered ((m.answering script').load loc order).2)) :
    ((m.answering script).load loc order).2.host.arena =
        ((m.answering script').load loc order).2.host.arena ∧
      ((m.answering script).load loc order).2.table =
        ((m.answering script').load loc order).2.table := by
  obtain ⟨htable, harena, -⟩ := load_drained h.owners h.nonempty hv hplain script order
  obtain ⟨htable', harena', -⟩ := load_drained h.owners h.nonempty hv hplain script' order
  have hdrained := Table.drained_eq_of_last h.owners hhead hlast
  exact ⟨by rw [harena, harena', hdrained], by rw [htable, htable', hdrained]⟩

end Coincides

/-- Of two sources that come to the same one has nothing to drain. -/
theorem exists_idle_source (howners : m.table.owners.Nodup) {choice source source' : Nat}
    (hsource : source < (m.table.playing m.thread loc.region choice).length)
    (hsource' : source' < (m.table.playing m.thread loc.region choice).length)
    (hne : source ≠ source')
    (hlast : m.lastDrained loc [choice, source] = m.lastDrained loc [choice, source']) :
    ∃ p, ((m.table.playing m.thread loc.region choice)[source]? = some p ∨
        (m.table.playing m.thread loc.region choice)[source']? = some p) ∧
      p.count = 0 ∧ p.slot.buffer.hasCommittedAt loc.region = true := by
  have hps : ((m.table.playing m.thread loc.region choice).map (·.owner)).Nodup :=
    ((Table.portioned_portions howners ..).sublist List.filter_sublist).owners
  have hcommitted : ∀ p ∈ m.table.playing m.thread loc.region choice, p.count = 0 →
      p.slot.buffer.hasCommittedAt loc.region = true := fun p hp hzero => by
    simpa [inPlay, hzero] using (List.mem_filter.mp hp).2
  unfold lastDrained Table.drained at hlast
  simp only [List.headD_cons, List.getD_cons_succ, List.getD_cons_zero] at hlast
  generalize m.table.playing m.thread loc.region choice = ps at *
  have hp := List.getElem?_eq_getElem hsource
  have hp' := List.getElem?_eq_getElem hsource'
  rcases Nat.eq_zero_or_pos ps[source].count with hzero | hpos
  · exact ⟨_, .inl hp, hzero, hcommitted _ (List.getElem_mem hsource) hzero⟩
  rcases Nat.eq_zero_or_pos ps[source'].count with hzero | hpos'
  · exact ⟨_, .inr hp', hzero, hcommitted _ (List.getElem_mem hsource') hzero⟩
  · rw [getLast?_drainOrder hp hpos, getLast?_drainOrder hp' hpos'] at hlast
    have hsame := List.inj_on_of_nodup_map hps (List.getElem_mem hsource)
      (List.getElem_mem hsource') (Option.some.inj hlast)
    exact absurd ((hps.of_map _).getElem_inj_iff.mp hsame) hne

/-- Different answers with the same first one and the same last buffer name two sources, one of which
has nothing to drain. -/
theorem exists_idle_source_of_ne {capacity : Nat} (h : m.table.Shaped capacity) (hv : loc.Valid)
    (hplain : m.host.flags.bypassed = false) (script script' : List Nat) (order : Order) :
    let answers := m.answered ((m.answering script).load loc order).2
    let answers' := m.answered ((m.answering script').load loc order).2
    let playing := m.table.playing m.thread loc.region
    answers.headD 0 = answers'.headD 0 → m.lastDrained loc answers = m.lastDrained loc answers' →
      answers ≠ answers' → ∃ choice source source' p,
        answers = [choice, source] ∧ answers' = [choice, source'] ∧
        ((playing choice)[source]? = some p ∨ (playing choice)[source']? = some p) ∧
        p.count = 0 ∧ p.slot.buffer.hasCommittedAt loc.region = true := by
  intro answers answers' playing hhead hlast hne
  obtain ⟨hnone, hsome⟩ := answered_load h.owners h.nonempty hv hplain script order
  obtain ⟨hnone', hsome'⟩ := answered_load h.owners h.nonempty hv hplain script' order
  by_cases hzero : ∀ n ∈ m.table.counts m.thread loc.region, n = 0
  · exact absurd ((hnone hzero).trans (hnone' hzero).symm) hne
  obtain ⟨choice, source, hanswers, hsource⟩ := hsome (by simpa using hzero)
  obtain ⟨choice', source', hanswers', hsource'⟩ := hsome' (by simpa using hzero)
  have hanswers : answers = _ := hanswers
  have hanswers' : answers' = _ := hanswers'
  obtain rfl : choice = choice' := by
    rwa [hanswers, hanswers'] at hhead
  by_cases hmany : 1 < (playing choice).length
  · rw [if_pos hmany] at hanswers hanswers'
    have hsources : source ≠ source' := by
      rintro rfl
      exact hne (hanswers.trans hanswers'.symm)
    rw [hanswers, hanswers'] at hlast
    exact ⟨choice, source, source', (exists_idle_source h.owners (hsource hmany)
      (hsource' hmany) hsources hlast).imp fun _ hp => ⟨hanswers, hanswers', hp⟩⟩
  · rw [if_neg hmany] at hanswers hanswers'
    exact absurd (hanswers.trans hanswers'.symm) hne

/-- What a load of a reachable machine leaves tells the answers it was given: the lines alone tell the
first one, and memory tells the buffer that came last. Two loads come to the same if they agree in
both, so different answers for a location in memory come to the same only if they differ in the
second one and name a buffer that has nothing to drain. -/
theorem load_tells_answers {c : Config} (hreached : Reachable c m) (hfit : m.host.Fits)
    (hothers : ∀ o ≠ m.thread, ∀ w ∈ m.table.pending o,
      w.region.overlaps loc.region = true → w.loc = loc)
    (hdistinct : ((m.table.others m.thread).flatMap fun s =>
      (s.buffer.pending.filter (·.region.overlaps loc.region)).map (·.value)).Nodup)
    (script script' : List Nat) (order : Order) :
    let after := ((m.answering script).load loc order).2
    let after' := ((m.answering script').load loc order).2
    let answers := m.answered after
    let answers' := m.answered after'
    let playing := m.table.playing m.thread loc.region
    (after.table.mapLines Line.unnumbered = after'.table.mapLines Line.unnumbered →
      answers.head? = answers'.head?) ∧
    (m.host.Covers loc → after.Coincides after' →
      m.lastDrained loc answers = m.lastDrained loc answers') ∧
    (answers.head? = answers'.head? → m.lastDrained loc answers = m.lastDrained loc answers' →
      after.host.arena = after'.host.arena ∧ after.table = after'.table) ∧
    (m.host.Covers loc → after.Coincides after' → answers ≠ answers' → ∃ choice source source' p,
      answers = [choice, source] ∧ answers' = [choice, source'] ∧
      ((playing choice)[source]? = some p ∨ (playing choice)[source']? = some p) ∧
      p.count = 0 ∧ p.slot.buffer.hasCommittedAt loc.region = true) := by
  have h := hreached.shaped
  intro after after' answers answers' playing
  have hheads : answers.head? = answers'.head? ↔ answers.headD 0 = answers'.headD 0 :=
    head?_answered_eq_iff h script script' order
  by_cases hasked : loc.Valid ∧ m.host.flags.bypassed = false
  · obtain ⟨hv, hplain⟩ := hasked
    have hfirst := headD_answered_eq_of_lines h script script' order hv hplain
    have hlast := fun hc => lastDrained_eq_of_coincides h script script' order hv hplain hfit hc
      hothers hdistinct
    refine ⟨fun hlines => hheads.mpr (hfirst hlines), hlast, fun hhead hsame => ?_,
      fun hc hsame hne => ?_⟩
    · exact eq_of_answers h script script' order hv hplain (hheads.mp hhead) hsame
    · exact exists_idle_source_of_ne h hv hplain script script' order (hfirst hsame.2)
        (hlast hc hsame) hne
  · obtain ⟨htable, harena, hanswers⟩ := load_idle hasked script order
    obtain ⟨htable', harena', hanswers'⟩ := load_idle hasked script' order
    have hanswers : answers = answers' := hanswers.trans hanswers'.symm
    rw [hanswers]
    exact ⟨fun _ => rfl, fun _ _ => rfl,
      fun _ _ => ⟨harena.trans harena'.symm, htable.trans htable'.symm⟩,
      fun _ _ hne => absurd rfl hne⟩

/-- Threads 1 and 2 have a store to `x` pending each, and the first one writes what memory holds. A
load of thread 3 that drains it comes to the same memory as one that drains nothing, but to other
lines. The load that drains the second thread last and the one that drains the first one last come
to different memory. -/
theorem load_tells_answers_twoWriters :
    let x : Location := ⟨⟨0x10000000⟩, 32⟩
    let y : Location := ⟨⟨0x10000008⟩, 32⟩
    let m₁ := ((create {} (Scripted.create 16)).issue
      { thread := ⟨1⟩, op := .store y 0 .monotonic }).2
    let m₂ := (m₁.issue { thread := ⟨1⟩, op := .store x 0 .release }).2
    let m₃ := (m₂.issue { thread := ⟨2⟩, op := .store x 2 .release }).2
    let m := m₃.withHost { m₃.host with thread := ⟨3⟩ }
    let after := fun script => ((m.answering script).load x .acquire).2
    (after [0]).host.arena = (after [1]).host.arena ∧
      (after [0]).table.mapLines Line.unnumbered ≠ (after [1]).table.mapLines Line.unnumbered ∧
      ¬ (after [3, 0]).Coincides (after [3, 1]) := by
  intro x y m₁ m₂ m₃ m after
  have hreached : Reachable {} m := .host (.issue (.issue (.issue (.create _) _) _) _) _
  have hfit : Scripted.base.val.toNat + m.host.arena.size < 2 ^ 64 := by decide +kernel
  have hothers : ∀ o ≠ m.thread, ∀ w ∈ m.table.pending o,
      w.region.overlaps x.region = true → w.loc = x :=
    Table.forall_pending_of_others hreached.shaped.owners (by decide +kernel)
  have htell := load_tells_answers hreached hfit hothers (by decide +kernel)
  refine ⟨by decide +kernel, fun hlines => ?_, fun hsame => ?_⟩
  · exact absurd ((htell [0] [1] .acquire).1 hlines) (by decide +kernel)
  · exact absurd ((htell [3, 0] [3, 1] .acquire).2.1 (by decide +kernel) hsame)
      (by decide +kernel)

/-- Two answers come to the same where one of the buffers only holds a committed store to the
location, and where two stores go to a location outside memory. -/
theorem load_hides_answers :
    let x : Location := ⟨⟨0x10000000⟩, 32⟩
    let y : Location := ⟨⟨0x10000008⟩, 32⟩
    let m₁ := ((create {} (Scripted.create 16)).issue
      { thread := ⟨1⟩, op := .store y 1 .monotonic }).2
    let m₂ := (m₁.issue { thread := ⟨1⟩, op := .store x 2 .monotonic }).2
    let m₃ := ((m₂.answering [1]).issue { thread := ⟨3⟩, op := .load x .monotonic }).2
    let m₄ := (m₃.issue { thread := ⟨2⟩, op := .store y 3 .monotonic }).2
    let m := m₄.withHost { m₄.host with thread := ⟨3⟩ }
    let z : Location := ⟨⟨0x20000000⟩, 32⟩
    let n₁ := ((create {} (Scripted.create 16)).issue
      { thread := ⟨1⟩, op := .store z 1 .monotonic }).2
    let n₂ := (n₁.issue { thread := ⟨2⟩, op := .store z 2 .monotonic }).2
    let n := n₂.withHost { n₂.host with thread := ⟨3⟩ }
    ∀ p ∈ [(m, y, [1, 0], [1, 1]), (n, z, [3, 0], [3, 1])],
      let (m, loc, script, script') := p
      let after := ((m.answering script).load loc .monotonic).2
      let after' := ((m.answering script').load loc .monotonic).2
      Reachable {} m ∧ m.host.Fits ∧
        (∀ o ≠ m.thread, ∀ w ∈ m.table.pending o,
          w.region.overlaps loc.region = true → w.loc = loc) ∧
        ((m.table.others m.thread).flatMap fun s =>
          (s.buffer.pending.filter (·.region.overlaps loc.region)).map (·.value)).Nodup ∧
        m.answered after = script ∧ m.answered after' = script' ∧
        after.host.arena = after'.host.arena ∧ after.table = after'.table := by
  intro x y m₁ m₂ m₃ m₄ m z n₁ n₂ n
  have hm₂ : Reachable {} m₂ := .issue (.issue (.create _) _) _
  have hm : Reachable {} m := .host (.issue (.issue (.host hm₂ _) _) _) _
  have hn : Reachable {} n := .host (.issue (.issue (.create _) _) _) _
  have hfits {m : Machine Scripted}
      (h : Scripted.base.val.toNat + m.host.arena.size < 2 ^ 64) : m.host.Fits := h
  rw [List.forall_mem_cons, List.forall_mem_singleton]
  exact ⟨⟨hm, hfits (by decide +kernel),
      Table.forall_pending_of_others hm.shaped.owners (by decide +kernel), by decide +kernel⟩,
    hn, hfits (by decide +kernel),
      Table.forall_pending_of_others hn.shaped.owners (by decide +kernel), by decide +kernel⟩

end Machine

end StoreBuffer
