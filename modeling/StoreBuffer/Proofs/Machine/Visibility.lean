import StoreBuffer.Proofs.Machine.Lines
import StoreBuffer.Proofs.Reference.Debt

/-! # What a resolution makes visible

`tso_resolve` says all that resolving the visibility of a location can do: of every other thread,
either nothing reaches memory, or all up to a pending write that shares bytes with the location. -/

namespace StoreBuffer

namespace Buffer

theorem mem_pendingAt {b : Buffer} {r : Region} {i : Nat} : i ∈ b.pendingAt r ↔
    ∃ l w, b.lines[i]? = some l ∧ l.pendingWrite? = some w ∧ w.region.overlaps r = true := by
  unfold pendingAt
  rw [List.mem_filterMap]
  constructor
  · rintro ⟨⟨l, j⟩, hmem, hline⟩
    rw [List.mem_zipIdx_iff_getElem?] at hmem
    dsimp only at hmem hline
    split at hline
    · rename_i htouch
      cases hline
      rw [Bool.and_eq_true, Bool.not_eq_true'] at htouch
      unfold Line.touches at htouch
      cases hw : l.write? with
      | none => simp [hw] at htouch
      | some w =>
        refine ⟨l, w, hmem, Line.pendingWrite?_eq_some.mpr ⟨htouch.1, hw⟩, ?_⟩
        simpa [hw] using htouch.2
    · contradiction
  · rintro ⟨l, w, hl, hw, hover⟩
    obtain ⟨hc, hw⟩ := Line.pendingWrite?_eq_some.mp hw
    refine ⟨(l, i), List.mem_zipIdx_iff_getElem?.mpr hl, ?_⟩
    simp [hc, Line.touches, hw, hover]

/-- A pending write and its line. -/
theorem getElem?_pending {ls : List Line} {n : Nat} {w : Write} :
    (ls.filterMap Line.pendingWrite?)[n]? = some w ↔
      ∃ i l, ls[i]? = some l ∧ l.pendingWrite? = some w ∧
        ((ls.take i).filterMap Line.pendingWrite?).length = n := by
  induction ls generalizing n with
  | nil => simp
  | cons l rest ih =>
    constructor
    · intro h
      cases hl : l.pendingWrite? with
      | none =>
        rw [List.filterMap_cons_none hl] at h
        obtain ⟨i, k, hk, hw, hn⟩ := ih.mp h
        exact ⟨i + 1, k, hk, hw, by rwa [List.take_succ_cons, List.filterMap_cons_none hl]⟩
      | some v =>
        rw [List.filterMap_cons_some hl] at h
        cases n with
        | zero =>
          cases h
          exact ⟨0, l, rfl, hl, rfl⟩
        | succ n =>
          obtain ⟨i, k, hk, hw, hn⟩ := ih.mp h
          refine ⟨i + 1, k, hk, hw, ?_⟩
          rw [List.take_succ_cons, List.filterMap_cons_some hl, List.length_cons, hn]
    · rintro ⟨i, k, hk, hw, hn⟩
      cases i with
      | zero =>
        cases hk
        subst hn
        rw [List.filterMap_cons_some hw]
        rfl
      | succ i =>
        rw [List.take_succ_cons] at hn
        cases hl : l.pendingWrite? with
        | none =>
          rw [List.filterMap_cons_none hl] at hn ⊢
          exact ih.mpr ⟨i, k, hk, hw, hn⟩
        | some v =>
          rw [List.filterMap_cons_some hl, List.length_cons] at hn
          subst hn
          rw [List.filterMap_cons_some hl, List.getElem?_cons_succ]
          exact ih.mpr ⟨i, k, hk, hw, rfl⟩

end Buffer

namespace Table

theorem exists_slot {t : Table} {o : ThreadId} (h : t.linesOf o ≠ []) :
    ∃ s ∈ t.slots, s.owner = o := by
  unfold linesOf buffer? at h
  cases hs : t.slots.find? (·.owner = o) with
  | none =>
    rw [hs] at h
    exact absurd rfl h
  | some s => exact ⟨s, List.mem_of_find?_eq_some hs, by simpa using List.find?_some hs⟩

open Visibility

theorem nodup_candidates {t : Table} (h : t.owners.Nodup) (reader : ThreadId) (own : Bool)
    (r : Region) : ((t.candidates reader own r).map (·.owner)).Nodup := by
  rw [candidates, List.map_map]
  exact h.sublist (List.filter_sublist.map _)

theorem candidate_eq {t : Table} (h : t.owners.Nodup) {reader : ThreadId} {r : Region}
    {c : Candidate} (hc : c ∈ t.candidates reader false r) : c.owner ≠ reader ∧
      c.pending = (⟨t.linesOf c.owner⟩ : Buffer).pendingAt r := by
  obtain ⟨s, hs, rfl⟩ := List.mem_map.mp hc
  obtain ⟨hmem, hne⟩ := List.mem_filter.mp hs
  refine ⟨by simpa using hne, ?_⟩
  rw [linesOf_of_mem h hmem]

theorem exists_candidate {t : Table} {reader o : ThreadId} (ho : o ≠ reader)
    (hlines : t.linesOf o ≠ []) (r : Region) :
    ∃ c ∈ t.candidates reader false r, c.owner = o := by
  obtain ⟨s, hs, rfl⟩ := exists_slot hlines
  exact ⟨_, List.mem_map.mpr ⟨s, List.mem_filter.mpr ⟨hs, by simpa using ho⟩, rfl⟩, rfl⟩

end Table

namespace Visibility

theorem nodup_picks {cs : List Candidate} (h : (cs.map (·.owner)).Nodup) (choice : Nat) :
    ((picks cs choice).map (·.owner)).Nodup := by
  have hsub (ds : List Nat) : (((cs.zip ds).filterMap fun e => e.1.pick? e.2).map
      (·.owner)).Sublist (cs.map (·.owner)) := by
    clear h
    induction cs generalizing ds with
    | nil => simp
    | cons c rest ih =>
      cases ds with
      | nil => simp
      | cons d ds =>
        rw [List.zip_cons_cons, List.filterMap_cons, List.map_cons]
        cases hp : c.pick? d with
        | none => exact (ih ds).cons _
        | some p =>
          rw [← (pick?_owner hp).1]
          exact (ih ds).cons_cons _
  exact h.sublist (hsub _)

theorem nodup_sourceLast {ps : List Pick} (h : (ps.map (·.owner)).Nodup) (source : Nat) :
    ((sourceLast ps source).map (·.owner)).Nodup :=
  ((sourceLast_perm ps source).map _).nodup_iff.mpr h

end Visibility

namespace Machine

open Visibility

variable {m : Machine Scripted}

/-- Number of pending writes that a pick brings to memory. -/
def takes (m : Machine Scripted) (p : Pick) : Nat :=
  p.upTo.elim 0 fun i => m.pendingBefore p.owner (i + 1)

theorem pendingBefore_congr {m' : Machine Scripted} {t : ThreadId}
    (h : (m'.table.linesOf t).map Line.unnumbered = (m.table.linesOf t).map Line.unnumbered)
    (n : Nat) : m'.pendingBefore t n = m.pendingBefore t n := by
  have hlines (ls : List Line) : (ls.take n).filterMap Line.pendingWrite? =
      ((ls.map Line.unnumbered).take n).filterMap Line.pendingWrite? := by
    rw [← List.map_take, Line.filterMap_unnumbered]
  rw [pendingBefore, hlines, h, ← hlines, pendingBefore]

theorem pendingBefore_flushPart (m : Machine Scripted) {o u : ThreadId} (hu : u ≠ o) (upTo : Nat)
    (loc : Location) (n : Nat) :
    (m.flushPart o upTo loc).pendingBefore u n = m.pendingBefore u n := by
  obtain ⟨retired, hlines⟩ := linesOf_flushPart m o upTo loc
  apply pendingBefore_congr
  rw [hlines, if_neg hu, List.map_map]
  rfl

theorem tso_drainPick (h : m.Sound) (loc : Location) (p : Pick) :
    (m.drainPick loc p).tso = m.tso.release p.owner (m.takes p) := by
  unfold drainPick takes
  cases p.upTo with
  | none => exact (Tso.release_zero ..).symm
  | some upTo => exact tso_flushPart h ..

/-- Picks of different threads drain independently. -/
theorem tso_drainPicks (h : m.Sound) (loc : Location) {ps : List Pick}
    (hps : (ps.map (·.owner)).Nodup) : (m.drainPicks loc ps).tso =
      m.tso.releases (ps.map fun p => (p.owner, m.takes p)) := by
  have hfold : m.Reaches (ps.foldl (drainPick loc) m) ∧ (ps.foldl (drainPick loc) m).tso =
      m.tso.releases (ps.map fun p => (p.owner, m.takes p)) := by
    induction ps generalizing m with
    | nil => exact ⟨.refl h, rfl⟩
    | cons p rest ih =>
      obtain ⟨hp, hrest⟩ := List.nodup_cons.mp hps
      have hfirst := reaches_drainPick h loc p
      obtain ⟨hreach, htso⟩ := ih hfirst.sound hrest
      refine ⟨hfirst.trans hreach, ?_⟩
      have hsame : (rest.map fun q => (q.owner, (m.drainPick loc p).takes q)) =
          rest.map fun q => (q.owner, m.takes q) := by
        apply List.map_congr_left
        intro q hq
        have hne : q.owner ≠ p.owner := fun heq => hp (List.mem_map.mpr ⟨q, hq, heq⟩)
        unfold drainPick takes
        cases p.upTo with
        | none => rfl
        | some upTo => simp only [pendingBefore_flushPart m hne]
      rw [List.foldl_cons, htso, hsame, tso_drainPick h]
      rfl
  rw [← hfold.2]
  exact Tso.ext rfl fun u => Table.pending_prune hfold.1.sound.owners u

/-- Choices have been made and noted, nothing else. -/
theorem tso_drainPicks_sourceLast {m' : Machine Scripted} (h : m'.Sound)
    (htable : m'.table = m.table) (htso : m'.tso = m.tso) (loc : Location) {ps : List Pick}
    (hps : (ps.map (·.owner)).Nodup) (source : Nat) :
    (m'.drainPicks loc (sourceLast ps source)).tso =
      m.tso.releases ((sourceLast ps source).map fun p => (p.owner, m.takes p)) := by
  have htakes : m'.takes = m.takes := by
    funext p
    unfold takes pendingBefore
    rw [htable]
  rw [tso_drainPicks h loc (nodup_sourceLast hps source), htakes, htso]

/-- A pick takes nothing, or all up to a write that shares bytes with the location. -/
theorem takes_of_mem_picks (h : m.Sound) {reader : ThreadId} {loc : Location} {choice : Nat}
    {p : Pick} (hp : p ∈ picks (m.table.candidates reader false loc.region) choice) :
    p.owner ≠ reader ∧ (m.takes p = 0 ∨ ∃ w,
      (m.table.pending p.owner)[m.takes p - 1]? = some w ∧
        w.region.overlaps loc.region = true) := by
  obtain ⟨c, hc, howner, hupTo⟩ := picks_owner hp
  obtain ⟨hne, hpending⟩ := Table.candidate_eq h.owners hc
  refine ⟨howner ▸ hne, ?_⟩
  cases hi : p.upTo with
  | none => exact .inl (by simp [takes, hi])
  | some i =>
    have hmem := hupTo i hi
    rw [hpending, ← howner] at hmem
    obtain ⟨l, w, hl, hw, hover⟩ := Buffer.mem_pendingAt.mp hmem
    have htakes : m.takes p =
        (((m.table.linesOf p.owner).take i).filterMap Line.pendingWrite?).length + 1 := by
      rw [takes, hi]
      show (((m.table.linesOf p.owner).take (i + 1)).filterMap Line.pendingWrite?).length = _
      have hl : (m.table.linesOf p.owner)[i]? = some l := hl
      rw [List.take_add_one, hl, List.filterMap_append, List.length_append]
      simp [hw]
    refine .inr ⟨w, ?_, hover⟩
    rw [htakes, Nat.add_sub_cancel]
    exact Buffer.getElem?_pending.mpr ⟨i, l, hl, hw, rfl⟩

theorem tso_chooseSource (m : Machine Scripted) (reader : ThreadId) (loc : Location)
    (ps : List Pick) : (m.chooseSource reader loc ps).2.tso = m.tso := by
  unfold chooseSource
  dsimp only
  cases ps[(if 1 < ps.length then Host.choose ps.length m.host else (0, m.host)).1]? <;>
    split <;> rfl

/-- Nothing is resolved if no other thread has writes to these bytes pending. -/
theorem resolve_of_apart (howners : m.table.owners.Nodup) {reader : ThreadId} {loc : Location}
    (h : ∀ o, o ≠ reader → ∀ w ∈ m.table.pending o, w.region.overlaps loc.region = false) :
    m.resolve reader loc false = m := by
  have hnone : (m.table.candidates reader false loc.region).all (·.pending.isEmpty) = true := by
    rw [List.all_eq_true]
    intro c hc
    obtain ⟨howner, hpending⟩ := Table.candidate_eq howners hc
    rw [List.isEmpty_iff, List.eq_nil_iff_forall_not_mem]
    intro i hi
    obtain ⟨l, w, hl, hw, hover⟩ := Buffer.mem_pendingAt.mp (hpending ▸ hi)
    rw [h c.owner howner w (List.mem_filterMap.mpr ⟨l, List.mem_of_getElem? hl, hw⟩)] at hover
    contradiction
  unfold resolve
  dsimp only
  rw [if_pos hnone]

/-- Whatever the host chooses, resolving the visibility of a location brings to memory, of every
other thread, nothing or all up to a pending write that shares bytes with the location. -/
theorem tso_resolve (h : m.Sound) (reader : ThreadId) (loc : Location) : ∃ ks,
    (m.resolve reader loc false).tso = m.tso.releases ks ∧ (ks.map (·.1)).Nodup ∧
      ∀ k ∈ ks, k.1 ≠ reader ∧ (k.2 = 0 ∨ ∃ w, (m.tso.queue k.1)[k.2 - 1]? = some w ∧
        w.region.overlaps loc.region = true) := by
  unfold resolve
  dsimp only
  split
  · exact ⟨[], rfl, List.nodup_nil, nofun⟩
  · have hdrain := reaches_chooseDrain h reader loc (m.table.candidates reader false loc.region)
    split
    · exact ⟨[], rfl, List.nodup_nil, nofun⟩
    · generalize hchoice : (m.chooseDrain reader loc _).1 = choice
      have hps := nodup_picks (Table.nodup_candidates h.owners reader false loc.region) choice
      generalize hm₁ : (m.chooseDrain reader loc _).2 = m₁ at hdrain ⊢
      have htable : m₁.table = m.table := hm₁ ▸ rfl
      have htso : m₁.tso = m.tso := hm₁ ▸ rfl
      have hpick := fun p (hp : p ∈ picks (m.table.candidates reader false loc.region) choice) =>
        takes_of_mem_picks h hp
      generalize picks (m.table.candidates reader false loc.region) choice = ps at hps hpick ⊢
      have hsource := reaches_chooseSource hdrain.sound reader loc ps
      refine ⟨_, tso_drainPicks_sourceLast hsource.sound ((table_chooseSource ..).trans htable)
        ((tso_chooseSource ..).trans htso) loc hps _, ?_, ?_⟩
      · rw [List.map_map]
        exact nodup_sourceLast hps _
      · intro k hk
        obtain ⟨p, hp, rfl⟩ := List.mem_map.mp hk
        exact hpick p (mem_of_mem_sourceLast hp)

end Machine

end StoreBuffer
