import StoreBuffer.Proofs.Machine.Departures
import StoreBuffer.Proofs.Table.Portions

/-! # What a thread's resolutions look at

A resolution that leaves the buffer of its own thread out looks at the host and at the buffers of
the other threads, and there it does not look at numbers. `Table.foreign` is what it sees of a
table. Machines with the same host and the same foreign buffers go through a resolution alike,
whatever the thread has buffered itself, and they still agree afterwards. -/

namespace StoreBuffer

open Visibility

namespace Line

theorem renumbering_unnumbered : Renumbering unnumbered := by
  refine ⟨fun _ => rfl, fun l => ?_⟩
  have hstore : l.unnumbered.isStore = l.isStore := rfl
  unfold commit
  rw [hstore]
  split <;> rfl

namespace Renumbering

variable {f : Line → Line}

theorem hasCommittedAt_map (hf : Renumbering f) (b : Buffer) (r : Region) :
    (b.map f).hasCommittedAt r = b.hasCommittedAt r := by
  show (b.lines.map f).any _ = b.lines.any _
  rw [List.any_map]
  refine congrArg (List.any b.lines) (funext fun l => ?_)
  rw [Function.comp, hf.committed, hf.touches]

theorem writes_drain_map (hf : Renumbering f) (b : Buffer) (n : Nat) (r : Region) :
    ((b.map f).drain n r).writes = (b.drain n r).writes := by
  show ((b.lines.map f).take n).filterMap Line.pendingWrite? = _
  rw [← List.map_take, List.filterMap_map]
  exact List.filterMap_congr fun l _ => hf.pendingWrite? l

theorem kept_drain_map (hf : Renumbering f) (b : Buffer) (n : Nat) (r : Region) :
    ((b.map f).drain n r).kept = (b.drain n r).kept.map f := by
  have hcommit (ls : List Line) : (ls.map f).map Line.commit = (ls.map Line.commit).map f := by
    rw [List.map_map, List.map_map]
    exact List.map_congr_left fun l _ => hf.commit l
  have htouches (ls : List Line) : (ls.map f).filter (!·.touches r) =
      (ls.filter (!·.touches r)).map f := by
    rw [List.filter_map]
    exact congrArg (List.map f) (List.filter_congr fun l _ => congrArg (!·) (hf.touches l r))
  refine congrArg Buffer.mk ?_
  show ((((b.lines.map f).take n).map Line.commit).filter _ ++
    (b.lines.map f).drop n).dropWhile _ = _
  rw [← List.map_take, ← List.map_drop, hcommit, htouches, ← List.map_append, List.dropWhile_map,
    hf.isFence_comp]
  rfl

end Renumbering

end Line

namespace Table

variable {t : Table} {reader o : ThreadId}

/-- The buffers of the other threads, their lines without numbers. -/
def foreign (t : Table) (reader : ThreadId) : Table :=
  ⟨(t.others reader).map fun s => { s with buffer := s.buffer.map Line.unnumbered }⟩

theorem buffer?_foreign (ho : o ≠ reader) :
    (t.foreign reader).buffer? o = (t.buffer? o).map (·.map Line.unnumbered) := by
  have hfind : (t.others reader).find? (·.owner = o) = t.slots.find? (·.owner = o) := by
    rw [others, List.find?_filter]
    refine congrArg (List.find? · t.slots) (funext fun s => ?_)
    by_cases hs : s.owner = o
    · simp [hs, ho]
    · simp [hs]
  have hmap := buffer?_map ⟨t.others reader⟩
    (g := fun s => { s with buffer := s.buffer.map Line.unnumbered }) (fun _ => rfl) o
  rw [foreign, hmap, hfind, buffer?, Option.map_map]
  rfl

theorem linesOf_foreign (ho : o ≠ reader) :
    (t.foreign reader).linesOf o = (t.linesOf o).map Line.unnumbered := by
  rw [linesOf, buffer?_foreign ho, linesOf]
  cases t.buffer? o <;> rfl

theorem candidates_foreign (t : Table) (reader : ThreadId) (r : Region) :
    t.candidates reader false r = (t.foreign reader).slots.map fun s =>
      ⟨s.owner, s.buffer.pendingAt r, s.buffer.hasCommittedAt r⟩ := by
  rw [candidates_eq, foreign, List.map_map]
  refine List.map_congr_left fun s _ => ?_
  simp only [Function.comp, Line.renumbering_unnumbered.pendingAt_map,
    Line.renumbering_unnumbered.hasCommittedAt_map]

/-- A change to the slots that keeps their owners shows as a change to the foreign ones. -/
theorem foreign_map (t : Table) {g h : Slot → Slot} (hg : ∀ s, (g s).owner = s.owner)
    (hgh : ∀ s, s.owner ≠ reader → { g s with buffer := (g s).buffer.map Line.unnumbered } =
      h { s with buffer := s.buffer.map Line.unnumbered }) :
    foreign ⟨t.slots.map g⟩ reader = ⟨(t.foreign reader).slots.map h⟩ := by
  refine congrArg Table.mk ?_
  show ((t.slots.map g).filter _).map _ = ((t.others reader).map _).map h
  rw [List.filter_map, List.map_map, List.map_map, others]
  have howner : ((fun s : Slot => decide (s.owner ≠ reader)) ∘ g) =
      fun s => decide (s.owner ≠ reader) := by
    funext s
    rw [Function.comp, hg]
  rw [howner]
  refine List.map_congr_left fun s hs => hgh s ?_
  simpa using (List.mem_filter.mp hs).2

/-- A buffer put in the place of another one. -/
theorem foreign_modify (t : Table) (reader o : ThreadId) (b : Buffer) :
    (t.modify o fun _ => b).foreign reader =
      (t.foreign reader).modify o fun _ => b.map Line.unnumbered := by
  refine foreign_map t
    (h := fun s => if s.owner = o then { s with buffer := b.map Line.unnumbered } else s)
    (fun s => ?_) fun s _ => ?_
  · split <;> rfl
  · by_cases hs : s.owner = o <;> simp [hs]

/-- A thread's own buffer is not foreign to it. -/
theorem foreign_modify_self (t : Table) (reader : ThreadId) (f : Buffer → Buffer) :
    (t.modify reader f).foreign reader = t.foreign reader := by
  refine (foreign_map t (h := id) (fun s => ?_) fun s hs => ?_).trans (by rw [List.map_id])
  · split <;> rfl
  · rw [if_neg hs]
    rfl

theorem foreign_retire (retired : List Line) (t : Table) (reader : ThreadId) :
    (t.retire retired).foreign reader = t.foreign reader := by
  rw [retire_eq_mapLines, mapLines]
  refine (foreign_map t (g := fun s => { s with buffer := s.buffer.map (Line.renumber retired) })
    (h := id) (fun _ => rfl) fun s _ => ?_).trans (by rw [List.map_id])
  have hsame : (s.buffer.map (Line.renumber retired)).map Line.unnumbered =
      s.buffer.map Line.unnumbered := by
    rw [Buffer.map, Buffer.map, List.map_map]
    rfl
  simp only [hsame, id]

theorem foreign_prune (t : Table) (reader : ThreadId) :
    t.prune.foreign reader = (t.foreign reader).prune := by
  refine congrArg Table.mk ?_
  show ((t.slots.filter _).filter _).map _ = ((t.slots.filter _).map _).filter _
  rw [List.filter_map, List.filter_comm]
  refine congrArg (List.map _) (List.filter_congr fun s _ => ?_)
  simp [Buffer.isEmpty, Buffer.map]

theorem foreign_append_self (t : Table) (reader : ThreadId) (l : Line) :
    (t.append reader l).foreign reader = t.foreign reader := by
  unfold append
  split
  · exact foreign_modify_self ..
  · simp [foreign, others]

/-- The table of the other threads has no other foreign buffers. -/
theorem foreign_others (t : Table) (reader : ThreadId) :
    Table.foreign ⟨t.others reader⟩ reader = t.foreign reader := by
  simp [foreign, others, List.filter_filter]

end Table

namespace Machine

variable {σ : Type} {t : ThreadId} {m m' m'' : Machine σ}

/-- The hosts are the same, and the buffers of the threads other than `t` up to numbers. -/
structure SameForeign (t : ThreadId) (m m' : Machine σ) : Prop where
  host : m.host = m'.host
  table : m.table.foreign t = m'.table.foreign t

theorem SameForeign.refl (t : ThreadId) (m : Machine σ) : SameForeign t m m := ⟨rfl, rfl⟩

theorem SameForeign.trans (h : SameForeign t m m') (h' : SameForeign t m' m'') :
    SameForeign t m m'' := ⟨h.host.trans h'.host, h.table.trans h'.table⟩

theorem SameForeign.withHost (h : SameForeign t m m') {k k' : σ} (hk : k = k') :
    SameForeign t (m.withHost k) (m'.withHost k') := ⟨hk, h.table⟩

theorem SameForeign.prune (h : SameForeign t m m') :
    SameForeign t (m.withTable m.table.prune) (m'.withTable m'.table.prune) := by
  refine ⟨h.host, ?_⟩
  show m.table.prune.foreign t = m'.table.prune.foreign t
  rw [Table.foreign_prune, Table.foreign_prune, h.table]

theorem SameForeign.unnumbered_linesOf (h : SameForeign t m m') {o : ThreadId} (ho : o ≠ t) :
    (m.table.linesOf o).map Line.unnumbered = (m'.table.linesOf o).map Line.unnumbered := by
  rw [← Table.linesOf_foreign ho, h.table, Table.linesOf_foreign ho]

/-- What a partial flush of another thread makes of its buffer shows in what was foreign before. -/
theorem SameForeign.flushPart [Memory σ] (h : SameForeign t m m') {o : ThreadId} (ho : o ≠ t)
    (upTo : Nat) (loc : Location) :
    SameForeign t (m.flushPart o upTo loc) (m'.flushPart o upTo loc) := by
  have hsame : (m.table.buffer? o).map (·.map Line.unnumbered) =
      (m'.table.buffer? o).map (·.map Line.unnumbered) := by
    rw [← Table.buffer?_foreign ho, h.table, Table.buffer?_foreign ho]
  unfold Machine.flushPart
  cases hb : m.table.buffer? o with
  | none =>
    rw [hb] at hsame
    rw [Option.map_eq_none_iff.mp hsame.symm]
    exact h
  | some b =>
    rw [hb] at hsame
    obtain ⟨b', hb', hsame⟩ := Option.map_eq_some_iff.mp hsame.symm
    rw [hb']
    have hsame : b'.map Line.unnumbered = b.map Line.unnumbered := hsame
    have hwrites : (b.drain (upTo + 1) loc.region).writes =
        (b'.drain (upTo + 1) loc.region).writes := by
      rw [← Line.renumbering_unnumbered.writes_drain_map b, ← hsame,
        Line.renumbering_unnumbered.writes_drain_map]
    have hkept : (b.drain (upTo + 1) loc.region).kept.map Line.unnumbered =
        (b'.drain (upTo + 1) loc.region).kept.map Line.unnumbered := by
      rw [← Line.renumbering_unnumbered.kept_drain_map b, ← hsame,
        Line.renumbering_unnumbered.kept_drain_map]
    constructor
    · show Memory.storeAll (b.drain _ _).writes m.host =
        Memory.storeAll (b'.drain _ _).writes m'.host
      rw [hwrites, h.host]
    · show Table.foreign (Table.retire _ _) t = Table.foreign (Table.retire _ _) t
      rw [Table.foreign_retire, Table.foreign_retire,
        Table.foreign_modify, Table.foreign_modify, h.table, hkept]

theorem SameForeign.drainPicks [Memory σ] (h : SameForeign t m m') (loc : Location) {ps : List Pick}
    (hps : ∀ p ∈ ps, p.owner ≠ t) : SameForeign t (m.drainPicks loc ps) (m'.drainPicks loc ps) := by
  have hfold : SameForeign t (ps.foldl (drainPick loc) m) (ps.foldl (drainPick loc) m') := by
    induction ps generalizing m m' with
    | nil => exact h
    | cons p rest ih =>
      refine ih ?_ fun q hq => hps q (List.mem_cons_of_mem _ hq)
      unfold drainPick
      split
      · exact h.flushPart (hps p (List.mem_cons_self ..)) ..
      · exact h
  exact hfold.prune

variable [Host σ]

/-- The same source is chosen. -/
theorem SameForeign.chooseSource (h : SameForeign t m m') (reader : ThreadId) (loc : Location)
    (ps : List Pick) : (m.chooseSource reader loc ps).1 = (m'.chooseSource reader loc ps).1 ∧
      SameForeign t (m.chooseSource reader loc ps).2 (m'.chooseSource reader loc ps).2 := by
  unfold Machine.chooseSource
  dsimp only
  rw [h.host]
  refine ⟨rfl, ?_⟩
  cases ps[(if 1 < ps.length then Host.choose ps.length m'.host else (0, m'.host)).1]? <;>
    exact ⟨rfl, h.table⟩

theorem SameForeign.resolve (h : SameForeign t m m') (loc : Location) :
    SameForeign t (m.resolve t loc false) (m'.resolve t loc false) := by
  have hpicks : ∀ {choice : Nat} {p : Pick},
      p ∈ picks (m'.table.candidates t false loc.region) choice → p.owner ≠ t := by
    intro choice p hp
    obtain ⟨c, hc, howner, -⟩ := picks_owner hp
    obtain ⟨s, hs, rfl⟩ := List.mem_map.mp hc
    rw [howner]
    simpa using (List.mem_filter.mp hs).2
  have hdrain (cs : List Candidate) : (m.chooseDrain t loc cs).1 = (m'.chooseDrain t loc cs).1 ∧
      SameForeign t (m.chooseDrain t loc cs).2 (m'.chooseDrain t loc cs).2 := by
    unfold Machine.chooseDrain
    dsimp only
    rw [h.host]
    exact ⟨rfl, rfl, h.table⟩
  unfold Machine.resolve
  dsimp only
  rw [Table.candidates_foreign m.table, h.table, ← Table.candidates_foreign]
  split
  · exact h
  · obtain ⟨hchoice, hnext⟩ := hdrain (m'.table.candidates t false loc.region)
    rw [hchoice]
    split
    · exact hnext
    · obtain ⟨hsource, hlast⟩ := hnext.chooseSource t loc (picks
        (m'.table.candidates t false loc.region)
        (m'.chooseDrain t loc (m'.table.candidates t false loc.region)).1)
      rw [hsource]
      exact hlast.drainPicks loc fun p hp => hpicks (mem_of_mem_sourceLast hp)

/-! ## Publishing -/

/-- Brings writes of `t` to memory, each of them right after what other threads have pending for its
location has been resolved. -/
def publish (t : ThreadId) : List Write → Machine σ → Machine σ
  | [], m => m
  | w :: ws, m =>
    let m := m.resolve t w.loc false
    publish t ws (m.withHost (Memory.store w m.host))

theorem SameForeign.publish (h : SameForeign t m m') (ws : List Write) :
    SameForeign t (m.publish t ws) (m'.publish t ws) := by
  induction ws generalizing m m' with
  | nil => exact h
  | cons w ws ih =>
    have hresolve := h.resolve w.loc
    exact ih (hresolve.withHost (congrArg (Memory.store w) hresolve.host))

end Machine

end StoreBuffer
