import StoreBuffer.Machine.Push
import StoreBuffer.Proofs.Table.Departure

/-! # What leaves while a machine works

On every host, flushing, draining, resolving, evicting and discarding thin the table and leave the
configuration alone: `Machine.Sheds` collects the two. Eviction comes to its end because each round
takes a line; then the stores of the thread fit. -/

namespace StoreBuffer

namespace Table

variable {t : Table} {o : ThreadId}

/-- The stores that a thread has buffered, committed ones included. -/
def storesOf (t : Table) (o : ThreadId) : Nat := (t.linesOf o).countP (·.isStore)

theorem Thins.storesOf_le {may : ThreadId → Prop} {t' : Table} (h : Thins may t t')
    (hn : t.owners.Nodup) (o : ThreadId) : t'.storesOf o ≤ t.storesOf o := by
  refine (h.keeps (P := fun u => u.owners.Nodup ∧ u.storesOf o ≤ t.storesOf o) ?_ ?_
    ⟨hn, Nat.le_refl _⟩).2
  · rintro u only d - ⟨hu, hle⟩
    refine ⟨by rwa [owners_depart], Nat.le_trans ?_ hle⟩
    have hrenumber (ls : List Line) (retired : List Line) :
        (ls.map (Line.renumber retired)).countP (·.isStore) = ls.countP (·.isStore) := by
      rw [List.countP_map]
      rfl
    unfold storesOf
    rw [linesOf_depart, hrenumber]
    split
    · exact d.storeCount_stay_le ⟨u.linesOf o⟩
    · exact Nat.le_refl _
  · rintro u ⟨hu, hle⟩
    refine ⟨nodup_owners_prune hu, ?_⟩
    rwa [storesOf, linesOf_prune hu]

end Table

namespace Visibility

theorem pick?_owner {c : Candidate} {d : Nat} {p : Pick} (h : c.pick? d = some p) :
    p.owner = c.owner ∧ ∀ i, p.upTo = some i → i ∈ c.pending := by
  unfold Candidate.pick? at h
  split at h
  · split at h
    · cases h
      exact ⟨rfl, nofun⟩
    · contradiction
  · cases h
    exact ⟨rfl, fun i hi => List.mem_of_getElem? hi⟩

/-- A pick belongs to one of the candidates. -/
theorem picks_owner {cs : List Candidate} {choice : Nat} {p : Pick} (h : p ∈ picks cs choice) :
    ∃ c ∈ cs, p.owner = c.owner ∧ ∀ i, p.upTo = some i → i ∈ c.pending := by
  obtain ⟨⟨c, d⟩, hmem, hpick⟩ := List.mem_filterMap.mp h
  exact ⟨c, (List.of_mem_zip hmem).1, pick?_owner hpick⟩

theorem mem_of_mem_sourceLast {ps : List Pick} {source : Nat} {p : Pick}
    (h : p ∈ sourceLast ps source) : p ∈ ps := (sourceLast_perm ps source).mem_iff.mp h

end Visibility

namespace Machine

open Visibility

variable {σ : Type} {m m' m'' : Machine σ} {may : ThreadId → Prop}

/-- Lines that `may` allows have left the buffers, and the configuration is the same. -/
structure Sheds (may : ThreadId → Prop) (m m' : Machine σ) : Prop where
  table : Table.Thins may m.table m'.table
  config : m'.config = m.config

theorem Sheds.refl (may : ThreadId → Prop) (m : Machine σ) : m.Sheds may m := ⟨.refl, rfl⟩

theorem Sheds.trans (h : m.Sheds may m') (h' : m'.Sheds may m'') : m.Sheds may m'' :=
  ⟨h.table.trans h'.table, h'.config.trans h.config⟩

theorem Sheds.any (h : m.Sheds may m') : m.Sheds (fun _ => True) m' :=
  ⟨h.table.mono fun _ _ => trivial, h.config⟩

theorem Sheds.owners (h : m.Sheds may m') (hn : m.table.owners.Nodup) : m'.table.owners.Nodup :=
  h.table.nodup_owners hn

/-! ## Draining -/

section Memory

variable [Memory σ]

/-- Whatever leaves the buffer of a thread, no other thread loses lines. -/
theorem thins_modify {t : Table} {o : ThreadId} {b : Buffer} (h : t.owners.Nodup)
    (hb : t.buffer? o = some b) (d : Departure) :
    Table.Thins (· = o) t ((t.modify o fun _ => d.stay b).retire (d.gone b)) := by
  rw [← Table.depart_of_buffer? h hb d]
  exact Table.thins_one (· = o) rfl d

theorem sheds_flush (h : m.table.owners.Nodup) (t : ThreadId) : m.Sheds (· = t) (m.flush t) := by
  unfold flush
  cases hb : m.table.buffer? t with
  | none => exact .refl ..
  | some b => exact ⟨(thins_modify h hb .all).tail .prune, rfl⟩

theorem sheds_flushPart (h : m.table.owners.Nodup) (t : ThreadId) (upTo : Nat) (loc : Location) :
    m.Sheds (· = t) (m.flushPart t upTo loc) := by
  unfold flushPart
  cases hb : m.table.buffer? t with
  | none => exact .refl ..
  | some b => exact ⟨thins_modify h hb (.front (upTo + 1) loc.region), rfl⟩

theorem sheds_dropOldest (h : m.table.owners.Nodup) (t : ThreadId) :
    m.Sheds (· = t) (m.dropOldest t) := by
  unfold dropOldest
  cases hb : m.table.buffer? t with
  | none => exact .refl ..
  | some b => exact ⟨thins_modify h hb .oldest, rfl⟩

theorem sheds_drainPicks (h : m.table.owners.Nodup) (loc : Location) {ps : List Pick}
    (hps : ∀ p ∈ ps, may p.owner) : m.Sheds may (m.drainPicks loc ps) := by
  have hfold : m.Sheds may (ps.foldl (drainPick loc) m) := by
    induction ps generalizing m with
    | nil => exact .refl ..
    | cons p rest ih =>
      have hp : m.Sheds may (m.drainPick loc p) := by
        unfold drainPick
        split
        · obtain ⟨htable, hconfig⟩ := sheds_flushPart h p.owner _ loc
          exact ⟨htable.mono fun o ho => ho ▸ hps p (List.mem_cons_self ..), hconfig⟩
        · exact .refl ..
      exact hp.trans (ih (hp.owners h) fun q hq => hps q (List.mem_cons_of_mem _ hq))
  exact ⟨hfold.table.tail .prune, hfold.config⟩

end Memory

theorem table_discardRange (only : Option ThreadId) (range : Region) (m : Machine σ) :
    (m.discardRange only range).2.table = (m.table.depart only (.range range)).prune := by
  unfold discardRange Table.depart Table.remaining Table.leaving
  dsimp only
  rw [List.flatMap_map]
  rfl

/-- The pending writes into the range disappear from the buffers searched. -/
theorem pending_discardRange (h : m.table.owners.Nodup) (only : Option ThreadId) (range : Region)
    (u : ThreadId) : (m.discardRange only range).2.table.pending u =
      if only.all (· = u) then (m.table.pending u).filter fun w => !range.contains w.loc.addr
      else m.table.pending u := by
  rw [table_discardRange, Table.pending_prune (by rwa [Table.owners_depart]), Table.pending,
    Table.linesOf_depart, List.filterMap_map]
  show (if only.all (· = u) then _ else _ : List Line).filterMap Line.pendingWrite? = _
  split
  · exact Buffer.pending_evict ⟨m.table.linesOf u⟩ range
  · rfl

theorem host_discardRange (only : Option ThreadId) (range : Region) :
    (m.discardRange only range).2.host = m.host := by
  unfold discardRange
  dsimp only
  split <;> rfl

theorem sheds_discardRange (only : Option ThreadId) (range : Region) (m : Machine σ) :
    m.Sheds (fun o => only.all (· = o) = true) (m.discardRange only range).2 := by
  refine ⟨?_, ?_⟩
  · rw [table_discardRange]
    exact (Relation.ReflTransGen.single (.depart only _ fun _ ho => ho)).tail .prune
  · unfold discardRange
    dsimp only
    split <;> rfl

/-! ## Resolving -/

section Resolving

variable [Host σ]

theorem table_chooseSource (m : Machine σ) (reader : ThreadId) (loc : Location)
    (ps : List Pick) : (m.chooseSource reader loc ps).2.table = m.table := by
  unfold chooseSource
  dsimp only
  cases ps[(if 1 < ps.length then Host.choose ps.length m.host else (0, m.host)).1]? <;> rfl

theorem config_chooseSource (m : Machine σ) (reader : ThreadId) (loc : Location)
    (ps : List Pick) : (m.chooseSource reader loc ps).2.config = m.config := by
  unfold chooseSource
  dsimp only
  cases ps[(if 1 < ps.length then Host.choose ps.length m.host else (0, m.host)).1]? <;> rfl

/-- Resolving takes no lines from the reader, unless its own buffer takes part. -/
theorem sheds_resolve (h : m.table.owners.Nodup) (reader : ThreadId) (loc : Location)
    (own : Bool) : m.Sheds (fun o => own = true ∨ o ≠ reader) (m.resolve reader loc own) := by
  unfold resolve
  dsimp only
  split
  · exact .refl ..
  · split
    · exact ⟨.refl, rfl⟩
    · have hpicks : ∀ p ∈ picks (m.table.candidates reader own loc.region)
          (m.chooseDrain reader loc (m.table.candidates reader own loc.region)).1,
          own = true ∨ p.owner ≠ reader := by
        intro p hp
        obtain ⟨c, hc, howner, -⟩ := picks_owner hp
        obtain ⟨s, hs, rfl⟩ := List.mem_map.mp hc
        rw [howner]
        simpa using (List.mem_filter.mp hs).2
      generalize picks _ _ = ps at hpicks ⊢
      generalize hdrain : (m.chooseDrain reader loc _).2 = m₁
      obtain ⟨htable, hconfig⟩ : m₁.table = m.table ∧ m₁.config = m.config :=
        hdrain ▸ ⟨rfl, rfl⟩
      have hsource : m.Sheds (fun o => own = true ∨ o ≠ reader)
          (m₁.chooseSource reader loc ps).2 :=
        ⟨by rw [table_chooseSource, htable], by rw [config_chooseSource, hconfig]⟩
      exact hsource.trans (sheds_drainPicks (hsource.owners h) loc fun p hp =>
        hpicks p (mem_of_mem_sourceLast hp))

/-! ## Evicting -/

theorem sheds_evictOldest (h : m.table.owners.Nodup) (t : ThreadId) (l : Line) :
    m.Sheds (fun _ => True) (m.evictOldest t l) := by
  unfold evictOldest
  split
  · rename_i w _
    have hresolve := (sheds_resolve h t w.loc false).any
    exact hresolve.trans (sheds_dropOldest (hresolve.owners h) t).any
  · exact (sheds_dropOldest h t).any

theorem sheds_evictWhileOverdue (h : m.table.owners.Nodup) (t : ThreadId) (n : Nat) :
    m.Sheds (fun _ => True) (m.evictWhileOverdue t n) := by
  induction n generalizing m with
  | zero => exact .refl ..
  | succ n ih =>
    unfold evictWhileOverdue
    split
    · exact .refl ..
    · rename_i l _
      have hone := sheds_evictOldest h t l
      exact hone.trans (ih (hone.owners h))

theorem sheds_evictExcess (h : m.table.owners.Nodup) (t : ThreadId) :
    m.Sheds (fun _ => True) (m.evictExcess t) := sheds_evictWhileOverdue h ..

end Resolving

theorem storesOf_le_of_overdue? {t : ThreadId} (h : m.overdue? t = none) :
    m.table.storesOf t ≤ m.capacity := by
  unfold overdue? at h
  cases hb : m.table.buffer? t with
  | none => simp [Table.storesOf, Table.linesOf, hb]
  | some b =>
    rw [hb, Option.filter_some] at h
    rw [Table.storesOf, Table.linesOf_of_buffer? hb]
    by_cases hfull : m.capacity < b.storeCount
    · rw [if_pos (by simpa using hfull)] at h
      have hnil : b.lines = [] := by simpa [Buffer.oldest?] using h
      simp [hnil]
    · exact Nat.not_lt.mp hfull

theorem oldest_of_overdue? {t : ThreadId} {l : Line} (h : m.overdue? t = some l) :
    ∃ rest, m.table.linesOf t = l :: rest ∧ m.capacity < m.table.storesOf t := by
  unfold overdue? at h
  cases hb : m.table.buffer? t with
  | none => simp [hb] at h
  | some b =>
    rw [hb, Option.filter_some] at h
    rw [Table.storesOf, Table.linesOf_of_buffer? hb]
    split at h
    · rename_i hfull
      obtain ⟨rest, hrest⟩ := List.head?_eq_some_iff.mp h
      exact ⟨rest, hrest, of_decide_eq_true hfull⟩
    · contradiction

theorem overdue?_eq_none_of_nil {t : ThreadId} (h : m.table.linesOf t = []) :
    m.overdue? t = none := by
  unfold overdue?
  cases hb : m.table.buffer? t with
  | none => rfl
  | some b =>
    have hnil : b.lines = [] := by rwa [Table.linesOf_of_buffer? hb] at h
    rw [Option.filter_some]
    split <;> simp [Buffer.oldest?, hnil]

theorem length_dropOldest [Memory σ] (m : Machine σ) (t : ThreadId) :
    ((m.dropOldest t).table.linesOf t).length ≤ (m.table.linesOf t).length - 1 := by
  unfold dropOldest
  cases hb : m.table.buffer? t with
  | none => simp [Table.linesOf, hb]
  | some b =>
    have hstay : (Departure.oldest.stay b).lines.length ≤ b.lines.length - 1 := by
      rw [← List.length_tail, ← List.eraseIdx_zero]
      exact (List.dropWhile_sublist _).length_le
    have hlines := congrArg List.length (Table.linesOf_stay hb .oldest t)
    rw [if_pos rfl, List.length_map, Table.linesOf_of_buffer? hb] at hlines
    rw [Table.linesOf_of_buffer? hb]
    exact Nat.le_trans (Nat.le_of_eq hlines) hstay

variable [Host σ]

/-- Every eviction takes a line away. -/
theorem length_evictOldest (h : m.table.owners.Nodup) (t : ThreadId) (l : Line) :
    ((m.evictOldest t l).table.linesOf t).length ≤ (m.table.linesOf t).length - 1 := by
  unfold evictOldest
  split
  · rename_i w _
    have hresolve := sheds_resolve h t w.loc false
    have hsame : ((m.resolve t w.loc false).table.linesOf t).map Line.unnumbered =
        (m.table.linesOf t).map Line.unnumbered :=
      hresolve.table.unnumbered_linesOf h (by simp)
    have hsame := congrArg List.length hsame
    rw [List.length_map, List.length_map] at hsame
    rw [← hsame]
    exact length_dropOldest _ t
  · exact length_dropOldest m t

theorem overdue?_evictWhileOverdue (h : m.table.owners.Nodup) (t : ThreadId) {n : Nat}
    (hn : (m.table.linesOf t).length ≤ n) : (m.evictWhileOverdue t n).overdue? t = none := by
  induction n generalizing m with
  | zero => exact overdue?_eq_none_of_nil (List.length_eq_zero_iff.mp (Nat.le_zero.mp hn))
  | succ n ih =>
    unfold evictWhileOverdue
    cases hover : m.overdue? t with
    | none => exact hover
    | some l =>
      have hlen := length_evictOldest h t l
      exact ih ((sheds_evictOldest h t l).owners h) (by omega)

/-- After eviction the stores of the thread fit. -/
theorem storesOf_evictExcess_le (h : m.table.owners.Nodup) (t : ThreadId) :
    (m.evictExcess t).table.storesOf t ≤ m.capacity := by
  have hfits := storesOf_le_of_overdue? (overdue?_evictWhileOverdue h t (Nat.le_refl _))
  have hcapacity : (m.evictExcess t).capacity = m.capacity :=
    congrArg Config.capacity (sheds_evictExcess h t).config
  rwa [← hcapacity]

end Machine

end StoreBuffer
