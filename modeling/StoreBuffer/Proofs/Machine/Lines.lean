import StoreBuffer.Proofs.Machine.Departures
import StoreBuffer.Proofs.Machine.Draining

/-! # Lines of a thread while buffers drain

What a partial flush or a departure leaves of the lines of every thread, up to renumbering.
`Line.Lasting` collects the properties of a thread's lines that survive both, so that they survive
resolving and evicting, which are made of them. At the end stands the capacity: when eviction has
come to its end, the buffer holds no more stores than the capacity allows. -/

namespace StoreBuffer

namespace Line

/-- A property of the lines of a thread that survives renumbering, partial flushes and the departure
of the oldest line. -/
structure Lasting (P : List Line → Prop) : Prop where
  renumber : ∀ retired ls, P ls → P (ls.map (Line.renumber retired))
  drain : ∀ n r ls, P ls → P ((⟨ls⟩ : Buffer).drain n r).kept.lines
  drop : ∀ ls, P ls → P (ls.tail.dropWhile (·.isFence))

/-- Only stores are pending. -/
theorem length_pending_le (ls : List Line) :
    (ls.filterMap pendingWrite?).length ≤ ls.countP (·.isStore) := by
  induction ls with
  | nil => exact Nat.le_refl 0
  | cons l rest ih =>
    cases hw : l.pendingWrite? with
    | none =>
      rw [List.filterMap_cons_none hw]
      exact Nat.le_trans ih (List.sublist_cons_self ..).countP_le
    | some w =>
      have hstore : l.isStore = true := by
        rw [isStore, (pendingWrite?_eq_some.mp hw).2]
        rfl
      rw [List.filterMap_cons_some hw, List.countP_cons_of_pos hstore]
      exact Nat.succ_le_succ ih

end Line

namespace Buffer

/-- What a partial flush of the first `n` lines keeps. -/
theorem lines_drain (ls : List Line) (n : Nat) (r : Region) :
    ((⟨ls⟩ : Buffer).drain n r).kept.lines =
      (((ls.take n).map Line.commit).filter (!·.touches r) ++ ls.drop n).dropWhile (·.isFence) :=
  rfl

/-- A partial flush keeps stores or drops them. -/
theorem countP_drain_le (ls : List Line) (n : Nat) (r : Region) :
    ((⟨ls⟩ : Buffer).drain n r).kept.lines.countP (·.isStore) ≤ ls.countP (·.isStore) :=
  (Departure.front n r).storeCount_stay_le ⟨ls⟩

end Buffer

namespace Machine

open Visibility

variable {σ : Type}

/-- A thread without a slot has no lines to lose. -/
theorem linesOf_of_no_slot {m : Machine σ} {o : ThreadId} (hb : m.table.buffer? o = none)
    {f : List Line → List Line} (hf : f [] = []) (t : ThreadId) : m.table.linesOf t =
      (if t = o then f (m.table.linesOf o) else m.table.linesOf t).map (Line.renumber []) := by
  have hnone : m.table.linesOf o = [] := by
    rw [Table.linesOf, hb]
    rfl
  rw [Line.renumber_nil, List.map_id]
  by_cases ht : t = o
  · rw [if_pos ht, ht, hnone, hf]
  · rw [if_neg ht]

/-- A partial flush changes the lines of its thread and renumbers the others. -/
theorem linesOf_flushPart [Memory σ] (m : Machine σ) (o : ThreadId) (upTo : Nat) (loc : Location) :
    ∃ retired, ∀ t, (m.flushPart o upTo loc).table.linesOf t =
      (if t = o then ((⟨m.table.linesOf o⟩ : Buffer).drain (upTo + 1) loc.region).kept.lines
        else m.table.linesOf t).map (Line.renumber retired) := by
  unfold flushPart
  cases hb : m.table.buffer? o with
  | none => exact ⟨[], linesOf_of_no_slot hb
      (f := fun ls => ((⟨ls⟩ : Buffer).drain (upTo + 1) loc.region).kept.lines) rfl⟩
  | some b => exact ⟨_, Table.linesOf_stay hb (.front (upTo + 1) loc.region)⟩

/-- The departure of an oldest line takes the fences behind it along. -/
theorem linesOf_dropOldest [Memory σ] (m : Machine σ) (o : ThreadId) :
    ∃ retired, ∀ t, (m.dropOldest o).table.linesOf t =
      (if t = o then (m.table.linesOf o).tail.dropWhile (·.isFence) else m.table.linesOf t).map
        (Line.renumber retired) := by
  unfold dropOldest
  cases hb : m.table.buffer? o with
  | none => exact ⟨[], linesOf_of_no_slot hb (f := fun ls => ls.tail.dropWhile (·.isFence)) rfl⟩
  | some b =>
    refine ⟨Departure.oldest.gone b, fun t => ?_⟩
    rw [← List.eraseIdx_zero]
    exact Table.linesOf_stay hb .oldest t

variable {m : Machine Scripted}

/-- Resolving visibility leaves the reader's own lines, up to renumbering. -/
theorem unnumbered_resolve (h : m.Sound) (reader : ThreadId) (loc : Location) :
    ((m.resolve reader loc false).table.linesOf reader).map Line.unnumbered =
      (m.table.linesOf reader).map Line.unnumbered :=
  (sheds_resolve h.owners reader loc false).table.unnumbered_linesOf h.owners (by simp)

/-! ## Lasting properties -/

variable {P : ThreadId → List Line → Prop}

theorem lasting_flushPart (hP : ∀ t, Line.Lasting (P t)) (hm : ∀ t, P t (m.table.linesOf t))
    (o : ThreadId) (upTo : Nat) (loc : Location) (t : ThreadId) :
    P t ((m.flushPart o upTo loc).table.linesOf t) := by
  obtain ⟨retired, hlines⟩ := linesOf_flushPart m o upTo loc
  rw [hlines]
  apply (hP t).renumber
  by_cases ht : t = o
  · subst ht
    rw [if_pos rfl]
    exact (hP t).drain _ _ _ (hm t)
  · rw [if_neg ht]
    exact hm t

theorem lasting_dropOldest (hP : ∀ t, Line.Lasting (P t)) (hm : ∀ t, P t (m.table.linesOf t))
    (o t : ThreadId) : P t ((m.dropOldest o).table.linesOf t) := by
  obtain ⟨retired, hlines⟩ := linesOf_dropOldest m o
  rw [hlines]
  apply (hP t).renumber
  by_cases ht : t = o
  · subst ht
    rw [if_pos rfl]
    exact (hP t).drop _ (hm t)
  · rw [if_neg ht]
    exact hm t

theorem lasting_drainPicks (h : m.Sound) (hP : ∀ t, Line.Lasting (P t))
    (hm : ∀ t, P t (m.table.linesOf t)) (loc : Location) (ps : List Pick) (t : ThreadId) :
    P t ((m.drainPicks loc ps).table.linesOf t) := by
  have hfold : (ps.foldl (drainPick loc) m).Sound ∧
      ∀ t, P t ((ps.foldl (drainPick loc) m).table.linesOf t) := by
    induction ps generalizing m with
    | nil => exact ⟨h, hm⟩
    | cons p rest ih =>
      refine ih (reaches_drainPick h loc p).sound fun u => ?_
      unfold drainPick
      split
      · exact lasting_flushPart hP hm ..
      · exact hm u
  show P t ((ps.foldl (drainPick loc) m).table.prune.linesOf t)
  rw [Table.linesOf_prune hfold.1.owners]
  exact hfold.2 t

/-- Resolving visibility only drains. -/
theorem lasting_resolve (h : m.Sound) (hP : ∀ t, Line.Lasting (P t))
    (hm : ∀ t, P t (m.table.linesOf t)) (reader : ThreadId) (loc : Location) (own : Bool)
    (t : ThreadId) : P t ((m.resolve reader loc own).table.linesOf t) := by
  unfold resolve
  dsimp only
  split
  · exact hm t
  · have hdrain := reaches_chooseDrain h reader loc (m.table.candidates reader own loc.region)
    split
    · exact hm t
    · generalize picks _ _ = ps
      have hsource := reaches_chooseSource hdrain.sound reader loc ps
      refine lasting_drainPicks hsource.sound hP (fun u => ?_) loc _ t
      rw [table_chooseSource]
      exact hm u

theorem lasting_evictOldest (h : m.Sound) (hP : ∀ t, Line.Lasting (P t))
    (hm : ∀ t, P t (m.table.linesOf t)) (o : ThreadId) (l : Line) (t : ThreadId) :
    P t ((m.evictOldest o l).table.linesOf t) := by
  unfold evictOldest
  split
  · exact lasting_dropOldest hP (fun u => lasting_resolve h hP hm _ _ _ u) o t
  · exact lasting_dropOldest hP hm o t

/-! ## Capacity -/

/-- The stores that a thread has buffered, committed ones included. -/
def storesOf (m : Machine Scripted) (t : ThreadId) : Nat :=
  (m.table.linesOf t).countP (·.isStore)

theorem linesOf_of_overdue? {t : ThreadId} {l : Line} (h : m.overdue? t = some l) :
    ∃ rest, m.table.linesOf t = l :: rest ∧ m.capacity < m.storesOf t := oldest_of_overdue? h

/-- Nothing leaves a buffer that fits. -/
theorem evictExcess_of_le {t : ThreadId} (h : m.storesOf t ≤ m.capacity) :
    m.evictExcess t = m := by
  unfold evictExcess
  cases (m.table.linesOf t).length with
  | zero => rfl
  | succ n =>
    have hnone : m.overdue? t = none := by
      cases hover : m.overdue? t with
      | none => rfl
      | some l =>
        obtain ⟨_, -, hfull⟩ := linesOf_of_overdue? hover
        omega
    rw [evictWhileOverdue, hnone]

/-- After eviction the stores fit. -/
theorem storesOf_evictExcess (h : m.Sound) (t : ThreadId) :
    (m.evictExcess t).storesOf t ≤ m.capacity := storesOf_evictExcess_le h.owners t

theorem length_pending_le (m : Machine Scripted) (t : ThreadId) :
    (m.table.pending t).length ≤ m.storesOf t := Line.length_pending_le (m.table.linesOf t)

end Machine

end StoreBuffer
