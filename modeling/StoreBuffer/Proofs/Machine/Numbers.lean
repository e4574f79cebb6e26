import StoreBuffer.Proofs.Machine.Shape
import StoreBuffer.Proofs.Machine.TableRuns

/-! # When a location has no next number

The numbers of a reachable machine follow the order in which its lines were pushed, and none of them
is beyond the greatest (`Table.Ranked`). So an atomic store is refused a number in two cases only: a
numbered line is in the way, or as many atomic lines as there are numbers stand at its location. -/

namespace StoreBuffer

theorem Line.atomicNo_commit (l : Line) : l.commit.atomicNo = l.atomicNo := by
  unfold commit
  split <;> rfl

namespace Table

/-- A numbered line shares bytes with the location without being at it. -/
def Obstructed (t : Table) (loc : Location) : Prop :=
  ∃ l ∈ t.lines, l.atomicNo ≠ 0 ∧ l.touches loc.region = true ∧ l.isAt loc = false

instance (t : Table) (loc : Location) : Decidable (t.Obstructed loc) := by
  unfold Obstructed
  infer_instance

/-- How many atomic lines stand at a location. -/
def atomicsAt (t : Table) (loc : Location) : Nat :=
  t.lines.countP fun l => l.isAt loc && l.order.isAtomicOp

/-- The lines have come in some order that their numbers follow, and no number is too great. -/
structure Ranked (t : Table) : Prop where
  arrived : ∃ now dates as, Arrived now t dates as
  bounded : ∀ o, ∀ l ∈ t.linesOf o, l.atomicNo ≤ Counter.greatest

variable {t t' : Table}

theorem ranked_empty : Ranked {} := ⟨⟨0, _, [], arrived_empty 0⟩, nofun⟩

theorem Ranked.owners (h : t.Ranked) : t.owners.Nodup := by
  obtain ⟨_, _, _, has⟩ := h.arrived
  exact has.owners

theorem Ranked.inSequence (h : t.Ranked) : ∃ dates, t.InSequence dates := by
  obtain ⟨_, dates, _, has⟩ := h.arrived
  exact ⟨dates, has.inSequence⟩

/-- Numbers only move down when lines leave. -/
theorem bounded_thins {may : ThreadId → Prop} {n : Int} (h : t.owners.Nodup)
    (hthins : Thins may t t') (hle : ∀ o, ∀ l ∈ t.linesOf o, l.atomicNo ≤ n) :
    ∀ o, ∀ l ∈ t'.linesOf o, l.atomicNo ≤ n := by
  refine (hthins.keeps (P := fun u => u.owners.Nodup ∧
    ∀ o, ∀ l ∈ u.linesOf o, l.atomicNo ≤ n) ?_ ?_ ⟨h, hle⟩).2
  · rintro u only d - ⟨hu, hle⟩
    refine ⟨by rwa [owners_depart], fun o l hl => ?_⟩
    rw [linesOf_depart] at hl
    obtain ⟨k, hk, rfl⟩ := List.mem_map.mp hl
    refine Int.le_trans (Line.atomicNo_renumber_le ..) ?_
    split at hk
    · obtain hk | ⟨j, hj, rfl⟩ := Departure.mem_stay hk
      · exact hle o k hk
      · rw [Line.atomicNo_commit]
        exact hle o j hj
    · exact hle o k hk
  · rintro u ⟨hu, hle⟩
    exact ⟨nodup_owners_prune hu, fun o l hl => hle o l (by rwa [linesOf_prune hu] at hl)⟩

/-- The next number at a location is not too great. -/
theorem nextAtomicNo_le {loc : Location} {n : Int} (h : t.nextAtomicNo loc = .ok n) :
    n ≤ Counter.greatest := by
  unfold nextAtomicNo Counter.next at h
  split at h
  · contradiction
  · split at h
    · cases h
      omega
    · contradiction

end Table

namespace Line

theorem Next.atomicNo_le {t : Table} {l : Line} (h : Next t l) : l.atomicNo ≤ Counter.greatest := by
  by_cases hno : l.atomicNo = 0
  · rw [hno]
    decide
  · obtain ⟨hstore, hop⟩ := h.isAtomic hno
    obtain ⟨loc, hloc⟩ := isStore_iff_exists_loc.mp hstore
    exact Table.nextAtomicNo_le (h.atomicNo hop loc hloc)

end Line

namespace TableOp

variable {σ : Type} {m : Machine σ}

/-- A line comes in with a number that is not too great. -/
theorem bounded_enter (hle : ∀ o, ∀ l ∈ m.table.linesOf o, l.atomicNo ≤ Counter.greatest)
    (op : TableOp) (now : Nat) (dates : Dates) :
    ∀ o, ∀ l ∈ (op.enter now m dates).1.linesOf o, l.atomicNo ≤ Counter.greatest := by
  have happend (t : ThreadId) {k : Line} (hk : Line.Next m.table k) :
      ∀ o, ∀ l ∈ (m.table.append t k).linesOf o, l.atomicNo ≤ Counter.greatest := by
    intro o l hl
    rw [Table.linesOf_append] at hl
    split at hl
    · rcases List.mem_append.mp hl with hl | hl
      · exact hle o l hl
      · rw [List.mem_singleton.mp hl]
        exact hk.atomicNo_le
    · exact hle o l hl
  have hline (t : ThreadId) {k : Line} (hseq : k.seqNo = 0) (hatomic : k.atomicNo = 0) :
      ∀ o, ∀ l ∈ (enterLine t k now m dates).1.linesOf o, l.atomicNo ≤ Counter.greatest := by
    unfold enterLine
    cases hn : m.numbered k with
    | error f => exact hle
    | ok k' => exact happend t (next_numbered hn hseq hatomic)
  cases op with
  | store t loc value order => exact hline t rfl rfl
  | fence t order => exact hline t rfl rfl
  | mark t order =>
    intro o l hl
    have hl : l ∈ (m.pushFence t (.fence order)).2.table.linesOf o := hl
    obtain ⟨-, htable⟩ | ⟨b, newest, hb, hnewest, ⟨hfence, -, htable⟩ | ⟨-, -, htable⟩⟩ :=
      Machine.pushFence_cases t (.fence order) m
    · rw [htable] at hl
      exact hle o l hl
    · obtain ⟨older, hlines, hmodified⟩ := Buffer.exists_modify_newest hnewest fun f =>
        { f with order := f.order ||| (Line.fence order).order }
      have hold : ∀ k ∈ older ++ [newest], k.atomicNo ≤ Counter.greatest := by
        rw [← hlines, ← Table.linesOf_of_buffer? hb]
        exact hle t
      rw [htable, Table.linesOf_modify] at hl
      split at hl
      · rename_i ho
        rw [ho, hb, Option.map_some, Option.getD_some, hmodified] at hl
        rcases List.mem_append.mp hl with hl | hl
        · exact hold l (List.mem_append_left _ hl)
        · rw [List.mem_singleton.mp hl]
          exact hold newest (List.mem_append_right _ (List.mem_singleton_self _))
      · exact hle o l hl
    · have hpush : m.table.modify t (·.push (.fence order)) = m.table.append t (.fence order) := by
        rw [Table.append, hb, Option.isSome_some, if_pos rfl]
      rw [htable, hpush] at hl
      have hfence : Line.Next m.table (.fence order) :=
        ⟨.inl rfl, fun _ loc hloc => by contradiction, fun _ => rfl⟩
      exact happend t hfence o l hl
  | flush | flushPart | discardRange | resolve => exact hle

variable [Host σ]

/-- Whatever is done to a table, its numbers follow the order of the pushes. -/
theorem ranked_perform (h : m.table.Ranked) (op : TableOp) : (op.perform m).table.Ranked := by
  obtain ⟨now, dates, as, has⟩ := h.arrived
  obtain ⟨bs, hbs⟩ := arrived_enter has op
  have hthins := thins_perform has.owners op now dates
  obtain ⟨dates', hdated⟩ := hthins.exists_dates (op.enter now m dates).2
  obtain ⟨cs, hcs⟩ := hbs.thins hdated
  exact ⟨⟨now + 1, dates', cs, hcs⟩,
    Table.bounded_thins hbs.owners hthins (bounded_enter h.bounded op now dates)⟩

end TableOp

namespace Machine

variable {σ : Type} [Host σ] {m : Machine σ}

theorem invariant_ranked : Invariant fun m : Machine σ => m.table.Ranked where
  congr h htable _ := by rwa [htable]
  flush t h := TableOp.ranked_perform h (.flush t)
  resolve t loc h := TableOp.ranked_perform h (.resolve t loc false)
  push t loc value order _ _ h := TableOp.ranked_perform h (.store t loc value order)
  pushFence t order h := TableOp.ranked_perform h (.mark t order)
  discardRange only range h := TableOp.ranked_perform h (.discardRange only range)

theorem Reachable.ranked {c : Config} (h : Reachable c m) : m.table.Ranked :=
  invariant_ranked.reachable (fun _ => Table.ranked_empty) h

end Machine

namespace Table

variable {t : Table} {loc : Location}

theorem clash?_eq_none_iff {l : Line} : l.clash? loc = none ↔
    ¬ (l.atomicNo ≠ 0 ∧ l.touches loc.region = true ∧ l.isAt loc = false) := by
  cases hloc : l.loc? with
  | none =>
    have hfence : l.touches loc.region = false := by
      have hwrite : l.write? = none := Option.map_eq_none_iff.mp hloc
      rw [Line.touches, hwrite]
      rfl
    simp [Line.clash?, hloc, hfence]
  | some p =>
    rw [Line.touches_of_loc hloc]
    by_cases hno : l.atomicNo = 0
    · simp [Line.clash?, hno]
    · by_cases hp : p = loc <;>
        simp [Line.clash?, hno, hloc, Line.isAt, Location.clashes, hp, Option.filter_some]

theorem findSome?_clash?_eq_none_iff :
    t.lines.findSome? (·.clash? loc) = none ↔ ¬ t.Obstructed loc := by
  simp only [List.findSome?_eq_none_iff, clash?_eq_none_iff, Obstructed]
  simp

/-- There are no more atomic lines at a location than numbers. -/
theorem Ranked.atomicsAt_le (h : t.Ranked) (loc : Location) : t.atomicsAt loc ≤ 32767 := by
  obtain ⟨_, _, as, has⟩ := h.arrived
  obtain ⟨k, hk⟩ := has.sequenced.atomicNos loc
  rw [atomicsAt, has.sequenced.countP_atomic has.perm.symm hk]
  cases k with
  | zero => exact Nat.zero_le _
  | succ k =>
    have hmem : ((k + 1 : Nat) : Int) ∈ (Line.numbersAt loc (as.map (·.line))).filter (· ≠ 0) := by
      rw [show (Line.numbersAt loc (as.map (·.line))).filter (· ≠ 0) = Counter.upTo (k + 1) from hk,
        Counter.mem_upTo]
      omega
    obtain ⟨l, hl, hno⟩ := List.mem_map.mp (List.mem_filter.mp hmem).1
    obtain ⟨o, ho⟩ := mem_linesOf_of_mem_lines h.owners
      (has.perm.mem_iff.mp (List.mem_filter.mp hl).1)
    have hle := h.bounded o l ho
    rw [hno, Counter.greatest] at hle
    omega

/-- A line in the way is named. -/
theorem Obstructed.exists_other (h : t.Obstructed loc) :
    ∃ other, t.nextAtomicNo loc = .error (.overlappingAtomics loc other) := by
  cases hfind : t.lines.findSome? (·.clash? loc) with
  | none => exact absurd h (findSome?_clash?_eq_none_iff.mp hfind)
  | some other => exact ⟨other, by rw [nextAtomicNo_eq, hfind]⟩

/-- With no line in the way the next number is one more than there are atomic lines, up to the
last. -/
theorem Ranked.nextAtomicNo_of_clear (h : t.Ranked) (hclear : ¬ t.Obstructed loc) :
    t.nextAtomicNo loc = if t.atomicsAt loc < 32767 then .ok (t.atomicsAt loc + 1)
      else .error (.counterOverflow .atomic) := by
  obtain ⟨_, hdates⟩ := h.inSequence
  refine hdates.next loc fun other => ?_
  rw [nextAtomicNo_eq, findSome?_clash?_eq_none_iff.mpr hclear]
  dsimp only
  unfold Counter.next
  split <;> nofun

/-- An atomic store is refused a number if a line is in the way or all numbers are taken. -/
theorem Ranked.nextAtomicNo_error_iff (h : t.Ranked) (loc : Location) :
    (∃ f, t.nextAtomicNo loc = .error f) ↔ t.Obstructed loc ∨ t.atomicsAt loc = 32767 := by
  by_cases hclear : t.Obstructed loc
  · obtain ⟨other, hother⟩ := hclear.exists_other
    exact iff_of_true ⟨_, hother⟩ (.inl hclear)
  · have hle := h.atomicsAt_le loc
    rw [h.nextAtomicNo_of_clear hclear]
    split
    · simp [hclear]
      omega
    · simp [hclear]
      omega

/-- The numbers at a location run out with the last one, not before. -/
theorem Ranked.nextAtomicNo_overflow_iff (h : t.Ranked) {loc : Location} {c : Counter} :
    t.nextAtomicNo loc = .error (.counterOverflow c) ↔
      c = .atomic ∧ ¬ t.Obstructed loc ∧ t.atomicsAt loc = 32767 := by
  by_cases hclear : t.Obstructed loc
  · obtain ⟨other, hother⟩ := hclear.exists_other
    simp [hother, hclear]
  · have hle := h.atomicsAt_le loc
    rw [h.nextAtomicNo_of_clear hclear]
    split
    · simp [hclear]
      omega
    · simp [hclear, eq_comm]
      omega

end Table

end StoreBuffer
