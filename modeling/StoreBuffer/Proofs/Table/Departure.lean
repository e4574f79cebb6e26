import Mathlib.Data.List.Nodup
import Mathlib.Data.List.Pairwise
import Mathlib.Logic.Relation
import StoreBuffer.Proofs.Table.Pending

/-! # Lines that leave

Lines leave a table in four ways, for one thread or for all, and whatever leaves frees its numbers:
that is a departure. `Departure.stay` and `Departure.gone` divide the lines of a buffer between
them. A table that departures and the removal of empty slots lead to is thinner: `Table.Thins`
keeps count of the threads that may lose lines on the way. -/

namespace StoreBuffer

namespace Line

/-- The line without its mark that memory holds it. -/
def unmarked (l : Line) : Line := { l with committed := false }

theorem unmarked_commit (l : Line) : l.commit.unmarked = l.unmarked := by
  unfold commit
  split <;> rfl

theorem map_unmarked_commit (ls : List Line) :
    (ls.map commit).map unmarked = ls.map unmarked := by
  rw [List.map_map]
  exact List.map_congr_left fun l _ => unmarked_commit l

/-- A store comes first once the fences in front are gone. -/
theorem isStore_of_head?_dropWhile {l : Line} {ls : List Line}
    (h : l ∈ (ls.dropWhile (·.isFence)).head?) : l.isStore = true := by
  have hhead := List.head?_dropWhile_not (·.isFence) ls
  rw [Option.mem_def.mp h] at hhead
  simpa [isStore_eq_not_isFence] using hhead

end Line

/-- How lines leave a buffer. Fences that come to stand in front leave with them. -/
inductive Departure where
  /-- The first `n` lines are committed, and those that touch the region leave. -/
  | front (n : Nat) (r : Region)
  | oldest
  /-- The stores that start in the region leave. -/
  | range (r : Region)
  | all
deriving DecidableEq, Repr

namespace Departure

def stay : Departure → Buffer → Buffer
  | front n r, b => (b.drain n r).kept
  | oldest, b => (b.erase 0).2.dropLeadingFences.2
  | range r, b => (b.evict r).kept
  | all, _ => {}

def gone : Departure → Buffer → List Line
  | front n r, b => (b.drain n r).dropped
  | oldest, b => (b.erase 0).1.toList.map Line.commit ++ (b.erase 0).2.dropLeadingFences.1
  | range r, b => (b.evict r).stores ++ (b.evict r).fences
  | all, b => b.lines

/-- What stays of lines that carry something with them. -/
def entries {β : Type} : Departure → List (Line × β) → List (Line × β)
  | front n r, xs => (((xs.take n).map (Prod.map Line.commit id)).filter (!·.1.touches r) ++
      xs.drop n).dropWhile (·.1.isFence)
  | oldest, xs => xs.tail.dropWhile (·.1.isFence)
  | range r, xs => (xs.filter (!·.1.addr?.any r.contains)).dropWhile (·.1.isFence)
  | all, _ => []

theorem lines_stay (d : Departure) {β : Type} (xs : List (Line × β)) :
    (d.stay ⟨xs.map Prod.fst⟩).lines = (d.entries xs).map Prod.fst := by
  have hclean (ys : List (Line × β)) : (ys.map Prod.fst).dropWhile (·.isFence) =
      (ys.dropWhile (·.1.isFence)).map Prod.fst := List.dropWhile_map ..
  cases d with
  | front n r =>
    show ((((xs.map Prod.fst).take n).map Line.commit).filter (!·.touches r) ++
      (xs.map Prod.fst).drop n).dropWhile (·.isFence) = _
    rw [entries, ← hclean, List.map_append, ← List.map_take, ← List.map_drop, List.map_map,
      List.filter_map, List.filter_map, List.map_map]
    rfl
  | oldest =>
    show ((xs.map Prod.fst).eraseIdx 0).dropWhile (·.isFence) = _
    rw [entries, ← hclean, List.eraseIdx_zero, List.map_tail]
  | range r =>
    show ((xs.map Prod.fst).filter (!·.addr?.any r.contains)).dropWhile (·.isFence) = _
    rw [entries, ← hclean, List.filter_map]
    rfl
  | all => rfl

/-- What stays keeps its order and what it carries. -/
theorem sublist_entries (d : Departure) {β : Type} (xs : List (Line × β)) :
    ((d.entries xs).map (Prod.map Line.unmarked id)).Sublist
      (xs.map (Prod.map Line.unmarked id)) := by
  have hmarks (ys : List (Line × β)) : (ys.map (Prod.map Line.commit id)).map
      (Prod.map Line.unmarked id) = ys.map (Prod.map Line.unmarked id) := by
    rw [List.map_map]
    exact List.map_congr_left fun y _ => Prod.ext (Line.unmarked_commit y.1) rfl
  cases d with
  | front n r =>
    refine ((List.dropWhile_sublist _).map _).trans ?_
    have hsplit : xs.map (Prod.map Line.unmarked id) = (xs.take n).map (Prod.map Line.unmarked id) ++
        (xs.drop n).map (Prod.map Line.unmarked id) := by
      rw [← List.map_append, List.take_append_drop]
    rw [List.map_append, hsplit, ← hmarks (xs.take n)]
    exact ((List.filter_sublist).map _).append (List.Sublist.refl _)
  | oldest => exact ((List.dropWhile_sublist _).trans (List.tail_sublist xs)).map _
  | range r => exact ((List.dropWhile_sublist _).trans List.filter_sublist).map _
  | all => exact List.nil_sublist _

theorem entries_unit (d : Departure) (b : Buffer) :
    (d.stay b).lines = (d.entries (b.lines.map fun l => (l, ()))).map Prod.fst := by
  rw [← lines_stay, List.map_map]
  exact congrArg (fun ls => (d.stay ⟨ls⟩).lines) (List.map_id b.lines).symm

theorem sublist_stay (d : Departure) (b : Buffer) :
    ((d.stay b).lines.map Line.unmarked).Sublist (b.lines.map Line.unmarked) := by
  have hsub := (sublist_entries d (b.lines.map fun l => (l, ()))).map Prod.fst
  rw [entries_unit]
  simpa [List.map_map, Function.comp_def] using hsub

/-- A line stays or leaves. -/
theorem perm_gone_stay (d : Departure) (b : Buffer) :
    ((d.gone b ++ (d.stay b).lines).map Line.unmarked).Perm (b.lines.map Line.unmarked) := by
  cases d with
  | front n r =>
    let front := (b.lines.take n).map Line.commit
    let rest : Buffer := ⟨front.filter (!·.touches r) ++ b.lines.drop n⟩
    have hlines : (front.filter (·.touches r) ++ rest.dropLeadingFences.1) ++
        rest.dropLeadingFences.2.lines =
        (front.filter (·.touches r) ++ front.filter (!·.touches r)) ++ b.lines.drop n := by
      rw [List.append_assoc, Buffer.dropLeadingFences_append, List.append_assoc]
    have hfront : front.map Line.unmarked = (b.lines.take n).map Line.unmarked :=
      Line.map_unmarked_commit _
    show (((front.filter (·.touches r) ++ rest.dropLeadingFences.1) ++
      rest.dropLeadingFences.2.lines).map Line.unmarked).Perm _
    rw [hlines, List.map_append]
    refine (((List.filter_append_perm _ front).map _).append_right _).trans (.of_eq ?_)
    rw [hfront, ← List.map_append, List.take_append_drop]
  | oldest =>
    let rest := (b.erase 0).2
    show (((b.lines[0]?.toList.map Line.commit ++ rest.dropLeadingFences.1) ++
      rest.dropLeadingFences.2.lines).map Line.unmarked).Perm _
    rw [List.append_assoc, Buffer.dropLeadingFences_append, List.map_append,
      Line.map_unmarked_commit, ← List.map_append]
    cases hb : b.lines with
    | nil => simp [rest, Buffer.erase, hb]
    | cons l ls => simp [rest, Buffer.erase, hb]
  | range r =>
    let split := b.retain fun l => !l.addr?.any r.contains
    show (((split.1 ++ split.2.dropLeadingFences.1) ++
      split.2.dropLeadingFences.2.lines).map Line.unmarked).Perm _
    rw [List.append_assoc, Buffer.dropLeadingFences_append]
    exact (b.perm_retain _).map _
  | all => rw [gone, stay, List.append_nil]

theorem mem_gone {d : Departure} {b : Buffer} {l : Line} (h : l ∈ d.gone b) :
    ∃ k ∈ b.lines, l.unmarked = k.unmarked := by
  have hmem : l.unmarked ∈ b.lines.map Line.unmarked :=
    (d.perm_gone_stay b).mem_iff.mp (List.mem_map_of_mem (List.mem_append_left _ h))
  obtain ⟨k, hk, heq⟩ := List.mem_map.mp hmem
  exact ⟨k, hk, heq.symm⟩

/-- What stays is as it was, or committed. -/
theorem mem_stay {d : Departure} {b : Buffer} {l : Line} (h : l ∈ (d.stay b).lines) :
    l ∈ b.lines ∨ ∃ k ∈ b.lines, l = k.commit := by
  cases d with
  | front n r =>
    rcases List.mem_append.mp ((List.dropWhile_sublist _).mem h) with h | h
    · obtain ⟨k, hk, rfl⟩ := List.mem_map.mp (List.mem_filter.mp h).1
      exact .inr ⟨k, List.mem_of_mem_take hk, rfl⟩
    · exact .inl (List.mem_of_mem_drop h)
  | oldest => exact .inl (List.mem_of_mem_eraseIdx ((List.dropWhile_sublist _).mem h))
  | range r => exact .inl (List.mem_filter.mp ((List.dropWhile_sublist _).mem h)).1
  | all => contradiction

/-- No fence comes to stand in front. -/
theorem oldest_stay {d : Departure} {b : Buffer} {l : Line} (h : (d.stay b).oldest? = some l) :
    l.isStore = true := by
  cases d with
  | all => contradiction
  | _ => exact Line.isStore_of_head?_dropWhile h

theorem storeCount_stay_le (d : Departure) (b : Buffer) :
    (d.stay b).storeCount ≤ b.storeCount := by
  have hcount (ls : List Line) : (ls.map Line.unmarked).countP (·.isStore) =
      ls.countP (·.isStore) := by
    rw [List.countP_map]
    rfl
  have hle := (d.sublist_stay b).countP_le (p := (·.isStore))
  rwa [hcount, hcount] at hle

end Departure

namespace Table

/-- The lines that a departure takes from the table, of one thread or of all. -/
def leaving (only : Option ThreadId) (d : Departure) (t : Table) : List Line :=
  (t.slots.filter fun s => only.all (· = s.owner)).flatMap fun s => d.gone s.buffer

/-- What a departure leaves of the table, of one thread's lines or of all. -/
def remaining (only : Option ThreadId) (d : Departure) (t : Table) : Table :=
  ⟨t.slots.map fun s =>
    if only.all (· = s.owner) then { s with buffer := d.stay s.buffer } else s⟩

/-- The table after a departure: what remains closes the gaps in the numbers. -/
def depart (only : Option ThreadId) (d : Departure) (t : Table) : Table :=
  Table.retire (t.leaving only d) (t.remaining only d)

variable {only : Option ThreadId} {d : Departure} {t : Table}

theorem owners_remaining (only : Option ThreadId) (d : Departure) (t : Table) :
    (t.remaining only d).owners = t.owners := by
  apply owners_map
  intro s
  split <;> rfl

theorem owners_depart (only : Option ThreadId) (d : Departure) (t : Table) :
    (t.depart only d).owners = t.owners := by
  rw [depart, owners_retire, owners_remaining]

theorem linesOf_remaining (only : Option ThreadId) (d : Departure) (t : Table) (o : ThreadId) :
    (t.remaining only d).linesOf o =
      if only.all (· = o) then (d.stay ⟨t.linesOf o⟩).lines else t.linesOf o := by
  have howner (s : Slot) : (if only.all (· = s.owner) then { s with buffer := d.stay s.buffer }
      else s).owner = s.owner := by
    split <;> rfl
  rw [remaining, linesOf, buffer?_map _ howner]
  unfold linesOf buffer?
  cases hs : t.slots.find? (·.owner = o) with
  | none =>
    have hnil : (d.stay ⟨[]⟩).lines = [] :=
      List.map_eq_nil_iff.mp (List.sublist_nil.mp (d.sublist_stay ⟨[]⟩))
    simp [hnil]
  | some s =>
    have ho : s.owner = o := by simpa using List.find?_some hs
    subst ho
    simp only [Option.map_some, Option.getD_some]
    split <;> rfl

theorem linesOf_depart (only : Option ThreadId) (d : Departure) (t : Table) (o : ThreadId) :
    (t.depart only d).linesOf o =
      (if only.all (· = o) then (d.stay ⟨t.linesOf o⟩).lines else t.linesOf o).map
        (Line.renumber (t.leaving only d)) := by
  rw [depart, linesOf_retire, linesOf_remaining]

/-- A line of the table leaves or remains. -/
theorem perm_leaving_remaining (only : Option ThreadId) (d : Departure) (t : Table) :
    ((t.leaving only d ++ (t.remaining only d).lines).map Line.unmarked).Perm
      (t.lines.map Line.unmarked) := by
  obtain ⟨slots⟩ := t
  unfold leaving remaining lines
  dsimp only
  rw [List.map_append]
  induction slots with
  | nil => exact .refl _
  | cons s rest ih =>
    rw [List.map_cons, List.flatMap_cons, List.flatMap_cons, List.map_append, List.map_append]
    by_cases hs : only.all (· = s.owner) = true
    · rw [List.filter_cons_of_pos (p := fun q : Slot => only.all (· = q.owner)) hs,
        List.flatMap_cons, if_pos hs, List.map_append, List.append_assoc]
      refine (List.Perm.append_left _ (List.perm_append_comm_assoc ..)).trans ?_
      rw [← List.append_assoc, ← List.map_append]
      exact (d.perm_gone_stay s.buffer).append ih
    · rw [List.filter_cons_of_neg (p := fun q : Slot => only.all (· = q.owner)) hs, if_neg hs]
      exact (List.perm_append_comm_assoc ..).trans (ih.append_left _)

theorem filter_owner {s : Slot} (h : t.owners.Nodup) (hs : s ∈ t.slots) :
    t.slots.filter (fun q => decide (s.owner = q.owner)) = [s] := by
  obtain ⟨slots⟩ := t
  unfold owners at h
  dsimp only at h hs ⊢
  induction slots with
  | nil => contradiction
  | cons q rest ih =>
    obtain ⟨hq, hrest⟩ := List.nodup_cons.mp h
    rcases List.mem_cons.mp hs with rfl | hs
    · rw [List.filter_cons_of_pos (by simp), List.filter_eq_nil_iff.mpr]
      intro p hp
      have hne : s.owner ≠ p.owner := fun heq => hq (List.mem_map.mpr ⟨p, hp, heq.symm⟩)
      simpa using hne
    · have hne : s.owner ≠ q.owner := fun heq => hq (List.mem_map.mpr ⟨s, hs, heq⟩)
      rw [List.filter_cons_of_neg (by simpa using hne), ih hrest hs]

/-- Lists that together have no repetitions have no element in common. -/
theorem eq_of_mem_flatMap {α β : Type} {f : α → List β} {xs : List α} (h : (xs.flatMap f).Nodup)
    {a b : α} (ha : a ∈ xs) (hb : b ∈ xs) {x : β} (hxa : x ∈ f a) (hxb : x ∈ f b) : a = b := by
  by_contra hne
  have hsymm : Std.Symm (Function.onFun List.Disjoint f) :=
    ⟨fun _ _ hdisjoint _ ha hb => hdisjoint hb ha⟩
  exact (List.nodup_flatMap.mp h).2.forall ha hb hne hxa hxb

/-- The departure of one thread's lines changes its buffer and renumbers the table. -/
theorem depart_of_buffer? (h : t.owners.Nodup) {o : ThreadId} {b : Buffer}
    (hb : t.buffer? o = some b) (d : Departure) :
    t.depart (some o) d = (t.modify o fun _ => d.stay b).retire (d.gone b) := by
  obtain ⟨s, hs, rfl, rfl⟩ := exists_slot_of_buffer? hb
  have hleaving : t.leaving (some s.owner) d = d.gone s.buffer := by
    unfold leaving
    simp only [Option.all_some]
    rw [filter_owner h hs, List.flatMap_singleton]
  rw [depart, hleaving, modify, remaining]
  congr 2
  apply List.map_congr_left
  intro q hq
  simp only [Option.all_some, decide_eq_true_eq]
  by_cases howner : s.owner = q.owner
  · have hsame : q = s := by
      have hmem : q ∈ t.slots.filter (fun q => decide (s.owner = q.owner)) :=
        List.mem_filter.mpr ⟨hq, by simpa using howner⟩
      rw [filter_owner h hs] at hmem
      exact List.mem_singleton.mp hmem
    rw [if_pos howner, if_pos howner.symm, hsame]
  · rw [if_neg howner, if_neg (Ne.symm howner)]

/-- What a departure leaves of the lines of every thread, if it is that of a buffer. -/
theorem linesOf_stay {o : ThreadId} {b : Buffer} (hb : t.buffer? o = some b) (d : Departure)
    (u : ThreadId) : ((t.modify o fun _ => d.stay b).retire (d.gone b)).linesOf u =
      (if u = o then (d.stay ⟨t.linesOf o⟩).lines else t.linesOf u).map
        (Line.renumber (d.gone b)) := by
  rw [linesOf_retire, linesOf_modify, linesOf_of_buffer? hb]
  by_cases hu : u = o
  · subst hu
    rw [if_pos rfl, if_pos rfl, hb]
    rfl
  · rw [if_neg hu, if_neg hu]

/-! ## Thinner tables -/

/-- A departure of lines that `may` allows, or the removal of empty slots. -/
inductive Thin (may : ThreadId → Prop) (t : Table) : Table → Prop
  | depart (only : Option ThreadId) (d : Departure) (h : ∀ o, only.all (· = o) = true → may o) :
      Thin may t (t.depart only d)
  | prune : Thin may t t.prune

abbrev Thins (may : ThreadId → Prop) : Table → Table → Prop := Relation.ReflTransGen (Thin may)

variable {may : ThreadId → Prop} {t' : Table}

theorem thins_one (may : ThreadId → Prop) {o : ThreadId} (h : may o) (d : Departure) :
    Thins may t (t.depart (some o) d) := by
  refine .single (.depart (some o) d fun u hu => ?_)
  have hu : o = u := by simpa using hu
  exact hu ▸ h

theorem Thins.mono {may' : ThreadId → Prop} (h : Thins may t t') (hmay : ∀ o, may o → may' o) :
    Thins may' t t' := by
  induction h with
  | refl => exact .refl
  | tail _ hstep ih =>
    refine ih.tail ?_
    cases hstep with
    | depart only d hd => exact .depart only d fun o ho => hmay o (hd o ho)
    | prune => exact .prune

/-- What departures and the removal of empty slots keep, all thinner tables have. -/
theorem Thins.keeps {P : Table → Prop} (h : Thins may t t')
    (hdepart : ∀ t only d, (∀ o, only.all (· = o) = true → may o) → P t → P (t.depart only d))
    (hprune : ∀ t, P t → P t.prune) (ht : P t) : P t' := by
  induction h with
  | refl => exact ht
  | tail _ hstep ih =>
    cases hstep with
    | depart only d hd => exact hdepart _ only d hd ih
    | prune => exact hprune _ ih

theorem Thins.sublist_owners (h : Thins may t t') : t'.owners.Sublist t.owners := by
  refine h.keeps (P := fun u => u.owners.Sublist t.owners) ?_ ?_ (List.Sublist.refl _)
  · intro u only d _ hu
    rwa [owners_depart]
  · intro u hu
    exact (List.filter_sublist.map _).trans hu

theorem Thins.nodup_owners (h : Thins may t t') (hn : t.owners.Nodup) : t'.owners.Nodup :=
  hn.sublist h.sublist_owners

/-- Who may not lose lines keeps them, up to renumbering. -/
theorem Thins.unnumbered_linesOf (h : Thins may t t') (hn : t.owners.Nodup) {o : ThreadId}
    (ho : ¬ may o) : (t'.linesOf o).map Line.unnumbered = (t.linesOf o).map Line.unnumbered := by
  refine (h.keeps (P := fun u => u.owners.Nodup ∧
    (u.linesOf o).map Line.unnumbered = (t.linesOf o).map Line.unnumbered) ?_ ?_ ⟨hn, rfl⟩).2
  · rintro u only d hd ⟨hu, hlines⟩
    refine ⟨by rwa [owners_depart], ?_⟩
    have hother : only.all (· = o) = false := by
      cases hall : only.all (· = o) with
      | false => rfl
      | true => exact absurd (hd o hall) ho
    rw [linesOf_depart, hother, ← hlines, List.map_map]
    rfl
  · rintro u ⟨hu, hlines⟩
    exact ⟨nodup_owners_prune hu, by rw [linesOf_prune hu, hlines]⟩

end Table

end StoreBuffer
