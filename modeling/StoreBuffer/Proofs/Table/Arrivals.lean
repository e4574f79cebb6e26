import StoreBuffer.Proofs.Table.Sequencing

/-! # Buffered lines in the order of their arrival

A table keeps its lines by thread. An arrival is a line with its thread and the date on which it was
pushed; a list of arrivals keeps all lines of a table in the order in which they were pushed
(`Table.Arrived`). Lines that leave a thread leave this list. -/

namespace StoreBuffer

/-- A buffered line with its thread and the date on which it was pushed. -/
structure Arrival where
  date : Nat
  owner : ThreadId
  line : Line
deriving DecidableEq, Repr

namespace Arrival

/-- The lines of a thread with their dates. -/
def datedLines (as : List Arrival) (o : ThreadId) : List (Line × Nat) :=
  (as.filter (·.owner = o)).map fun a => (a.line, a.date)

/-- The arrival but for the mark of its line and the order of a fence. -/
def key (a : Arrival) : Nat × ThreadId × Line := (a.date, a.owner, a.line.core)

theorem datedLines_cons (a : Arrival) (as : List Arrival) (o : ThreadId) :
    datedLines (a :: as) o =
      if a.owner = o then (a.line, a.date) :: datedLines as o else datedLines as o := by
  unfold datedLines
  by_cases h : a.owner = o <;> simp [h]

theorem datedLines_append (as bs : List Arrival) (o : ThreadId) :
    datedLines (as ++ bs) o = datedLines as o ++ datedLines bs o := by
  rw [datedLines, List.filter_append, List.map_append]
  rfl

/-- Lines that leave the threads, each thread's in their order, leave the arrivals. -/
theorem exists_sublist {as : List Arrival} (xs : ThreadId → List (Line × Nat))
    (h : ∀ o, ((xs o).map (Prod.map Line.core id)).Sublist
      ((datedLines as o).map (Prod.map Line.core id))) :
    ∃ bs, (∀ o, datedLines bs o = xs o) ∧ (bs.map key).Sublist (as.map key) := by
  induction as generalizing xs with
  | nil =>
    refine ⟨[], fun o => ?_, .refl _⟩
    have hnil : (xs o).map (Prod.map Line.core id) = [] := List.sublist_nil.mp (h o)
    exact (List.map_eq_nil_iff.mp hnil).symm
  | cons a rest ih =>
    have howner := h a.owner
    rw [datedLines_cons, if_pos rfl, List.map_cons] at howner
    have hothers (o : ThreadId) (ho : a.owner ≠ o) :
        ((xs o).map (Prod.map Line.core id)).Sublist
          ((datedLines rest o).map (Prod.map Line.core id)) := by
      have hsub := h o
      rwa [datedLines_cons, if_neg ho] at hsub
    rcases List.sublist_cons_iff.mp howner with hleft | ⟨tail, heq, hsub⟩
    · obtain ⟨bs, hbs, hkeys⟩ := ih xs fun o => by
        by_cases ho : a.owner = o
        · exact ho ▸ hleft
        · exact hothers o ho
      exact ⟨bs, hbs, hkeys.cons _⟩
    · obtain ⟨x, ys, hxs, hx, hys⟩ := List.map_eq_cons_iff.mp heq
      obtain ⟨bs, hbs, hkeys⟩ := ih (fun o => if a.owner = o then ys else xs o) fun o => by
        by_cases ho : a.owner = o
        · rw [if_pos ho, hys, ← ho]
          exact hsub
        · rw [if_neg ho]
          exact hothers o ho
      refine ⟨⟨x.2, a.owner, x.1⟩ :: bs, fun o => ?_, ?_⟩
      · rw [datedLines_cons, hbs]
        by_cases ho : a.owner = o
        · rw [if_pos ho, if_pos ho, ← ho, hxs]
        · rw [if_neg ho, if_neg ho]
      · have hkey : key ⟨x.2, a.owner, x.1⟩ = key a := by
          obtain ⟨hline, hdate⟩ := Prod.mk.inj hx
          have hdate : x.2 = a.date := hdate
          have hline : x.1.core = a.line.core := hline
          rw [key, key, hdate, hline]
        rw [List.map_cons, List.map_cons, hkey]
        exact hkeys.cons_cons _

end Arrival

namespace Table

open Arrival

/-- The arrivals are the lines of the table, if they are the lines of its threads. -/
theorem perm_arrivals {t : Table} (h : t.owners.Nodup) {as : List Arrival}
    (hlines : ∀ o, (datedLines as o).map Prod.fst = t.linesOf o) :
    (as.map (·.line)).Perm t.lines := by
  obtain ⟨slots⟩ := t
  induction slots generalizing as with
  | nil =>
    cases as with
    | nil => exact .refl _
    | cons a rest =>
      have hnil := hlines a.owner
      rw [datedLines_cons, if_pos rfl] at hnil
      contradiction
  | cons s rest ih =>
    obtain ⟨hs, hrest⟩ := List.nodup_cons.mp h
    have hown : (as.filter (·.owner = s.owner)).map (·.line) = s.buffer.lines := by
      rw [← linesOf_of_mem h (List.mem_cons_self ..), ← hlines s.owner, datedLines, List.map_map]
      rfl
    have hothers (o : ThreadId) :
        (datedLines (as.filter fun a => !decide (a.owner = s.owner)) o).map Prod.fst =
          linesOf ⟨rest⟩ o := by
      by_cases ho : s.owner = o
      · subst ho
        have hnone : (as.filter fun a => !decide (a.owner = s.owner)).filter (·.owner = s.owner) = [] := by
          rw [List.filter_filter, List.filter_eq_nil_iff]
          simp
        rw [datedLines, hnone, linesOf_of_not_mem hs]
        rfl
      · have hsame : (as.filter fun a => !decide (a.owner = s.owner)).filter (·.owner = o) =
            as.filter (·.owner = o) := by
          rw [List.filter_filter]
          apply List.filter_congr
          intro a _
          by_cases ha : a.owner = o <;> simp [ha, Ne.symm ho]
        rw [datedLines, hsame, ← datedLines, hlines, linesOf, linesOf, buffer?, buffer?,
          List.find?_cons_of_neg (by simpa using ho)]
    have hsplit := (List.filter_append_perm (·.owner = s.owner) as).map (·.line)
    rw [List.map_append, hown] at hsplit
    exact hsplit.symm.trans ((ih hrest hothers).append_left _)

end Table

/-- For every line of a thread, oldest first, the date on which it was pushed. -/
abbrev Dates := ThreadId → List Nat

namespace Dates

/-- The dates once thread `o` has pushed a line on the date `now`. -/
def push (o : ThreadId) (now : Nat) (dates : Dates) : Dates :=
  fun u => if u = o then dates u ++ [now] else dates u

/-- The dates of the lines that a departure leaves: a line that stays keeps its date. -/
def depart (only : Option ThreadId) (d : Departure) (t : Table) (dates : Dates) : Dates :=
  fun o => if only.all (· = o) then (d.entries ((t.linesOf o).zip (dates o))).map Prod.snd
    else dates o

end Dates

namespace Table

open Arrival

/-- Lines leave a table and take their dates along, or empty slots are removed. -/
inductive DatedThin : Table × Dates → Table × Dates → Prop
  | depart (t : Table) (dates : Dates) (only : Option ThreadId) (d : Departure) :
      DatedThin (t, dates) (t.depart only d, dates.depart only d t)
  | prune (t : Table) (dates : Dates) : DatedThin (t, dates) (t.prune, dates)

abbrev DatedThins : Table × Dates → Table × Dates → Prop := Relation.ReflTransGen DatedThin

/-- Whenever lines leave, their dates can leave with them. -/
theorem Thins.exists_dates {may : ThreadId → Prop} {t t' : Table} (h : Thins may t t')
    (dates : Dates) : ∃ dates', DatedThins (t, dates) (t', dates') := by
  induction h with
  | refl => exact ⟨dates, .refl⟩
  | tail _ hstep ih =>
    obtain ⟨dates', h⟩ := ih
    cases hstep with
    | depart only d _ => exact ⟨_, h.tail (.depart _ dates' only d)⟩
    | prune => exact ⟨_, h.tail (.prune _ dates')⟩

/-- The lines of a table with their dates, all of them before `now`, are these arrivals. -/
structure Arrived (now : Nat) (t : Table) (dates : Dates) (as : List Arrival) : Prop where
  owners : t.owners.Nodup
  lines : ∀ o, (datedLines as o).map Prod.fst = t.linesOf o
  dates : ∀ o, (datedLines as o).map Prod.snd = dates o
  ascending : (as.map (·.date)).Pairwise (· < ·)
  past : ∀ a ∈ as, a.date < now
  sequenced : Line.Sequenced (as.map (·.line))

variable {now : Nat} {t t' : Table} {dates dates' : Dates} {as : List Arrival}

theorem arrived_empty (now : Nat) : Arrived now {} (fun _ => []) [] :=
  ⟨List.nodup_nil, fun _ => rfl, fun _ => rfl, .nil, nofun, Line.sequenced_nil⟩

theorem Arrived.later (h : Arrived now t dates as) : Arrived (now + 1) t dates as :=
  { h with past := fun a ha => Nat.lt_succ_of_lt (h.past a ha) }

theorem Arrived.zip_eq (h : Arrived now t dates as) (o : ThreadId) :
    (t.linesOf o).zip (dates o) = datedLines as o :=
  (List.zip_of_prod (h.lines o) (h.dates o)).symm

theorem Arrived.perm (h : Arrived now t dates as) : (as.map (·.line)).Perm t.lines :=
  perm_arrivals h.owners h.lines

/-- Lines leave, and the others are renumbered and may change what their numbers do not depend on. -/
theorem Arrived.thin (h : Arrived now t dates as) (howners : t'.owners.Nodup)
    (xs : ThreadId → List (Line × Nat)) (rs : List Line)
    (hsub : ∀ o, ((xs o).map (Prod.map Line.core id)).Sublist
      ((datedLines as o).map (Prod.map Line.core id)))
    (hperm : ∀ bs, (∀ o, datedLines bs o = xs o) →
      ((rs ++ bs.map (·.line)).map Line.core).Perm ((as.map (·.line)).map Line.core))
    (hlines : ∀ o, ((xs o).map Prod.fst).map (Line.renumber rs) = t'.linesOf o)
    (hdates : ∀ o, (xs o).map Prod.snd = dates' o) : ∃ bs, Arrived now t' dates' bs := by
  obtain ⟨bs, hbs, hkeys⟩ := Arrival.exists_sublist xs hsub
  have hdated : ((bs.map fun a => { a with line := a.line.renumber rs }).map (·.date)).Sublist
      (as.map (·.date)) := by
    have hsub' := hkeys.map (·.1)
    rw [List.map_map, List.map_map] at hsub'
    rw [List.map_map]
    exact hsub'
  have hnumbered (o : ThreadId) :
      datedLines (bs.map fun a => { a with line := a.line.renumber rs }) o =
        (xs o).map (Prod.map (Line.renumber rs) id) := by
    rw [← hbs, datedLines, datedLines, List.filter_map, List.map_map, List.map_map]
    rfl
  refine ⟨bs.map fun a => { a with line := a.line.renumber rs }, howners, fun o => ?_, fun o => ?_,
    h.ascending.sublist hdated, fun a ha => ?_, ?_⟩
  · rw [hnumbered, ← hlines, List.map_map, List.map_map]
    rfl
  · rw [hnumbered, ← hdates, List.map_map]
    rfl
  · obtain ⟨b, hb, hdate⟩ := List.mem_map.mp (hdated.mem (List.mem_map_of_mem ha))
    rw [← hdate]
    exact h.past b hb
  · have hlines' := hkeys.map (·.2.2)
    rw [List.map_map, List.map_map] at hlines'
    have hthin : Line.Sequenced ((bs.map (·.line)).map (Line.renumber rs)) := by
      refine h.sequenced.thin ?_ (hperm bs hbs)
      rw [List.map_map, List.map_map]
      exact hlines'
    rw [List.map_map] at hthin ⊢
    exact hthin

theorem Arrived.depart (h : Arrived now t dates as) (only : Option ThreadId) (d : Departure) :
    ∃ bs, Arrived now (t.depart only d) (dates.depart only d t) bs := by
  let xs (o : ThreadId) : List (Line × Nat) :=
    if only.all (· = o) then d.entries (datedLines as o) else datedLines as o
  have hremaining (o : ThreadId) : (xs o).map Prod.fst = (t.remaining only d).linesOf o := by
    rw [linesOf_remaining, ← h.lines o, Departure.lines_stay]
    dsimp only [xs]
    split <;> rfl
  refine h.thin (by rw [owners_depart]; exact h.owners) xs (t.leaving only d)
    (fun o => ?_) (fun bs hbs => ?_) (fun o => ?_) (fun o => ?_)
  · dsimp only [xs]
    split
    · have hsub := (d.sublist_entries (datedLines as o)).map (Prod.map Line.core id)
      rw [List.map_map, List.map_map] at hsub
      exact hsub
    · exact .refl _
  · have hbs' : (bs.map (·.line)).Perm (t.remaining only d).lines :=
      perm_arrivals (by rw [owners_remaining]; exact h.owners) fun o => by rw [hbs, hremaining]
    have hleft := (perm_leaving_remaining only d t).map Line.core
    rw [Line.map_core_of_unmarked, Line.map_core_of_unmarked] at hleft
    exact ((hbs'.append_left _).map _).trans (hleft.trans (h.perm.symm.map _))
  · rw [hremaining]
    exact (linesOf_retire ..).symm
  · dsimp only [xs, Dates.depart]
    rw [h.zip_eq]
    split
    · rfl
    · exact h.dates o

theorem Arrived.prune (h : Arrived now t dates as) : Arrived now t.prune dates as :=
  { h with
    owners := nodup_owners_prune h.owners
    lines := fun o => by rw [linesOf_prune h.owners, h.lines] }

/-- Whatever leaves, the others have arrived as before. -/
theorem Arrived.thins (h : Arrived now t dates as) (hthins : DatedThins (t, dates) (t', dates')) :
    ∃ bs, Arrived now t' dates' bs := by
  suffices hall : ∀ x, DatedThins (t, dates) x → ∃ bs, Arrived now x.1 x.2 bs from hall _ hthins
  intro x hx
  induction hx with
  | refl => exact ⟨as, h⟩
  | tail _ hstep ih =>
    obtain ⟨bs, hbs⟩ := ih
    cases hstep with
    | depart t dates only d => exact hbs.depart only d
    | prune t dates => exact ⟨bs, hbs.prune⟩

/-- A line arrives with the next numbers. -/
theorem Arrived.append (h : Arrived now t dates as) (o : ThreadId) {l : Line}
    (hnext : Line.Next t l) :
    Arrived (now + 1) (t.append o l) (dates.push o now) (as ++ [⟨now, o, l⟩]) := by
  have hdated (u : ThreadId) : datedLines (as ++ [⟨now, o, l⟩]) u =
      datedLines as u ++ if u = o then [(l, now)] else [] := by
    rw [datedLines_append, datedLines_cons]
    by_cases hu : u = o
    · subst hu
      rw [if_pos rfl, if_pos rfl]
      rfl
    · rw [if_neg hu, if_neg (Ne.symm hu)]
      rfl
  refine ⟨nodup_owners_append h.owners o l, fun u => ?_, fun u => ?_, ?_, fun a ha => ?_, ?_⟩
  · rw [hdated, List.map_append, h.lines, linesOf_append]
    split
    · rfl
    · exact List.append_nil _
  · rw [hdated, List.map_append, h.dates, Dates.push]
    split
    · rfl
    · exact List.append_nil _
  · rw [List.map_append]
    refine List.pairwise_append.mpr ⟨h.ascending, List.pairwise_singleton .., ?_⟩
    intro i hi j hj
    obtain ⟨a, ha, rfl⟩ := List.mem_map.mp hi
    rw [List.mem_singleton.mp hj]
    exact h.past a ha
  · rcases List.mem_append.mp ha with ha | ha
    · exact Nat.lt_succ_of_lt (h.past a ha)
    · rw [List.mem_singleton.mp ha]
      exact Nat.lt_succ_self now
  · rw [List.map_append]
    exact h.sequenced.push h.perm.symm hnext

theorem mapLines_modify {f : Buffer → Buffer} {g : Line → Line} {o : ThreadId} {b : Buffer}
    (h : t.owners.Nodup) (hb : t.buffer? o = some b) (hf : (f b).lines.map g = b.lines.map g) :
    (t.modify o f).mapLines g = t.mapLines g := by
  unfold modify mapLines
  rw [List.map_map]
  congr 1
  apply List.map_congr_left
  intro s hs
  by_cases howner : s.owner = o
  · have hsame : s.buffer = b := congrArg Buffer.mk (by
      rw [← linesOf_of_mem h hs, howner, linesOf_of_buffer? hb])
    rw [Function.comp_apply, if_pos howner, hsame]
    exact congrArg (fun ls => (⟨s.owner, ⟨ls⟩⟩ : Slot)) hf
  · rw [Function.comp_apply, if_neg howner]

/-- Lines of one thread change what their numbers do not depend on. -/
theorem Arrived.modify (h : Arrived now t dates as) {o : ThreadId} {b : Buffer}
    (hb : t.buffer? o = some b) {f : Buffer → Buffer}
    (hf : (f b).lines.map Line.core = b.lines.map Line.core) :
    ∃ bs, Arrived now (t.modify o f) dates bs := by
  have hsame := mapLines_modify h.owners hb hf
  have hcore (u : ThreadId) :
      ((t.modify o f).linesOf u).map Line.core = (t.linesOf u).map Line.core := by
    rw [← linesOf_mapLines, hsame, linesOf_mapLines]
  have hlength (u : ThreadId) : ((t.modify o f).linesOf u).length = (dates u).length := by
    have heq := congrArg List.length (hcore u)
    rw [List.length_map, List.length_map, ← h.lines, List.length_map] at heq
    rw [heq, ← h.dates, List.length_map]
  have howners : (t.modify o f).owners.Nodup := by
    rw [owners_modify]
    exact h.owners
  have hfst (u : ThreadId) : (((t.modify o f).linesOf u).zip (dates u)).map Prod.fst =
      (t.modify o f).linesOf u := List.map_fst_zip (Nat.le_of_eq (hlength u))
  refine h.thin howners (fun u => ((t.modify o f).linesOf u).zip (dates u)) []
    (fun u => ?_) (fun bs hbs => ?_) (fun u => ?_) (fun u => ?_)
  · rw [← h.zip_eq u, ← List.zip_map_left, ← List.zip_map_left, hcore]
  · have hbs' : (bs.map (·.line)).Perm (t.modify o f).lines :=
      perm_arrivals howners fun u => by rw [hbs, hfst]
    have hlines : (t.modify o f).lines.map Line.core = t.lines.map Line.core := by
      rw [← lines_mapLines, hsame, lines_mapLines]
    rw [List.nil_append]
    exact (hbs'.map _).trans (hlines ▸ h.perm.symm.map _)
  · rw [hfst, Line.renumber_nil, List.map_id]
  · exact List.map_snd_zip (Nat.le_of_eq (hlength u).symm)

/-! ## Numbers and dates -/

/-- What the numbers in a table say, if its lines were pushed on these dates. -/
structure InSequence (t : Table) (dates : Dates) : Prop where
  /-- The numbers of the sequentially consistent lines are 1 to `k`, each once. -/
  seqNos : ∃ k, ((t.lines.map (·.seqNo)).filter (· ≠ 0)).Perm (Counter.upTo k)
  /-- The numbers of the atomic lines of a location are 1 to `k`, each once. -/
  atomicNos : ∀ loc, ∃ k, (((t.lines.filter (·.isAt loc)).map (·.atomicNo)).filter
    (· ≠ 0)).Perm (Counter.upTo k)
  atomics : ∀ l ∈ t.lines, l.atomicNo ≠ 0 ↔ l.isStore = true ∧ l.order.isAtomicOp = true
  /-- Every line has a date. -/
  dated : ∀ o, (dates o).length = (t.linesOf o).length
  /-- No two lines have the same date. -/
  distinct : (t.owners.flatMap dates).Nodup
  /-- Of two numbered lines the one pushed first has the lower number. -/
  inOrder : ∀ o u k l i j, (k, i) ∈ (t.linesOf o).zip (dates o) →
    (l, j) ∈ (t.linesOf u).zip (dates u) → i < j →
      (k.seqNo ≠ 0 → l.seqNo ≠ 0 → k.seqNo < l.seqNo) ∧
      (k.atomicNo ≠ 0 → l.atomicNo ≠ 0 → k.loc? = l.loc? → k.atomicNo < l.atomicNo)
  numbered : t.Numbered
  /-- Numbered atomic lines share a location or no byte. -/
  apart : ∀ k ∈ t.lines, ∀ l ∈ t.lines, k.atomicNo ≠ 0 → l.atomicNo ≠ 0 →
    k.loc? = l.loc? ∨ ∀ loc, l.loc? = some loc → k.touches loc.region = false
  /-- The next number at a location follows the number of atomic lines it has. -/
  next : ∀ loc, (∀ other, t.nextAtomicNo loc ≠ .error (.overlappingAtomics loc other)) →
    t.nextAtomicNo loc =
      let lines := t.lines.countP fun l => l.isAt loc && l.order.isAtomicOp
      if lines < 32767 then .ok (lines + 1) else .error (.counterOverflow .atomic)

/-- Of two arrivals the earlier one comes first. -/
theorem Arrived.pair_sublist (h : Arrived now t dates as) {a b : Arrival} (ha : a ∈ as)
    (hb : b ∈ as) (hab : a.date < b.date) : [a, b].Sublist as := by
  obtain ⟨xs, ys, rfl⟩ := List.append_of_mem ha
  have hascending := h.ascending
  rw [List.map_append, List.map_cons, List.pairwise_append] at hascending
  obtain ⟨-, -, hcross⟩ := hascending
  rcases List.mem_append.mp hb with hb | hb
  · have hlt := hcross b.date (List.mem_map_of_mem hb) a.date (List.mem_cons_self ..)
    omega
  · rcases List.mem_cons.mp hb with rfl | hb
    · omega
    · exact ((List.singleton_sublist.mpr hb).cons_cons a).trans (List.sublist_append_right ..)

theorem Arrived.exists_of_mem_zip (h : Arrived now t dates as) {o : ThreadId} {l : Line} {i : Nat}
    (hl : (l, i) ∈ (t.linesOf o).zip (dates o)) : ∃ a ∈ as, a.owner = o ∧ a.line = l ∧ a.date = i := by
  rw [h.zip_eq] at hl
  obtain ⟨a, ha, heq⟩ := List.mem_map.mp hl
  obtain ⟨hline, hdate⟩ := Prod.mk.inj heq
  exact ⟨a, (List.mem_filter.mp ha).1, by simpa using (List.mem_filter.mp ha).2, hline, hdate⟩

theorem Arrived.mem_dates (h : Arrived now t dates as) {o : ThreadId} {i : Nat} :
    i ∈ dates o ↔ ∃ a ∈ as, a.owner = o ∧ a.date = i := by
  rw [← h.dates, datedLines, List.map_map, List.mem_map]
  simp [and_assoc]

theorem Arrived.nodup_dates (h : Arrived now t dates as) : (t.owners.flatMap dates).Nodup := by
  have hnodup : (as.map (·.date)).Nodup := h.ascending.imp fun hlt => Nat.ne_of_lt hlt
  refine List.nodup_flatMap.mpr ⟨fun o _ => ?_, h.owners.imp fun {o u} hou => ?_⟩
  · rw [← h.dates, datedLines, List.map_map]
    exact hnodup.sublist (List.filter_sublist.map _)
  · intro i ho hu
    obtain ⟨a, ha, rfl, hai⟩ := h.mem_dates.mp ho
    obtain ⟨b, hb, rfl, hbi⟩ := h.mem_dates.mp hu
    exact hou (congrArg owner (List.inj_on_of_nodup_map hnodup ha hb (hai.trans hbi.symm)))

/-- Unless it names a line in the way, the next number at a location finds none. -/
theorem clash?_eq_none {loc : Location}
    (h : ∀ other, t.nextAtomicNo loc ≠ .error (.overlappingAtomics loc other)) :
    ∀ l ∈ t.lines, l.clash? loc = none := by
  cases hfind : t.lines.findSome? (·.clash? loc) with
  | none => exact List.findSome?_eq_none_iff.mp hfind
  | some other => exact absurd (by rw [nextAtomicNo_eq, hfind]) (h other)

/-- The numbers of arrivals follow their dates. -/
theorem Arrived.inSequence (h : Arrived now t dates as) : t.InSequence dates where
  seqNos := by
    obtain ⟨k, hk⟩ := h.sequenced.seqNos
    exact ⟨k, ((h.perm.symm.map _).filter _).trans (.of_eq hk)⟩
  atomicNos loc := by
    obtain ⟨k, hk⟩ := h.sequenced.atomicNos loc
    exact ⟨k, (((h.perm.symm.filter _).map _).filter _).trans (.of_eq hk)⟩
  atomics l hl := h.sequenced.atomics l (h.perm.mem_iff.mpr hl)
  dated o := by
    rw [← h.lines, ← h.dates, List.length_map, List.length_map]
  distinct := h.nodup_dates
  inOrder o u k l i j hk hl hij := by
    obtain ⟨a, ha, -, rfl, rfl⟩ := h.exists_of_mem_zip hk
    obtain ⟨b, hb, -, rfl, rfl⟩ := h.exists_of_mem_zip hl
    have hab := (h.pair_sublist ha hb hij).map (·.line)
    exact ⟨h.sequenced.seqNo_lt hab, h.sequenced.atomicNo_lt hab⟩
  numbered := by
    refine h.sequenced.numbered h.perm.symm fun s hs => ?_
    rw [← linesOf_of_mem h.owners hs, ← h.lines, datedLines, List.map_map]
    exact List.filter_sublist.map _
  apart k hk l hl hkno hlno := by
    have hk := h.perm.mem_iff.mpr hk
    have hl := h.perm.mem_iff.mpr hl
    obtain ⟨p, hp⟩ := Line.isStore_iff_exists_loc.mp ((h.sequenced.atomics k hk).mp hkno).1
    obtain ⟨q, hq⟩ := Line.isStore_iff_exists_loc.mp ((h.sequenced.atomics l hl).mp hlno).1
    have hclash := h.sequenced.apart k hk l hl hkno hlno p q hp hq
    by_cases hpq : p = q
    · exact .inl (by rw [hp, hq, hpq])
    · refine .inr fun loc hloc => ?_
      obtain rfl : q = loc := Option.some.inj (hq.symm.trans hloc)
      rw [Line.touches_of_loc hp]
      simpa [Location.clashes, hpq] using hclash
  next loc hfree := by
    obtain ⟨k, hk, hnext⟩ := h.sequenced.nextAtomicNo h.perm.symm (clash?_eq_none hfree)
    rw [hnext, h.sequenced.countP_atomic h.perm.symm hk]
    have hgreatest : (k : Int) < Counter.greatest ↔ k < 32767 := by
      unfold Counter.greatest
      omega
    simp only [Counter.next, hgreatest]

end Table

end StoreBuffer
