import Mathlib.Data.List.TakeWhile
import StoreBuffer.Proofs.Machine.Numbers
import StoreBuffer.Proofs.Table.Closing

/-! # Taking a thread's stores out of a table

A thread gives up its stores into some objects, fences that come to stand in front go with them, and
all numbers close up (`Table.without`). What leaves when one object is evicted is such a removal
(`Table.prune_depart_range`), and removals in turn are a removal from all of the objects at once
(`Table.without_without`). -/

namespace StoreBuffer

/-- The line is a store that starts in one of the objects. -/
def Line.within (objects : List Region) (l : Line) : Bool :=
  l.addr?.any fun a => objects.any (·.contains a)

namespace Line

theorem within_nil (l : Line) : l.within [] = false := by
  unfold within
  cases l.addr? <;> rfl

theorem within_singleton (r : Region) (l : Line) : l.within [r] = l.addr?.any r.contains := by
  unfold within
  congr 1
  funext a
  simp

theorem within_append (A B : List Region) (l : Line) :
    l.within (A ++ B) = (l.within A || l.within B) := by
  unfold within
  cases l.addr? <;> simp

theorem within_of_isFence {l : Line} (h : l.isFence = true) (objects : List Region) :
    l.within objects = false := by
  have hwrite : l.write? = none := isFence_iff.mp h
  simp [within, addr?, loc?, hwrite]

/-- Taking fences off the front in between makes no difference if none of them is to go anyway. -/
theorem dropWhile_filter_dropWhile {p : Line → Bool} (hp : ∀ l, l.isFence = true → p l = true)
    (ls : List Line) : ((ls.dropWhile (·.isFence)).filter p).dropWhile (·.isFence) =
      (ls.filter p).dropWhile (·.isFence) := by
  induction ls with
  | nil => rfl
  | cons l rest ih =>
    cases hfence : l.isFence with
    | false => rw [List.dropWhile_cons_of_neg (by simp [hfence])]
    | true =>
      rw [List.dropWhile_cons_of_pos hfence, ih, List.filter_cons_of_pos (hp l hfence),
        List.dropWhile_cons_of_pos hfence]

/-- Fences in front are none of the lines in question. -/
theorem filter_dropWhile {p : Line → Bool} (hp : ∀ l, l.isFence = true → p l = false)
    (ls : List Line) : (ls.dropWhile (·.isFence)).filter p = ls.filter p := by
  induction ls with
  | nil => rfl
  | cons l rest ih =>
    cases hfence : l.isFence with
    | false => rw [List.dropWhile_cons_of_neg (by simp [hfence])]
    | true =>
      rw [List.dropWhile_cons_of_pos hfence, ih, List.filter_cons_of_neg (by simp [hp l hfence])]

end Line

namespace Table

/-- The stores of a thread into the objects. -/
def dropped (o : ThreadId) (objects : List Region) (t : Table) : List Line :=
  (t.linesOf o).filter (·.within objects)

/-- What thread `u` keeps of its lines when `o` gives up its stores into the objects, and the fences
that then stand in front. -/
def spared (o : ThreadId) (objects : List Region) (t : Table) (u : ThreadId) : List Line :=
  if u = o then ((t.linesOf u).filter (!·.within objects)).dropWhile (·.isFence) else t.linesOf u

/-- The table without the stores of a thread into the objects. -/
def without (o : ThreadId) (objects : List Region) (t : Table) : Table :=
  prune ⟨t.slots.map fun s =>
    { s with buffer := ⟨(t.spared o objects s.owner).map (Line.lower (t.dropped o objects))⟩ }⟩

variable {t : Table} {o u : ThreadId} {A B objects : List Region}

/-! ## The numbers of dropped and spared lines -/

theorem mem_of_mem_dropped {k : Line} (h : k ∈ t.dropped o objects) :
    k ∈ t.linesOf o ∧ k.within objects = true := List.mem_filter.mp h

theorem mem_of_mem_spared {l : Line} (h : l ∈ t.spared o objects u) :
    l ∈ t.linesOf u ∧ (u = o → l.within objects = false) := by
  unfold spared at h
  split at h
  · rename_i hu
    obtain ⟨hl, hout⟩ := List.mem_filter.mp ((List.dropWhile_sublist _).mem h)
    exact ⟨hl, fun _ => by simpa using hout⟩
  · rename_i hu
    exact ⟨h, fun heq => absurd heq hu⟩

theorem exists_slot_of_mem_linesOf {l : Line} (h : l ∈ t.linesOf u) :
    ∃ s ∈ t.slots, s.owner = u ∧ t.linesOf u = s.buffer.lines := by
  cases hb : t.buffer? u with
  | none =>
    rw [linesOf, hb] at h
    contradiction
  | some b =>
    obtain ⟨s, hs, howner, rfl⟩ := exists_slot_of_buffer? hb
    exact ⟨s, hs, howner, linesOf_of_buffer? hb⟩

theorem mem_lines_of_mem_linesOf {l : Line} (h : l ∈ t.linesOf u) : l ∈ t.lines := by
  obtain ⟨s, hs, -, hlines⟩ := exists_slot_of_mem_linesOf h
  exact List.mem_flatMap.mpr ⟨s, hs, hlines ▸ h⟩

theorem Ranked.atomicNo_nonneg (h : t.Ranked) {l : Line} (hl : l ∈ t.lines) : 0 ≤ l.atomicNo := by
  obtain ⟨_, hdates⟩ := h.inSequence
  by_cases hno : l.atomicNo = 0
  · omega
  · obtain ⟨loc, hloc⟩ := Line.isStore_iff_exists_loc.mp ((hdates.atomics l hl).mp hno).1
    obtain ⟨k, hk⟩ := hdates.atomicNos loc
    have hmem : l.atomicNo ∈ Counter.upTo k := by
      refine hk.mem_iff.mp (List.mem_filter.mpr ⟨?_, by simpa using hno⟩)
      exact List.mem_map_of_mem (List.mem_filter.mpr ⟨hl, Line.isAt_iff.mpr hloc⟩)
    have := (Counter.mem_upTo.mp hmem).1
    omega

/-- Fences have no number. -/
theorem Ranked.unnumbered (h : t.Ranked) {l : Line} (hl : l ∈ t.lines) (hloc : l.loc? = none) :
    l.atomicNo = 0 := by
  obtain ⟨_, hdates⟩ := h.inSequence
  by_contra hno
  obtain ⟨loc, hstore⟩ := Line.isStore_iff_exists_loc.mp ((hdates.atomics l hl).mp hno).1
  rw [hloc] at hstore
  contradiction

theorem Ranked.apart_dropped (h : t.Ranked) (o : ThreadId) (objects : List Region) :
    Line.Apart (t.dropped o objects) := by
  obtain ⟨_, hdates⟩ := h.inSequence
  refine ⟨fun k hk => h.atomicNo_nonneg (mem_lines_of_mem_linesOf (mem_of_mem_dropped hk).1),
    fun loc => ?_⟩
  have hascending : ((t.linesOf o).filter (·.atomicNo ≠ 0)).Pairwise fun a b =>
      a.loc? = b.loc? → a.atomicNo < b.atomicNo := by
    cases hlines : t.linesOf o with
    | nil => exact .nil
    | cons l rest =>
      have hl : l ∈ t.linesOf o := hlines ▸ List.mem_cons_self ..
      obtain ⟨s, hs, -, hsame⟩ := exists_slot_of_mem_linesOf hl
      rw [← hlines, hsame]
      exact hdates.numbered.atomicAscending s hs
  have hsub : (((t.dropped o objects).filter (·.isAt loc)).filter (·.atomicNo ≠ 0)).Sublist
      ((t.linesOf o).filter (·.atomicNo ≠ 0)) :=
    (List.filter_sublist.trans List.filter_sublist).filter _
  rw [Line.numbersAt, List.filter_map]
  refine List.pairwise_map.mpr ?_
  refine (hascending.sublist hsub).imp_of_mem fun {a b} ha hb hab => ?_
  have ha := (List.mem_filter.mp (List.mem_filter.mp ha).1).2
  have hb := (List.mem_filter.mp (List.mem_filter.mp hb).1).2
  exact Int.ne_of_lt (hab ((Line.isAt_iff.mp ha).trans (Line.isAt_iff.mp hb).symm))

/-- Lines with the same number at the same location are the same line of the same thread. -/
theorem Ranked.eq_of_number (h : t.Ranked) {k l : Line} (hk : k ∈ t.linesOf o)
    (hl : l ∈ t.linesOf u) (hloc : k.loc? = l.loc?) (hno : k.atomicNo ≠ 0)
    (hsame : k.atomicNo = l.atomicNo) : k = l ∧ o = u := by
  obtain ⟨_, hdates⟩ := h.inSequence
  have hkeys : ((t.lines.filter (·.atomicNo ≠ 0)).map fun l => (l.loc?, l.atomicNo)).Nodup :=
    List.pairwise_map.mpr (hdates.numbered.atomicDistinct.imp fun hab heq =>
      hab (congrArg Prod.fst heq) (congrArg Prod.snd heq))
  have hk' : k ∈ t.lines.filter (·.atomicNo ≠ 0) :=
    List.mem_filter.mpr ⟨mem_lines_of_mem_linesOf hk, by simpa using hno⟩
  have hl' : l ∈ t.lines.filter (·.atomicNo ≠ 0) :=
    List.mem_filter.mpr ⟨mem_lines_of_mem_linesOf hl, by simpa [← hsame] using hno⟩
  have heq : k = l := List.inj_on_of_nodup_map hkeys hk' hl' (by rw [hloc, hsame])
  refine ⟨heq, ?_⟩
  -- one line in two slots would stand twice among all lines
  obtain ⟨s, hs, rfl, hslines⟩ := exists_slot_of_mem_linesOf hk
  obtain ⟨q, hq, rfl, hqlines⟩ := exists_slot_of_mem_linesOf hl
  have hnodup := hkeys.of_map
  rw [lines, List.filter_flatMap] at hnodup
  rw [hslines] at hk
  rw [← heq, hqlines] at hl
  have hsq : s = q := eq_of_mem_flatMap hnodup hs hq
    (List.mem_filter.mpr ⟨hk, by simpa using hno⟩) (List.mem_filter.mpr ⟨hl, by simpa using hno⟩)
  rw [hsq]

/-- No spared line has the number of a dropped one. -/
theorem Ranked.offNumbers (h : t.Ranked) {l : Line} (hl : l ∈ t.linesOf u)
    (hout : u = o → l.within objects = false) : Line.OffNumbers (t.dropped o objects) l := by
  intro k hk hloc hno hsame
  obtain ⟨hk, hin⟩ := mem_of_mem_dropped hk
  obtain ⟨heq, hou⟩ := h.eq_of_number hk hl hloc hno hsame
  have hout := hout hou.symm
  rw [← heq, hin] at hout
  contradiction

/-! ## One removal after another -/

theorem spared_of_nil (h : t.linesOf u = []) : t.spared o objects u = [] := by
  rw [spared, h]
  split <;> rfl

theorem linesOf_without (h : t.owners.Nodup) (o : ThreadId) (objects : List Region)
    (u : ThreadId) : (t.without o objects).linesOf u =
      (t.spared o objects u).map (Line.lower (t.dropped o objects)) := by
  have hmap : Table.owners ⟨t.slots.map fun s =>
      { s with buffer := ⟨(t.spared o objects s.owner).map (Line.lower (t.dropped o objects))⟩ }⟩ =
      t.owners := owners_map t fun _ => rfl
  rw [without, linesOf_prune (by rwa [hmap]), linesOf, buffer?_map]
  · cases hs : t.slots.find? (·.owner = u) with
    | none =>
      have hnil : t.linesOf u = [] := by rw [linesOf, buffer?, hs]; rfl
      rw [spared_of_nil hnil]
      rfl
    | some s =>
      have howner : s.owner = u := by simpa using List.find?_some hs
      rw [← howner]
      rfl
  · intro s
    rfl

/-- What is dropped later was spared before. -/
theorem dropped_without (h : t.owners.Nodup) (o : ThreadId) (A B : List Region) :
    (t.without o A).dropped o B =
      ((t.linesOf o).filter fun l => l.within B && !l.within A).map
        (Line.lower (t.dropped o A)) := by
  rw [dropped, linesOf_without h, List.filter_map, spared, if_pos rfl]
  show (List.filter (fun l : Line => l.within B) _).map _ = _
  rw [Line.filter_dropWhile fun l hl => Line.within_of_isFence hl B, List.filter_filter]

theorem spared_without (h : t.owners.Nodup) (o : ThreadId) (A B : List Region) (u : ThreadId) :
    (t.without o A).spared o B u =
      (t.spared o (A ++ B) u).map (Line.lower (t.dropped o A)) := by
  rw [spared, linesOf_without h]
  unfold spared
  split
  · rw [List.filter_map, List.dropWhile_map]
    show (((((t.linesOf u).filter _).dropWhile _).filter (!·.within B)).dropWhile (·.isFence)).map
      _ = _
    rw [Line.dropWhile_filter_dropWhile fun l hl => by simp [Line.within_of_isFence hl],
      List.filter_filter]
    congr 2
    apply List.filter_congr
    intro l _
    rw [Line.within_append, Bool.not_or, Bool.and_comm]
  · rfl

theorem dropped_append_perm (t : Table) (o : ThreadId) (A B : List Region) :
    (t.dropped o A ++ (t.linesOf o).filter fun l => l.within B && !l.within A).Perm
      (t.dropped o (A ++ B)) := by
  have hsplit := List.filter_append_perm (·.within A) (t.dropped o (A ++ B))
  have hfirst : (t.dropped o (A ++ B)).filter (·.within A) = t.dropped o A := by
    rw [dropped, List.filter_filter]
    apply List.filter_congr
    intro l _
    rw [Line.within_append]
    cases l.within A <;> rfl
  have hsecond : (t.dropped o (A ++ B)).filter (fun l => !l.within A) =
      (t.linesOf o).filter fun l => l.within B && !l.within A := by
    rw [dropped, List.filter_filter]
    apply List.filter_congr
    intro l _
    rw [Line.within_append]
    cases l.within A <;> cases l.within B <;> rfl
  rwa [hfirst, hsecond] at hsplit

theorem length_dropped_without (h : t.owners.Nodup) (o : ThreadId) (A B : List Region) :
    (t.dropped o A).length + ((t.without o A).dropped o B).length =
      (t.dropped o (A ++ B)).length := by
  rw [dropped_without h, List.length_map, ← List.length_append,
    (dropped_append_perm t o A B).length_eq]

/-- The second removal lowers the numbers that the first has left as one removal would have. -/
theorem map_lower_lower (h : t.Ranked) (o : ThreadId) (A B : List Region) (u : ThreadId) :
    ((t.without o A).spared o B u).map (Line.lower ((t.without o A).dropped o B)) =
      (t.spared o (A ++ B) u).map (Line.lower (t.dropped o (A ++ B))) := by
  rw [spared_without h.owners, dropped_without h.owners, List.map_map,
    ← Line.lower_perm (dropped_append_perm t o A B)]
  apply List.map_congr_left
  intro l hl
  obtain ⟨hl, hout⟩ := mem_of_mem_spared hl
  have hout : u = o → l.within A = false := fun hu => by
    have hboth := hout hu
    rw [Line.within_append, Bool.or_eq_false_iff] at hboth
    exact hboth.1
  cases hloc : l.loc? with
  | none =>
    have hno := h.unnumbered (mem_lines_of_mem_linesOf hl) hloc
    rw [Function.comp_apply, Line.lower_of_unnumbered hno, Line.lower_of_unnumbered hno,
      Line.lower_of_unnumbered hno]
  | some loc =>
    refine Line.lower_lower (h.apart_dropped o A) (by rw [hloc]; rfl) (h.offNumbers hl hout) ?_
    intro j hj
    obtain ⟨hj, hboth⟩ := List.mem_filter.mp hj
    exact h.offNumbers hj fun _ => by simpa using (Bool.and_eq_true_iff.mp hboth).2

theorem filter_map_filter_map {α : Type} {p : α → Bool} {f g : α → α} (xs : List α)
    (h : ∀ x, p (f (g x)) = true → p (g x) = true) :
    (((xs.map g).filter p).map f).filter p = (xs.map (f ∘ g)).filter p := by
  induction xs with
  | nil => rfl
  | cons x rest ih =>
    rw [List.map_cons, List.map_cons]
    by_cases hg : p (g x) = true
    · rw [List.filter_cons_of_pos hg, List.map_cons, List.filter_cons, List.filter_cons, ih]
      rfl
    · rw [List.filter_cons_of_neg hg, ih]
      exact (List.filter_cons_of_neg fun hf => hg (h x hf)).symm

/-- Removals in turn are one removal. -/
theorem without_without (h : t.Ranked) (o : ThreadId) (A B : List Region) :
    (t.without o A).without o B = t.without o (A ++ B) := by
  have hslot (s : Slot) : (⟨s.owner, ⟨((t.without o A).spared o B s.owner).map
      (Line.lower ((t.without o A).dropped o B))⟩⟩ : Slot) = ⟨s.owner,
        ⟨(t.spared o (A ++ B) s.owner).map (Line.lower (t.dropped o (A ++ B)))⟩⟩ := by
    rw [map_lower_lower h]
  show Table.mk (List.filter _ (List.map _ (List.filter _ (List.map _ _)))) = _
  rw [filter_map_filter_map]
  · exact congrArg Table.mk (congrArg (List.filter _) (List.map_congr_left fun s _ => hslot s))
  · -- a thread without lines stays without
    intro s hs
    by_contra hempty
    have hnil : (t.without o A).linesOf s.owner = [] := by
      rw [linesOf_without h.owners]
      simpa [Buffer.isEmpty] using hempty
    rw [spared_of_nil hnil] at hs
    contradiction

theorem dropped_nil (t : Table) (o : ThreadId) : t.dropped o [] = [] := by
  rw [dropped, List.filter_eq_nil_iff]
  simp [Line.within_nil]

/-- Nothing is taken from a table between two operations. -/
theorem without_nil {capacity : Nat} (h : t.Shaped capacity) (o : ThreadId) :
    t.without o [] = t := by
  have hslots : t.slots.map (fun s => { s with
      buffer := ⟨(t.spared o [] s.owner).map (Line.lower (t.dropped o []))⟩ }) = t.slots := by
    refine (List.map_congr_left fun s hs => ?_).trans (List.map_id _)
    have hlines := linesOf_of_mem h.owners hs
    have hkeep : s.buffer.lines.filter (!·.within []) = s.buffer.lines := by
      rw [List.filter_eq_self]
      simp [Line.within_nil]
    have hfront : s.buffer.lines.dropWhile (·.isFence) = s.buffer.lines := by
      cases hb : s.buffer.lines with
      | nil => rfl
      | cons l rest =>
        have hstore := (h.tidy s hs).oldest l (by simp [Buffer.oldest?, hb])
        rw [List.dropWhile_cons_of_neg]
        simpa [Line.isStore_eq_not_isFence] using hstore
    rw [dropped_nil, Line.lower_nil, List.map_id, spared, hlines, hkeep, hfront, ite_self]
    rfl
  rw [without, hslots, prune, List.filter_eq_self.mpr]
  intro s hs
  simp [h.nonempty s hs]

/-- A thread has a slot as long as it has lines. -/
theorem Shaped.buffer?_eq_none_iff {capacity : Nat} (h : t.Shaped capacity) (u : ThreadId) :
    t.buffer? u = none ↔ t.linesOf u = [] := by
  cases hb : t.buffer? u with
  | none => simp [linesOf, hb]
  | some b =>
    obtain ⟨s, hs, -, rfl⟩ := exists_slot_of_buffer? hb
    have hlines : s.buffer.lines ≠ [] := fun hnil => by
      have hempty := h.nonempty s hs
      simp [Buffer.isEmpty, hnil] at hempty
    simp [linesOf, hb, hlines]

/-- Which objects there are is all that counts. -/
theorem within_congr (h : ∀ r, r ∈ A ↔ r ∈ B) (l : Line) : l.within A = l.within B := by
  unfold Line.within
  congr 1
  funext a
  rw [Bool.eq_iff_iff, List.any_eq_true, List.any_eq_true]
  simp only [h]

theorem dropped_congr (h : ∀ r, r ∈ A ↔ r ∈ B) (t : Table) (o : ThreadId) :
    t.dropped o A = t.dropped o B := by
  simp only [dropped, within_congr h]

theorem without_congr (h : ∀ r, r ∈ A ↔ r ∈ B) (t : Table) (o : ThreadId) :
    t.without o A = t.without o B := by
  simp only [without, spared, dropped_congr h, within_congr h]

/-! ## A departure of stores is a removal -/

/-- What a function finds in the buffers of one thread. -/
theorem flatMap_searched {β : Type} (h : t.owners.Nodup) (o : ThreadId) {f : Buffer → List β}
    (hf : f ⟨[]⟩ = []) : ((t.slots.filter fun s => (some o).all (· = s.owner)).flatMap
      fun s => f s.buffer) = f ⟨t.linesOf o⟩ := by
  simp only [Option.all_some]
  cases hb : t.buffer? o with
  | none =>
    have hno : o ∉ t.owners := by
      rw [← isSome_buffer?, hb]
      simp
    rw [linesOf_of_not_mem hno, hf, List.filter_eq_nil_iff.mpr]
    · rfl
    · intro s hs
      have hne : o ≠ s.owner := fun heq => hno (heq ▸ List.mem_map_of_mem hs)
      simpa using hne
  | some b =>
    obtain ⟨s, hs, rfl, rfl⟩ := exists_slot_of_buffer? hb
    rw [filter_owner h hs, List.flatMap_singleton, linesOf_of_mem h hs]

/-- Stores leave, and fences with them. -/
theorem leaving_range (h : t.owners.Nodup) (o : ThreadId) (r : Region) :
    ∃ fences, t.leaving (some o) (.range r) = t.dropped o [r] ++ fences ∧
      ∀ f ∈ fences, f.isFence = true ∧ f ∈ t.linesOf o := by
  refine ⟨((⟨t.linesOf o⟩ : Buffer).evict r).fences, ?_, fun f hf => ?_⟩
  · rw [leaving, flatMap_searched h o (f := fun b => (Departure.range r).gone b) rfl]
    refine congrArg (· ++ _) (List.filter_congr fun l _ => ?_)
    rw [Line.within_singleton, Bool.not_not]
  · have hf : f ∈ ((t.linesOf o).filter _).takeWhile (·.isFence) := hf
    exact ⟨List.mem_takeWhile_imp hf,
      (List.mem_filter.mp ((List.takeWhile_sublist _).mem hf)).1⟩

theorem stay_range (r : Region) (ls : List Line) : ((Departure.range r).stay ⟨ls⟩).lines =
    (ls.filter (!·.within [r])).dropWhile (·.isFence) := by
  show (ls.filter _).dropWhile _ = _
  congr 2
  funext l
  rw [Line.within_singleton]

/-- When the stores of a thread into an object leave, the table is as without them. -/
theorem prune_depart_range (h : t.Tidy) (hranked : t.Ranked) (o : ThreadId) (r : Region) :
    (t.depart (some o) (.range r)).prune = t.without o [r] := by
  obtain ⟨fences, hleaving, hfences⟩ := leaving_range h.owners o r
  have hzero : ∀ f ∈ fences, f.atomicNo = 0 := fun f hf =>
    (((h.buffers o).lines f (hfences f hf).2).fence (hfences f hf).1).2.2
  have hapart : Line.Apart (t.dropped o [r] ++ fences) :=
    (hranked.apart_dropped o [r]).append_unnumbered hzero
  have hseq : ∀ k ∈ t.dropped o [r] ++ fences, k.seqNo = 0 := hleaving ▸ h.seqNo_leaving
  rw [depart, retire_eq_mapLines, without, hleaving, mapLines, remaining, List.map_map]
  refine congrArg (fun slots => (Table.mk slots).prune) (List.map_congr_left fun s hs => ?_)
  have hlines := linesOf_of_mem h.owners hs
  have hkept : (if (some o).all (· = s.owner)
      then { s with buffer := (Departure.range r).stay s.buffer } else s) = ⟨s.owner, ⟨t.spared o [r] s.owner⟩⟩ := by
    simp only [Option.all_some, decide_eq_true_eq]
    rw [spared, hlines]
    by_cases ho : o = s.owner
    · rw [if_pos ho, if_pos ho.symm, ← stay_range]
    · rw [if_neg ho, if_neg (Ne.symm ho)]
  rw [Function.comp_apply, hkept]
  refine congrArg (fun ls => (⟨s.owner, ⟨ls⟩⟩ : Slot)) (List.map_congr_left fun l hl => ?_)
  have hl := (mem_of_mem_spared hl).1
  rw [Line.renumber_eq_lower hapart hseq ((h.buffers s.owner).lines l hl).seqNo
    (hranked.unnumbered (mem_lines_of_mem_linesOf hl)), Line.lower_append_unnumbered _ hzero]

end Table

end StoreBuffer
