import StoreBuffer.Proofs.Table.Sequencing

/-! # How far a number moves down

When lines leave, the number of a line that stays becomes smaller by the count of those that left
its location with a number below it (`Line.lower`). So lines that stay keep their order, and lines
that leave in two goes make the others move as far as if they had left in one. -/

namespace StoreBuffer

namespace Counter

/-- How many of the numbers in use among `ns` are below `n`. -/
def below (ns : List Int) (n : Int) : Nat := ns.countP fun r => decide (0 < r) && decide (r < n)

/-- A number moves down by one for each released number below it. -/
theorem closeGaps_eq_sub {released : List Int} (h : released.Pairwise (· > ·)) (n : Int) :
    closeGaps released n = n - released.countP (· < n) := by
  induction released generalizing n with
  | nil => simp [closeGaps]
  | cons r rest ih =>
    obtain ⟨hr, hrest⟩ := List.pairwise_cons.mp h
    show closeGaps rest (if r < n then n - 1 else n) = _
    by_cases hrn : r < n
    · -- the others are below both `n` and `n - 1`
      have hall (k : Int) (hk : r ≤ k) : rest.countP (· < k) = rest.length := by
        rw [List.countP_eq_length]
        intro q hq
        have hqr := hr q hq
        simp only [decide_eq_true_eq]
        omega
      rw [if_pos hrn, ih hrest, hall (n - 1) (by omega),
        List.countP_cons_of_pos (by simpa using hrn), hall n (by omega)]
      omega
    · rw [if_neg hrn, ih hrest, List.countP_cons_of_neg (by simpa using hrn)]

/-- Numbers that are not released keep their order. -/
theorem closeGaps_lt_closeGaps {released : List Int} (h : released.Pairwise (· > ·)) {a b : Int}
    (ha : a ∉ released) (hab : a < b) : closeGaps released a < closeGaps released b := by
  induction released generalizing a b with
  | nil => exact hab
  | cons r rest ih =>
    obtain ⟨hr, hrest⟩ := List.pairwise_cons.mp h
    obtain ⟨har, harest⟩ := List.ne_and_not_mem_of_not_mem_cons ha
    show closeGaps rest (if r < a then a - 1 else a) < closeGaps rest (if r < b then b - 1 else b)
    refine ih hrest (fun hmem => ?_) ?_
    · split at hmem
      · have := hr _ hmem
        omega
      · exact harest hmem
    · split <;> split <;> omega

section Below

variable {ns : List Int} (hpos : ∀ r ∈ ns, 0 ≤ r) (hnodup : (ns.filter (· ≠ 0)).Nodup)

include hpos hnodup

theorem closeGaps_descending (n : Int) : closeGaps (descending ns) n = n - below ns n := by
  rw [closeGaps_eq_sub (pairwise_gt_descending hnodup), (perm_descending ns).countP_eq,
    List.countP_filter, below]
  congr 2
  apply List.countP_congr
  intro r hr
  have hr := hpos r hr
  simp only [Bool.and_eq_true, decide_eq_true_eq]
  omega

theorem sub_below_lt {a b : Int} (ha : a ≠ 0 → a ∉ ns) (hab : a < b) :
    a - below ns a < b - below ns b := by
  rw [← closeGaps_descending hpos hnodup, ← closeGaps_descending hpos hnodup]
  refine closeGaps_lt_closeGaps (pairwise_gt_descending hnodup) (fun hmem => ?_) hab
  have hmem := List.mem_filter.mp ((perm_descending ns).mem_iff.mp hmem)
  exact ha (by simpa using hmem.2) hmem.1

theorem sub_below_lt_iff {a b : Int} (ha : a ≠ 0 → a ∉ ns) (hb : b ≠ 0 → b ∉ ns) :
    a - below ns a < b - below ns b ↔ a < b := by
  refine ⟨fun h => ?_, sub_below_lt hpos hnodup ha⟩
  rcases Int.lt_trichotomy a b with hlt | rfl | hgt
  · exact hlt
  · omega
  · have := sub_below_lt hpos hnodup hb hgt
    omega

end Below

theorem below_zero (ns : List Int) : below ns 0 = 0 := by
  rw [below, List.countP_eq_zero]
  intro r _
  simp only [Bool.and_eq_true, decide_eq_true_eq]
  omega

end Counter

namespace Line

/-- How many of the lines `gone` are numbered below `l` at its location. -/
def below (gone : List Line) (l : Line) : Nat :=
  Counter.below ((gone.filter (·.loc? == l.loc?)).map (·.atomicNo)) l.atomicNo

/-- The line once `gone` have left. -/
def lower (gone : List Line) (l : Line) : Line := { l with atomicNo := l.atomicNo - below gone l }

theorem lower_nil : lower [] = id := by
  funext l
  simp [lower, below, Counter.below]

theorem lower_perm {gone gone' : List Line} (h : gone.Perm gone') : lower gone = lower gone' := by
  funext l
  rw [lower, lower, below, below, Counter.below, Counter.below,
    (((h.filter _).map _).countP_eq _)]

/-- Lines without a number leave unnoticed. -/
theorem lower_append_unnumbered (gone : List Line) {fences : List Line}
    (h : ∀ f ∈ fences, f.atomicNo = 0) : lower (gone ++ fences) = lower gone := by
  funext l
  have hnone : Counter.below ((fences.filter (·.loc? == l.loc?)).map (·.atomicNo)) l.atomicNo =
      0 := by
    rw [Counter.below, List.countP_eq_zero]
    intro r hr
    obtain ⟨f, hf, rfl⟩ := List.mem_map.mp hr
    simp [h f (List.mem_filter.mp hf).1]
  rw [lower, lower, below, below, List.filter_append, List.map_append, Counter.below,
    List.countP_append, ← Counter.below, ← Counter.below, hnone, Nat.add_zero]

/-- Lines whose numbers at any location are distinct. -/
structure Apart (gone : List Line) : Prop where
  nonneg : ∀ k ∈ gone, 0 ≤ k.atomicNo
  distinct : ∀ loc, ((numbersAt loc gone).filter (· ≠ 0)).Nodup

/-- Lines without a number may join. -/
theorem Apart.append_unnumbered {gone fences : List Line} (h : Apart gone)
    (hzero : ∀ f ∈ fences, f.atomicNo = 0) : Apart (gone ++ fences) := by
  refine ⟨fun k hk => ?_, fun loc => ?_⟩
  · rcases List.mem_append.mp hk with hk | hk
    · exact h.nonneg k hk
    · exact Int.le_of_eq (hzero k hk).symm
  · have hnone : (numbersAt loc fences).filter (· ≠ 0) = [] := by
      rw [List.filter_eq_nil_iff]
      intro n hn
      obtain ⟨f, hf, rfl⟩ := List.mem_map.mp hn
      simp [hzero f (List.mem_filter.mp hf).1]
    have hsame : (numbersAt loc (gone ++ fences)).filter (· ≠ 0) =
        (numbersAt loc gone).filter (· ≠ 0) := by
      rw [numbersAt, List.filter_append, List.map_append, List.filter_append]
      exact (congrArg (_ ++ ·) hnone).trans (List.append_nil _)
    rw [hsame]
    exact h.distinct loc

/-- The line has no number that one of the lines has at its location. -/
def OffNumbers (gone : List Line) (l : Line) : Prop :=
  ∀ k ∈ gone, k.loc? = l.loc? → k.atomicNo ≠ 0 → k.atomicNo ≠ l.atomicNo

section Lower

variable {gone : List Line} {l : Line}

theorem Apart.numbers (h : Apart gone) (hstore : l.loc?.isSome = true) :
    (∀ r ∈ (gone.filter (·.loc? == l.loc?)).map (·.atomicNo), 0 ≤ r) ∧
      (((gone.filter (·.loc? == l.loc?)).map (·.atomicNo)).filter (· ≠ 0)).Nodup := by
  obtain ⟨loc, hloc⟩ := Option.isSome_iff_exists.mp hstore
  refine ⟨fun r hr => ?_, ?_⟩
  · obtain ⟨k, hk, rfl⟩ := List.mem_map.mp hr
    exact h.nonneg k (List.mem_filter.mp hk).1
  · rw [hloc]
    exact h.distinct loc

theorem OffNumbers.not_mem (h : OffNumbers gone l) (hno : l.atomicNo ≠ 0) :
    l.atomicNo ∉ (gone.filter (·.loc? == l.loc?)).map (·.atomicNo) := by
  intro hmem
  obtain ⟨k, hk, hsame⟩ := List.mem_map.mp hmem
  obtain ⟨hk, hloc⟩ := List.mem_filter.mp hk
  exact h k hk (by simpa using hloc) (by rwa [hsame]) hsame

/-- Closing the gaps that lines leave lowers the numbers of the others, if no line has a place among
the sequentially consistent ones. -/
theorem renumber_eq_lower (h : Apart gone) (hgone : ∀ k ∈ gone, k.seqNo = 0) (hseq : l.seqNo = 0)
    (hfence : l.loc? = none → l.atomicNo = 0) : l.renumber gone = l.lower gone := by
  have hnone : Counter.closeGaps (Counter.descending (gone.map (·.seqNo))) l.seqNo = l.seqNo := by
    rw [Counter.closeGaps_eq_sub, List.countP_eq_zero.mpr]
    · simp
    · intro r hr
      obtain ⟨k, hk, rfl⟩ := List.mem_map.mp (List.mem_filter.mp
        ((Counter.perm_descending _).mem_iff.mp hr)).1
      simp [hgone k hk, hseq]
    · refine Counter.pairwise_gt_descending ?_
      rw [List.filter_eq_nil_iff.mpr]
      · exact List.nodup_nil
      · intro r hr
        obtain ⟨k, hk, rfl⟩ := List.mem_map.mp hr
        simp [hgone k hk]
  unfold renumber lower
  rw [hnone]
  cases hloc : l.loc? with
  | none =>
    have hzero : below gone l = 0 := by rw [below, hfence hloc, Counter.below_zero]
    simp [hzero]
  | some loc =>
    obtain ⟨hpos, hnodup⟩ := h.numbers (l := l) (by rw [hloc]; rfl)
    have hclose := Counter.closeGaps_descending hpos hnodup l.atomicNo
    rw [hloc] at hclose
    rw [below, hloc]
    exact congrArg (fun n => ({ l with atomicNo := n } : Line)) hclose

theorem lower_lt_iff (h : Apart gone) {k : Line} (hloc : k.loc? = l.loc?)
    (hstore : l.loc?.isSome = true) (hk : OffNumbers gone k) (hl : OffNumbers gone l) :
    (k.lower gone).atomicNo < (l.lower gone).atomicNo ↔ k.atomicNo < l.atomicNo := by
  obtain ⟨hpos, hnodup⟩ := h.numbers hstore
  show k.atomicNo - below gone k < l.atomicNo - below gone l ↔ _
  have hk := hk.not_mem
  rw [hloc] at hk
  rw [below, below, hloc]
  exact Counter.sub_below_lt_iff hpos hnodup hk hl.not_mem

theorem lower_pos_iff (h : Apart gone) (hstore : l.loc?.isSome = true) (hl : OffNumbers gone l) :
    0 < (l.lower gone).atomicNo ↔ 0 < l.atomicNo := by
  obtain ⟨hpos, hnodup⟩ := h.numbers hstore
  have hiff := Counter.sub_below_lt_iff hpos hnodup (a := 0) (by simp) hl.not_mem
  rwa [Counter.below_zero, Int.natCast_zero, Int.sub_zero] at hiff

/-- Lines that leave in two goes lower the others as if they had left together. -/
theorem lower_lower (h : Apart gone) {later : List Line} (hstore : l.loc?.isSome = true)
    (hl : OffNumbers gone l) (hlater : ∀ j ∈ later, OffNumbers gone j) :
    (l.lower gone).lower (later.map (lower gone)) = l.lower (gone ++ later) := by
  have hcount : below (later.map (lower gone)) (l.lower gone) = below later l := by
    show Counter.below (((later.map (lower gone)).filter (·.loc? == l.loc?)).map (·.atomicNo)) _ =
      _
    rw [List.filter_map, List.map_map, Counter.below, below, Counter.below, List.countP_map,
      List.countP_map]
    apply List.countP_congr
    intro j hj
    obtain ⟨hj, hloc⟩ := List.mem_filter.mp hj
    have hloc : j.loc? = l.loc? := beq_iff_eq.mp hloc
    have hpos := lower_pos_iff h (l := j) (by rwa [hloc]) (hlater j hj)
    have hlt := lower_lt_iff h hloc hstore (hlater j hj) hl
    simp only [Function.comp_apply, Bool.and_eq_true, decide_eq_true_eq, hpos, hlt]
  have hsum : below (gone ++ later) l = below gone l + below later l := by
    rw [below, List.filter_append, List.map_append, Counter.below, List.countP_append]
    rfl
  have hno : l.atomicNo - below gone l - below later l = l.atomicNo - below (gone ++ later) l := by
    rw [hsum]
    omega
  rw [lower, hcount]
  exact congrArg (fun n => ({ l with atomicNo := n } : Line)) hno

/-- A line without a number is not touched. -/
theorem lower_of_unnumbered (h : l.atomicNo = 0) (gone : List Line) : l.lower gone = l := by
  have hzero : below gone l = 0 := by rw [below, h, Counter.below_zero]
  rw [lower, hzero, h]
  exact congrArg (fun n => ({ l with atomicNo := n } : Line)) h.symm

end Lower

end Line

end StoreBuffer
