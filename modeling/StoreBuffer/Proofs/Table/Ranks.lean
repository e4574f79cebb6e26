import Mathlib.Data.List.Nodup
import StoreBuffer.Table.Numbering

/-! # Numbers without gaps

The numbers in use, read in the order in which they were given, are 1, 2, 3 and so on up to how many
there are: they are dense. `Counter.closeGaps` restores this when some of them are released. It
takes the greatest released number first, so that each of the others is still what it was when its
turn comes. -/

namespace StoreBuffer.Counter

/-- The numbers from 1 to `k`. -/
def upTo (k : Nat) : List Int := (List.range k).map fun i : Nat => (i : Int) + 1

theorem length_upTo (k : Nat) : (upTo k).length = k := by simp [upTo]

theorem upTo_succ (k : Nat) : upTo (k + 1) = upTo k ++ [(k : Int) + 1] := by
  simp [upTo, List.range_succ]

theorem mem_upTo {k : Nat} {n : Int} : n ∈ upTo k ↔ 1 ≤ n ∧ n ≤ k := by
  induction k with
  | zero =>
    simp only [upTo, List.range_zero, List.map_nil, List.not_mem_nil, false_iff]
    omega
  | succ k ih =>
    rw [upTo_succ, List.mem_append, ih, List.mem_singleton]
    omega

theorem pairwise_upTo (k : Nat) : (upTo k).Pairwise (· < ·) := by
  induction k with
  | zero => exact .nil
  | succ k ih =>
    rw [upTo_succ]
    refine List.pairwise_append.mpr ⟨ih, List.pairwise_singleton .., ?_⟩
    intro n hn r hr
    rw [mem_upTo] at hn
    rw [List.mem_singleton] at hr
    omega

theorem nodup_upTo (k : Nat) : (upTo k).Nodup := (pairwise_upTo k).imp fun h => by omega

/-- The numbers in use among `ns` are 1, 2, 3 and so on. -/
def Dense (ns : List Int) : Prop := ∃ k, ns.filter (· ≠ 0) = upTo k

theorem dense_nil : Dense [] := ⟨0, rfl⟩

theorem Dense.append_zero {ns : List Int} (h : Dense ns) : Dense (ns ++ [0]) := by
  obtain ⟨k, hk⟩ := h
  exact ⟨k, by rw [List.filter_append, hk]; simp⟩

theorem Dense.append_next {ns : List Int} {k : Nat} (h : ns.filter (· ≠ 0) = upTo k) :
    Dense (ns ++ [(k : Int) + 1]) := by
  refine ⟨k + 1, ?_⟩
  have hne : ((k : Int) + 1) ≠ 0 := by omega
  rw [List.filter_append, h, upTo_succ]
  simp [hne]

/-! ## Releasing numbers -/

/-- One number leaves, and those above it move down. -/
theorem map_filter_upTo {k : Nat} {r : Int} (h : r ∈ upTo (k + 1)) :
    ((upTo (k + 1)).filter (· ≠ r)).map (fun n => if r < n then n - 1 else n) = upTo k := by
  induction k with
  | zero =>
    have hr : r = 1 := by
      rw [mem_upTo] at h
      omega
    simp [upTo, hr]
  | succ k ih =>
    rw [upTo_succ, List.filter_append, List.map_append]
    by_cases hlast : r = (k + 1 : Nat) + 1
    · have hkeep : (upTo (k + 1)).filter (· ≠ r) = upTo (k + 1) := by
        rw [List.filter_eq_self]
        intro n hn
        rw [mem_upTo] at hn
        simp only [ne_eq, decide_eq_true_eq]
        omega
      have hstill : (upTo (k + 1)).map (fun n => if r < n then n - 1 else n) = upTo (k + 1) := by
        refine (List.map_congr_left fun n hn => ?_).trans (List.map_id _)
        rw [mem_upTo] at hn
        exact if_neg (by omega)
      rw [hkeep, hstill]
      simp [hlast]
    · rw [mem_upTo] at h
      have hlt : r < ((k + 1 : Nat) : Int) + 1 := by omega
      have hne : ((k + 1 : Nat) : Int) + 1 ≠ r := by omega
      rw [ih (mem_upTo.mpr (by omega)), List.filter_cons_of_pos (by simpa using hne),
        List.filter_nil, List.map_singleton, if_pos hlt, upTo_succ]
      simp

theorem closeGaps_zero {released : List Int} (h : ∀ r ∈ released, 0 < r) :
    closeGaps released 0 = 0 := by
  induction released with
  | nil => rfl
  | cons r rest ih =>
    have hr := h r (List.mem_cons_self ..)
    show closeGaps rest (if r < 0 then 0 - 1 else 0) = 0
    rw [if_neg (by omega)]
    exact ih fun q hq => h q (List.mem_cons_of_mem _ hq)

/-- Numbers leave, the greatest first, and the others close up. -/
theorem map_closeGaps_upTo {released : List Int} {k : Nat} (hdesc : released.Pairwise (· > ·))
    (hin : ∀ r ∈ released, r ∈ upTo k) :
    ∃ j, ((upTo k).filter (· ∉ released)).map (closeGaps released) = upTo j := by
  induction released generalizing k with
  | nil =>
    refine ⟨k, ?_⟩
    have hid : closeGaps [] = id := rfl
    simp [hid]
  | cons r rest ih =>
    obtain ⟨hr, hrest⟩ := List.pairwise_cons.mp hdesc
    have hrk := hin r (List.mem_cons_self ..)
    cases k with
    | zero => contradiction
    | succ k =>
      obtain ⟨j, hj⟩ := ih (k := k) hrest fun q hq => by
        have hqr := hr q hq
        have hqk := hin q (List.mem_cons_of_mem _ hq)
        rw [mem_upTo] at hqk hrk ⊢
        omega
      refine ⟨j, ?_⟩
      have hsplit : (upTo (k + 1)).filter (· ∉ r :: rest) =
          ((upTo (k + 1)).filter (· ≠ r)).filter (· ∉ rest) := by
        rw [List.filter_filter]
        exact List.filter_congr fun n _ => by simp [Bool.and_comm]
      -- a number other than `r` is released after `r` if and only if it was to be released before
      have hmove : (((upTo (k + 1)).filter (· ≠ r)).filter (· ∉ rest)).map
          (fun n => if r < n then n - 1 else n) = (upTo k).filter (· ∉ rest) := by
        rw [← map_filter_upTo hrk, List.filter_map]
        congr 1
        apply List.filter_congr
        intro n hn
        have hne : n ≠ r := by simpa using (List.mem_filter.mp hn).2
        simp only [Function.comp_apply]
        split
        · have h1 : n ∉ rest := fun hmem => by have := hr n hmem; omega
          have h2 : n - 1 ∉ rest := fun hmem => by have := hr _ hmem; omega
          simp [h1, h2]
        · rfl
      rw [hsplit, ← hj, ← hmove, List.map_map]
      rfl

theorem pairwise_gt_descending {ns : List Int} (h : (ns.filter (· ≠ 0)).Nodup) :
    (descending ns).Pairwise (· > ·) := by
  have hnodup : (descending ns).Nodup := (perm_descending ns).nodup_iff.mpr h
  exact ((pairwise_descending ns).and hnodup).imp fun h => by omega

/-- What stays of distinct numbers when some leave. -/
theorem eq_filter_of_perm {ks ms rs : List Int} (hks : ks.Nodup) (hsub : ms.Sublist ks)
    (hperm : (rs ++ ms).Perm ks) : ms = ks.filter (· ∉ rs) := by
  have hdisjoint := List.disjoint_of_nodup_append (hperm.nodup_iff.mpr hks)
  have hms : ms.filter (· ∉ rs) = ms := by
    rw [List.filter_eq_self]
    intro n hn
    simpa using fun hr => hdisjoint hr hn
  have hrs : rs.filter (· ∉ rs) = [] := by
    rw [List.filter_eq_nil_iff]
    intro n hn
    simpa using hn
  have hlength := (hperm.filter (· ∉ rs)).length_eq
  rw [List.filter_append, hrs, List.nil_append, hms] at hlength
  have hsub' := hsub.filter (· ∉ rs)
  rw [hms] at hsub'
  exact hsub'.eq_of_length hlength

section Release

variable {ns ms rs : List Int}

theorem perm_filter_release (hperm : (rs ++ ms).Perm ns) :
    (descending rs ++ ms.filter (· ≠ 0)).Perm (ns.filter (· ≠ 0)) := by
  refine ((perm_descending rs).append_right _).trans ?_
  rw [← List.filter_append]
  exact hperm.filter _

theorem descending_subset (hperm : (rs ++ ms).Perm ns) {k : Nat}
    (hk : ns.filter (· ≠ 0) = upTo k) : ∀ r ∈ descending rs, r ∈ upTo k := by
  intro r hr
  rw [← hk]
  exact (perm_filter_release hperm).mem_iff.mp (List.mem_append_left _ hr)

variable (h : Dense ns) (hsub : ms.Sublist ns) (hperm : (rs ++ ms).Perm ns)

include h hsub hperm

/-- The numbers that stay close up. -/
theorem map_closeGaps_filter :
    ∃ j, (ms.filter (· ≠ 0)).map (closeGaps (descending rs)) = upTo j := by
  obtain ⟨k, hk⟩ := h
  have hnodup : (ns.filter (· ≠ 0)).Nodup := hk ▸ nodup_upTo k
  have hperm' := perm_filter_release hperm
  have hboth : (rs.filter (· ≠ 0) ++ ms.filter (· ≠ 0)).Nodup := by
    rw [← List.filter_append]
    exact (hperm.filter _).nodup_iff.mpr hnodup
  have hdesc : (descending rs).Pairwise (· > ·) := pairwise_gt_descending hboth.of_append_left
  rw [eq_filter_of_perm hnodup (hsub.filter _) hperm', hk]
  exact map_closeGaps_upTo hdesc (descending_subset hperm hk)

theorem closeGaps_eq_zero_iff {n : Int} (hn : n ∈ ms) :
    closeGaps (descending rs) n = 0 ↔ n = 0 := by
  constructor
  · intro hzero
    by_contra hne
    obtain ⟨j, hj⟩ := map_closeGaps_filter h hsub hperm
    have hmem : closeGaps (descending rs) n ∈ upTo j := by
      rw [← hj]
      exact List.mem_map_of_mem (List.mem_filter.mpr ⟨hn, by simpa using hne⟩)
    rw [mem_upTo] at hmem
    omega
  · rintro rfl
    obtain ⟨k, hk⟩ := h
    apply closeGaps_zero
    intro r hr
    have hmem := descending_subset hperm hk r hr
    rw [mem_upTo] at hmem
    omega

/-- Releasing numbers that are dense leaves numbers that are dense. -/
theorem Dense.closeGaps : Dense (ms.map (closeGaps (descending rs))) := by
  obtain ⟨j, hj⟩ := map_closeGaps_filter h hsub hperm
  refine ⟨j, ?_⟩
  rw [← hj, List.filter_map]
  congr 1
  apply List.filter_congr
  intro n hn
  simp [closeGaps_eq_zero_iff h hsub hperm hn]

end Release

/-! ## The next number -/

theorem foldl_max_eq {ns : List Int} {a k : Int} (ha : a ≤ k) (hle : ∀ n ∈ ns, n ≤ k)
    (hmem : a = k ∨ k ∈ ns) : ns.foldl max a = k := by
  induction ns generalizing a with
  | nil => simpa using hmem
  | cons n rest ih =>
    have hn := hle n (List.mem_cons_self ..)
    refine ih (by omega) (fun q hq => hle q (List.mem_cons_of_mem _ hq)) ?_
    rcases hmem with rfl | hmem
    · exact .inl (by omega)
    · rcases List.mem_cons.mp hmem with rfl | hmem
      · exact .inl (by omega)
      · exact .inr hmem

/-- The greatest number in use is how many there are. -/
theorem foldl_max_of_perm {ns : List Int} {k : Nat} (h : (ns.filter (· ≠ 0)).Perm (upTo k)) :
    ns.foldl max 0 = k := by
  have hiff {n : Int} : n ∈ ns ∧ n ≠ 0 ↔ 1 ≤ n ∧ n ≤ k := by
    rw [← mem_upTo, ← h.mem_iff, List.mem_filter]
    simp
  refine foldl_max_eq (by omega) (fun n hn => ?_) ?_
  · by_cases hzero : n = 0
    · omega
    · exact (hiff.mp ⟨hn, hzero⟩).2
  · cases k with
    | zero => exact .inl rfl
    | succ k => exact .inr (hiff.mpr (by omega)).1

end StoreBuffer.Counter
