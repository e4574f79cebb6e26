import Mathlib.Algebra.BigOperators.Group.List.Defs
import Mathlib.Algebra.Group.Nat.Defs
import Mathlib.Data.Set.Function
import StoreBuffer.Machine.Visibility

/-! # Mixed radix

One number says for several buffers at once how far each is drained: with `counts` pending stores,
`branches counts` numbers are on offer, and `shares counts choice` are the digits of one of them.
`bijOn_shares` says that every way to drain the buffers is the reading of exactly one number. -/

namespace StoreBuffer.Visibility

/-- Number of ways to let each buffer go ahead by at most its count. -/
def branches (counts : List Nat) : Nat := (counts.map (· + 1)).prod

/-- How far each buffer goes ahead: what is left of the number beyond the ways of the buffers in
front, within the ways of its own. -/
def shares (counts : List Nat) (choice : Nat) : List Nat :=
  counts.mapIdx fun i n => choice / branches (counts.take i) % (n + 1)

/-- The number that is read as the shares `ds`. -/
def joined : List Nat → List Nat → Nat
  | n :: counts, d :: ds => d + (n + 1) * joined counts ds
  | _, _ => 0

theorem branches_cons (n : Nat) (counts : List Nat) :
    branches (n :: counts) = (n + 1) * branches counts := List.prod_cons

theorem branches_pos (counts : List Nat) : 0 < branches counts := by
  induction counts with
  | nil => exact Nat.zero_lt_one
  | cons n counts ih =>
    rw [branches_cons]
    exact Nat.mul_pos (Nat.succ_pos n) ih

/-- A single branch is on offer if no buffer has a choice. -/
theorem branches_eq_one {counts : List Nat} (h : ∀ n ∈ counts, n = 0) : branches counts = 1 := by
  induction counts with
  | nil => rfl
  | cons n counts ih =>
    rw [branches_cons, h n (List.mem_cons_self ..),
      ih fun k hk => h k (List.mem_cons_of_mem n hk)]

/-- More than one branch is on offer as soon as one buffer has a choice. -/
theorem two_le_branches {counts : List Nat} (h : ∃ n ∈ counts, n ≠ 0) : 2 ≤ branches counts := by
  obtain ⟨n, hn, hzero⟩ := h
  induction counts with
  | nil => contradiction
  | cons k counts ih =>
    rw [branches_cons]
    rcases List.mem_cons.mp hn with rfl | hn
    · have := Nat.mul_le_mul (show 2 ≤ n + 1 by omega) (branches_pos counts)
      omega
    · have := Nat.mul_le_mul (show 1 ≤ k + 1 by omega) (ih hn)
      omega

theorem shares_cons (n : Nat) (counts : List Nat) (choice : Nat) :
    shares (n :: counts) choice = choice % (n + 1) :: shares counts (choice / (n + 1)) := by
  have hfirst : choice / branches [] = choice := Nat.div_one choice
  have hrest (i : Nat) : choice / branches ((n :: counts).take (i + 1)) =
      choice / (n + 1) / branches (counts.take i) := by
    rw [List.take_succ_cons, branches_cons, Nat.div_div_eq_div_mul]
  simp only [shares, List.mapIdx_cons, List.take_zero, hfirst, hrest]

theorem length_shares (counts : List Nat) (choice : Nat) :
    (shares counts choice).length = counts.length := List.length_mapIdx

theorem shares_le (counts : List Nat) (choice : Nat) :
    List.Forall₂ (· ≤ ·) (shares counts choice) counts := by
  induction counts generalizing choice with
  | nil => exact .nil
  | cons n counts ih =>
    rw [shares_cons]
    exact .cons (Nat.lt_succ_iff.mp (Nat.mod_lt choice (Nat.succ_pos n))) (ih _)

/-- The first branch lets nothing go ahead. -/
theorem shares_zero (counts : List Nat) : shares counts 0 = counts.map fun _ => 0 := by
  induction counts with
  | nil => rfl
  | cons n counts ih => rw [shares_cons, Nat.zero_mod, Nat.zero_div, ih, List.map_cons]

theorem joined_shares {counts : List Nat} {choice : Nat} (h : choice < branches counts) :
    joined counts (shares counts choice) = choice := by
  induction counts generalizing choice with
  | nil =>
    have h : choice < 1 := h
    exact (Nat.lt_one_iff.mp h).symm
  | cons n counts ih =>
    rw [branches_cons] at h
    rw [shares_cons, joined, ih (Nat.div_lt_of_lt_mul h), Nat.mod_add_div]

theorem shares_joined {counts ds : List Nat} (h : List.Forall₂ (· ≤ ·) ds counts) :
    shares counts (joined counts ds) = ds := by
  induction h with
  | nil => rfl
  | @cons d n ds counts hd _ ih =>
    have hlt : d < n + 1 := Nat.lt_succ_iff.mpr hd
    rw [joined, shares_cons, Nat.add_mul_mod_self_left, Nat.mod_eq_of_lt hlt,
      Nat.add_mul_div_left _ _ (Nat.succ_pos n), Nat.div_eq_of_lt hlt, Nat.zero_add, ih]

theorem joined_lt {counts ds : List Nat} (h : List.Forall₂ (· ≤ ·) ds counts) :
    joined counts ds < branches counts := by
  induction h with
  | nil => exact Nat.zero_lt_one
  | @cons d n ds counts hd _ ih =>
    have hle := Nat.mul_le_mul_left (n + 1) (Nat.succ_le_of_lt ih)
    rw [joined, branches_cons]
    rw [Nat.mul_succ] at hle
    omega

/-- Each way to drain the buffers is the reading of exactly one branch. -/
theorem bijOn_shares (counts : List Nat) : Set.BijOn (shares counts)
    {choice | choice < branches counts} {ds | List.Forall₂ (· ≤ ·) ds counts} := by
  refine ⟨fun choice _ => shares_le counts choice, fun a ha b hb hab => ?_, fun ds hds => ?_⟩
  · rw [← joined_shares ha, hab, joined_shares hb]
  · exact ⟨joined counts ds, joined_lt hds, shares_joined hds⟩

/-- The digits of a choice are the shares of the candidates' pending stores. -/
theorem digits_eq (choice : Nat) (cs : List Candidate) :
    digits choice cs = shares (cs.map (·.pending.length)) choice := by
  induction cs generalizing choice with
  | nil => rfl
  | cons c rest ih => rw [digits, ih, List.map_cons, shares_cons, Candidate.states]

theorem total_eq (cs : List Candidate) :
    total cs = min (branches (cs.map (·.pending.length))) greatestTotal := by
  have hprod : cs.foldr (·.states * ·) 1 = branches (cs.map (·.pending.length)) := by
    induction cs with
    | nil => rfl
    | cons c rest ih => rw [List.foldr_cons, ih, List.map_cons, branches_cons, Candidate.states]
  rw [total, hprod]

end StoreBuffer.Visibility
