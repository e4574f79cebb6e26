import StoreBuffer.Host.Scripted

/-! # Enumeration of executions

An execution is determined by the answers to its choices. Starting with the empty script, each
execution's record of choices yields the script of the next one, which takes the next branch at the
last choice that has one left. The record lists the choices in order, so the executions come in
lexicographic order. -/

namespace StoreBuffer.Search

/-- The script after an execution with this record, `none` if there are no branches left. -/
def nextScript : List ChoicePoint → Option (List Nat)
  | [] => none
  | c :: rest =>
    match nextScript rest with
    | some script => some (c.chosen :: script)
    | none => if c.chosen + 1 < c.branches then some [c.chosen + 1] else none

/-- The executions that a search went through. -/
structure Executions (α : Type) where
  runs : List (List ChoicePoint × α)
  /-- No branch was left. -/
  complete : Bool

/-- Runs a program with `script` and the scripts that follow, at most `limit` times. -/
def explore {α : Type} (run : List Nat → List ChoicePoint × α) :
    (limit : Nat) → (script : List Nat) → Executions α
  | 0, _ => ⟨[], false⟩
  | limit + 1, script =>
    let r := run script
    match nextScript r.1 with
    | none => ⟨[r], true⟩
    | some next =>
      let later := explore run limit next
      ⟨r :: later.runs, later.complete⟩

theorem nextScript_eq_none_iff (trace : List ChoicePoint) :
    nextScript trace = none ↔ ∀ c ∈ trace, c.branches ≤ c.chosen + 1 := by
  induction trace with
  | nil => simp [nextScript]
  | cons c rest ih =>
    rw [nextScript]
    cases h : nextScript rest with
    | none =>
      have hrest := ih.mp h
      by_cases hc : c.chosen + 1 < c.branches
      · simp only [hc, if_true, reduceCtorEq, false_iff]
        intro hall
        have := hall c (List.mem_cons_self ..)
        omega
      · simp only [hc, if_false, true_iff]
        intro d hd
        rcases List.mem_cons.mp hd with rfl | hd
        · omega
        · exact hrest d hd
    | some script =>
      simp only [reduceCtorEq, false_iff]
      intro hall
      have := ih.mpr fun d hd => hall d (List.mem_cons_of_mem _ hd)
      rw [h] at this
      contradiction

end StoreBuffer.Search
