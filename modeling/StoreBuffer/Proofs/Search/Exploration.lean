import StoreBuffer.Search.Scripts

/-! # Every execution once

A program that depends on nothing but the answers to its choices is a finite tree whose inner nodes
are the choices. A host that reads a script plays one path of it. Scripts that follow one another by
`nextScript` lead to neighbouring leaves, `Chain` says so of a whole list of executions, and so the
search goes through all leaves from the first to the last. -/

namespace StoreBuffer.Search

/-- A program as its choices show it: each offers a branch at least, and what comes after it may
depend on the branch that is taken. -/
inductive Tree (α : Type) where
  | leaf (a : α)
  | node (branches : Nat) (pos : 0 < branches) (next : Fin branches → Tree α)

/-- The order of records in which the first choice counts most. -/
def Precedes (p q : List ChoicePoint) : Prop := p.map (·.chosen) < q.map (·.chosen)

instance (p q : List ChoicePoint) : Decidable (Precedes p q) := by
  unfold Precedes; infer_instance

namespace Tree

variable {α : Type}

/-- Runs the program on a host, which makes the choices. -/
def play {σ : Type} [Host σ] : Tree α → σ → α × σ
  | leaf a, h => (a, h)
  | node n pos next, h =>
    (next ⟨(Host.choose n h).1, Host.choose_lt n h pos⟩).play (Host.choose n h).2

/-- Runs the program on a fresh host with a script, and records its choices. -/
def replay (t : Tree α) (h : Scripted) (script : List Nat) : List ChoicePoint × α :=
  let r := t.play (h.withScript script)
  (r.2.trace, r.1)

/-- Number of leaves. -/
def leaves : Tree α → Nat
  | leaf _ => 1
  | node n _ next => (List.finRange n).foldr (fun i rest => (next i).leaves + rest) 0

/-- The choices on the way from the root to a leaf. -/
inductive Path : Tree α → List ChoicePoint → α → Prop
  | leaf (a : α) : Path (.leaf a) [] a
  | node {n : Nat} {pos : 0 < n} {next : Fin n → Tree α} (i : Fin n) {p : List ChoicePoint} {a : α}
      (h : Path (next i) p a) : Path (.node n pos next) (⟨n, i⟩ :: p) a

/-- All paths with their leaves, those through the first branch first. -/
def executions : Tree α → List (List ChoicePoint × α)
  | leaf a => [([], a)]
  | node n _ next => (List.finRange n).flatMap fun i =>
      (next i).executions.map fun e => (⟨n, i⟩ :: e.1, e.2)

/-- The path that a script selects: its entries as far as there are branches, then first
branches. -/
def follow : Tree α → List Nat → List ChoicePoint × α
  | leaf a, _ => ([], a)
  | node n pos next, script =>
    let i : Fin n := ⟨min (script.headD 0) (n - 1), by omega⟩
    let r := (next i).follow script.tail
    (⟨n, i⟩ :: r.1, r.2)

theorem play_eq (t : Tree α) (h : Scripted) :
    t.play h = ((t.follow (h.script.drop h.trace.length)).2,
      { h with trace := h.trace ++ (t.follow (h.script.drop h.trace.length)).1 }) := by
  induction t generalizing h with
  | leaf a => simp [play, follow]
  | node n pos next ih =>
    have hentry : (h.script.drop h.trace.length).headD 0 = h.script[h.trace.length]?.getD 0 := by
      rw [List.headD_eq_head?_getD, List.head?_drop]
    have hchoice : Host.choose n h = (min (h.script[h.trace.length]?.getD 0) (n - 1),
        { h with trace := h.trace ++ [⟨n, min (h.script[h.trace.length]?.getD 0) (n - 1)⟩] }) := rfl
    simp only [play, follow, hchoice, ih, hentry, List.length_append, List.length_singleton,
      List.tail_drop, List.append_assoc, List.singleton_append]

theorem replay_eq (t : Tree α) (h : Scripted) : t.replay h = t.follow := by
  funext script
  simp [replay, play_eq, Scripted.withScript]

theorem mem_executions {t : Tree α} {p : List ChoicePoint} {a : α} :
    (p, a) ∈ t.executions ↔ t.Path p a := by
  induction t generalizing p with
  | leaf b =>
    simp only [executions, List.mem_singleton, Prod.mk.injEq]
    constructor
    · rintro ⟨rfl, rfl⟩
      exact .leaf a
    · rintro ⟨⟩
      exact ⟨rfl, rfl⟩
  | node n pos next ih =>
    simp only [executions, List.mem_flatMap, List.mem_map, Prod.mk.injEq]
    constructor
    · rintro ⟨i, -, e, he, rfl, rfl⟩
      exact .node i ((ih i).mp he)
    · rintro (_ | ⟨i, hpath⟩)
      exact ⟨i, List.mem_finRange i, _, (ih i).mpr hpath, rfl, rfl⟩

theorem length_executions (t : Tree α) : t.executions.length = t.leaves := by
  induction t with
  | leaf a => rfl
  | node n pos next ih =>
    rw [executions, leaves]
    induction List.finRange n with
    | nil => rfl
    | cons i rest hrest => simp [ih, hrest]

/-- Paths that part at a choice come in the order of its branches. -/
theorem pairwise_executions (t : Tree α) :
    t.executions.Pairwise fun e f => Precedes e.1 f.1 := by
  induction t with
  | leaf a => exact List.pairwise_singleton ..
  | node n pos next ih =>
    rw [executions, List.pairwise_flatMap]
    constructor
    · intro i _
      refine List.pairwise_map.mpr ((ih i).imp ?_)
      intro e f hef
      exact List.cons_lt_cons_iff.mpr (.inr ⟨rfl, hef⟩)
    · refine (List.pairwise_lt_finRange n).imp ?_
      intro i j hij e he f hf
      obtain ⟨e, -, rfl⟩ := List.mem_map.mp he
      obtain ⟨f, -, rfl⟩ := List.mem_map.mp hf
      exact List.cons_lt_cons_iff.mpr (.inl hij)

end Tree

/-! ## Chains of executions -/

variable {α : Type} {run : List Nat → List ChoicePoint × α}

/-- The executions that `nextScript` leads to from a script on, up to the last one. -/
inductive Chain (run : List Nat → List ChoicePoint × α) :
    List Nat → List (List ChoicePoint × α) → Prop
  | last {script : List Nat} (h : nextScript (run script).1 = none) : Chain run script [run script]
  | next {script later : List Nat} {es : List (List ChoicePoint × α)}
      (h : nextScript (run script).1 = some later) (hrest : Chain run later es) :
      Chain run script (run script :: es)

/-- A search goes along the chain as far as its limit lets it. -/
theorem explore_of_chain {script : List Nat} {es : List (List ChoicePoint × α)}
    (h : Chain run script es) (limit : Nat) :
    explore run limit script = ⟨es.take limit, decide (es.length ≤ limit)⟩ := by
  induction h generalizing limit with
  | last hnone =>
    cases limit with
    | zero => rfl
    | succ limit => simp [explore, hnone]
  | next hsome _ ih =>
    cases limit with
    | zero => rfl
    | succ limit => simp [explore, hsome, ih]

/-- Only the record of the first execution counts, not the script that led to it. -/
theorem Chain.congr {script script' : List Nat} {es : List (List ChoicePoint × α)}
    (h : Chain run script es) (hsame : run script' = run script) : Chain run script' es := by
  cases h with
  | last hnone =>
    rw [← hsame] at hnone ⊢
    exact .last hnone
  | next hsome hrest =>
    rw [← hsame] at hsome ⊢
    exact .next hsome hrest

namespace Tree

variable {n : Nat} {pos : 0 < n} {next : Fin n → Tree α}

theorem follow_cons (pos : 0 < n) (i : Fin n) (script : List Nat) :
    (node n pos next).follow (i :: script) =
      (⟨n, i⟩ :: ((next i).follow script).1, ((next i).follow script).2) := by
  have hmin : min i.val (n - 1) = i := by omega
  simp [follow, hmin]

theorem follow_nil (pos : 0 < n) (next : Fin n → Tree α) :
    (node n pos next).follow [] = (node n pos next).follow [0] := by
  simp [follow]

/-- A chain below a branch, and after it the chain that starts with the next branch. -/
theorem chain_branch {i : Fin n} {script : List Nat} {es rest : List (List ChoicePoint × α)}
    (h : Chain (next i).follow script es)
    (hmore : i.val + 1 < n → Chain (node n pos next).follow [i.val + 1] rest)
    (hdone : ¬ i.val + 1 < n → rest = []) :
    Chain (node n pos next).follow (i :: script)
      (es.map (fun e => (⟨n, i⟩ :: e.1, e.2)) ++ rest) := by
  induction h with
  | @last script hnone =>
    have hnext : nextScript ((node n pos next).follow (i :: script)).1 =
        if i.val + 1 < n then some [i.val + 1] else none := by
      rw [follow_cons, nextScript, hnone]
    rw [List.map_singleton, ← follow_cons pos, List.singleton_append]
    by_cases hi : i.val + 1 < n
    · rw [if_pos hi] at hnext
      exact .next hnext (hmore hi)
    · rw [if_neg hi] at hnext
      rw [hdone hi]
      exact .last hnext
  | @next script later es hsome _ ih =>
    have hnext : nextScript ((node n pos next).follow (i :: script)).1 =
        some (i.val :: later) := by
      rw [follow_cons, nextScript, hsome]
    rw [List.map_cons, ← follow_cons pos, List.cons_append]
    exact .next hnext ih

theorem drop_finRange {k : Nat} (hk : k < n) :
    (List.finRange n).drop k = ⟨k, hk⟩ :: (List.finRange n).drop (k + 1) := by
  rw [List.drop_eq_getElem_cons (by simpa using hk)]
  simp

/-- From branch `k` on, the chain goes through the branches that are left. -/
theorem chain_from (h : ∀ i, Chain (next i).follow [] (next i).executions) {d k : Nat}
    (hk : k + d + 1 = n) : Chain (node n pos next).follow [k]
      (((List.finRange n).drop k).flatMap fun i =>
        (next i).executions.map fun e => (⟨n, i⟩ :: e.1, e.2)) := by
  have hlt : k < n := by omega
  rw [drop_finRange hlt, List.flatMap_cons]
  induction d generalizing k with
  | zero =>
    have hend : (List.finRange n).drop (k + 1) = [] :=
      List.drop_of_length_le (by rw [List.length_finRange]; omega)
    rw [hend]
    exact chain_branch (h ⟨k, hlt⟩) (fun hmore => absurd hk (by simp at hmore; omega)) fun _ => rfl
  | succ d ih =>
    have hmore : k + 1 < n := by omega
    rw [drop_finRange hmore, List.flatMap_cons]
    exact chain_branch (h ⟨k, hlt⟩) (fun _ => ih (by omega) hmore) fun hdone => absurd hmore hdone

/-- The empty script starts a chain of all executions. -/
theorem chain_executions (t : Tree α) : Chain t.follow [] t.executions := by
  induction t with
  | leaf a => exact .last rfl
  | node n pos next ih =>
    have hchain : Chain (node n pos next).follow [0] (node n pos next).executions :=
      chain_from (d := n - 1) (k := 0) ih (by omega)
    exact hchain.congr (follow_nil pos next)

/-- The search that starts with the empty script ends after as many executions as the program has
leaves, whatever the host; up to then, and not further than its limit, it goes through all paths
from the root to a leaf, each once, in lexicographic order. -/
theorem explore_each_once (t : Tree α) (h : Scripted) : ∃ es : List (List ChoicePoint × α),
    (∀ limit, explore (t.replay h) limit [] = ⟨es.take limit, decide (t.leaves ≤ limit)⟩) ∧
    es.length = t.leaves ∧ (∀ p a, (p, a) ∈ es ↔ t.Path p a) ∧
    (es.map (·.1)).Nodup ∧ (es.map (·.1)).Pairwise Precedes := by
  have hlex : (t.executions.map (·.1)).Pairwise Precedes :=
    List.pairwise_map.mpr t.pairwise_executions
  have hdistinct : (t.executions.map (·.1)).Nodup := by
    refine hlex.imp ?_
    rintro p q hpq rfl
    exact List.lt_irrefl _ hpq
  refine ⟨t.executions, fun limit => ?_, t.length_executions, fun p a => mem_executions, hdistinct,
    hlex⟩
  rw [replay_eq, explore_of_chain t.chain_executions, length_executions]

/-- Only the first branch leads to another choice. -/
example : (explore (replay (node 2 (by decide) fun i =>
      if i = 0 then node 3 (by decide) fun j => leaf j.val else leaf 7) (Scripted.create 0))
        4 []).runs =
    [([⟨2, 0⟩, ⟨3, 0⟩], 0), ([⟨2, 0⟩, ⟨3, 1⟩], 1), ([⟨2, 0⟩, ⟨3, 2⟩], 2), ([⟨2, 1⟩], 7)] := rfl

end Tree

end StoreBuffer.Search
