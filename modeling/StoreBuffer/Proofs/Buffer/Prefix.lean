import StoreBuffer.Proofs.Table.Pending

/-! # Draining up to a store

Draining a buffer past so many of its pending stores to a region brings all that stands in front of
them to memory as well. `Write.upTo`, `Line.settle` and `Line.spent` say along the buffer, line by
line, what that writes, what it leaves and what it takes away. A partial flush goes by the position
of a line; `Buffer.drain_eq` says that it comes to the same. -/

namespace StoreBuffer

namespace Write

/-- The writes up to and including the `n`-th one to bytes of the region. -/
def upTo (r : Region) : Nat → List Write → List Write
  | 0, _ => []
  | _ + 1, [] => []
  | n + 1, w :: rest => w :: upTo r (if w.region.overlaps r then n else n + 1) rest

theorem upTo_zero (r : Region) (ws : List Write) : upTo r 0 ws = [] := by
  cases ws <;> rfl

theorem mem_of_mem_upTo {r : Region} {n : Nat} {ws : List Write} {w : Write}
    (h : w ∈ upTo r n ws) : w ∈ ws := by
  induction ws generalizing n with
  | nil => cases n <;> contradiction
  | cons v rest ih =>
    cases n with
    | zero => contradiction
    | succ n =>
      rcases List.mem_cons.mp h with rfl | h
      · exact List.mem_cons_self ..
      · exact List.mem_cons_of_mem v (ih h)

theorem filter_upTo (r : Region) (n : Nat) (ws : List Write) :
    (upTo r n ws).filter (·.region.overlaps r) = (ws.filter (·.region.overlaps r)).take n := by
  induction ws generalizing n with
  | nil => cases n <;> rfl
  | cons w rest ih =>
    cases n with
    | zero => rfl
    | succ n =>
      rw [upTo]
      cases hw : w.region.overlaps r with
      | true => simp [hw, ih]
      | false => simp [hw, ih]

end Write

namespace Line

/-- A pending store to bytes of the region. -/
def awaits (l : Line) (r : Region) : Bool := !l.committed && l.touches r

/-- What is left of the lines once all up to the `n`-th pending store to bytes of the region have
reached memory: stores to these bytes are gone, other stores committed, and fences stay. -/
def settle (r : Region) : Nat → List Line → List Line
  | 0, ls => ls
  | _ + 1, [] => []
  | n + 1, l :: rest =>
    (if l.touches r then [] else [l.commit]) ++ settle r (if l.awaits r then n else n + 1) rest

/-- The stores that are gone by then. -/
def spent (r : Region) : Nat → List Line → List Line
  | 0, _ => []
  | _ + 1, [] => []
  | n + 1, l :: rest =>
    (if l.touches r then [l.commit] else []) ++ spent r (if l.awaits r then n else n + 1) rest

theorem settle_zero (r : Region) (ls : List Line) : settle r 0 ls = ls := by
  cases ls <;> rfl

theorem spent_zero (r : Region) (ls : List Line) : spent r 0 ls = [] := by
  cases ls <;> rfl

theorem awaits_eq (l : Line) (r : Region) :
    l.awaits r = l.pendingWrite?.any (·.region.overlaps r) := by
  unfold awaits touches pendingWrite?
  cases l.committed <;> simp

theorem touches_commit (l : Line) (r : Region) : l.commit.touches r = l.touches r := by
  rw [touches, write?_commit, touches]

end Line

namespace Buffer

/-! ## Positions of pending stores -/

theorem pendingAt_cons (l : Line) (rest : List Line) (r : Region) :
    (⟨l :: rest⟩ : Buffer).pendingAt r = (if !l.committed && l.touches r then [0] else []) ++
      ((⟨rest⟩ : Buffer).pendingAt r).map (· + 1) := by
  let position (x : Line × Nat) : Option Nat :=
    if !x.1.committed && x.1.touches r then some x.2 else none
  have hshift : (position ∘ fun x : Line × Nat => (x.1, x.2 + 1)) =
      fun x => (position x).map (· + 1) := by
    funext x
    dsimp only [position, Function.comp]
    split <;> rfl
  show ((l :: rest).zipIdx.filterMap position) = _ ++ (rest.zipIdx.filterMap position).map _
  rw [List.zipIdx_cons, List.zipIdx_succ, List.filterMap_cons, List.filterMap_map, hshift,
    List.map_filterMap]
  dsimp only [position]
  split <;> simp_all

theorem length_pendingAt (b : Buffer) (r : Region) :
    (b.pendingAt r).length = b.pending.countP (·.region.overlaps r) := by
  rw [pendingAt, List.length_filterMap_eq_countP, pending, List.countP_filterMap]
  have hfst (q : Line → Bool) : b.lines.zipIdx.countP (fun e => q e.1) = b.lines.countP q := by
    rw [← List.zipIdx_map_fst 0 b.lines, List.countP_map, List.zipIdx_map_fst]
    rfl
  rw [← hfst]
  refine List.countP_congr fun e _ => ?_
  obtain ⟨l, i⟩ := e
  cases hc : l.committed <;> cases hw : l.write? <;>
    simp [Line.touches, Line.pendingWrite?, hc, hw]

/-- The `n`-th pending store to the region is the first line, or a later store among the rest. -/
theorem getElem?_pendingAt_cons {l : Line} {rest : List Line} {r : Region} {n i : Nat}
    (h : ((⟨l :: rest⟩ : Buffer).pendingAt r)[n]? = some i) :
    (l.awaits r = true ∧ n = 0 ∧ i = 0) ∨
      ∃ k j, (if l.awaits r then n else n + 1) = k + 1 ∧ i = j + 1 ∧
        ((⟨rest⟩ : Buffer).pendingAt r)[k]? = some j := by
  rw [pendingAt_cons, ← Line.awaits] at h
  cases ha : l.awaits r with
  | false =>
    rw [ha, if_neg Bool.false_ne_true, List.nil_append, List.getElem?_map,
      Option.map_eq_some_iff] at h
    obtain ⟨j, hj, rfl⟩ := h
    exact .inr ⟨n, j, rfl, rfl, hj⟩
  | true =>
    rw [ha, if_pos rfl] at h
    cases n with
    | zero =>
      cases h
      exact .inl ⟨rfl, rfl, rfl⟩
    | succ n =>
      rw [List.singleton_append, List.getElem?_cons_succ, List.getElem?_map,
        Option.map_eq_some_iff] at h
      obtain ⟨j, hj, rfl⟩ := h
      exact .inr ⟨n, j, rfl, rfl, hj⟩

/-! ## Draining to a position -/

variable {r : Region} {n i : Nat} {ls : List Line}

theorem upTo_filterMap_cons (r : Region) (n : Nat) (l : Line) (rest : List Line) :
    Write.upTo r (n + 1) ((l :: rest).filterMap Line.pendingWrite?) =
      l.pendingWrite?.toList ++ Write.upTo r (if l.awaits r then n else n + 1)
        (rest.filterMap Line.pendingWrite?) := by
  rw [Line.awaits_eq]
  cases hw : l.pendingWrite? with
  | none =>
    rw [List.filterMap_cons_none hw]
    rfl
  | some w =>
    rw [List.filterMap_cons_some hw]
    rfl

theorem writes_eq_upTo (h : ((⟨ls⟩ : Buffer).pendingAt r)[n]? = some i) :
    (ls.take (i + 1)).filterMap Line.pendingWrite? =
      Write.upTo r (n + 1) (ls.filterMap Line.pendingWrite?) := by
  induction ls generalizing n i with
  | nil => contradiction
  | cons l rest ih =>
    have hcons : (l :: rest.take i).filterMap Line.pendingWrite? =
        l.pendingWrite?.toList ++ (rest.take i).filterMap Line.pendingWrite? := by
      cases hw : l.pendingWrite? <;> simp [hw]
    rw [upTo_filterMap_cons, List.take_succ_cons, hcons]
    rcases getElem?_pendingAt_cons h with ⟨ha, rfl, rfl⟩ | ⟨k, j, hk, rfl, hj⟩
    · rw [if_pos ha, Write.upTo_zero]
      rfl
    · rw [hk, ih hj]

theorem lines_eq_settle (h : ((⟨ls⟩ : Buffer).pendingAt r)[n]? = some i) :
    ((ls.take (i + 1)).map Line.commit).filter (!·.touches r) ++ ls.drop (i + 1) =
      Line.settle r (n + 1) ls := by
  induction ls generalizing n i with
  | nil => contradiction
  | cons l rest ih =>
    have hcons : ((l :: rest.take i).map Line.commit).filter (!·.touches r) =
        (if l.touches r then [] else [l.commit]) ++
          ((rest.take i).map Line.commit).filter (!·.touches r) := by
      rw [List.map_cons, List.filter_cons, Line.touches_commit]
      cases l.touches r <;> rfl
    rw [Line.settle, List.take_succ_cons, List.drop_succ_cons, hcons, List.append_assoc]
    rcases getElem?_pendingAt_cons h with ⟨ha, rfl, rfl⟩ | ⟨k, j, hk, rfl, hj⟩
    · rw [if_pos ha, Line.settle_zero]
      rfl
    · rw [hk, ih hj]

theorem dropped_eq_spent (h : ((⟨ls⟩ : Buffer).pendingAt r)[n]? = some i) :
    ((ls.take (i + 1)).map Line.commit).filter (·.touches r) = Line.spent r (n + 1) ls := by
  induction ls generalizing n i with
  | nil => contradiction
  | cons l rest ih =>
    have hcons : ((l :: rest.take i).map Line.commit).filter (·.touches r) =
        (if l.touches r then [l.commit] else []) ++
          ((rest.take i).map Line.commit).filter (·.touches r) := by
      rw [List.map_cons, List.filter_cons, Line.touches_commit]
      cases l.touches r <;> rfl
    rw [Line.spent, List.take_succ_cons, hcons]
    rcases getElem?_pendingAt_cons h with ⟨ha, rfl, rfl⟩ | ⟨k, j, hk, rfl, hj⟩
    · rw [if_pos ha, Line.spent_zero]
      rfl
    · rw [hk, ih hj]

/-- The buffer once it is drained past its first `n` pending stores to the region. Fences that have
come to stand in front are gone as well. -/
def settled (b : Buffer) (r : Region) : Nat → Buffer
  | 0 => b
  | n + 1 => ⟨(Line.settle r (n + 1) b.lines).dropWhile (·.isFence)⟩

/-- The lines that are gone then. -/
def spent (b : Buffer) (r : Region) : Nat → List Line
  | 0 => []
  | n + 1 => Line.spent r (n + 1) b.lines ++ (Line.settle r (n + 1) b.lines).takeWhile (·.isFence)

/-- A partial flush up to the position of a pending store drains past that store. -/
theorem drain_eq {b : Buffer} (h : (b.pendingAt r)[n]? = some i) :
    b.drain (i + 1) r =
      ⟨Write.upTo r (n + 1) b.pending, b.spent r (n + 1), b.settled r (n + 1)⟩ := by
  unfold drain dropLeadingFences
  dsimp only
  rw [writes_eq_upTo h, dropped_eq_spent h, lines_eq_settle h]
  rfl

/-- What was pending has been written, or is pending still. -/
theorem upTo_append_pending_settled (b : Buffer) (h : n ≤ (b.pendingAt r).length) :
    Write.upTo r n b.pending ++ (b.settled r n).pending = b.pending := by
  cases n with
  | zero => rw [Write.upTo_zero, List.nil_append, settled]
  | succ n =>
    have hn := List.getElem?_eq_getElem (Nat.lt_of_succ_le h)
    have hpending := b.pending_drain ((b.pendingAt r)[n] + 1) r
    rwa [drain_eq hn] at hpending

/-- As many pending stores to the region are missing as the buffer was drained past. -/
theorem countP_pending_settled (b : Buffer) (h : n ≤ b.pending.countP (·.region.overlaps r)) :
    (b.settled r n).pending.countP (·.region.overlaps r) + n =
      b.pending.countP (·.region.overlaps r) := by
  have hwritten : (Write.upTo r n b.pending).countP (·.region.overlaps r) = n := by
    rw [List.countP_eq_length_filter] at h ⊢
    rw [Write.filter_upTo, List.length_take, Nat.min_eq_left h]
  have hsplit := congrArg (List.countP (·.region.overlaps r))
    (b.upTo_append_pending_settled (n := n) (by rwa [length_pendingAt]))
  rw [List.countP_append, hwritten] at hsplit
  omega

end Buffer

end StoreBuffer
