import StoreBuffer.Table.Basic

/-! # Numbering of buffered lines

Sequentially consistent lines are numbered across the whole table, atomic lines within their
location. A new line gets the number after the greatest one in use. When lines leave, the numbers
above theirs move down, so that no gap stays and the order of the others does not change.
`Table.Numbered` says what the numbers are like as long as lines get them this way. -/

namespace StoreBuffer

namespace Counter

/-- Numbers have fifteen bits. -/
def greatest : Int := 0x7fff

/-- The number after `n`. -/
def next (c : Counter) (n : Int) : Except Fault Int :=
  if n < greatest then .ok (n + 1) else .error (.counterOverflow c)

/-- Puts `x` in its place in a list whose greatest number comes first. -/
def insertDescending (x : Int) : List Int → List Int
  | [] => [x]
  | y :: rest => if y ≤ x then x :: y :: rest else y :: insertDescending x rest

/-- The numbers in use among `ns`, greatest first. -/
def descending (ns : List Int) : List Int := (ns.filter (· ≠ 0)).foldr insertDescending []

/-- The number `n` after the numbers in `released`, greatest first, have become free: it moves down
by one for each that lies below it by then. -/
def closeGaps (released : List Int) (n : Int) : Int :=
  released.foldl (fun n r => if r < n then n - 1 else n) n

theorem perm_insertDescending (x : Int) (ys : List Int) :
    (insertDescending x ys).Perm (x :: ys) := by
  induction ys with
  | nil => exact List.Perm.refl _
  | cons y rest ih =>
    rw [insertDescending]
    split
    · exact List.Perm.refl _
    · exact (List.Perm.cons y ih).trans (List.Perm.swap x y rest)

theorem perm_descending (ns : List Int) : (descending ns).Perm (ns.filter (· ≠ 0)) := by
  unfold descending
  induction ns.filter (· ≠ 0) with
  | nil => exact List.Perm.refl _
  | cons n rest ih => exact (perm_insertDescending n _).trans (List.Perm.cons n ih)

theorem pairwise_insertDescending {x : Int} {ys : List Int} (h : ys.Pairwise (· ≥ ·)) :
    (insertDescending x ys).Pairwise (· ≥ ·) := by
  induction ys with
  | nil => exact List.pairwise_singleton ..
  | cons y rest ih =>
    obtain ⟨hy, hrest⟩ := List.pairwise_cons.mp h
    rw [insertDescending]
    split
    · rename_i hyx
      refine List.pairwise_cons.mpr ⟨?_, h⟩
      intro z hz
      rcases List.mem_cons.mp hz with rfl | hz
      · exact hyx
      · have := hy z hz; omega
    · rename_i hyx
      refine List.pairwise_cons.mpr ⟨?_, ih hrest⟩
      intro z hz
      rcases List.mem_cons.mp ((perm_insertDescending x rest).mem_iff.mp hz) with rfl | hz
      · omega
      · exact hy z hz

/-- The greatest number is freed first. -/
theorem pairwise_descending (ns : List Int) : (descending ns).Pairwise (· ≥ ·) := by
  unfold descending
  induction ns.filter (· ≠ 0) with
  | nil => exact List.Pairwise.nil
  | cons n rest ih => exact pairwise_insertDescending ih

end Counter

namespace Line

/-- The location of a numbered atomic line that shares bytes with `loc` without being at `loc`. -/
def clash? (l : Line) (loc : Location) : Option Location :=
  if l.atomicNo = 0 then none else l.loc?.filter (·.clashes loc)

end Line

namespace Table

/-- The number of a new sequentially consistent line. -/
def nextSeqNo (t : Table) : Except Fault Int :=
  Counter.sequential.next ((t.lines.map (·.seqNo)).foldl max 0)

/-- The greatest of `n` and the numbers that lines have at `loc`, or the location of the first
numbered line that is in the way there. -/
def greatestAtomicNo (loc : Location) (n : Int) : List Line → Except Location Int
  | [] => .ok n
  | l :: rest =>
    match l.write? with
    | none => greatestAtomicNo loc n rest
    | some w =>
      if l.atomicNo = 0 then greatestAtomicNo loc n rest
      else if w.loc = loc then greatestAtomicNo loc (max n l.atomicNo) rest
      else if w.loc.clashes loc then .error w.loc
      else greatestAtomicNo loc n rest

/-- The number of a new atomic line at `loc`. The first line in the table that makes it impossible
is named. -/
def nextAtomicNo (t : Table) (loc : Location) : Except Fault Int :=
  match t.slots.foldlM (fun n s => greatestAtomicNo loc n s.buffer.lines) 0 with
  | .error other => .error (.overlappingAtomics loc other)
  | .ok n => Counter.atomic.next n

/-- The search goes on where it has come to, unless a line was in the way. -/
theorem greatestAtomicNo_append (loc : Location) (n : Int) (ks ls : List Line) :
    greatestAtomicNo loc n (ks ++ ls) =
      (greatestAtomicNo loc n ks).bind fun n => greatestAtomicNo loc n ls := by
  induction ks generalizing n with
  | nil => rfl
  | cons k rest ih =>
    rw [List.cons_append, greatestAtomicNo, greatestAtomicNo]
    cases k.write? with
    | none => exact ih n
    | some w =>
      dsimp only
      split
      · exact ih n
      · split
        · exact ih _
        · split
          · rfl
          · exact ih n

/-- The slots are searched one after the other. -/
theorem foldlM_greatestAtomicNo (t : Table) (loc : Location) (n : Int) :
    t.slots.foldlM (fun n s => greatestAtomicNo loc n s.buffer.lines) n =
      greatestAtomicNo loc n t.lines := by
  obtain ⟨slots⟩ := t
  unfold lines
  dsimp only
  induction slots generalizing n with
  | nil => rfl
  | cons s rest ih =>
    rw [List.foldlM_cons, List.flatMap_cons, greatestAtomicNo_append]
    exact congrArg (Except.bind _) (funext ih)

/-- What the search makes of one line. -/
theorem greatestAtomicNo_cons (loc : Location) {n : Int} (hn : 0 ≤ n) (l : Line)
    (rest : List Line) : greatestAtomicNo loc n (l :: rest) = match l.clash? loc with
      | some other => .error other
      | none => greatestAtomicNo loc (if l.isAt loc then max n l.atomicNo else n) rest := by
  rw [greatestAtomicNo, Line.clash?, Line.isAt, Line.loc?]
  cases l.write? with
  | none => simp
  | some w =>
    have hmax : max n 0 = n := Int.max_eq_left hn
    by_cases hno : l.atomicNo = 0
    · simp [hno, hmax]
    · by_cases hsame : w.loc = loc
      · simp [hno, hsame, Location.clashes, Option.filter_some]
      · cases hclash : w.loc.clashes loc <;> simp [hno, hsame, hclash, Option.filter_some]

/-- Unless a line is in the way, the search finds the greatest number. -/
theorem greatestAtomicNo_eq (loc : Location) {n : Int} (hn : 0 ≤ n) (ls : List Line) :
    greatestAtomicNo loc n ls = match ls.findSome? (·.clash? loc) with
      | some other => .error other
      | none => .ok (((ls.filter (·.isAt loc)).map (·.atomicNo)).foldl max n) := by
  induction ls generalizing n with
  | nil => rfl
  | cons l rest ih =>
    rw [greatestAtomicNo_cons loc hn, List.findSome?_cons, List.filter_cons]
    cases l.clash? loc with
    | some other => rfl
    | none =>
      dsimp only
      split
      · exact ih (by omega)
      · exact ih hn

theorem nextAtomicNo_eq (t : Table) (loc : Location) :
    t.nextAtomicNo loc = match t.lines.findSome? (·.clash? loc) with
      | some other => .error (.overlappingAtomics loc other)
      | none =>
        Counter.atomic.next (((t.lines.filter (·.isAt loc)).map (·.atomicNo)).foldl max 0) := by
  rw [nextAtomicNo, foldlM_greatestAtomicNo, greatestAtomicNo_eq loc (Int.le_refl 0)]
  cases t.lines.findSome? (·.clash? loc) <;> rfl

/-- Frees the numbers that `retired` had among the sequentially consistent lines. -/
def releaseSeqNos (retired : List Line) (t : Table) : Table :=
  let released := Counter.descending (retired.map (·.seqNo))
  t.mapLines fun l => { l with seqNo := Counter.closeGaps released l.seqNo }

/-- Frees the numbers that `retired` had at their locations. -/
def releaseAtomicNos (retired : List Line) (t : Table) : Table :=
  t.mapLines fun l =>
    match l.loc? with
    | none => l
    | some loc =>
      let released := Counter.descending ((retired.filter (·.isAt loc)).map (·.atomicNo))
      { l with atomicNo := Counter.closeGaps released l.atomicNo }

/-- Frees all numbers of lines that have left the table. -/
def retire (retired : List Line) (t : Table) : Table :=
  releaseAtomicNos retired (releaseSeqNos retired t)

/-- The numbers in use are positive, distinct and ascending in program order. -/
structure Numbered (t : Table) : Prop where
  distinct : ((t.lines.map (·.seqNo)).filter (· ≠ 0)).Nodup
  ascending : ∀ s ∈ t.slots, (0 :: (s.buffer.lines.map (·.seqNo)).filter (· ≠ 0)).Pairwise (· < ·)
  atomicDistinct : (t.lines.filter (·.atomicNo ≠ 0)).Pairwise fun a b =>
    a.loc? = b.loc? → a.atomicNo ≠ b.atomicNo
  atomicAscending : ∀ s ∈ t.slots, (s.buffer.lines.filter (·.atomicNo ≠ 0)).Pairwise fun a b =>
    a.loc? = b.loc? → a.atomicNo < b.atomicNo

theorem numbered_iff (t : Table) : t.Numbered ↔
    ((t.lines.map (·.seqNo)).filter (· ≠ 0)).Nodup ∧
    (∀ s ∈ t.slots,
      (0 :: (s.buffer.lines.map (·.seqNo)).filter (· ≠ 0)).Pairwise (· < ·)) ∧
    ((t.lines.filter (·.atomicNo ≠ 0)).Pairwise fun a b =>
      a.loc? = b.loc? → a.atomicNo ≠ b.atomicNo) ∧
    (∀ s ∈ t.slots, (s.buffer.lines.filter (·.atomicNo ≠ 0)).Pairwise fun a b =>
      a.loc? = b.loc? → a.atomicNo < b.atomicNo) :=
  ⟨fun h => ⟨h.1, h.2, h.3, h.4⟩, fun h => ⟨h.1, h.2.1, h.2.2.1, h.2.2.2⟩⟩

instance (t : Table) : Decidable t.Numbered := decidable_of_iff' _ (numbered_iff t)

theorem owners_retire (retired : List Line) (t : Table) : (t.retire retired).owners = t.owners := by
  rw [retire, releaseAtomicNos, owners_mapLines, releaseSeqNos, owners_mapLines]

end Table

end StoreBuffer
