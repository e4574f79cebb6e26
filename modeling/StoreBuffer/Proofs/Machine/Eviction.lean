import StoreBuffer.Proofs.Machine.Foreign
import StoreBuffer.Proofs.Machine.Lines
import StoreBuffer.Proofs.Machine.Pushing

/-! # What a pushed line drives out

`Machine.Evicts` is the loop that makes room, without a bound on its rounds; it comes to its end.
What stays is the longest end of the thread's lines that begins with a store and fits:
`Line.Overflow` says so of a list, and follows the loop round by round. The thread's lines that
leave and that memory did not hold are published one after the other; nothing else of the thread is
written. -/

namespace StoreBuffer

namespace Line

/-- How lines divide if no more than `capacity` stores may stay: all of them stay if they may, and
otherwise the longest end that begins with a store. -/
structure Overflow (capacity : Nat) (ls gone kept : List Line) : Prop where
  append : ls = gone ++ kept
  fits : kept.countP (·.isStore) ≤ capacity
  idle : ls.countP (·.isStore) ≤ capacity → gone = []
  front : gone ≠ [] → ∀ l ∈ kept.head?, l.isStore = true
  longest : gone ≠ [] → ∀ ks, ks <:+ ls → ks.countP (·.isStore) ≤ capacity →
    (∀ l ∈ ks.head?, l.isStore = true) → ks <:+ kept

variable {capacity : Nat} {l : Line} {ls ks gone kept rest : List Line}

/-- An end that begins with a store lies behind the fences in front. -/
theorem suffix_dropWhile_isFence (h : ks <:+ ls) (hfront : ∀ l ∈ ks.head?, l.isStore = true) :
    ks <:+ ls.dropWhile (·.isFence) := by
  induction ls with
  | nil => exact h
  | cons l rest ih =>
    cases hl : l.isFence with
    | false => rwa [List.dropWhile_cons_of_neg (by simp [hl])]
    | true =>
      rw [List.dropWhile_cons_of_pos hl]
      rcases List.suffix_cons_iff.mp h with rfl | h
      · have hstore := hfront l rfl
        rw [isStore_eq_not_isFence, hl] at hstore
        contradiction
      · exact ih h

/-- Of the oldest line and the fences behind it, at most the line is pending. -/
theorem filterMap_cons_fences (l : Line) (ls ks : List Line) :
    (l :: (ls.takeWhile (·.isFence) ++ ks)).filterMap pendingWrite? =
      l.pendingWrite?.toList ++ ks.filterMap pendingWrite? := by
  have hfences : (ls.takeWhile (·.isFence)).filterMap pendingWrite? = [] := by
    rw [List.filterMap_eq_nil_iff]
    intro k hk
    have hall := List.all_takeWhile (p := (·.isFence)) (l := ls)
    exact pendingWrite?_eq_none_of_isFence (List.all_eq_true.mp hall k hk)
  cases hl : l.pendingWrite? with
  | none =>
    rw [List.filterMap_cons_none hl, List.filterMap_append, hfences]
    rfl
  | some w =>
    rw [List.filterMap_cons_some hl, List.filterMap_append, hfences]
    rfl

theorem overflow_nil (h : ls.countP (·.isStore) ≤ capacity) : Overflow capacity ls [] ls where
  append := rfl
  fits := h
  idle _ := rfl
  front hgone := absurd rfl hgone
  longest hgone := absurd rfl hgone

/-- The oldest line leaves with the fences behind it, and what is left divides in its turn. -/
theorem Overflow.cons (hfull : capacity < (l :: rest).countP (·.isStore))
    (h : Overflow capacity (rest.dropWhile (·.isFence)) gone kept) :
    Overflow capacity (l :: rest) (l :: (rest.takeWhile (·.isFence) ++ gone)) kept where
  append := by
    rw [List.cons_append, List.append_assoc, ← h.append, List.takeWhile_append_dropWhile]
  fits := h.fits
  idle hfits := absurd hfull (Nat.not_lt.mpr hfits)
  front _ k hk := by
    cases gone with
    | nil =>
      rw [show kept = rest.dropWhile (·.isFence) from h.append.symm] at hk
      exact isStore_of_head?_dropWhile hk
    | cons g gs => exact h.front (by simp) k hk
  longest _ ks hks hcount hfront := by
    rcases List.suffix_cons_iff.mp hks with rfl | hks
    · exact absurd hfull (Nat.not_lt.mpr hcount)
    · have hks := suffix_dropWhile_isFence hks hfront
      cases gone with
      | nil => rwa [show kept = rest.dropWhile (·.isFence) from h.append.symm]
      | cons g gs => exact h.longest (by simp) ks hks hcount hfront

end Line

namespace Machine

variable {σ : Type} {t : ThreadId} {m m' : Machine σ}

/-! ## The departure of the oldest line -/

/-- The oldest line is written if it is pending. -/
theorem sameForeign_dropOldest [Memory σ] {l : Line} {rest : List Line}
    (h : m.table.linesOf t = l :: rest) :
    SameForeign t (m.dropOldest t)
      (m.withHost (Memory.storeAll l.pendingWrite?.toList m.host)) := by
  unfold dropOldest
  cases hb : m.table.buffer? t with
  | none => simp [Table.linesOf, hb] at h
  | some b =>
    have hlines : b.lines = l :: rest := by rwa [Table.linesOf_of_buffer? hb] at h
    have hoffered : (b.erase 0).1.toList = [l] := by rw [Buffer.erase, hlines]; rfl
    constructor
    · show Memory.storeAll ((b.erase 0).1.toList.filterMap Line.pendingWrite?) m.host = _
      rw [hoffered]
      cases hw : l.pendingWrite? <;> simp [hw, withHost]
    · show Table.foreign (Table.retire _ _) t = m.table.foreign t
      rw [Table.foreign_retire, Table.foreign_modify_self]

variable [Host σ]

theorem publish_append (t : ThreadId) (ws vs : List Write) (m : Machine σ) :
    m.publish t (ws ++ vs) = (m.publish t ws).publish t vs := by
  induction ws generalizing m with
  | nil => rfl
  | cons w ws ih => exact ih _

/-- An eviction publishes the oldest line, if it is pending, and takes it away. -/
theorem evictOldest_publishes (hn : m.table.owners.Nodup) {l : Line} {rest : List Line}
    (h : m.table.linesOf t = l :: rest) :
    ((m.evictOldest t l).table.linesOf t).map Line.unnumbered =
        (rest.map Line.unnumbered).dropWhile (·.isFence) ∧
      SameForeign t (m.evictOldest t l) (m.publish t l.pendingWrite?.toList) := by
  -- renumbering while the location is resolved does not show
  have hdropped {m₁ : Machine σ} (hsame : (m₁.table.linesOf t).map Line.unnumbered =
      (m.table.linesOf t).map Line.unnumbered) :
      ((m₁.dropOldest t).table.linesOf t).map Line.unnumbered =
        (rest.map Line.unnumbered).dropWhile (·.isFence) := by
    obtain ⟨retired, hlines⟩ := linesOf_dropOldest m₁ t
    have hclean (ls : List Line) : (ls.dropWhile (·.isFence)).map Line.unnumbered =
        (ls.map Line.unnumbered).dropWhile (·.isFence) := by
      rw [List.dropWhile_map]
      rfl
    have htail := congrArg List.tail hsame
    rw [h, List.map_cons, List.tail_cons, ← List.map_tail] at htail
    rw [hlines, if_pos rfl, List.map_map, ← htail, ← hclean]
    rfl
  unfold evictOldest
  cases hw : l.pendingWrite? with
  | none =>
    have hpublished := sameForeign_dropOldest h
    rw [hw] at hpublished
    exact ⟨hdropped rfl, hpublished⟩
  | some w =>
    have hresolved := (sheds_resolve hn t w.loc false).table.unnumbered_linesOf hn
      (o := t) (by simp)
    refine ⟨hdropped hresolved, ?_⟩
    obtain ⟨l', rest', hlines, hl', -⟩ : ∃ l' rest',
        (m.resolve t w.loc false).table.linesOf t = l' :: rest' ∧
          l'.unnumbered = l.unnumbered ∧ rest'.map Line.unnumbered = rest.map Line.unnumbered := by
      rw [h, List.map_cons] at hresolved
      exact List.map_eq_cons_iff.mp hresolved
    have hw' : l'.pendingWrite? = some w := by
      rw [← Line.pendingWrite?_unnumbered, hl', Line.pendingWrite?_unnumbered, hw]
    have hpublished := sameForeign_dropOldest hlines
    rw [hw'] at hpublished
    exact hpublished

/-! ## The loop -/

/-- The rounds of the loop that makes room for a line: while the buffer of `t` holds too many
stores, its oldest line is evicted. -/
inductive Evicts (t : ThreadId) : Machine σ → Machine σ → Prop
  | fits {m : Machine σ} (h : m.overdue? t = none) : Evicts t m m
  | round {m m' : Machine σ} {l : Line} (h : m.overdue? t = some l)
      (rest : Evicts t (m.evictOldest t l) m') : Evicts t m m'

theorem evicts_evictWhileOverdue (h : m.table.owners.Nodup) {n : Nat}
    (hn : (m.table.linesOf t).length ≤ n) : Evicts t m (m.evictWhileOverdue t n) := by
  induction n generalizing m with
  | zero => exact .fits (overdue?_eq_none_of_nil (List.length_eq_zero_iff.mp (Nat.le_zero.mp hn)))
  | succ n ih =>
    unfold evictWhileOverdue
    cases hover : m.overdue? t with
    | none => exact .fits hover
    | some l =>
      have hlen := length_evictOldest h t l
      exact .round hover (ih ((sheds_evictOldest h t l).owners h) (by omega))

/-- The loop comes to its end. -/
theorem evicts_evictExcess (h : m.table.owners.Nodup) (t : ThreadId) :
    Evicts t m (m.evictExcess t) := evicts_evictWhileOverdue h (Nat.le_refl _)

/-- What the loop leaves, and what it publishes. -/
theorem Evicts.overflow (h : Evicts t m m') (hn : m.table.owners.Nodup) :
    ∃ gone kept,
      Line.Overflow m.capacity ((m.table.linesOf t).map Line.unnumbered) gone kept ∧
      (m'.table.linesOf t).map Line.unnumbered = kept ∧
      SameForeign t m' (m.publish t (gone.filterMap Line.pendingWrite?)) := by
  induction h with
  | @fits m hover =>
    have hfits := storesOf_le_of_overdue? hover
    rw [Table.storesOf, ← Line.countP_unnumbered] at hfits
    exact ⟨[], _, Line.overflow_nil hfits, rfl, .refl ..⟩
  | @round m m' l hover _ ih =>
    have hsheds := sheds_evictOldest hn t l
    have hcapacity : (m.evictOldest t l).capacity = m.capacity :=
      congrArg Config.capacity hsheds.config
    obtain ⟨rest, hlines, hfull⟩ := oldest_of_overdue? hover
    obtain ⟨hrest, hone⟩ := evictOldest_publishes hn hlines
    obtain ⟨gone, kept, hoverflow, hkept, hpublished⟩ := ih (hsheds.owners hn)
    rw [hcapacity, hrest] at hoverflow
    rw [Table.storesOf, ← Line.countP_unnumbered, hlines, List.map_cons] at hfull
    have hall := hoverflow.cons hfull
    rw [← List.map_cons, ← hlines] at hall
    refine ⟨_, kept, hall, hkept, hpublished.trans ?_⟩
    rw [Line.filterMap_cons_fences, publish_append]
    exact hone.publish _

/-! ## Pushing -/

theorem buffer?_prune_of_linesOf_nil {u : Table} (h : u.owners.Nodup) (hnil : u.linesOf t = []) :
    u.prune.buffer? t = none := by
  cases hb : u.prune.buffer? t with
  | none => rfl
  | some b =>
    obtain ⟨s, hs, -, rfl⟩ := Table.exists_slot_of_buffer? hb
    have hempty : s.buffer.lines = [] := by
      rw [← Table.linesOf_of_buffer? hb, Table.linesOf_prune h, hnil]
    have hkept := (List.mem_filter.mp hs).2
    simp [Buffer.isEmpty, hempty] at hkept

/-- Pushing evicts what does not fit and nothing else, on every host and from every table in which a
thread has one slot. The loop that makes room ends. The thread keeps its lines and the new one if
there are no more than `capacity` stores among them, else the longest end that begins with a store
and has no more; then the others are gone, and the pending ones among them have been published in
their order. Apart from that the host and the other threads' buffers are as before. -/
theorem pushLine_evicts (h : m.table.owners.Nodup) (t : ThreadId) (l : Line) :
    let m' := m.pushLine t l
    (∃ m₁ m₂, m₁.table = m.table.append t l ∧ m₁.host = m.host ∧ m₁.config = m.config ∧
      Evicts t m₁ m₂ ∧ m' = m₂.withTable m₂.table.prune) ∧
    Table.Thins (fun _ => True) (m.table.append t l) m'.table ∧
    ∃ gone kept,
      Line.Overflow m.capacity ((m.table.linesOf t ++ [l]).map Line.unnumbered) gone kept ∧
      (m'.table.linesOf t).map Line.unnumbered = kept ∧
      (kept = [] → m'.table.buffer? t = none) ∧
      let published := (m.withTable ⟨m.table.others t⟩).publish t
        (gone.filterMap Line.pendingWrite?)
      m'.host = published.host ∧
      ∀ o, o ≠ t → (m'.table.linesOf o).map Line.unnumbered =
        (published.table.linesOf o).map Line.unnumbered := by
  dsimp only
  obtain ⟨m₁, htable, hhost, hconfig, hpush⟩ := pushLine_eq_evictExcess t l m
  have howners : m₁.table.owners.Nodup := by
    rw [htable]
    exact Table.nodup_owners_append h t l
  have hevicts := evicts_evictExcess howners t
  have hsheds := sheds_evictExcess howners t
  have howners' := hsheds.owners howners
  obtain ⟨gone, kept, hoverflow, hkept, hpublished⟩ := hevicts.overflow howners
  have hlines : m₁.table.linesOf t = m.table.linesOf t ++ [l] := by
    rw [htable, Table.linesOf_append, if_pos rfl]
  have hcapacity : m₁.capacity = m.capacity := congrArg Config.capacity hconfig
  -- neither the thread's own lines nor its new one matter to what is published
  have hstart : SameForeign t m₁ (m.withTable ⟨m.table.others t⟩) := by
    refine ⟨hhost, ?_⟩
    rw [htable, Table.foreign_append_self]
    exact (Table.foreign_others ..).symm
  have hsame := hpublished.trans (hstart.publish _)
  generalize m₁.evictExcess t = m₂ at *
  rw [hpush]
  refine ⟨⟨m₁, m₂, htable, hhost, hconfig, hevicts, rfl⟩, ?_, gone, kept, ?_, ?_, fun hnil => ?_,
    hsame.host, fun o ho => ?_⟩
  · rw [← htable]
    exact hsheds.table.tail .prune
  · rwa [← hlines, ← hcapacity]
  · show (m₂.table.prune.linesOf t).map _ = kept
    rwa [Table.linesOf_prune howners']
  · refine buffer?_prune_of_linesOf_nil howners' ?_
    rwa [hnil, List.map_eq_nil_iff] at hkept
  · show (m₂.table.prune.linesOf o).map _ = _
    rw [Table.linesOf_prune howners']
    exact hsame.unnumbered_linesOf ho

/-- Thread 1 may keep two stores and has five when one more comes, two of them committed. The write
of 1 to `loc 4` is published behind thread 2's write of 9; what was committed is not written
again. -/
theorem pushLine_evicts_crowded :
    let loc (i : UInt64) : Location := ⟨⟨0x10000000 + i⟩, 32⟩
    let committed (l : Line) : Line := { l with committed := true }
    let numbered (l : Line) (n : Int) : Line := { l with atomicNo := n }
    let own : List Line := [.fence .release, committed (.store (loc 0) 7 .monotonic),
      numbered (.store (loc 4) 1 .atomicOp) 1, .fence .release,
      committed (.store (loc 8) 8 .monotonic), .store (loc 12) 2 .monotonic,
      numbered (.store (loc 4) 3 .atomicOp) 2]
    let m := (create {} ((Scripted.create 16).withScript [1])).withTable
      ⟨[⟨⟨1⟩, ⟨own⟩⟩, ⟨⟨2⟩, ⟨[.store (loc 4) 9 .monotonic]⟩⟩]⟩
    let line := Line.store (loc 12) 4 .monotonic
    let m' := m.pushLine ⟨1⟩ line
    m.table.owners.Nodup ∧
      (m'.table.linesOf ⟨1⟩).map (fun l => (l.value, l.atomicNo)) = [(3, 1), (4, 0)] ∧
      m'.table.buffer? ⟨2⟩ = none ∧
      m'.host.arena.bytes.toList = [0, 0, 0, 0, 1, 0, 0, 0, 0, 0, 0, 0, 2, 0, 0, 0] ∧
      ∃ gone, Line.Overflow 2 ((m.table.linesOf ⟨1⟩ ++ [line]).map Line.unnumbered) gone
          ((m'.table.linesOf ⟨1⟩).map Line.unnumbered) ∧
        m'.host = ((m.withTable ⟨m.table.others ⟨1⟩⟩).publish ⟨1⟩
          (gone.filterMap Line.pendingWrite?)).host := by
  intro loc committed numbered own m line m'
  have howners : m.table.owners.Nodup := by decide
  obtain ⟨-, -, gone, kept, hoverflow, rfl, -, hhost, -⟩ :=
    pushLine_evicts howners ⟨1⟩ line
  exact ⟨howners, by decide +kernel, by decide +kernel, by decide +kernel, gone, hoverflow, hhost⟩

end Machine

end StoreBuffer
