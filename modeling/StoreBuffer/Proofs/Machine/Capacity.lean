import StoreBuffer.Proofs.Machine.Eviction
import StoreBuffer.Proofs.Machine.Shape

/-! # What a store costs

Committed lines take up room in a buffer, but they stand in front of the pending ones and are the
first to leave. So a store drives out one store at most, and one of the thread's own stores reaches
memory only if the thread has as many pending ones as it may hold. -/

namespace StoreBuffer

namespace Line

variable {capacity : Nat} {ls gone kept : List Line}

/-- Where no store is committed, all are pending. -/
theorem length_pending_of_uncommitted (h : ∀ l ∈ ls, l.isStore = true → l.committed = false) :
    (ls.filterMap pendingWrite?).length = ls.countP (·.isStore) := by
  induction ls with
  | nil => rfl
  | cons l rest ih =>
    have ih := ih fun k hk => h k (List.mem_cons_of_mem _ hk)
    cases hw : l.write? with
    | none =>
      have hpending : l.pendingWrite? = none := by simp [pendingWrite?, hw]
      rw [List.filterMap_cons_none hpending, ih, List.countP_cons_of_neg (by simp [isStore, hw])]
    | some w =>
      have hstore : l.isStore = true := by simp [isStore, hw]
      have hpending := pendingWrite?_eq_some.mpr ⟨h l (List.mem_cons_self ..) hstore, hw⟩
      rw [List.filterMap_cons_some hpending, List.length_cons, ih, List.countP_cons_of_pos hstore]

/-- If a store is in front and there is one store too many, it is the only store that leaves. -/
theorem Overflow.exists_oldest {l : Line} {rest : List Line}
    (h : Overflow capacity (l :: rest) gone kept) (hl : l.isStore = true)
    (hcount : rest.countP (·.isStore) = capacity) :
    ∃ fences, gone = l :: fences ∧ fences.countP (·.isStore) = 0 := by
  have hfull : (l :: rest).countP (·.isStore) = capacity + 1 := by
    rw [List.countP_cons_of_pos hl, hcount]
  cases gone with
  | nil =>
    have hfits := h.fits
    rw [show kept = l :: rest from h.append.symm] at hfits
    omega
  | cons g fences =>
    obtain ⟨rfl, hrest⟩ := List.cons.inj h.append
    have hrest : rest = fences ++ kept := hrest
    refine ⟨fences, rfl, ?_⟩
    -- the stores behind the one in front fit, so all of them are kept
    have hclean : (rest.dropWhile (·.isFence)).countP (·.isStore) = capacity := by
      rw [← hcount]
      exact (⟨rest⟩ : Buffer).storeCount_dropLeadingFences
    have hkept := h.longest (by simp) (rest.dropWhile (·.isFence))
      ((List.dropWhile_suffix _).trans (List.suffix_cons ..)) (Nat.le_of_eq hclean)
      fun _ => isStore_of_head?_dropWhile
    have hle : capacity ≤ kept.countP (·.isStore) := by
      rw [← hclean]
      exact hkept.sublist.countP_le
    have hsum := congrArg (List.countP (·.isStore)) hrest
    rw [List.countP_append, hcount] at hsum
    omega

/-- If committed stores stand in front of pending ones, a pending store leaves only if all stores
are pending. -/
theorem Overflow.writes (h : Overflow capacity ls gone kept)
    (hcount : ls.countP (·.isStore) ≤ capacity + 1)
    (hfront : ∀ l ∈ ls.head?, l.isStore = true)
    (hfirst : (ls.filter (·.isStore)).Pairwise fun k l =>
      l.committed = true → k.committed = true) :
    gone.countP (·.isStore) ≤ 1 ∧ gone.filterMap pendingWrite? =
      if (ls.filterMap pendingWrite?).length = capacity + 1 then
        (ls.filterMap pendingWrite?).take 1 else [] := by
  have hpending := length_pending_le ls
  by_cases hfits : ls.countP (·.isStore) ≤ capacity
  · rw [h.idle hfits, if_neg (by omega)]
    simp
  · cases ls with
    | nil => simp at hfits
    | cons l rest =>
      have hl := hfront l rfl
      have hcons : (l :: rest).countP (·.isStore) = rest.countP (·.isStore) + 1 :=
        List.countP_cons_of_pos hl
      obtain ⟨fences, rfl, hfences⟩ := h.exists_oldest hl (by omega)
      have hnone : fences.filterMap pendingWrite? = [] := by
        rw [← List.length_eq_zero_iff]
        exact Nat.le_zero.mp (hfences ▸ length_pending_le fences)
      refine ⟨by rw [List.countP_cons_of_pos hl, hfences], ?_⟩
      cases hw : l.pendingWrite? with
      | none =>
        rw [List.filterMap_cons_none hw, List.filterMap_cons_none hw, hnone, if_neg]
        have hrest := length_pending_le rest
        omega
      | some w =>
        have hopen : l.committed = false := (pendingWrite?_eq_some.mp hw).1
        rw [List.filter_cons_of_pos hl] at hfirst
        have hall : ∀ k ∈ l :: rest, k.isStore = true → k.committed = false := by
          intro k hk hstore
          rcases List.mem_cons.mp hk with rfl | hk
          · exact hopen
          · have hbefore := List.rel_of_pairwise_cons hfirst (List.mem_filter.mpr ⟨hk, hstore⟩)
            simpa [hopen] using hbefore
        have hlength := length_pending_of_uncommitted hall
        rw [if_pos (by omega), List.filterMap_cons_some hw, List.filterMap_cons_some hw, hnone]
        rfl

end Line

theorem Buffer.Tidy.unnumbered {b : Buffer} (h : b.Tidy) :
    (∀ l ∈ (b.lines.map Line.unnumbered).head?, l.isStore = true) ∧
      ((b.lines.map Line.unnumbered).filter (·.isStore)).Pairwise fun k l =>
        l.committed = true → k.committed = true := by
  constructor
  · intro l hl
    rw [List.head?_map] at hl
    obtain ⟨k, hk, rfl⟩ := Option.map_eq_some_iff.mp hl
    exact h.oldest k hk
  · rw [List.filter_map, List.pairwise_map]
    exact h.committedFirst

namespace Machine

variable {σ : Type} [Host σ] {m : Machine σ} {loc : Location} {value : UInt64} {order : Order}

/-- A store that is neither bypassed nor sequentially consistent nor refused pushes its line. -/
theorem store_eq_pushLine (hplain : (Host.flags m.host).bypassed = false)
    (hweak : (order ||| m.minOrder).isSeqCst = false)
    (hok : (m.store loc value order).1 = .ok ()) :
    loc.Valid ∧ ∃ (m₁ : Machine σ) (l : Line), m₁.table = m.table ∧ m₁.config = m.config ∧
      m₁.host = (Host.hold m.host).2 ∧
      m₁.numbered (.store loc value (order ||| m.minOrder)) = .ok l ∧
      (m.store loc value order).2 = (m₁.pushLine m₁.thread l).withHost
        (Host.release (Host.hold m.host).1 (m₁.pushLine m₁.thread l).host) := by
  obtain ⟨log, hlog⟩ := noteOperation_eq (m := m)
    (.storeIssued m.thread loc value (order ||| m.minOrder))
  have hstore : m.store loc value order =
      ({ m with log } : Machine σ).masked (storeAs loc value (order ||| m.minOrder)) := by
    unfold store
    dsimp only
    rw [hlog]
  have hheld : (Host.hold m.host).1.bypassed = false := hplain
  rw [hstore] at hok ⊢
  unfold masked storeAs at hok ⊢
  dsimp only at hok ⊢
  rw [hheld, hweak] at hok ⊢
  cases hcheck : loc.check with
  | error f => simp [hcheck] at hok
  | ok u =>
    refine ⟨(Location.check_eq_ok_iff loc).mp hcheck, ?_⟩
    simp only [hcheck, Bool.false_eq_true, if_false] at hok ⊢
    unfold push at hok ⊢
    generalize hm₁ : ({ m with log } : Machine σ).withHost (Host.hold m.host).2 = m₁ at hok ⊢
    cases hnumbered : m₁.numbered (.store loc value (order ||| m.minOrder)) with
    | error f => simp [hnumbered] at hok
    | ok l =>
      subst hm₁
      exact ⟨({ m with log } : Machine σ).withHost (Host.hold m.host).2, l, rfl, rfl, rfl,
        hnumbered, rfl⟩

/-- A store that is buffered takes at most one store from the thread's buffer, and it writes one of
the thread's own stores to memory if and only if the thread has `capacity` of them pending: then the
oldest, which is the new one if the capacity is 0. Whatever is committed, the thread can have
`capacity` stores pending. -/
theorem store_evicts_one {c : Config} (h : Reachable c m)
    (hplain : (Host.flags m.host).bypassed = false)
    (hweak : (order ||| m.minOrder).isSeqCst = false)
    (hok : (m.store loc value order).1 = .ok ()) :
    let held := Host.hold m.host
    let t := Host.thread held.2
    let pending := m.table.pending t
    let offered := pending ++ [Write.ofStore loc value]
    let written := if pending.length = m.capacity then offered.take 1 else []
    let m' := (m.store loc value order).2
    ∃ gone kept,
      (m.table.linesOf t ++ [Line.store loc value (order ||| m.minOrder)]).map Line.unnumbered =
        gone ++ kept ∧
      (m'.table.linesOf t).map Line.unnumbered = kept ∧
      gone.countP (·.isStore) ≤ 1 ∧
      gone.filterMap Line.pendingWrite? = written ∧
      offered = written ++ m'.table.pending t ∧
      (m'.table.pending t).length = min (pending.length + 1) m.capacity ∧
      m'.host = Host.release held.1
        (((m.withHost held.2).withTable ⟨m.table.others t⟩).publish t written).host := by
  intro held t pending offered written m'
  have hshaped := h.shaped
  rw [← h.config] at hshaped
  obtain ⟨htidy, hcapped, -⟩ := Table.shaped_iff.mp hshaped
  obtain ⟨hv, m₁, l, htable, hconfig, hhost, hnumbered, hstore⟩ :=
    store_eq_pushLine hplain hweak hok
  have ht : m₁.thread = t := by rw [thread, hhost]
  have hcapacity : m₁.capacity = m.capacity := congrArg Config.capacity hconfig
  have hnumbers := unnumbered_numbered hnumbered
  have hfresh : l.committed = false := congrArg Line.committed hnumbers
  have hl : l.isStore = true := isStore_numbered hnumbered
  have hline : l.pendingWrite? = some (Write.ofStore loc value) := pendingWrite?_numbered hnumbered
  rw [ht] at hstore
  obtain ⟨-, -, gone, kept, hoverflow, hkept, -, hpublished, -⟩ :=
    pushLine_evicts (m := m₁) (by rw [htable]; exact htidy.owners) t l
  rw [htable, hcapacity] at hoverflow
  -- the lines offered are those of a tidy buffer, with one store more
  have hbuffer : (⟨m.table.linesOf t ++ [l]⟩ : Buffer).Tidy :=
    (htidy.buffers t).push (wellFormed_numbered hv hweak hnumbered) hfresh (.inl hl)
  have hoffered : ((m.table.linesOf t ++ [l]).map Line.unnumbered).filterMap Line.pendingWrite? =
      offered := by
    rw [Line.filterMap_unnumbered, List.filterMap_append, List.filterMap_cons_some hline]
    rfl
  have hcount : ((m.table.linesOf t ++ [l]).map Line.unnumbered).countP (·.isStore) ≤
      m.capacity + 1 := by
    rw [Line.countP_unnumbered, List.countP_append, List.countP_singleton, if_pos hl]
    exact Nat.succ_le_succ (hcapped t)
  obtain ⟨hfront, hfirst⟩ := hbuffer.unnumbered
  obtain ⟨hone, hwritten⟩ := hoverflow.writes hcount hfront hfirst
  have hlength : offered.length = pending.length + 1 := by simp [offered]
  have hwritten : gone.filterMap Line.pendingWrite? = written := by
    rw [hwritten, hoffered, hlength]
    simp [written]
  have htable' : m'.table = (m₁.pushLine t l).table := congrArg (·.table) hstore
  have hpending : m'.table.pending t = kept.filterMap Line.pendingWrite? := by
    rw [← hkept, Line.filterMap_unnumbered, htable', Table.pending]
  have hsplit : offered = written ++ m'.table.pending t := by
    rw [← hoffered, hoverflow.append, List.filterMap_append, hwritten, hpending]
  have hroom : pending.length ≤ m.capacity :=
    Nat.le_trans (Line.length_pending_le _) (hcapped t)
  have hsame : SameForeign t (m₁.withTable ⟨m₁.table.others t⟩)
      ((m.withHost held.2).withTable ⟨m.table.others t⟩) := by
    refine ⟨hhost, ?_⟩
    rw [htable]
    rfl
  refine ⟨gone, kept, ?_, htable' ▸ hkept, hone, hwritten, hsplit, ?_, ?_⟩
  · rw [← hoverflow.append, List.map_append, List.map_append, List.map_singleton,
      List.map_singleton, hnumbers]
  · have hsum := congrArg List.length hsplit
    rw [hlength, List.length_append] at hsum
    by_cases hfull : pending.length = m.capacity
    · have hwrites : written.length = 1 := by simp [written, hfull, hlength]
      omega
    · have hwrites : written = [] := by simp [written, hfull]
      rw [hwrites, List.length_nil] at hsum
      omega
  · rw [← (hsame.publish written).host, ← hwritten, ← hpublished]
    exact congrArg (·.host) hstore

/-- A load by thread 2 that drains thread 1 past `y` leaves the older store to `x` committed. It is
what leaves when thread 1 has stored to `y` again and stores to `z`: nothing is written, and both
new stores are pending. -/
theorem store_evicts_one_committed :
    let x : Location := ⟨⟨0x10000000⟩, 32⟩
    let y : Location := ⟨⟨0x10000004⟩, 32⟩
    let z : Location := ⟨⟨0x10000008⟩, 32⟩
    let m₁ := ((create {} ((Scripted.create 16).withScript [1])).issue
      { thread := ⟨1⟩, op := .store x 1 .monotonic }).2
    let m₂ := (m₁.issue { thread := ⟨1⟩, op := .store y 2 .release }).2
    let m₃ := (m₂.issue { thread := ⟨2⟩, op := .load y .acquire }).2
    let m₄ := (m₃.issue { thread := ⟨1⟩, op := .store y 3 .release }).2
    let m₅ := (m₄.store z 4 .monotonic).2
    (m₄.table.linesOf ⟨1⟩).map (fun l => (l.value, l.committed)) = [(1, true), (3, false)] ∧
      (m₅.table.pending ⟨1⟩).length = min ((m₄.table.pending ⟨1⟩).length + 1) 2 ∧
      m₅.host.arena.bytes.toList = [1, 0, 0, 0, 2, 0, 0, 0, 0, 0, 0, 0, 0, 0, 0, 0] := by
  intro x y z m₁ m₂ m₃ m₄ m₅
  have hreachable : Reachable {} m₄ :=
    .issue (.issue (.issue (.issue (.create _) _) _) _) _
  have hthread : Host.thread (Host.hold m₄.host).2 = ⟨1⟩ := by decide +kernel
  have hcapacity : m₄.capacity = 2 := by decide +kernel
  have hweak : (Order.monotonic ||| m₄.minOrder).isSeqCst = false := by decide +kernel
  have hok : (m₄.store z 4 .monotonic).1 = .ok () := by decide +kernel
  obtain ⟨gone, kept, -, -, -, -, -, hlength, -⟩ :=
    store_evicts_one hreachable (by decide +kernel) hweak hok
  rw [hthread, hcapacity] at hlength
  exact ⟨by decide +kernel, hlength, by decide +kernel⟩

end Machine

end StoreBuffer
