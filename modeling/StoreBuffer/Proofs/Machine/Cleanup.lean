import StoreBuffer.Proofs.Machine.Refusals
import StoreBuffer.Proofs.Table.Removal

/-! # What a cleanup takes away

A cleanup looks up one pointer after the other and takes the caller's stores into each object it
finds. In the end this is one removal, from all of the objects at once, so neither the order of the
pointers nor repetitions matter. -/

namespace StoreBuffer

namespace Host

variable {σ : Type} [Host σ]

/-- What the pointers point into, looked up one after the other. -/
def objectsAt : List Addr → σ → List (Option Region) × σ
  | [], h => ([], h)
  | p :: rest, h =>
    let found := objectAt p h
    let r := objectsAt rest found.2
    (found.1 :: r.1, r.2)

/-- Looking up leaves no trace on hosts that only answer. -/
theorem objectsAt_of_pure (hpure : ∀ p (h : σ), (objectAt p h).2 = h) (ptrs : List Addr) (h : σ) :
    objectsAt ptrs h = (ptrs.map fun p => (objectAt p h).1, h) := by
  induction ptrs with
  | nil => rfl
  | cons p rest ih =>
    rw [objectsAt, hpure, ih]
    rfl

end Host

namespace Machine

variable {σ : Type} {m : Machine σ}

/-- What is discarded is counted. -/
theorem count_discardRange (h : m.table.owners.Nodup) (t : ThreadId) (r : Region) :
    (m.discardRange (some t) r).1 = (m.table.dropped t [r]).length := by
  show ((((m.table.slots.filter _).map _).flatMap _)).length = _
  rw [List.flatMap_map, Table.flatMap_searched h t (f := fun b => (b.evict r).stores) rfl]
  refine congrArg List.length (List.filter_congr fun l _ => ?_)
  rw [Line.within_singleton, Bool.not_not]

theorem stats_discardRange (only : Option ThreadId) (r : Region) (m : Machine σ) :
    (m.discardRange only r).2.stats =
      { m.stats with linesFreed := m.stats.linesFreed + (m.discardRange only r).1 } := by
  unfold discardRange
  dsimp only
  split <;> rfl

variable [Host σ]

/-- One object after the other is removed, and in the end all of them are. -/
theorem dropObjects_found {ptrs : List Addr} {objects : List Region}
    (hshaped : m.table.Shaped m.capacity) (hranked : m.table.Ranked)
    (hfound : (Host.objectsAt ptrs m.host).1 = objects.map some) (t : ThreadId) :
    (m.dropObjects t ptrs).1 = .ok () ∧
      (m.dropObjects t ptrs).2.table = m.table.without t objects ∧
      (m.dropObjects t ptrs).2.stats =
        { m.stats with linesFreed := m.stats.linesFreed + (m.table.dropped t objects).length } ∧
      (m.dropObjects t ptrs).2.config = m.config ∧
      (m.dropObjects t ptrs).2.host = (Host.objectsAt ptrs m.host).2 := by
  induction ptrs generalizing m objects with
  | nil =>
    obtain rfl : objects = [] := List.map_eq_nil_iff.mp hfound.symm
    rw [Table.without_nil hshaped, Table.dropped_nil]
    exact ⟨rfl, rfl, rfl, rfl, rfl⟩
  | cons p rest ih =>
    have hfound : (Host.objectAt p m.host).1 ::
        (Host.objectsAt rest (Host.objectAt p m.host).2).1 = objects.map some := hfound
    obtain ⟨r, others, rfl, hr, hothers⟩ := List.map_eq_cons_iff.mp hfound.symm
    let m₀ := m.withHost (Host.objectAt p m.host).2
    let m₁ := (m₀.discardRange (some t) r).2.note (.cleanedUp t r (m₀.discardRange (some t) r).1)
    have hdrop : m.dropObjects t (p :: rest) = m₁.dropObjects t rest := by
      rw [dropObjects]
      dsimp only
      rw [← hr]
    have htidy : m₀.table.Tidy := (Table.shaped_iff.mp hshaped).1
    have htable : m₁.table = m.table.without t [r] := by
      show (m₀.discardRange (some t) r).2.table = _
      rw [table_discardRange, Table.prune_depart_range htidy hranked]
      rfl
    have hconfig : m₁.config = m.config := (sheds_discardRange (some t) r m₀).config
    have hhost : m₁.host = (Host.objectAt p m.host).2 := host_discardRange (some t) r
    have hstats : m₁.stats =
        { m.stats with linesFreed := m.stats.linesFreed + (m.table.dropped t [r]).length } := by
      show (m₀.discardRange (some t) r).2.stats = _
      rw [stats_discardRange, count_discardRange (m := m₀) hshaped.owners]
      rfl
    have hshaped₁ : m₁.table.Shaped m₁.capacity := by
      rw [show m₁.capacity = m.capacity from congrArg Config.capacity hconfig]
      exact shaped_discardRange (m := m₀) hshaped (some t) r
    have hranked₁ : m₁.table.Ranked :=
      TableOp.ranked_perform (m := m₀) hranked (.discardRange (some t) r)
    have hrest : (Host.objectsAt rest m₁.host).1 = others.map some := by
      rw [hhost]
      exact hothers.symm
    obtain ⟨hok, htable', hstats', hconfig', hhost'⟩ := ih hshaped₁ hranked₁ hrest
    rw [htable] at htable' hstats'
    rw [hdrop]
    refine ⟨hok, ?_, ?_, hconfig'.trans hconfig, ?_⟩
    · rw [htable', Table.without_without hranked]
      rfl
    · rw [hstats', hstats]
      have hsum := Table.length_dropped_without hranked.owners t [r] others
      rw [List.singleton_append] at hsum
      rw [← hsum, Nat.add_assoc]
    · rw [hhost', hhost]
      rfl

/-- The caller of a cleanup, as the host names it once the mask is raised. -/
def cleaner (m : Machine σ) : ThreadId := Host.thread (Host.hold m.host).2

/-- What the pointers of a cleanup point into. -/
def targets (ptrs : List Addr) (m : Machine σ) : List (Option Region) × σ :=
  Host.objectsAt (ptrs.filter (!·.isNull)) (Host.hold m.host).2

theorem cleanup_found {ptrs : List Addr} {objects : List Region}
    (hshaped : m.table.Shaped m.capacity) (hranked : m.table.Ranked)
    (hfound : (m.targets ptrs).1 = objects.map some) :
    (m.cleanup ptrs).1 = .ok () ∧
      (m.cleanup ptrs).2.table = m.table.without m.cleaner objects ∧
      (m.cleanup ptrs).2.stats = { m.stats with
        linesFreed := m.stats.linesFreed + (m.table.dropped m.cleaner objects).length } ∧
      (m.cleanup ptrs).2.config = m.config ∧
      (m.cleanup ptrs).2.host = Host.release (Host.flags m.host) (m.targets ptrs).2 := by
  obtain ⟨hok, htable, hstats, hconfig, hhost⟩ :=
    dropObjects_found (m := m.withHost (Host.hold m.host).2) hshaped hranked hfound m.cleaner
  exact ⟨hok, htable, hstats, hconfig, congrArg (Host.release (Host.flags m.host)) hhost⟩

theorem exists_map_some {α : Type} {xs : List (Option α)} (h : ∀ x ∈ xs, x.isSome = true) :
    ∃ ys : List α, xs = ys.map some := by
  induction xs with
  | nil => exact ⟨[], rfl⟩
  | cons x rest ih =>
    obtain ⟨ys, rfl⟩ := ih fun y hy => h y (List.mem_cons_of_mem _ hy)
    obtain ⟨y, rfl⟩ := Option.isSome_iff_exists.mp (h x (List.mem_cons_self ..))
    exact ⟨y :: ys, rfl⟩

/-- If the host only answers, the same pointers find the same objects, in whatever order and however
often they are given, and null pointers find none. -/
theorem exists_targets (hpure : ∀ p (h : σ), (Host.objectAt p h).2 = h) {ptrs ptrs' : List Addr}
    {objects : List Region} (hfound : (m.targets ptrs).1 = objects.map some)
    (hsame : ∀ p, p ≠ .null → (p ∈ ptrs' ↔ p ∈ ptrs)) :
    ∃ objects' : List Region, (m.targets ptrs').1 = objects'.map some ∧
      (∀ r, r ∈ objects' ↔ r ∈ objects) ∧ (m.targets ptrs').2 = (m.targets ptrs).2 := by
  let look (p : Addr) : Option Region := (Host.objectAt p (Host.hold m.host).2).1
  have htargets (ps : List Addr) :
      m.targets ps = ((ps.filter (!·.isNull)).map look, (Host.hold m.host).2) :=
    Host.objectsAt_of_pure hpure ..
  have hmem (p : Addr) : p ∈ ptrs'.filter (!·.isNull) ↔ p ∈ ptrs.filter (!·.isNull) := by
    rw [List.mem_filter, List.mem_filter]
    by_cases hnull : p = .null
    · simp [hnull, Addr.isNull]
    · rw [hsame p hnull]
  rw [htargets] at hfound
  dsimp only at hfound
  have hlook (r : Region) : some r ∈ (ptrs'.filter (!·.isNull)).map look ↔ r ∈ objects := by
    rw [List.mem_map]
    simp only [hmem]
    rw [← List.mem_map, hfound]
    simp
  have hall : ∀ x ∈ (ptrs'.filter (!·.isNull)).map look, x.isSome = true := by
    intro x hx
    obtain ⟨p, hp, rfl⟩ := List.mem_map.mp hx
    have hx : look p ∈ (ptrs.filter (!·.isNull)).map look := List.mem_map_of_mem ((hmem p).mp hp)
    rw [hfound] at hx
    obtain ⟨r, -, hr⟩ := List.mem_map.mp hx
    rw [← hr]
    rfl
  rw [htargets, htargets]
  dsimp only
  obtain ⟨objects', hobjects⟩ := exists_map_some hall
  refine ⟨objects', hobjects, fun r => ?_, rfl⟩
  rw [← hlook, hobjects]
  simp

/-- When all pointers that are not null point into objects, a cleanup succeeds, and its caller's
buffer is without the stores into these objects and without the fences that came to stand in front;
the slot is gone if nothing is left. No other thread loses a line. The lines that stay are as they
were, but for their numbers: these move down by the lines that left below them, keep their order,
and are dense at every location. The lines that left are counted. The host is only asked for the
mask and for objects. So on a host that only answers, nothing but the log depends on the order of
the pointers, on repetitions and on null pointers. -/
theorem cleanup_removes {c : Config} (h : Reachable c m) {ptrs : List Addr} {objects : List Region}
    (hfound : (m.targets ptrs).1 = objects.map some) :
    let r := m.cleanup ptrs
    let gone := m.table.dropped m.cleaner objects
    let kept := m.table.spared m.cleaner objects
    r.1 = .ok () ∧ r.2.table = m.table.without m.cleaner objects ∧
      (∀ u, r.2.table.linesOf u = (kept u).map (Line.lower gone) ∧
        (r.2.table.buffer? u = none ↔ kept u = [])) ∧
      (∀ u v, ∀ k ∈ kept u, ∀ l ∈ kept v, k.loc? = l.loc? →
        ((k.lower gone).atomicNo < (l.lower gone).atomicNo ↔ k.atomicNo < l.atomicNo)) ∧
      (∀ loc, ∃ n, (((r.2.table.lines.filter (·.isAt loc)).map (·.atomicNo)).filter
        (· ≠ 0)).Perm (Counter.upTo n)) ∧
      r.2.stats = { m.stats with linesFreed := m.stats.linesFreed + gone.length } ∧
      r.2.config = m.config ∧
      r.2.host = Host.release (Host.flags m.host) (m.targets ptrs).2 ∧
      ((∀ p (h : σ), (Host.objectAt p h).2 = h) → ∀ ptrs',
        (∀ p, p ≠ .null → (p ∈ ptrs' ↔ p ∈ ptrs)) →
          (m.cleanup ptrs').1 = .ok () ∧ (m.cleanup ptrs').2.unlogged = r.2.unlogged) := by
  intro r gone kept
  have hshaped : m.table.Shaped m.capacity := by
    rw [capacity, h.config]
    exact h.shaped
  obtain ⟨hok, htable, hstats, hconfig, hhost⟩ := cleanup_found hshaped h.ranked hfound
  have hafter : Reachable c r.2 := h.perform (.cleanup ptrs)
  have hlines (u : ThreadId) : r.2.table.linesOf u = (kept u).map (Line.lower gone) := by
    rw [htable, Table.linesOf_without h.shaped.owners]
  refine ⟨hok, htable, fun u => ⟨hlines u, ?_⟩, ?_, ?_, hstats, hconfig, hhost, ?_⟩
  · rw [hafter.shaped.buffer?_eq_none_iff, hlines, List.map_eq_nil_iff]
  · intro u v k hk l hl hloc
    obtain ⟨hk, hkout⟩ := Table.mem_of_mem_spared hk
    obtain ⟨hl, hlout⟩ := Table.mem_of_mem_spared hl
    cases hl' : l.loc? with
    | none =>
      have hkno := h.ranked.unnumbered (Table.mem_lines_of_mem_linesOf hk) (hloc.trans hl')
      have hlno := h.ranked.unnumbered (Table.mem_lines_of_mem_linesOf hl) hl'
      rw [Line.lower_of_unnumbered hkno, Line.lower_of_unnumbered hlno]
    | some loc =>
      exact Line.lower_lt_iff (h.ranked.apart_dropped m.cleaner objects) hloc (by rw [hl']; rfl)
        (h.ranked.offNumbers hk hkout) (h.ranked.offNumbers hl hlout)
  · obtain ⟨_, hdates⟩ := hafter.ranked.inSequence
    exact hdates.atomicNos
  · intro hpure ptrs' hsame
    obtain ⟨objects', hfound', hmem, hhost'⟩ := exists_targets hpure hfound hsame
    obtain ⟨hok', htable', hstats', hconfig', hhost''⟩ :=
      cleanup_found hshaped h.ranked hfound'
    refine ⟨hok', ?_⟩
    rw [Table.without_congr hmem] at htable'
    rw [Table.dropped_congr hmem] at hstats'
    rw [hhost'] at hhost''
    exact unlogged_ext (hconfig'.trans hconfig.symm) (htable'.trans htable.symm)
      (hstats'.trans hstats.symm) (hhost''.trans hhost.symm)

/-- Thread 1 has stored to two objects, with a fence in between, and behind them. Its first store is
to a location where thread 2 has a later atomic one. Four pointers, one of them null and two of them
into one object, leave the store behind, and thread 2's number moves down; so do three of them, in
another order. -/
theorem cleanup_removes_twoObjects :
    let x : Location := ⟨⟨0x10000000⟩, 32⟩
    let y : Location := ⟨⟨0x10000008⟩, 32⟩
    let z : Location := ⟨⟨0x10000010⟩, 32⟩
    let m₁ := ((create { capacity := 3 } (Scripted.create 32)).issue
      { thread := ⟨1⟩, op := .store x 1 .atomicOp }).2
    let m₂ := (m₁.issue { thread := ⟨2⟩, op := .store x 2 .atomicOp }).2
    let m₃ := (m₂.issue { thread := ⟨1⟩, op := .fence .release }).2
    let m₄ := (m₃.issue { thread := ⟨1⟩, op := .store y 3 .release }).2
    let m₅ := (m₄.issue { thread := ⟨1⟩, op := .store z 4 .release }).2
    let m := m₅.withHost { m₅.host with
      thread := ⟨1⟩, objects := ⟨[⟨y.addr, 8⟩, ⟨x.addr, 8⟩]⟩ }
    let after := (m.cleanup [⟨0x10000004⟩, .null, y.addr, x.addr]).2
    m.table.lines.map (fun l => (l.addr?, l.atomicNo)) =
        [(some x.addr, 1), (none, 0), (some y.addr, 0), (some z.addr, 0), (some x.addr, 2)] ∧
      after.table.lines.map (fun l => (l.addr?, l.atomicNo)) =
        [(some z.addr, 0), (some x.addr, 1)] ∧
      after.stats.linesFreed = 2 ∧
      (m.cleanup [y.addr, x.addr, ⟨0x10000004⟩]).2.unlogged = after.unlogged := by
  intro x y z m₁ m₂ m₃ m₄ m₅ m after
  have hreachable : Reachable { capacity := 3 } m :=
    .host (.issue (.issue (.issue (.issue (.issue (.create _) _) _) _) _) _) _
  have hfound : (m.targets [⟨0x10000004⟩, .null, y.addr, x.addr]).1 =
      [⟨x.addr, 8⟩, ⟨y.addr, 8⟩, ⟨x.addr, 8⟩].map some := by decide +kernel
  obtain ⟨-, -, -, -, -, -, -, -, hsame⟩ := cleanup_removes hreachable hfound
  have hpointers : ∀ p : Addr, p ≠ .null → (p ∈ [y.addr, x.addr, ⟨0x10000004⟩] ↔
      p ∈ [⟨0x10000004⟩, .null, y.addr, x.addr]) := by
    intro p hp
    simp only [List.mem_cons, List.not_mem_nil, hp]
    tauto
  exact ⟨by decide +kernel, by decide +kernel, by decide +kernel,
    (hsame (fun _ _ => rfl) _ hpointers).2⟩

end Machine

end StoreBuffer
