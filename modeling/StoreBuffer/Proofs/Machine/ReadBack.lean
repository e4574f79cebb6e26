import StoreBuffer.Proofs.Machine.Answered
import StoreBuffer.Proofs.Machine.Eviction
import StoreBuffer.Proofs.Machine.Masking
import StoreBuffer.Proofs.Machine.Shape

/-! # A swap decides on what a load sees, and is read back

The first half of a compare-and-swap is a load: it observes the same value and leaves the same
memory, buffers and choices behind. The second half is a store. What a thread has stored last it
finds again in its buffer, if the buffer holds a store at all: eviction takes lines from the other
end, and no resolution touches the buffer of its own thread. -/

namespace StoreBuffer

/-- A newest pending store to the very location answers a load alone. -/
theorem Buffer.shortcut?_of_newest {b : Buffer} {ws : List Write} {loc : Location} {v : UInt64}
    (hfit : loc.Fits) (hw : loc.width ≠ 0) (h : b.pending = ws ++ [⟨loc, v⟩]) :
    b.shortcut? loc = some (Width.truncate loc.width v) := by
  have hself : (Write.mk loc v).region.overlaps loc.region = true := Location.overlaps_self hfit hw
  unfold shortcut?
  rw [pendingNewestFirst_eq, h, List.reverse_append, List.reverse_singleton, List.singleton_append]
  simp [hself]

/-- With room for a store, a new one stays. -/
theorem Line.Overflow.newest {capacity : Nat} {l : Line} {ls gone kept : List Line}
    (h : Overflow capacity (ls ++ [l]) gone kept) (hl : l.isStore = true) (hroom : 0 < capacity) :
    ∃ older, kept = older ++ [l] := by
  have hsuffix : [l] <:+ kept := by
    cases gone with
    | nil =>
      rw [show kept = ls ++ [l] from h.append.symm]
      exact List.suffix_append ..
    | cons g gs =>
      refine h.longest (by simp) [l] (List.suffix_append ..) ?_ (by simpa using hl)
      simpa [hl, Nat.succ_le_iff] using hroom
  obtain ⟨older, holder⟩ := hsuffix
  exact ⟨older, holder.symm⟩

namespace Scripted

theorem thread_read (size : AccessSize) (a : Addr) (h : Scripted) :
    (read size a h).2.thread = h.thread := by
  unfold read
  split <;> rfl

theorem thread_write (size : AccessSize) (a : Addr) (value : UInt64) (h : Scripted) :
    (write size a value h).thread = h.thread := by
  have hframe := congrArg Scripted.thread (frame_write size a value h)
  exact hframe

/-- No call changes the control flags or the running thread. -/
theorem calls_steady (f : ControlFlags) (t : ThreadId) :
    Host.Calls fun h k : Scripted => h = k ∧ h.flags = f ∧ h.thread = t where
  thread := by
    rintro h _ ⟨rfl, -⟩
    rfl
  choose n := by
    rintro ⟨rfl, hsteady⟩
    exact ⟨rfl, rfl, hsteady⟩
  objectAt a := by
    rintro ⟨rfl, hsteady⟩
    exact ⟨rfl, rfl, hsteady⟩
  read size a := by
    rintro ⟨rfl, hf, ht⟩
    exact ⟨rfl, rfl, (flags_read size a _).trans hf, (thread_read size a _).trans ht⟩
  write size a value := by
    rintro ⟨rfl, hf, ht⟩
    exact ⟨rfl, (flags_write size a value _).trans hf, (thread_write size a value _).trans ht⟩

/-- Raising the mask again where it has been put back. -/
theorem hold_release {f : ControlFlags} {h : Scripted} (hf : h.flags = f ||| .mask) :
    Host.hold (Host.release f h) = (f, h) := by
  have hflags : h.flags.unmask f = f := by rw [hf, ControlFlags.unmask_or_mask]
  have hback : ({ h with flags := f ||| .mask } : Scripted) = h := by rw [← hf]
  show (h.flags.unmask f, ({ h with flags := h.flags.unmask f ||| .mask } : Scripted)) = (f, h)
  rw [hflags, hback]

end Scripted

namespace Machine

/-! ## What a thread has stored last -/

section

variable {σ : Type} {m : Machine σ} {t : ThreadId} {ws : List Write} {loc : Location}

theorem forward_of_newest {v : UInt64} (hfit : loc.Fits) (hw : loc.width ≠ 0)
    (h : m.table.pending t = ws ++ [⟨loc, v⟩]) (fromMemory : UInt64) :
    (m.forward t loc fromMemory).1 = Width.truncate loc.width v := by
  unfold forward
  cases hb : m.table.buffer? t with
  | none =>
    rw [Table.pending_of_no_buffer hb] at h
    simp at h
  | some b =>
    rw [Table.pending_of_buffer? hb] at h
    dsimp only
    rw [Buffer.shortcut?_of_newest hfit hw h]

variable [Host σ]

/-- Where there is room for a store, a store that is buffered is the newest pending one. -/
theorem newest_storeAs {value : UInt64} {order : Order} (hn : m.table.owners.Nodup)
    (hroom : 0 < m.capacity) (hv : loc.Valid) (hweak : order.isSeqCst = false)
    (hok : (m.storeAs loc value order false).1 = .ok ()) :
    ∃ ws, (m.storeAs loc value order false).2.table.pending m.thread =
      ws ++ [Write.ofStore loc value] := by
  unfold storeAs push at hok ⊢
  rw [(Location.check_eq_ok_iff loc).mpr hv, hweak] at hok ⊢
  simp only [Bool.false_eq_true, if_false] at hok ⊢
  cases hnumbered : m.numbered (.store loc value order) with
  | error f => simp [hnumbered] at hok
  | ok l =>
    have hpending : l.unnumbered.pendingWrite? = some (Write.ofStore loc value) :=
      pendingWrite?_numbered hnumbered
    have hstore : l.unnumbered.isStore = true := isStore_numbered hnumbered
    obtain ⟨-, -, gone, kept, hoverflow, hkept, -, -, -⟩ := pushLine_evicts hn m.thread l
    rw [List.map_append, List.map_singleton] at hoverflow
    obtain ⟨older, rfl⟩ := hoverflow.newest hstore hroom
    refine ⟨older.filterMap Line.pendingWrite?, ?_⟩
    have hlines := congrArg (List.filterMap Line.pendingWrite?) hkept
    rw [Line.filterMap_unnumbered, List.filterMap_append,
      List.filterMap_cons_some hpending] at hlines
    exact hlines

end

variable {m : Machine Scripted} {loc : Location}

/-- A load by the thread that stored last finds what it stored, whatever is resolved before. -/
theorem load_of_newest {ws : List Write} {v : UInt64} (hn : m.table.owners.Nodup) (hv : loc.Valid)
    (hfit : loc.Fits) (hplain : m.host.flags.bypassed = false)
    (h : m.table.pending m.thread = ws ++ [⟨loc, v⟩]) (answers : List Nat) (order : Order) :
    ((m.answering answers).load loc order).1 = .ok (Width.truncate loc.width v) := by
  obtain ⟨hvalue, -⟩ := load_loading hv hplain answers order
  have hown : (((m.loading answers).resolve m.thread loc false).table.linesOf m.thread).map
      Line.unnumbered = (m.table.linesOf m.thread).map Line.unnumbered :=
    (sheds_resolve (m := m.loading answers) hn m.thread loc false).table.unnumbered_linesOf hn
      (by simp)
  have hpending : ((m.loading answers).resolve m.thread loc false).table.pending m.thread =
      ws ++ [⟨loc, v⟩] := by
    have hwrites := congrArg (List.filterMap Line.pendingWrite?) hown
    rw [Line.filterMap_unnumbered, Line.filterMap_unnumbered] at hwrites
    exact hwrites.trans h
  have hwidth : loc.width ≠ 0 := by
    have hpos := hv.2.1
    omega
  rw [hvalue, forward_of_newest hfit hwidth hpending]

/-- What a machine has stored is found by a load of the same thread that follows. -/
theorem load_of_storeAs {m' : Machine Scripted} {value : UInt64} {order : Order}
    (hn : m.table.owners.Nodup) (hroom : 0 < m.capacity) (hv : loc.Valid) (hfit : loc.Fits)
    (hweak : order.isSeqCst = false) (hok : (m.storeAs loc value order false).1 = .ok ())
    (hn' : m'.table.owners.Nodup) (hplain : m'.host.flags.bypassed = false)
    (hthread : m'.thread = m.thread)
    (htable : m'.table = (m.storeAs loc value order false).2.table) (answers : List Nat)
    (asked : Order) :
    ((m'.answering answers).load loc asked).1 = .ok (Width.truncate loc.width value) := by
  obtain ⟨ws, hnewest⟩ := newest_storeAs hn hroom hv hweak hok
  have hpending : m'.table.pending m'.thread = ws ++ [⟨loc, Width.truncate loc.width value⟩] := by
    rw [Write.ofStore_eq_holding hv.2] at hnewest
    rw [hthread, htable]
    exact hnewest
  rw [load_of_newest hn' hv hfit hplain hpending, Width.truncate_truncate]

/-! ## The halves of a swap -/

theorem thread_perform (m : Machine Scripted) (op : Op) :
    (m.perform op).2.host.thread = m.host.thread := by
  have hlike : Like (fun h k : Scripted => h = k ∧ h.flags = m.host.flags ∧
      h.thread = m.host.thread) m m := ⟨rfl, rfl, rfl, rfl, rfl⟩
  have hboth : Both (Like fun h k : Scripted => h = k ∧ h.thread = m.host.thread) (m.perform op)
      (m.perform op) := by
    refine Like.perform (Scripted.calls_steady (m.host.flags ||| .mask) m.host.thread) ?_ ?_ ?_
      hlike op
    · rintro h _ ⟨rfl, hf, ht⟩
      exact ⟨rfl, rfl, rfl, congrArg (· ||| .mask) hf, ht⟩
    · rintro h _ h' _ ⟨rfl, -⟩ ⟨rfl, -, ht'⟩
      exact ⟨rfl, ht'⟩
    · rintro h _ ⟨rfl, -, ht⟩
      exact ⟨rfl, ht⟩
  exact hboth.next.host.2

theorem steady_loadAs (m : Machine Scripted) (loc : Location) (direct : Bool) :
    (m.loadAs loc direct).2.host.flags = m.host.flags ∧
      (m.loadAs loc direct).2.host.thread = m.host.thread := by
  have hsteady := Scripted.calls_steady m.host.flags m.host.thread
  have hlike : Like (fun h k : Scripted => h = k ∧ h.flags = m.host.flags ∧
      h.thread = m.host.thread) m m := ⟨rfl, rfl, rfl, rfl, rfl⟩
  exact ((Like.lockstep hsteady).loadAs hlike loc direct).next.host.2

/-- The first half leaves the thread's own lines and the configuration alone. -/
theorem exists_loadAs (h : m.table.owners.Nodup) (hv : loc.Valid) :
    ∃ observed inner, m.loadAs loc false = (.ok observed, inner) ∧ inner.config = m.config ∧
      inner.table.owners.Nodup ∧
      (inner.table.linesOf m.thread).map Line.unnumbered =
        (m.table.linesOf m.thread).map Line.unnumbered := by
  have hloaded := loadAs_plain ((Location.check_eq_ok_iff loc).mpr hv) (m := m)
  have hsheds := sheds_resolve (m := m.count fun s => { s with loads := s.loads + 1 }) h m.thread
    loc false
  rw [resolved_eq] at hloaded
  generalize (m.count fun s => { s with loads := s.loads + 1 }).resolve m.thread loc false = m'
    at hsheds hloaded
  have htable := table_forward m.thread loc (Memory.load loc m'.host).1
    (m'.withHost (Memory.load loc m'.host).2)
  have hconfig := config_forward m.thread loc (Memory.load loc m'.host).1
    (m'.withHost (Memory.load loc m'.host).2)
  refine ⟨_, _, hloaded, hconfig.trans hsheds.config, ?_, ?_⟩
  · rw [htable]
    exact hsheds.owners h
  · rw [htable]
    exact hsheds.table.unnumbered_linesOf h (by simp)

/-- What is noted last shows neither in the buffers nor in the host when the mask is put back. -/
theorem noteOperation_released (m : Machine Scripted) (e : Event) (f : ControlFlags) :
    let noted := m.noteOperation e
    let released := noted.withHost (Host.release f noted.host)
    released.table = m.table ∧ released.host = Host.release f m.host := by
  refine ⟨table_noteOperation e, ?_⟩
  show Host.release f (m.noteOperation e).host = _
  rw [host_noteOperation]

/-- A load and a swap have their first half in common. -/
theorem load_of_loadAs {observed : UInt64} {inner : Machine Scripted}
    (hplain : m.host.flags.bypassed = false)
    (hload : m.held.loadAs loc false = (.ok observed, inner)) (order : Order) :
    ∃ loaded, m.load loc order = (.ok observed, loaded) ∧ loaded.table = inner.table ∧
      loaded.host = Host.release m.host.flags inner.host := by
  have hheld : (Host.hold m.host).1.bypassed = false := hplain
  unfold load masked
  dsimp only
  rw [hheld, hload]
  dsimp only
  exact ⟨_, rfl, noteOperation_released ..⟩

variable {observed expected value : UInt64} {success failure : Order} {inner : Machine Scripted}

/-- What a swap asks once it has seen that the values agree: a weak one may still fail. -/
def secondThought (success : Order) (agrees : Prop) [Decidable agrees] (h : Scripted) :
    Nat × Scripted :=
  if agrees ∧ success.isWeakCas = true then Host.choose 2 h else (0, h)

theorem secondThought_release (success : Order) (agrees : Prop) [Decidable agrees]
    (f : ControlFlags) (h : Scripted) :
    secondThought success agrees (Host.release f h) =
      ((secondThought success agrees h).1, Host.release f (secondThought success agrees h).2) := by
  unfold secondThought
  split <;> rfl

theorem steady_secondThought (success : Order) (agrees : Prop) [Decidable agrees] (h : Scripted) :
    (secondThought success agrees h).2.flags = h.flags ∧
      (secondThought success agrees h).2.thread = h.thread := by
  unfold secondThought
  split <;> exact ⟨rfl, rfl⟩

/-- What a swap answers and leaves, given what its first half observes: without agreement or on
second thoughts it stays with the load, else it goes on with a store. -/
theorem cas_of_loadAs (hplain : m.host.flags.bypassed = false)
    (hload : m.held.loadAs loc false = (.ok observed, inner)) (expected value : UInt64)
    (success failure : Order) :
    let agrees := observed = Width.truncate loc.width expected
    let asked := secondThought (success ||| m.minOrder) agrees inner.host
    let r := m.cas loc expected value success failure
    let s := (inner.withHost asked.2).storeAs loc value (success ||| m.minOrder ||| .atomicOp) false
    (¬ (agrees ∧ asked.1 ≠ 1) → r.1 = .ok (observed, false) ∧ r.2.table = inner.table ∧
      r.2.host = Host.release m.host.flags asked.2) ∧
    (agrees ∧ asked.1 ≠ 1 →
      (r.1 = s.1.map fun _ => (Width.truncate loc.width value, true)) ∧
      r.2.table = s.2.table ∧ r.2.host = Host.release m.host.flags s.2.host) := by
  intro agrees asked r s
  have hheld : (Host.hold m.host).1.bypassed = false := hplain
  have hr : r = m.cas loc expected value success failure := rfl
  unfold cas masked at hr
  dsimp only at hr
  rw [hheld, hload] at hr
  dsimp only at hr
  by_cases hagrees : agrees
  · -- what is asked is asked inside the swap
    have hasked : asked = if (!false && (success ||| m.minOrder).isWeakCas) = true then
        Host.choose 2 inner.host else (0, inner.host) := by
      simp [asked, secondThought, hagrees]
    rw [if_pos hagrees] at hr
    unfold swapAs at hr
    dsimp only at hr
    rw [← hasked] at hr
    by_cases hfail : asked.1 = 1
    · rw [if_pos hfail] at hr
      refine ⟨fun _ => ?_, fun h => absurd hfail h.2⟩
      rw [hr]
      exact ⟨rfl, noteOperation_released ..⟩
    · rw [if_neg hfail] at hr
      refine ⟨fun h => absurd ⟨hagrees, hfail⟩ h, fun _ => ?_⟩
      cases hs : s with
      | mk outcome next =>
        rw [show (inner.withHost asked.2).storeAs loc value
          (success ||| m.minOrder ||| .atomicOp) false = (outcome, next) from hs] at hr
        cases outcome with
        | error f =>
          rw [hr]
          exact ⟨rfl, rfl, rfl⟩
        | ok u =>
          rw [hr]
          exact ⟨rfl, noteOperation_released ..⟩
  · have hasked : asked = (0, inner.host) := by simp [asked, secondThought, hagrees]
    rw [if_neg hagrees] at hr
    refine ⟨fun _ => ?_, fun h => absurd h.1 hagrees⟩
    rw [hr, hasked]
    exact ⟨rfl, noteOperation_released ..⟩

/-- A swap that is neither bypassed nor sequentially consistent nor refused decides on what a load
sees, and takes the same choices and leaves the same memory and buffers up to there. It succeeds if
and only if that is the expected value and, if it is weak, the host does not choose to let it fail.
If it fails it answers what the load sees, and the thread's own lines are as they were; if it
succeeds it goes on with a store, and a load that follows finds the new value, whatever the other
threads have buffered and whatever is answered. -/
theorem cas_reads_back {c : Config} (h : Reachable c m) (hv : loc.Valid) (hfit : loc.Fits)
    (hplain : m.host.flags.bypassed = false) (hroom : 0 < m.capacity)
    (hweak : (success ||| m.minOrder).isSeqCst = false) {answer : UInt64 × Bool}
    (hok : (m.cas loc expected value success failure).1 = .ok answer) :
    let m' := (m.cas loc expected value success failure).2
    ∃ observed loaded, m.load loc failure = (.ok observed, loaded) ∧
      let agrees := observed = Width.truncate loc.width expected
      let asked := secondThought (success ||| m.minOrder) agrees loaded.host
      (answer.2 = true ↔ agrees ∧ asked.1 ≠ 1) ∧
      (answer.2 = false → answer.1 = observed ∧ m'.table = loaded.table ∧ m'.host = asked.2 ∧
        (m'.table.linesOf m.thread).map Line.unnumbered =
          (m.table.linesOf m.thread).map Line.unnumbered) ∧
      (answer.2 = true → answer.1 = Width.truncate loc.width value ∧
        (∃ before : Machine Scripted, before.table = loaded.table ∧ before.config = m.config ∧
          before.host = (Host.hold asked.2).2 ∧
          let s := before.storeAs loc value (success ||| m.minOrder ||| .atomicOp) false
          s.1 = .ok () ∧ m'.table = s.2.table ∧
            m'.host = Host.release m.host.flags s.2.host) ∧
        m'.thread = m.thread ∧ ∀ answers order,
          ((m'.answering answers).load loc order).1 = .ok (Width.truncate loc.width value)) := by
  intro m'
  have hreached : Reachable c m' := h.perform (.cas loc expected value success failure)
  have hthread : m'.host.thread = m.host.thread :=
    thread_perform m (.cas loc expected value success failure)
  have hflags : m'.host.flags = m.host.flags :=
    flags_perform m (.cas loc expected value success failure)
  obtain ⟨observed, inner, hload, hconfig, howners, hown⟩ :=
    exists_loadAs (m := m.held) h.shaped.owners hv
  obtain ⟨loaded, hloaded, htable, hhost⟩ := load_of_loadAs hplain hload failure
  have hcas := cas_of_loadAs hplain hload expected value success failure
  have hsteady := steady_loadAs m.held loc false
  rw [hload] at hsteady
  obtain ⟨hraised, hrunning⟩ := hsteady
  refine ⟨observed, loaded, hloaded, ?_⟩
  intro agrees asked
  -- inside the swap the same is asked, with the mask raised
  let inside := secondThought (success ||| m.minOrder) agrees inner.host
  have hasked : asked = (inside.1, Host.release m.host.flags inside.2) := by
    rw [← secondThought_release, ← hhost]
  obtain ⟨hinside, hinside'⟩ := steady_secondThought (success ||| m.minOrder) agrees inner.host
  rw [hasked]
  by_cases hswap : agrees ∧ inside.1 ≠ 1
  · obtain ⟨hanswer, htable', hhost'⟩ := hcas.2 hswap
    let before := inner.withHost inside.2
    have hseq : (success ||| m.minOrder ||| .atomicOp).isSeqCst = false := by
      rw [Order.isSeqCst_union_atomicOp, hweak]
    rw [hok] at hanswer
    cases hs : (before.storeAs loc value (success ||| m.minOrder ||| .atomicOp) false).1 with
    | error f =>
      rw [show (before.storeAs loc value _ false).1 = .error f from hs] at hanswer
      contradiction
    | ok u =>
      rw [show (before.storeAs loc value _ false).1 = .ok u from hs] at hanswer
      obtain rfl : answer = (Width.truncate loc.width value, true) := Except.ok.inj hanswer
      have hbefore : before.host = (Host.hold (Host.release m.host.flags inside.2)).2 := by
        have hback : Host.hold (Host.release m.host.flags inside.2) = (m.host.flags, inside.2) :=
          Scripted.hold_release (hinside.trans hraised)
        rw [hback]
        rfl
      refine ⟨by simp [hswap], nofun, fun _ => ⟨rfl, ⟨before, htable.symm, hconfig, hbefore, hs,
        htable', hhost'⟩, hthread, ?_⟩⟩
      have hroom' : 0 < before.capacity := by
        rw [show before.capacity = m.capacity from congrArg Config.capacity hconfig]
        exact hroom
      have hsame : m'.thread = before.thread := hthread.trans (hinside'.trans hrunning).symm
      exact load_of_storeAs (m := before) howners hroom' hv hfit hseq hs hreached.shaped.owners
        (by rw [hflags, hplain]) hsame htable'
  · obtain ⟨hanswer, htable', hhost'⟩ := hcas.1 hswap
    rw [hok] at hanswer
    obtain rfl : answer = (observed, false) := Except.ok.inj hanswer
    refine ⟨by simp [hswap], fun _ => ⟨rfl, htable'.trans htable.symm, hhost', ?_⟩, nofun⟩
    rw [htable']
    exact hown

/-- Thread 2 has stored 5 and 6. Thread 1 sees the 5, so its weak swap goes on and the host lets it
succeed; then the 6 is brought to memory, and thread 1 still finds its 7. -/
theorem cas_reads_back_overtaken :
    let x : Location := ⟨⟨0x10000000⟩, 32⟩
    let m₁ := ((create {} ((Scripted.create 16).withScript [1, 0])).issue
      { thread := ⟨2⟩, op := .store x 5 .monotonic }).2
    let m₂ := (m₁.issue { thread := ⟨2⟩, op := .store x 6 .monotonic }).2
    let m := m₂.withHost (m₂.host.switchTo ⟨1⟩)
    let m' := (m.cas x 5 7 .weakCas .monotonic).2
    let m'' := ((m'.answering [1]).load x .monotonic).2
    (m.cas x 5 7 .weakCas .monotonic).1 = .ok (7, true) ∧
      m''.host.arena.bytes.toList.take 4 = [6, 0, 0, 0] ∧
      ((m'.answering [1]).load x .monotonic).1 = .ok (Width.truncate 32 7) := by
  intro x m₁ m₂ m m' m''
  have hreachable : Reachable {} m := .host (.issue (.issue (.create _) _) _) _
  have hv : x.Valid := by decide
  have hfit : x.Fits := (Location.fits_iff x).mpr (by decide)
  have hweak : (Order.weakCas ||| m.minOrder).isSeqCst = false := by decide +kernel
  have hok : (m.cas x 5 7 .weakCas .monotonic).1 = .ok (7, true) := by decide +kernel
  obtain ⟨observed, loaded, -, -, -, hswapped⟩ := cas_reads_back hreachable hv hfit
    (by decide +kernel) (by decide +kernel) hweak hok
  exact ⟨hok, by decide +kernel, (hswapped rfl).2.2.2 [1] .monotonic⟩

end Machine

end StoreBuffer
