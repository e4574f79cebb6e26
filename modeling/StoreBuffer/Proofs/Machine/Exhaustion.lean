import StoreBuffer.Proofs.Machine.Refusals
import StoreBuffer.Proofs.Machine.Slots

/-! # Whether one thread can use up the numbers

The lines that a thread buffers while it is alone are all in its own buffer, and its stores are no
more than the capacity allows. A store is numbered before room is made for it. With the greatest
capacity all numbers are taken by then, and the store is refused; with a lower one there is always a
number left. -/

namespace StoreBuffer

theorem Location.check_ne_overflow (loc : Location) (c : Counter) :
    loc.check ≠ .error (.counterOverflow c) := by
  unfold check Width.check
  repeat' split
  all_goals nofun

theorem Order.union_comm (a b : Order) : a ||| b = b ||| a := congrArg Order.mk (BitVec.or_comm ..)

theorem Order.isSeqCst_union {a b : Order} (h : (a ||| b).isSeqCst = false) :
    b.isSeqCst = false := by
  rw [union_comm] at h
  exact Bool.eq_false_iff.mpr fun hb =>
    Bool.eq_false_iff.mp h (atLeast_trans (atLeast_union_left b a) hb)

namespace Table

variable {t : Table} {o : ThreadId}

/-- The lines of a table with one owner. -/
theorem lines_eq_linesOf (hn : t.owners.Nodup) (hsole : ∀ u ∈ t.owners, u = o) :
    t.lines = t.linesOf o := by
  rcases t with ⟨_ | ⟨s, rest⟩⟩
  · rfl
  · have hs : s.owner = o := hsole _ (List.mem_cons_self ..)
    have hrest : rest = [] := by
      refine List.eq_nil_iff_forall_not_mem.mpr fun r hr => ?_
      have hmem : r.owner ∈ rest.map (·.owner) := List.mem_map_of_mem hr
      rw [hsole _ (List.mem_cons_of_mem _ hmem), ← hs] at hmem
      exact (List.nodup_cons.mp hn).1 hmem
    subst hs hrest
    simp [lines, linesOf, buffer?]

/-- In a table with one owner, no location has more atomic lines than that one has stores. -/
theorem atomicsAt_le_storesOf (hn : t.owners.Nodup) (hsole : ∀ u ∈ t.owners, u = o)
    (loc : Location) : t.atomicsAt loc ≤ t.storesOf o := by
  unfold atomicsAt storesOf
  rw [lines_eq_linesOf hn hsole]
  refine List.countP_mono_left fun l _ hl => ?_
  have hat : l.isAt loc = true := (Bool.and_eq_true_iff.mp hl).1
  exact Line.isStore_iff_exists_loc.mpr ⟨loc, Line.isAt_iff.mp hat⟩

end Table

namespace Machine

open Table (Enrols)

section

variable {m : Machine Scripted} {loc : Location} {value : UInt64} {order : Order} {c : Counter}

/-- A store lacks a number exactly if all are taken at its location. -/
theorem storeAs_overflow_iff (h : m.table.Ranked) (loc : Location) (value : UInt64) (order : Order)
    (direct : Bool) : (m.storeAs loc value order direct).1 = .error (.counterOverflow c) ↔
      c = .atomic ∧ loc.Valid ∧ direct = false ∧ order.isSeqCst = false ∧
        order.isAtomicOp = true ∧ ¬ m.table.Obstructed loc ∧ m.table.atomicsAt loc = 32767 := by
  unfold storeAs
  cases hcheck : loc.check with
  | error f =>
    have hv := Location.not_valid_of_check hcheck
    have hne : f ≠ .counterOverflow c := fun heq => Location.check_ne_overflow loc c (heq ▸ hcheck)
    simp [hv, hne]
  | ok u =>
    have hv := (Location.check_eq_ok_iff loc).mp hcheck
    cases direct with
    | true => simp
    | false =>
      cases hseq : order.isSeqCst with
      | true => simp
      | false =>
        have hnumber := numbered_store_error_iff (m := m) hv.2 value hseq (f := .counterOverflow c)
        rw [h.nextAtomicNo_overflow_iff] at hnumber
        have hpush : (m.push m.thread (.store loc value order)).1 = .error (.counterOverflow c) ↔
            m.numbered (.store loc value order) = .error (.counterOverflow c) := by
          unfold push
          cases m.numbered (.store loc value order) <;> simp
        simp only [Bool.false_eq_true, if_false, hpush, hnumber, hv, true_and]
        exact and_left_comm

theorem loadAs_ne_overflow (m : Machine Scripted) (loc : Location) (direct : Bool) (c : Counter) :
    (m.loadAs loc direct).1 ≠ .error (.counterOverflow c) := by
  unfold loadAs
  cases hcheck : loc.check with
  | error f => exact fun heq => Location.check_ne_overflow loc c (Except.error.inj heq ▸ hcheck)
  | ok u =>
    dsimp only
    split <;> nofun

theorem exists_storeAs_of_swapAs {expected observed : UInt64} {direct : Bool}
    (herr : (m.swapAs loc expected value observed order direct).1 = .error (.counterOverflow c)) :
    ∃ host, ((m.withHost host).storeAs loc value (order ||| .atomicOp) direct).1 =
      .error (.counterOverflow c) := by
  unfold swapAs at herr
  dsimp only at herr
  generalize (if (!direct && order.isWeakCas) = true then Host.choose 2 m.host
    else (0, m.host)) = choice at herr
  refine ⟨choice.2, ?_⟩
  split at herr
  · contradiction
  · cases hs : (m.withHost choice.2).storeAs loc value (order ||| .atomicOp) direct with
    | mk o m' =>
      rw [hs] at herr
      cases o with
      | error f => exact congrArg Except.error (Except.error.inj herr)
      | ok u => contradiction

theorem dropObjects_ne_overflow (m : Machine Scripted) (t : ThreadId) (ptrs : List Addr)
    (c : Counter) : (m.dropObjects t ptrs).1 ≠ .error (.counterOverflow c) := by
  induction ptrs generalizing m with
  | nil => nofun
  | cons p rest ih =>
    unfold dropObjects
    dsimp only
    split
    · nofun
    · exact ih _

/-- An operation lacks a number only if all are taken at some location, in the table that it finds
or in the one that its load leaves. -/
theorem exists_full_of_perform {config : Config} (h : Reachable config m) {op : Op}
    (herr : (m.perform op).1 = .error (.counterOverflow c)) :
    config.minOrder.isSeqCst = false ∧ ∃ m' : Machine Scripted, Reachable config m' ∧
      Enrols m.thread m.table m'.table ∧ ∃ loc, m'.table.atomicsAt loc = 32767 := by
  have hleast : m.minOrder = config.minOrder := congrArg Config.minOrder h.config
  cases op with
  | store loc value order =>
    let noted := m.noteOperation (.storeIssued m.thread loc value (order ||| m.minOrder))
    have htable : noted.held.table = m.table := table_noteOperation _
    have hstore : (noted.held.storeAs loc value (order ||| m.minOrder)
        noted.host.flags.bypassed).1 = .error (.counterOverflow c) := eq_error_of_map herr
    rw [storeAs_overflow_iff (by rw [htable]; exact h.ranked), htable] at hstore
    obtain ⟨-, -, -, hseq, -, -, hfull⟩ := hstore
    exact ⟨hleast ▸ Order.isSeqCst_union hseq, m, h, .refl h.shaped.owners _, loc, hfull⟩
  | load loc order =>
    have hload : (m.load loc order).1 = .error (.counterOverflow c) := eq_error_of_map herr
    rw [load, masked_fst] at hload
    have hne := loadAs_ne_overflow m.held loc m.host.flags.bypassed c
    cases hr : m.held.loadAs loc m.host.flags.bypassed with
    | mk o inner =>
      rw [hr] at hload hne
      cases o with
      | error f => exact absurd hload hne
      | ok v => contradiction
  | cas loc expected value success failure =>
    have hcas : (m.cas loc expected value success failure).1 = .error (.counterOverflow c) :=
      eq_error_of_map herr
    rw [cas, masked_fst] at hcas
    have hne := loadAs_ne_overflow m.held loc m.host.flags.bypassed c
    have htable : (m.load loc failure).2.table =
        (m.held.loadAs loc m.host.flags.bypassed).2.table := by
      rw [load, masked_table]
      cases m.held.loadAs loc m.host.flags.bypassed with
      | mk o inner => cases o <;> simp [table_noteOperation]
    have hloaded : Reachable config (m.load loc failure).2 := h.perform (.load loc failure)
    have henrols : Enrols m.thread m.table (m.load loc failure).2.table :=
      enrols_perform h.shaped.owners (.load loc failure)
    have hranked := hloaded.ranked
    cases hr : m.held.loadAs loc m.host.flags.bypassed with
    | mk o inner =>
      rw [hr] at hcas hne htable
      cases o with
      | error f => exact absurd (Except.error.inj hcas ▸ rfl) hne
      | ok observed =>
        dsimp only at hcas htable
        split at hcas
        · obtain ⟨host, hstore⟩ := exists_storeAs_of_swapAs hcas
          rw [storeAs_overflow_iff (htable ▸ hranked)] at hstore
          obtain ⟨-, -, -, hseq, -, -, hfull⟩ := hstore
          rw [Order.isSeqCst_union_atomicOp] at hseq
          exact ⟨hleast ▸ Order.isSeqCst_union hseq, _, hloaded, henrols, loc, htable ▸ hfull⟩
        · contradiction
  | cleanup ptrs =>
    exact absurd (eq_error_of_map herr) (dropObjects_ne_overflow m.held _ _ c)
  | resize ptr size =>
    have hresize : (m.resize ptr size).1 = .error (.counterOverflow c) := eq_error_of_map herr
    unfold resize at hresize
    split at hresize
    · contradiction
    · rw [masked_fst] at hresize
      dsimp only at hresize
      repeat' split at hresize
      all_goals cases hresize
  | fence | debugFence | dump => contradiction

/-- Alone, a thread has a number left as long as the capacity is not the greatest. -/
theorem not_overflow_of_sole {config : Config} {t : ThreadId} (h : Reachable config m)
    (hsole : ∀ o ∈ m.table.owners, o = t) {is : List Issue} (hthread : ∀ i ∈ is, i.thread = t)
    (hlow : config.minOrder.isSeqCst = true ∨ config.capacity < 32767) :
    .error (.counterOverflow c) ∉ m.outcomes is := by
  induction is generalizing m with
  | nil => nofun
  | cons i rest ih =>
    have hstarted : Reachable config (m.withHost (m.host.prepare i)) := h.host _
    have hsame : (m.withHost (m.host.prepare i)).thread = t := hthread i (List.mem_cons_self ..)
    have henrols := enrols_perform hstarted.shaped.owners i.op
    rw [hsame] at henrols
    have hrest := ih (h.issue i) (henrols.sole hsole) fun j hj =>
      hthread j (List.mem_cons_of_mem _ hj)
    intro hmem
    obtain heq | hlater := List.mem_cons.mp hmem
    · obtain ⟨hseq, m', hreached, hslots, loc, hfull⟩ := exists_full_of_perform hstarted heq.symm
      rw [hsame] at hslots
      have hshaped := hreached.shaped
      have hle := Table.atomicsAt_le_storesOf hshaped.owners (hslots.sole hsole) loc
      have hfits := (Table.shaped_iff.mp hshaped).2.1 t
      rw [hseq] at hlow
      have hlow := hlow.resolve_left Bool.false_ne_true
      omega
    · exact hrest hlater

/-! ## Taking all numbers -/

/-- A store for which there is room stands behind the other lines of its thread. -/
theorem linesOf_pushLine_of_room (h : m.table.owners.Nodup) {t : ThreadId} {l : Line}
    (hroom : m.storesOf t < m.capacity) :
    (m.pushLine t l).table.linesOf t = m.table.linesOf t ++ [l] := by
  have hlines : (m.appended t l).table.linesOf t = m.table.linesOf t ++ [l] := by
    rw [table_appended, Table.linesOf_append, if_pos rfl]
  have howners : (m.appended t l).table.owners.Nodup := by
    rw [table_appended]
    exact Table.nodup_owners_append h t l
  have hfits : (m.appended t l).storesOf t ≤ (m.appended t l).capacity := by
    have hone : [l].countP (·.isStore) ≤ 1 := List.countP_le_length
    rw [storesOf, hlines, List.countP_append, capacity, config_appended]
    unfold storesOf capacity at hroom
    omega
  rw [pushLine_eq, evictExcess_of_le hfits, ← hlines]
  exact Table.linesOf_prune howners t

/-- An atomic store that goes to the buffer unless the least order is sequentially consistent. -/
def atomicStore (t : ThreadId) (loc : Location) : Issue :=
  { thread := t, op := .store loc 0 .atomicOp }

/-- Thread `t` has buffered `n` atomic stores to the location and nothing else. -/
structure Piled (config : Config) (t : ThreadId) (loc : Location) (n : Nat)
    (m : Machine Scripted) : Prop where
  reachable : Reachable config m
  sole : ∀ o ∈ m.table.owners, o = t
  lines : ∀ l ∈ m.table.linesOf t, l.isAt loc = true ∧ l.order.isAtomicOp = true
  length : (m.table.linesOf t).length = n

variable {config : Config} {t : ThreadId} {n : Nat}

theorem Piled.atomicsAt (h : Piled config t loc n m) : m.table.atomicsAt loc = n := by
  unfold Table.atomicsAt
  rw [Table.lines_eq_linesOf h.reachable.shaped.owners h.sole, ← h.length, List.countP_eq_length]
  exact fun l hl => Bool.and_eq_true_iff.mpr (h.lines l hl)

theorem Piled.clear (h : Piled config t loc n m) : ¬ m.table.Obstructed loc := by
  rintro ⟨l, hl, -, -, haway⟩
  rw [Table.lines_eq_linesOf h.reachable.shaped.owners h.sole] at hl
  rw [(h.lines l hl).1] at haway
  contradiction

theorem piled_create (config : Config) (host : Scripted) (t : ThreadId) (loc : Location) :
    Piled config t loc 0 (create config host) := ⟨.create host, nofun, nofun, rfl⟩

/-- An atomic store is performed on the buffers as they are found. -/
theorem exists_issue_atomicStore (m : Machine Scripted) (t : ThreadId) (loc : Location) :
    ∃ inner : Machine Scripted, inner.table = m.table ∧ inner.config = m.config ∧
      inner.thread = t ∧
      let r := inner.storeAs loc 0 (.atomicOp ||| m.minOrder) false
      (m.issue (atomicStore t loc)).1 = r.1.map (fun _ => .done) ∧
        (m.issue (atomicStore t loc)).2.table = r.2.table := by
  let m₀ := m.withHost (m.host.prepare (atomicStore t loc))
  obtain ⟨log, hnoted⟩ := noteOperation_eq (m := m₀)
    (.storeIssued t loc 0 (.atomicOp ||| m.minOrder))
  let noted := m₀.noteOperation (.storeIssued t loc 0 (.atomicOp ||| m.minOrder))
  have hplain : noted.host.flags.bypassed = false := by
    rw [show noted = { m₀ with log } from hnoted]
    show ControlFlags.none.bypassed = false
    decide
  have hissue : m.issue (atomicStore t loc) =
      ((noted.masked (storeAs loc 0 (.atomicOp ||| m.minOrder))).1.map (fun _ => .done),
        (noted.masked (storeAs loc 0 (.atomicOp ||| m.minOrder))).2) := rfl
  refine ⟨noted.held, ?_, ?_, ?_, ?_⟩
  · exact congrArg (·.table) hnoted
  · exact congrArg (·.config) hnoted
  · exact congrArg (·.host.thread) hnoted
  · rw [hissue, masked_fst, masked_table, hplain]
    exact ⟨rfl, rfl⟩

section

variable (h : Piled config t loc n m) (hv : loc.Valid) (hseq : config.minOrder.isSeqCst = false)

include h hseq

theorem Piled.order_issued : (.atomicOp ||| m.minOrder : Order).isSeqCst = false := by
  rw [Order.union_comm, Order.isSeqCst_union_atomicOp]
  exact (congrArg (·.minOrder.isSeqCst) h.reachable.config).trans hseq

include hv

/-- As long as there are numbers and room, the next atomic store is buffered as well. -/
theorem Piled.next (hn : n < 32767) (hroom : n < config.capacity) :
    Piled config t loc (n + 1) (m.issue (atomicStore t loc)).2 := by
  obtain ⟨inner, htable, hconfig, hthread, -, hafter⟩ := exists_issue_atomicStore m t loc
  have horder := h.order_issued hseq
  have hranked : inner.table.Ranked := htable ▸ h.reachable.ranked
  have hreached := h.reachable.issue (atomicStore t loc)
  have hstarted := h.reachable.host (m.host.prepare (atomicStore t loc))
  have henrols := enrols_perform hstarted.shaped.owners (atomicStore t loc).op
  have hnumber : inner.table.nextAtomicNo loc = .ok (n + 1) := by
    rw [htable, h.reachable.ranked.nextAtomicNo_of_clear h.clear, h.atomicsAt, if_pos hn]
  have hstored : ∃ l, inner.numbered (.store loc 0 (.atomicOp ||| m.minOrder)) = .ok l ∧
      (inner.storeAs loc 0 (.atomicOp ||| m.minOrder) false).2 = inner.pushLine t l := by
    cases hl : inner.numbered (.store loc 0 (.atomicOp ||| m.minOrder)) with
    | error f =>
      have hrefused := ((numbered_store_error_iff hv.2 0 horder).mp hl).2
      rw [hnumber] at hrefused
      contradiction
    | ok l =>
      refine ⟨l, rfl, ?_⟩
      unfold storeAs
      rw [(Location.check_eq_ok_iff loc).mpr hv]
      simp [horder, push, hl, hthread]
  obtain ⟨l, hl, hpushed⟩ := hstored
  have hfits : inner.storesOf t < inner.capacity := by
    have hle : inner.storesOf t ≤ (m.table.linesOf t).length := by
      rw [storesOf, htable]
      exact List.countP_le_length
    rw [h.length] at hle
    rw [capacity, hconfig, h.reachable.config]
    omega
  have hlines : (m.issue (atomicStore t loc)).2.table.linesOf t = m.table.linesOf t ++ [l] := by
    have howners : inner.table.owners.Nodup := htable ▸ h.reachable.shaped.owners
    rw [hafter, hpushed, linesOf_pushLine_of_room howners hfits, htable]
  refine ⟨hreached, henrols.sole h.sole, fun k hk => ?_, ?_⟩
  · rw [hlines] at hk
    rcases List.mem_append.mp hk with hk | hk
    · exact h.lines k hk
    · rw [List.mem_singleton.mp hk]
      have hloc : l.loc? = some loc := by
        rw [Line.loc?, write?_numbered hl, Line.store, Write.ofStore_eq_holding hv.2]
        rfl
      rw [order_numbered hl]
      exact ⟨Line.isAt_iff.mpr hloc, Order.atLeast_union_left ..⟩
  · rw [hlines, List.length_append, h.length]
    rfl

/-- Once all numbers are taken the next atomic store is refused. -/
theorem Piled.full (hn : n = 32767) :
    (m.issue (atomicStore t loc)).1 = .error (.counterOverflow .atomic) := by
  obtain ⟨inner, htable, -, -, hanswer, -⟩ := exists_issue_atomicStore m t loc
  have hrefused : (inner.storeAs loc 0 (.atomicOp ||| m.minOrder) false).1 =
      .error (.counterOverflow .atomic) := by
    rw [storeAs_overflow_iff (htable ▸ h.reachable.ranked), htable]
    exact ⟨rfl, hv, rfl, h.order_issued hseq, Order.atLeast_union_left .., h.clear,
      h.atomicsAt.trans hn⟩
  rw [hanswer, hrefused]
  rfl

/-- If all numbers can be taken, the store after that is refused. -/
theorem Piled.overflow (hcapacity : 32767 ≤ config.capacity) {more : Nat}
    (hmore : n + more = 32767) :
    .error (.counterOverflow .atomic) ∈
      m.outcomes (List.replicate (more + 1) (atomicStore t loc)) := by
  induction more generalizing n m with
  | zero => exact List.mem_cons.mpr (.inl (h.full hv hseq hmore).symm)
  | succ more ih =>
    refine List.mem_cons.mpr (.inr (ih (h.next hv hseq (by omega) (by omega)) (by omega)))

end

/-- A thread that is alone never lacks a number, whatever it does and whatever the host answers, if
and only if the capacity is lower than the greatest one or no store is buffered at all. -/
theorem numbers_suffice_iff (config : Config) (host : Scripted) (t : ThreadId) :
    (∀ is : List Issue, (∀ i ∈ is, i.thread = t) →
      ∀ c, .error (.counterOverflow c) ∉ (create config host).outcomes is) ↔
    config.capacity < Config.greatestCapacity ∨ config.minOrder.isSeqCst = true := by
  constructor
  · intro hnever
    by_contra hboth
    obtain ⟨hcapacity, hseq⟩ := not_or.mp hboth
    have hpiled := piled_create config host t ⟨Scripted.base, 8⟩
    exact hnever (List.replicate 32768 (atomicStore t ⟨Scripted.base, 8⟩))
      (fun i hi => by rw [List.eq_of_mem_replicate hi]; rfl) .atomic
      (hpiled.overflow (by decide) (Bool.eq_false_iff.mpr hseq) (Nat.not_lt.mp hcapacity) rfl)
  · intro hlow is hthread c
    exact not_overflow_of_sole (.create host) nofun hthread hlow.symm

/-- With the greatest capacity, which is accepted, the 32768th atomic store of a thread to one
location is refused: there is no room for it, but it is numbered first. -/
theorem numbers_run_out :
    let config : Config := { capacity := 32767 }
    let is := List.replicate 32768 (atomicStore ⟨0⟩ ⟨Scripted.base, 8⟩)
    config.validate = .ok config ∧ (∀ i ∈ is, i.thread = ⟨0⟩) ∧
      .error (.counterOverflow .atomic) ∈ (create config (Scripted.create 64)).outcomes is := by
  intro config is
  have hpiled := piled_create config (Scripted.create 64) ⟨0⟩ ⟨Scripted.base, 8⟩
  refine ⟨by decide, fun i hi => ?_, ?_⟩
  · rw [List.eq_of_mem_replicate hi]
    rfl
  · exact hpiled.overflow (by decide) (by decide) (Nat.le_refl _) rfl

end

end Machine

end StoreBuffer
