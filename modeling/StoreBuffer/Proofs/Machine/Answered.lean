import StoreBuffer.Proofs.Machine.Answers
import StoreBuffer.Proofs.Machine.Newest
import StoreBuffer.Proofs.Machine.Operations
import StoreBuffer.Proofs.Machine.Resolution

/-! # What a load does with its answers

On the scripted host the choices that an operation asked for can be read off the trace.
`Machine.answered` lists the answers given between two machines, and the table and the arena after a
load are a function of those that the load was given. -/

namespace StoreBuffer

namespace Scripted

variable {h h' : Scripted}

/-- What a store does to the arena is a matter of the arena. -/
theorem arena_storeAll_congr (harena : h'.arena = h.arena) (ws : List Write) :
    (Memory.storeAll ws h').arena = (Memory.storeAll ws h).arena := by
  induction ws generalizing h h' with
  | nil => exact harena
  | cons w rest ih =>
    apply ih
    show (write _ _ _ h').arena = (write _ _ _ h).arena
    have hoffset : h'.offset? = h.offset? := by
      unfold offset?
      rw [harena]
    rw [write, write, hoffset, harena]
    cases (h.offset? w.loc.addr _).bind _ with
    | none => exact harena
    | some arena => rfl

theorem arena_load (loc : Location) (h : Scripted) : (Memory.load loc h).2.arena = h.arena := by
  show (read _ _ h).2.arena = _
  unfold read
  split <;> rfl

theorem trace_load (loc : Location) (h : Scripted) : (Memory.load loc h).2.trace = h.trace := by
  show (read _ _ h).2.trace = _
  unfold read
  split <;> rfl

end Scripted

namespace Table

open Visibility Portion

/-- What a resolution drains under the answers, in its order. -/
def drained (t : Table) (reader : ThreadId) (r : Region) (answers : List Nat) : List Portion :=
  drainOrder (t.playing reader r (answers.headD 0)) (answers.getD 1 0)

variable {t : Table} {reader : ThreadId} {r : Region} {answers : List Nat}

/-- The first branch drains nothing. -/
theorem drained_of_first (h : answers.headD 0 = 0) : t.drained reader r answers = [] := by
  rw [List.eq_nil_iff_forall_not_mem]
  intro p hp
  obtain ⟨hplaying, hpos⟩ := mem_drainOrder.mp hp
  obtain ⟨⟨s, n⟩, hmem, rfl⟩ := List.mem_map.mp (List.mem_filter.mp hplaying).1
  have hzero := (List.of_mem_zip hmem).2
  rw [h, shares_zero] at hzero
  obtain ⟨-, -, rfl⟩ := List.mem_map.mp hzero
  contradiction

theorem portioned_drained (h : t.owners.Nodup) : t.Portioned r (t.drained reader r answers) :=
  ((portioned_portions h reader r _).sublist List.filter_sublist).drainOrder _

theorem slot_of_mem_drained {p : Portion} (hp : p ∈ t.drained reader r answers) :
    p.slot ∈ t.others reader := by
  rw [← map_slot_portions t reader r (answers.headD 0)]
  exact List.mem_map_of_mem (List.mem_filter.mp (mem_drainOrder.mp hp).1).1

/-- What the reader has pending stays pending. -/
theorem pending_settled_reader (t : Table) (reader : ThreadId) (r : Region) (answers : List Nat) :
    (t.settled r (t.drained reader r answers)).pending reader = t.pending reader := by
  have hnone : granted (t.drained reader r answers) reader = 0 := by
    apply granted_eq_zero
    intro hmem
    obtain ⟨p, hp, howner⟩ := List.mem_map.mp hmem
    have hother := (List.mem_filter.mp (slot_of_mem_drained hp)).2
    have howner : p.slot.owner = reader := howner
    simp [howner] at hother
  rw [pending_settled, hnone]
  rfl

end Table

namespace Machine

open Visibility Portion

variable {m : Machine Scripted} {reader : ThreadId} {loc : Location}

/-- Both choices are noted, the second one if it was asked for. -/
theorem trace_sourceChoice (m : Machine Scripted) (reader : ThreadId) (loc : Location) :
    (m.sourceChoice reader loc).2.trace = m.host.trace ++
      (⟨min (branches (m.table.counts reader loc.region)) greatestTotal,
          (m.drainChoice reader loc).1⟩ ::
        if 1 < (m.table.playing reader loc.region (m.drainChoice reader loc).1).length then
          [⟨(m.table.playing reader loc.region (m.drainChoice reader loc).1).length,
            (m.sourceChoice reader loc).1⟩] else []) := by
  unfold sourceChoice
  dsimp only
  split
  · exact List.append_assoc ..
  · rfl

theorem arena_sourceChoice (m : Machine Scripted) (reader : ThreadId) (loc : Location) :
    (m.sourceChoice reader loc).2.arena = m.host.arena := by
  unfold sourceChoice
  dsimp only
  split <;> rfl

/-- The answers given between two machines. -/
def answered (m m' : Machine Scripted) : List Nat :=
  (m'.host.trace.drop m.host.trace.length).map (·.chosen)

theorem answered_of_none (h : ∀ n ∈ m.table.counts reader loc.region, n = 0) :
    m.answered (m.resolve reader loc false) = [] := by
  rw [resolve_of_none h, answered, List.drop_length, List.map_nil]

theorem answered_of_some (howners : m.table.owners.Nodup)
    (hnonempty : ∀ s ∈ m.table.slots, s.buffer.isEmpty = false)
    (h : ∃ n ∈ m.table.counts reader loc.region, n ≠ 0) :
    m.answered (m.resolve reader loc false) = (m.drainChoice reader loc).1 ::
      if 1 < (m.table.playing reader loc.region (m.drainChoice reader loc).1).length then
        [(m.sourceChoice reader loc).1] else [] := by
  obtain ⟨hhost, -⟩ := resolve_of_some howners hnonempty h
  rw [answered, hhost, Scripted.trace_storeAll, trace_sourceChoice, List.drop_left]
  split <;> rfl

/-- Whether or not it had to ask, a resolution drains what its answers say. -/
theorem resolve_drained (reader : ThreadId) (loc : Location) (howners : m.table.owners.Nodup)
    (hnonempty : ∀ s ∈ m.table.slots, s.buffer.isEmpty = false) :
    let m' := m.resolve reader loc false
    let ps := m.table.drained reader loc.region (m.answered m')
    m'.table = (m.table.settled loc.region ps).prune ∧
      m'.host.arena = (Memory.storeAll (ps.flatMap (·.writes loc.region)) m.host).arena ∧
      (m.answered m').headD 0 < branches (m.table.counts reader loc.region) := by
  dsimp only
  by_cases h : ∀ n ∈ m.table.counts reader loc.region, n = 0
  · rw [answered_of_none h, resolve_of_none h, Table.drained_of_first rfl, Table.settled_nil,
      Table.prune_of_nonempty hnonempty]
    exact ⟨rfl, rfl, branches_pos _⟩
  · have h : ∃ n ∈ m.table.counts reader loc.region, n ≠ 0 := by simpa using h
    have hsame : m.table.drained reader loc.region (m.answered (m.resolve reader loc false)) =
        m.resolution reader loc := by
      rw [answered_of_some howners hnonempty h, Table.drained, resolution, List.headD_cons,
        List.getD_cons_succ]
      unfold sourceChoice
      dsimp only
      split <;> rfl
    obtain ⟨hhost, htable, -⟩ := resolve_of_some howners hnonempty h
    refine ⟨by rw [hsame, htable], ?_, ?_⟩
    · rw [hsame, hhost]
      exact Scripted.arena_storeAll_congr (arena_sourceChoice m reader loc) _
    · rw [answered_of_some howners hnonempty h, List.headD_cons]
      have hpos : 0 < min (branches (m.table.counts reader loc.region)) greatestTotal :=
        lt_min (branches_pos _) (by decide)
      exact Nat.lt_of_lt_of_le (Host.choose_lt _ _ hpos) (Nat.min_le_left ..)

/-! ## Loads -/

/-- The machine in which a load of the running thread goes about resolving, its host going on with
the answers. -/
def loading (answers : List Nat) (m : Machine Scripted) : Machine Scripted :=
  (m.answering answers).held.count fun s => { s with loads := s.loads + 1 }

/-- Without a slot of another thread there is nothing to resolve. -/
theorem resolved_eq (m : Machine Scripted) (loc : Location) : m.resolved loc =
    (m.count fun s => { s with loads := s.loads + 1 }).resolve m.thread loc false := by
  unfold resolved
  dsimp only
  split
  · rfl
  · rename_i hforeign
    have hnone : m.table.others m.thread = [] := by
      rw [Table.others, List.filter_eq_nil_iff]
      intro s hs hne
      exact hforeign (List.any_eq_true.mpr ⟨s, hs, hne⟩)
    refine (resolve_of_none fun n hn => ?_).symm
    have hn : n ∈ m.table.counts m.thread loc.region := hn
    rw [Table.counts, hnone] at hn
    contradiction

theorem forward_withHost (m : Machine Scripted) (h : Scripted) (t : ThreadId) (loc : Location)
    (v : UInt64) : ((m.withHost h).forward t loc v).1 = (m.forward t loc v).1 := by
  unfold forward
  have htable : (m.withHost h).table = m.table := rfl
  rw [htable]
  cases m.table.buffer? t with
  | none => rfl
  | some b =>
    dsimp only
    cases b.shortcut? loc <;> rfl

/-- Apart from resolving, a load changes counters, flags and the log. -/
theorem load_loading (hv : loc.Valid) (hplain : m.host.flags.bypassed = false)
    (answers : List Nat) (order : Order) :
    let r := (m.answering answers).load loc order
    let m' := (m.loading answers).resolve m.thread loc false
    r.1 = .ok (m'.forward m.thread loc (Memory.load loc m'.host).1).1 ∧
      r.2.table = m'.table ∧ r.2.host.arena = m'.host.arena ∧
      m.answered r.2 = (m.loading answers).answered m' := by
  have hloaded := loadAs_plain (m := (m.answering answers).held)
    ((Location.check_eq_ok_iff loc).mpr hv)
  rw [resolved_eq] at hloaded
  have hheld : (Host.hold (m.answering answers).host).1.bypassed = false := hplain
  unfold load masked
  dsimp only
  rw [hheld, hloaded]
  dsimp only
  rw [show ((m.answering answers).held.count fun s => { s with loads := s.loads + 1 }) =
    m.loading answers from rfl, show (m.answering answers).held.thread = m.thread from rfl,
    forward_withHost]
  generalize (m.loading answers).resolve m.thread loc false = m'
  have htable := table_forward m.thread loc (Memory.load loc m'.host).1
    (m'.withHost (Memory.load loc m'.host).2)
  have hhost := host_forward m.thread loc (Memory.load loc m'.host).1
    (m'.withHost (Memory.load loc m'.host).2)
  generalize ((m'.withHost (Memory.load loc m'.host).2).forward m.thread loc
    (Memory.load loc m'.host).1).2 = m'' at htable hhost ⊢
  refine ⟨rfl, (table_noteOperation _).trans htable, ?_, ?_⟩
  · show (m''.noteOperation _).host.arena = _
    rw [host_noteOperation, hhost]
    exact Scripted.arena_load ..
  · show ((m''.noteOperation _).host.trace.drop _).map _ = _
    rw [host_noteOperation, hhost, show (m'.withHost (Memory.load loc m'.host).2).host.trace =
      (Memory.load loc m'.host).2.trace from rfl, Scripted.trace_load]
    rfl

/-- The first answer of the script is the one that is given. -/
theorem headD_answered (howners : m.table.owners.Nodup)
    (hnonempty : ∀ s ∈ m.table.slots, s.buffer.isEmpty = false) (hv : loc.Valid)
    (hplain : m.host.flags.bypassed = false) {choice : Nat}
    (hchoice : choice < min (branches (m.table.counts m.thread loc.region)) greatestTotal)
    (order : Order) :
    (m.answered ((m.answering [choice]).load loc order).2).headD 0 = choice := by
  obtain ⟨-, -, -, hanswered⟩ := load_loading hv hplain [choice] order
  rw [hanswered]
  by_cases h : ∀ n ∈ m.table.counts m.thread loc.region, n = 0
  · rw [answered_of_none (m := m.loading [choice]) h]
    rw [branches_eq_one h] at hchoice
    have hlt : choice < 1 := Nat.lt_of_lt_of_le hchoice (Nat.min_le_left ..)
    exact (Nat.lt_one_iff.mp hlt).symm
  · have h : ∃ n ∈ m.table.counts m.thread loc.region, n ≠ 0 := by simpa using h
    rw [answered_of_some (m := m.loading [choice]) howners hnonempty h, List.headD_cons]
    exact congrArg Prod.fst (Scripted.choose_answering hchoice [] _)

/-- Table and arena after a load are a function of the answers it was given. -/
theorem load_drained (howners : m.table.owners.Nodup)
    (hnonempty : ∀ s ∈ m.table.slots, s.buffer.isEmpty = false) (hv : loc.Valid)
    (hplain : m.host.flags.bypassed = false) (answers : List Nat) (order : Order) :
    let r := (m.answering answers).load loc order
    let ps := m.table.drained m.thread loc.region (m.answered r.2)
    r.2.table = (m.table.settled loc.region ps).prune ∧
      r.2.host.arena = (Memory.storeAll (ps.flatMap (·.writes loc.region)) m.host).arena ∧
      (m.answered r.2).headD 0 < branches (m.table.counts m.thread loc.region) := by
  obtain ⟨-, htable, harena, hanswered⟩ := load_loading hv hplain answers order
  have hresolve := resolve_drained (m := m.loading answers) m.thread loc howners hnonempty
  dsimp only at hresolve ⊢
  rw [htable, harena, hanswered]
  have hloading : (m.loading answers).host.arena = m.host.arena := rfl
  exact ⟨hresolve.1, hresolve.2.1.trans (Scripted.arena_storeAll_congr hloading _), hresolve.2.2⟩

end Machine

end StoreBuffer
