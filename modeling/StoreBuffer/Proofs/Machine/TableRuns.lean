import Mathlib.Data.List.Induction
import StoreBuffer.Host.Scripted
import StoreBuffer.Proofs.Machine.Pushing
import StoreBuffer.Proofs.Table.Arrivals

/-! # Runs of table operations

Lines are pushed, drained, discarded and resolved in any order and with any arguments, on any host.
`TableOp.Dated` follows every line from the operation that pushed it: the date of a line is the
place of that operation in the run. Along every run the numbers of the buffered lines are dense and
tell the order of their dates (`Table.InSequence`). -/

namespace StoreBuffer

/-- An operation on the buffers, below the operations of the simulated program. -/
inductive TableOp where
  /-- Pushes a new store. -/
  | store (t : ThreadId) (loc : Location) (value : UInt64) (order : Order)
  /-- Pushes a new fence, like a store. -/
  | fence (t : ThreadId) (order : Order)
  /-- Leaves a fence behind the lines of a thread, if there are any. -/
  | mark (t : ThreadId) (order : Order)
  | flush (t : ThreadId)
  | flushPart (t : ThreadId) (upTo : Nat) (loc : Location)
  | discardRange (only : Option ThreadId) (range : Region)
  | resolve (reader : ThreadId) (loc : Location) (own : Bool)
deriving DecidableEq, Repr

namespace TableOp

section Runs

variable {σ : Type} [Host σ]

def perform (op : TableOp) (m : Machine σ) : Machine σ :=
  match op with
  | store t loc value order => (m.push t (.store loc value order)).2
  | fence t order => (m.push t (.fence order)).2
  | mark t order => (m.pushFence t (.fence order)).2
  | flush t => m.flush t
  | flushPart t upTo loc => m.flushPart t upTo loc
  | discardRange only range => (m.discardRange only range).2
  | resolve reader loc own => m.resolve reader loc own

def run (ops : List TableOp) (m : Machine σ) : Machine σ := ops.foldl (fun m op => op.perform m) m

theorem run_append (ops : List TableOp) (op : TableOp) (m : Machine σ) :
    run (ops ++ [op]) m = op.perform (run ops m) := List.foldl_append

/-- The table with a pushed line, and the dates with the date of the line, if it can be numbered. -/
def enterLine (t : ThreadId) (l : Line) (now : Nat) (m : Machine σ) (dates : Dates) :
    Table × Dates :=
  match m.numbered l with
  | .ok l => (m.table.append t l, dates.push t now)
  | .error _ => (m.table, dates)

/-- The table and the dates once the line that an operation pushes has come in, before any line
leaves. -/
def enter (op : TableOp) (now : Nat) (m : Machine σ) (dates : Dates) : Table × Dates :=
  match op with
  | store t loc value order => enterLine t (.store loc value order) now m dates
  | fence t order => enterLine t (.fence order) now m dates
  | mark t order =>
    let r := m.pushFence t (.fence order)
    (r.2.table, if r.1 then dates.push t now else dates)
  | flush _ | flushPart .. | discardRange .. | resolve .. => (m.table, dates)

/-- The dates of the lines that are buffered after a run: a line has the place in the run of the
operation that pushed it. -/
inductive Dated (m : Machine σ) : List TableOp → Dates → Prop
  | start : Dated m [] fun _ => []
  | perform {ops : List TableOp} {dates dates' : Dates} (op : TableOp) (h : Dated m ops dates)
      (left : Table.DatedThins (op.enter ops.length (run ops m) dates)
        ((run (ops ++ [op]) m).table, dates')) : Dated m (ops ++ [op]) dates'

end Runs

/-! ## One operation -/

section Enter

variable {σ : Type} {m : Machine σ} {now : Nat} {dates : Dates} {as : List Arrival}

theorem next_numbered {l l' : Line} (h : m.numbered l = .ok l') (hseq : l.seqNo = 0)
    (hatomic : l.atomicNo = 0) : Line.Next m.table l' := by
  have hwrite := Machine.write?_numbered h
  have horder := Machine.order_numbered h
  have hstore : l'.isStore = l.isStore := by rw [Line.isStore, hwrite, Line.isStore]
  have hseqNo := Machine.seqNo_numbered h
  have hatomicNo := Machine.atomicNo_numbered h
  refine ⟨?_, fun hop loc hloc => ?_, fun hnot => ?_⟩
  · split at hseqNo
    · exact .inr hseqNo
    · exact .inl (hseqNo.trans hseq)
  · have hloc' : l.loc? = some loc := by rwa [Line.loc?, ← hwrite]
    rw [Line.isStore_iff_exists_loc.mpr ⟨loc, hloc'⟩, ← horder, hop] at hatomicNo
    exact hatomicNo loc hloc'
  · rw [← hstore, ← horder, if_neg (by simpa using hnot)] at hatomicNo
    exact hatomicNo.trans hatomic

theorem arrived_enterLine (h : Table.Arrived now m.table dates as) (t : ThreadId) {l : Line}
    (hseq : l.seqNo = 0) (hatomic : l.atomicNo = 0) :
    ∃ bs, Table.Arrived (now + 1) (enterLine t l now m dates).1 (enterLine t l now m dates).2 bs := by
  unfold enterLine
  cases hn : m.numbered l with
  | error f => exact ⟨as, h.later⟩
  | ok l => exact ⟨_, h.append t (next_numbered hn hseq hatomic)⟩

/-- The line that an operation pushes arrives with the numbers that are next. -/
theorem arrived_enter (h : Table.Arrived now m.table dates as) (op : TableOp) :
    ∃ bs, Table.Arrived (now + 1) (op.enter now m dates).1 (op.enter now m dates).2 bs := by
  cases op with
  | store t loc value order => exact arrived_enterLine h t rfl rfl
  | fence t order => exact arrived_enterLine h t rfl rfl
  | mark t order =>
    dsimp only [enter]
    obtain ⟨hnew, htable⟩ | ⟨b, newest, hb, hnewest, ⟨hfence, hnew, htable⟩ | ⟨hstore, hnew, htable⟩⟩ :=
      Machine.pushFence_cases t (.fence order) m
    · rw [hnew, htable]
      exact ⟨as, h.later⟩
    · rw [hnew, htable]
      obtain ⟨older, hlines, hmodified⟩ := Buffer.exists_modify_newest hnewest fun f =>
        { f with order := f.order ||| (Line.fence order).order }
      obtain ⟨bs, hbs⟩ := h.modify hb (f := fun b =>
          b.modify (b.size - 1) fun f => { f with order := f.order ||| (Line.fence order).order }) (by
        rw [hmodified, hlines, List.map_append, List.map_append, List.map_singleton,
          List.map_singleton, Line.core_withOrder hfence])
      exact ⟨bs, hbs.later⟩
    · have happend : m.table.modify t (·.push (.fence order)) = m.table.append t (.fence order) := by
        rw [Table.append, hb, Option.isSome_some, if_pos rfl]
      rw [hnew, htable, happend]
      exact ⟨_, h.append t ⟨.inl rfl, nofun, fun _ => rfl⟩⟩
  | flush _ | flushPart | discardRange | resolve => exact ⟨as, h.later⟩

end Enter

variable {σ : Type} [Host σ] {m : Machine σ} {dates : Dates}

theorem thins_push (h : m.table.owners.Nodup) (t : ThreadId) (l : Line) (now : Nat)
    (dates : Dates) :
    Table.Thins (fun _ => True) (enterLine t l now m dates).1 (m.push t l).2.table := by
  unfold enterLine Machine.push
  cases m.numbered l with
  | error f => exact .refl
  | ok l =>
    obtain ⟨u, hthins, -, htable, -⟩ := Machine.exists_pushLine h t l
    rw [htable]
    exact hthins.tail .prune

/-- Once its own line has come in, an operation only takes lines away. -/
theorem thins_perform (h : m.table.owners.Nodup) (op : TableOp) (now : Nat) (dates : Dates) :
    Table.Thins (fun _ => True) (op.enter now m dates).1 (op.perform m).table := by
  cases op with
  | store t loc value order => exact thins_push h ..
  | fence t order => exact thins_push h ..
  | mark t order => exact .refl
  | flush t => exact (Machine.sheds_flush h t).any.table
  | flushPart t upTo loc => exact (Machine.sheds_flushPart h t upTo loc).any.table
  | discardRange only range => exact (Machine.sheds_discardRange only range m).any.table
  | resolve reader loc own => exact (Machine.sheds_resolve h reader loc own).any.table

/-! ## Runs -/

theorem arrived_run (h : m.table = {}) {ops : List TableOp}
    (hdated : Dated m ops dates) : ∃ as, Table.Arrived ops.length (run ops m).table dates as := by
  induction hdated with
  | start =>
    rw [run, List.foldl_nil, h]
    exact ⟨[], Table.arrived_empty 0⟩
  | perform op _ left ih =>
    obtain ⟨as, has⟩ := ih
    obtain ⟨bs, hbs⟩ := arrived_enter has op
    rw [List.length_append]
    exact hbs.thins left

/-- The lines that are buffered after a run can be dated. -/
theorem exists_dated (h : m.table = {}) (ops : List TableOp) :
    ∃ dates, Dated m ops dates := by
  induction ops using List.reverseRecOn with
  | nil => exact ⟨_, .start⟩
  | append_singleton ops op ih =>
    obtain ⟨dates, hdated⟩ := ih
    obtain ⟨as, has⟩ := arrived_run h hdated
    obtain ⟨dates', hthins⟩ := (thins_perform has.owners op ops.length dates).exists_dates
      (op.enter ops.length (run ops m) dates).2
    rw [← run_append] at hthins
    exact ⟨dates', .perform op hdated hthins⟩

/-- Whatever operations are performed on an empty table, its lines have dates, and their numbers
follow them. -/
theorem run_inSequence (config : Config) (h : σ) (ops : List TableOp) :
    (∃ dates, Dated (.create config h) ops dates) ∧
      ∀ dates, Dated (.create config h) ops dates →
        (run ops (.create config h)).table.InSequence dates := by
  refine ⟨exists_dated rfl ops, fun dates hdated => ?_⟩
  obtain ⟨as, has⟩ := arrived_run rfl hdated
  exact has.inSequence

/-- Thread 2 takes its line along, and the line that thread 1 pushed after it moves down. -/
example :
    let x : Location := ⟨⟨0x10000000⟩, 32⟩
    let m := run [.store ⟨1⟩ x 1 .atomicOp, .store ⟨2⟩ x 2 .atomicOp, .fence ⟨1⟩ .seqCst,
      .store ⟨1⟩ x 3 .atomicOp, .flush ⟨2⟩] (.create {} (Scripted.create 16))
    m.table.lines.map (fun l => (l.seqNo, l.atomicNo)) = [(0, 1), (1, 0), (0, 2)] := by
  decide +kernel

end TableOp

end StoreBuffer
