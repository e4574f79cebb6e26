import StoreBuffer.Proofs.Machine.Unfenced
import StoreBuffer.Proofs.Machine.Run

/-! # Fences are inert

A fence that is not sequentially consistent leaves a mark at most, and marks take no part in anything.
Taking such fences out of a run changes no answer, no choice and no write, and after every other
operation the buffers hold the same stores in the same order with the same numbers. -/

namespace StoreBuffer

namespace Machine

variable {σ : Type} [Host σ] {R : σ → σ → Prop} {m m' : Machine σ}

/-! ## Operations -/

theorem Alike.lockstep (hR : Host.Congruence R) : Lockstep (Alike R) where
  thread h := h.thread hR
  hasForeign t h := by rw [← Table.hasForeign_unfenced, h.table, Table.hasForeign_unfenced]
  note e h := h.note e e
  noteOperation e h := h.noteOperation e e
  count f hf h := h.count f fun s => (hf s 0).symm
  choose n h := ⟨(hR.choose n h.host).1, h.withHost (hR.choose n h.host).2⟩
  objectAt a h := ⟨(hR.objectAt a h.host).1, h.withHost (hR.objectAt a h.host).2⟩
  read loc h := ⟨(hR.load loc h.host).1, h.withHost (hR.load loc h.host).2⟩
  write w h := h.withHost (hR.storeAll [w] h.host)
  flush t h := h.flush hR t
  resolve t loc h := h.resolve hR t loc false
  forward t loc v h := h.forward t loc v
  push t _ value _ hv hseq h := h.push hR t value hv hseq
  pushFence t order h := h.pushFence t order
  discardRange only range h := h.discardRange only range

theorem Alike.masking (hR : Host.Congruence R) : Masking (Alike R) (Alike R) (Alike R) where
  toLockstep := lockstep hR
  started h := ⟨h.thread hR, h.minOrder⟩
  noted e h := h.noteOperation e e
  dumped h := h.note _ _
  hold h := ⟨hR.flags h.host, h.withHost (hR.hold h.host).2⟩
  release h hn := by
    rw [hR.flags h.host]
    exact hn.withHost (hR.release _ hn.host)
  idle h := h

theorem Marks.masked {body : Bool → Machine σ → Unit × Machine σ}
    (hbody : ∀ direct, (m.withHost (Host.hold m.host).2).Marks
      (body direct (m.withHost (Host.hold m.host).2)).2) :
    (m.withHost (Host.release (Host.hold m.host).1 (Host.hold m.host).2)).Marks
      (m.masked body).2 := by
  have hmarks := hbody (Host.hold m.host).1.bypassed
  unfold Machine.masked
  dsimp only
  rw [hmarks.host]
  exact hmarks.withHost _

/-- A fence that is not sequentially consistent leaves a mark at most. -/
theorem marks_fence (h : m.table.Tidy) {order : Order}
    (hweak : (order ||| m.minOrder).isSeqCst = false) :
    (m.withHost (Host.release (Host.hold m.host).1 (Host.hold m.host).2)).Marks
      (m.fence order) := by
  refine Marks.masked fun direct => ?_
  have hheld : (m.withHost (Host.hold m.host).2).table.Tidy := h
  generalize m.withHost (Host.hold m.host).2 = m₁ at hheld ⊢
  have hnoted := marks_noteOperation hheld (.fenceIssued m₁.thread (order ||| m.minOrder))
  split
  · exact .refl hheld
  · dsimp only
    rw [hweak, if_neg Bool.false_ne_true]
    split
    · exact hnoted.trans (marks_pushFence hnoted.tidy _ _)
    · exact hnoted

end Machine

/-- The answer, a report left out. -/
def Answer.silent : Answer → Answer
  | .text _ => .done
  | a => a

namespace Machine

variable {σ : Type} [Host σ] {R : σ → σ → Prop} {m m' : Machine σ}

/-- Every operation keeps machines alike, and answers the same but for reports. -/
theorem Alike.perform (hR : Host.Congruence R) (h : Alike R m m') (op : Op) :
    (m.perform op).1.map Answer.silent = (m'.perform op).1.map Answer.silent ∧
      Alike R (m.perform op).2 (m'.perform op).2 := by
  obtain ⟨hanswer, hnext⟩ := (Alike.masking hR).perform h op
  refine ⟨?_, hnext⟩
  by_cases hop : op = .dump
  · subst hop
    rfl
  · rw [hanswer hop]

end Machine

/-- A fence that is not sequentially consistent. -/
def Issue.isWeakFence (least : Order) (i : Issue) : Bool :=
  match i.op with
  | .fence r => !(r ||| least).isSeqCst
  | _ => false

/-- An issue of a run, and whether it is struck out. -/
structure Turn where
  issue : Issue
  struck : Bool := false
deriving DecidableEq, Repr

namespace Recorded

/-- The recorded host while an operation is issued. -/
def prepare (h : Recorded Scripted) (i : Issue) : Recorded Scripted := h.update (·.prepare i)

variable {h k : Recorded Scripted}

theorem Agrees.prepare (hk : h.Agrees k) (i : Issue) : (h.prepare i).Agrees (k.prepare i) :=
  ⟨congrArg (·.prepare i) hk.inner, hk.work⟩

/-- The hosts agree as soon as an operation is issued. -/
def Ready (h k : Recorded Scripted) : Prop := ∀ i, (h.prepare i).Agrees (k.prepare i)

theorem Agrees.ready (hk : h.Agrees k) : h.Ready k := hk.prepare

end Recorded

/-- All of a machine that shows when fences are left out: the host apart from what is set anew for
every issue, the calls that moved data or made a choice, the counters and the buffered stores. -/
structure View where
  host : Scripted
  work : List Call
  stats : Stats
  table : Table

namespace Machine

variable {m m' : Machine (Recorded Scripted)}

def view (m : Machine (Recorded Scripted)) : View where
  host := { m.host.inner with thread := ⟨0⟩, flags := .none, objects := {} }
  work := m.host.work
  stats := m.stats.unfenced
  table := m.table.unfenced

/-- Issues an operation on a recorded host. -/
def turn (m : Machine (Recorded Scripted)) (i : Issue) : Outcome × Machine (Recorded Scripted) :=
  (m.withHost (m.host.prepare i)).perform i.op

/-- Every turn of a run with its outcome and the machine after it. What is struck out takes place all
the same. -/
def record (m : Machine (Recorded Scripted)) :
    List Turn → List (Turn × Outcome × Machine (Recorded Scripted))
  | [] => []
  | t :: rest => (t, m.turn t.issue) :: (m.turn t.issue).2.record rest

/-- The machine after a run. -/
def finish (m : Machine (Recorded Scripted)) (ts : List Turn) : Machine (Recorded Scripted) :=
  ts.foldl (fun m t => (m.turn t.issue).2) m

theorem Alike.mono {σ : Type} {R S : σ → σ → Prop} {m m' : Machine σ} (h : Alike R m m')
    (hS : R m.host m'.host → S m.host m'.host) : Alike S m m' :=
  ⟨hS h.host, h.config, h.stats, h.table, h.left, h.right⟩

theorem Alike.view (h : Alike Recorded.Ready m m') : m.view = m'.view := by
  have hhost := (h.host ⟨⟨0⟩, .none, {}, .dump⟩).inner
  have hwork : m.host.work = m'.host.work := (h.host ⟨⟨0⟩, .none, {}, .dump⟩).work
  unfold Machine.view
  rw [hwork, h.stats, h.table]
  exact congrArg (View.mk · _ _ _) hhost

/-- Both machines take the turn. -/
theorem Alike.turn (h : Alike Recorded.Ready m m') (i : Issue) :
    (m.turn i).1.map Answer.silent = (m'.turn i).1.map Answer.silent ∧
      Alike Recorded.Ready (m.turn i).2 (m'.turn i).2 := by
  have hprepared : Alike Recorded.Agrees (m.withHost (m.host.prepare i))
      (m'.withHost (m'.host.prepare i)) :=
    ⟨h.host i, h.config, h.stats, h.table, h.left, h.right⟩
  obtain ⟨hanswer, hnext⟩ := hprepared.perform Recorded.congruence_agrees i.op
  exact ⟨hanswer, hnext.mono Recorded.Agrees.ready⟩

/-- Only one of the machines takes the turn. -/
theorem Alike.struck (h : Alike Recorded.Ready m m') {i : Issue}
    (hweak : i.isWeakFence m.minOrder = true) : Alike Recorded.Ready (m.turn i).2 m' := by
  obtain ⟨u, flags, heap, op⟩ := i
  cases op with
  | fence r =>
    let p := m.withHost (m.host.prepare ⟨u, flags, heap, .fence r⟩)
    have hseq : (r ||| m.minOrder).isSeqCst = false := by simpa [Issue.isWeakFence] using hweak
    have hmarks : (p.withHost (Host.release (Host.hold p.host).1 (Host.hold p.host).2)).Marks
        (p.fence r) := marks_fence (m := p) h.left hseq
    refine ⟨fun j => ?_, hmarks.config.trans h.config, hmarks.stats.trans h.stats,
      hmarks.table.trans h.table, hmarks.tidy, h.right⟩
    have hhost : (p.fence r).host.Agrees p.host := hmarks.host ▸ Recorded.agrees_release p.host
    exact (hhost.prepare j).trans (h.host j)
  | _ => contradiction

theorem shaped_turn {c : Config} (h : m.config = c ∧ m.table.Shaped c.capacity) (i : Issue) :
    (m.turn i).2.config = c ∧ (m.turn i).2.table.Shaped c.capacity := by
  have hprepared : (m.withHost (m.host.prepare i)).config = c ∧
      (m.withHost (m.host.prepare i)).table.Shaped c.capacity := h
  exact (invariant_shaped c).perform i.op hprepared

/-- Two runs that differ in what is struck out of one of them. -/
theorem Alike.record {c : Config} (h : Alike Recorded.Ready m m')
    (hshaped : m.config = c ∧ m.table.Shaped c.capacity) {ts : List Turn}
    (hweak : ∀ t ∈ ts, t.struck = true → t.issue.isWeakFence c.minOrder = true) :
    ((m.record ts).filter (!·.1.struck)).map (fun e => (e.1, e.2.1.map Answer.silent, e.2.2.view)) =
        (m'.record (ts.filter (!·.struck))).map
          (fun e => (e.1, e.2.1.map Answer.silent, e.2.2.view)) ∧
      (m.finish ts).view = (m'.finish (ts.filter (!·.struck))).view := by
  induction ts generalizing m m' with
  | nil => exact ⟨rfl, h.view⟩
  | cons t rest ih =>
    have hnextShaped := shaped_turn hshaped t.issue
    have hrest := fun t' ht' => hweak t' (List.mem_cons_of_mem t ht')
    rw [Machine.record]
    cases hstruck : t.struck with
    -- only the first machine takes the turn, and a weak fence leaves a mark at most
    | true =>
      have hleast : m.minOrder = c.minOrder := congrArg Config.minOrder hshaped.1
      have hnext := h.struck (hleast ▸ hweak t (List.mem_cons_self ..) hstruck)
      rw [List.filter_cons_of_neg (by simp [hstruck]), List.filter_cons_of_neg (by simp [hstruck])]
      exact ih hnext hnextShaped hrest
    | false =>
      obtain ⟨hanswer, hnext⟩ := h.turn t.issue
      obtain ⟨hentries, hlast⟩ := ih hnext hnextShaped hrest
      rw [List.filter_cons_of_pos (by simp [hstruck]), List.filter_cons_of_pos (by simp [hstruck]),
        Machine.record, List.map_cons, List.map_cons, hentries, hanswer, hnext.view]
      exact ⟨rfl, hlast⟩

/-- Fences that are not sequentially consistent are inert: whichever of them are taken out of a run,
on the same host with the same answers to its choices, every other operation answers the same, with
the same calls in the same order to memory and for choices, and leaves the same counters and,
fences aside, the same buffers. -/
theorem record_without_fences (c : Config) (h : Scripted) {ts : List Turn}
    (hweak : ∀ t ∈ ts, t.struck = true → t.issue.isWeakFence c.minOrder = true) :
    (((create c (⟨h, []⟩ : Recorded Scripted)).record ts).filter (!·.1.struck)).map
          (fun e => (e.1, e.2.1.map Answer.silent, e.2.2.view)) =
        ((create c ⟨h, []⟩).record (ts.filter (!·.struck))).map
          (fun e => (e.1, e.2.1.map Answer.silent, e.2.2.view)) ∧
      ((create c ⟨h, []⟩).finish ts).view =
        ((create c ⟨h, []⟩).finish (ts.filter (!·.struck))).view := by
  have hshaped := (invariant_shaped c).reachable
    (fun _ => ⟨rfl, List.nodup_nil, nofun, nofun, nofun⟩) (.create (⟨h, []⟩ : Recorded Scripted))
  exact Alike.record
    ⟨(Recorded.Agrees.refl _).ready, rfl, rfl, rfl, Table.tidy_empty, Table.tidy_empty⟩
    hshaped hweak

/-- Release fences between the stores of thread 1, two of them united. The load of thread 2 drains the
second store from between them, and the last store cleans the first one and two markers off the
front. -/
theorem record_without_fences_drained :
    let x : Location := ⟨⟨0x10000000⟩, 32⟩
    let y : Location := ⟨⟨0x10000004⟩, 32⟩
    let fence : Turn := ⟨{ thread := ⟨1⟩, op := .fence .release }, true⟩
    let ts : List Turn :=
      [⟨{ thread := ⟨1⟩, op := .store x 1 .monotonic }, false⟩, fence,
        ⟨{ thread := ⟨1⟩, op := .store y 2 .monotonic }, false⟩, fence, fence,
        ⟨{ thread := ⟨2⟩, op := .load y .acquire }, false⟩,
        ⟨{ thread := ⟨1⟩, op := .store y 3 .release }, false⟩, fence,
        ⟨{ thread := ⟨1⟩, op := .store x 4 .monotonic }, false⟩,
        ⟨{ thread := ⟨2⟩, op := .cas y 2 5 .acquire .monotonic }, false⟩]
    let h := (Scripted.create 16).withScript [1, 0]
    let m : Machine (Recorded Scripted) := create {} ⟨h, []⟩
    (m.record ts).map (fun e =>
        (e.2.2.stats.fencesBuffered, e.2.2.table.slots.map (·.buffer.lines.length))) =
      [(0, [1]), (1, [2]), (1, [3]), (2, [4]), (2, [4]), (2, [3]), (2, [4]), (3, [5]), (3, [3]),
        (3, [3, 1])] ∧
    ((m.record ts).filter (!·.1.struck)).map
          (fun e => (e.1, e.2.1.map Answer.silent, e.2.2.view)) =
        (m.record (ts.filter (!·.struck))).map
          (fun e => (e.1, e.2.1.map Answer.silent, e.2.2.view)) ∧
      (m.finish ts).view = (m.finish (ts.filter (!·.struck))).view :=
  ⟨by decide +kernel, record_without_fences {} _ (by decide)⟩

end Machine

end StoreBuffer
