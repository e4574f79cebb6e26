import StoreBuffer.Proofs.Machine.Lockstep
import StoreBuffer.Proofs.Machine.Run

/-! # Reachable machines

A program performs operations; between two of them the host may have done anything, so a machine is
reachable whatever became of its host. An invariant looks at the table and the configuration only,
and it is enough to check it against the five ways in which an operation works on the table. -/

namespace StoreBuffer.Machine

variable {σ : Type} [Host σ]

/-- The machines that operations lead to under a configuration, on any host and with any faults. -/
inductive Reachable (c : Config) : Machine σ → Prop
  | create (h : σ) : Reachable c (.create c h)
  | host {m : Machine σ} (reached : Reachable c m) (h : σ) : Reachable c (m.withHost h)
  | perform {m : Machine σ} (reached : Reachable c m) (op : Op) : Reachable c (m.perform op).2

theorem Reachable.issue {c : Config} {m : Machine Scripted} (h : Reachable c m) (i : Issue) :
    Reachable c (m.issue i).2 := (h.host _).perform i.op

/-- A property of table and configuration that everything an operation does preserves. -/
structure Invariant (P : Machine σ → Prop) : Prop where
  congr : ∀ {m m' : Machine σ}, P m → m'.table = m.table → m'.config = m.config → P m'
  flush : ∀ {m : Machine σ} (t : ThreadId), P m → P (m.flush t)
  resolve : ∀ {m : Machine σ} (t : ThreadId) (loc : Location), P m → P (m.resolve t loc false)
  push : ∀ {m : Machine σ} (t : ThreadId) {loc : Location} (value : UInt64) {order : Order},
    loc.Valid → order.isSeqCst = false → P m → P (m.push t (.store loc value order)).2
  pushFence : ∀ {m : Machine σ} (t : ThreadId) (order : Order), P m →
    P (m.pushFence t (.fence order)).2
  discardRange : ∀ {m : Machine σ} (only : Option ThreadId) (range : Region), P m →
    P (m.discardRange only range).2

namespace Invariant

variable {P : Machine σ → Prop} {m : Machine σ}

theorem noteOperation (h : Invariant P) (e : Event) (hm : P m) : P (m.noteOperation e) := by
  obtain ⟨log, hlog⟩ := noteOperation_eq (m := m) e
  rw [hlog]
  exact h.congr hm rfl rfl

theorem forward (h : Invariant P) (t : ThreadId) (loc : Location) (v : UInt64) (hm : P m) :
    P (m.forward t loc v).2 := by
  unfold Machine.forward
  split
  · exact hm
  · split <;> exact h.congr hm rfl rfl

/-- A machine in lockstep with itself. -/
theorem lockstep (h : Invariant P) : Lockstep fun m m' : Machine σ => m = m' ∧ P m where
  thread := by
    rintro m _ ⟨rfl, -⟩
    rfl
  hasForeign t := by
    rintro ⟨rfl, -⟩
    rfl
  note e := by
    rintro ⟨rfl, hm⟩
    exact ⟨rfl, h.congr hm rfl rfl⟩
  noteOperation e := by
    rintro ⟨rfl, hm⟩
    exact ⟨rfl, h.noteOperation e hm⟩
  count f _ := by
    rintro ⟨rfl, hm⟩
    exact ⟨rfl, h.congr hm rfl rfl⟩
  choose n := by
    rintro ⟨rfl, hm⟩
    exact ⟨rfl, rfl, h.congr hm rfl rfl⟩
  objectAt a := by
    rintro ⟨rfl, hm⟩
    exact ⟨rfl, rfl, h.congr hm rfl rfl⟩
  read loc := by
    rintro ⟨rfl, hm⟩
    exact ⟨rfl, rfl, h.congr hm rfl rfl⟩
  write w := by
    rintro ⟨rfl, hm⟩
    exact ⟨rfl, h.congr hm rfl rfl⟩
  flush t := by
    rintro ⟨rfl, hm⟩
    exact ⟨rfl, h.flush t hm⟩
  resolve t loc := by
    rintro ⟨rfl, hm⟩
    exact ⟨rfl, h.resolve t loc hm⟩
  forward t loc v := by
    rintro ⟨rfl, hm⟩
    exact ⟨rfl, rfl, h.forward t loc v hm⟩
  push t _ value _ hv hseq := by
    rintro ⟨rfl, hm⟩
    exact ⟨rfl, rfl, h.push t value hv hseq hm⟩
  pushFence t order := by
    rintro ⟨rfl, hm⟩
    exact ⟨rfl, h.pushFence t order hm⟩
  discardRange only range := by
    rintro ⟨rfl, hm⟩
    exact ⟨rfl, rfl, h.discardRange only range hm⟩

theorem masking (h : Invariant P) : Masking (fun m m' : Machine σ => m = m' ∧ P m)
    (fun m m' => m = m' ∧ P m) fun m m' => m = m' ∧ P m where
  toLockstep := h.lockstep
  started := by
    rintro m _ ⟨rfl, -⟩
    exact ⟨rfl, rfl⟩
  noted := h.lockstep.noteOperation
  dumped := by
    rintro m _ ⟨rfl, hm⟩
    exact ⟨rfl, h.congr hm rfl rfl⟩
  hold := by
    rintro m _ ⟨rfl, hm⟩
    exact ⟨rfl, rfl, h.congr hm rfl rfl⟩
  release := by
    rintro m _ n _ ⟨rfl, -⟩ ⟨rfl, hn⟩
    exact ⟨rfl, h.congr hn rfl rfl⟩
  idle := id

/-- Every operation preserves an invariant, whether it succeeds or not. -/
theorem perform (h : Invariant P) (op : Op) (hm : P m) : P (m.perform op).2 :=
  (h.masking.perform ⟨rfl, hm⟩ op).2.2

/-- What holds of new machines and is invariant holds of all that can be reached. -/
theorem reachable (h : Invariant P) {c : Config} (hcreate : ∀ host, P (create c host))
    (hreached : Reachable c m) : P m := by
  induction hreached with
  | create host => exact hcreate host
  | host _ _ ih => exact h.congr ih rfl rfl
  | perform _ op ih => exact h.perform op ih

end Invariant

end StoreBuffer.Machine
