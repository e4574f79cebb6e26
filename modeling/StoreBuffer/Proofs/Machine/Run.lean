import StoreBuffer.Host.Scripted
import StoreBuffer.Machine.Operations

/-! # Runs of a machine on the scripted host

Threads take turns in any order, in any mode, over any heap; the answers to choices come from the
script that the host was given. -/

namespace StoreBuffer

instance : DecidableEq Outcome
  | .ok a, .ok b => decidable_of_iff (a = b) ⟨congrArg _, Except.ok.inj⟩
  | .error f, .error g => decidable_of_iff (f = g) ⟨congrArg _, Except.error.inj⟩
  | .ok _, .error _ => isFalse nofun
  | .error _, .ok _ => isFalse nofun

theorem exists_of_map_eq_ok {α β : Type} {o : Except Fault α} {f : α → β} {b : β}
    (h : o.map f = .ok b) : ∃ a, o = .ok a ∧ f a = b := by
  cases o with
  | error e => contradiction
  | ok a => exact ⟨a, rfl, Except.ok.inj h⟩

theorem eq_error_of_map {α β : Type} {o : Except Fault α} {f : α → β} {e : Fault}
    (h : o.map f = .error e) : o = .error e := by
  cases o with
  | error e' => exact congrArg _ (Except.error.inj h)
  | ok a => contradiction

/-- An operation with what the host shows while it is performed: the thread that issues it, the
control flags, and the live objects. -/
structure Issue where
  thread : ThreadId
  flags : ControlFlags := .none
  objects : Objects := {}
  op : Op
deriving DecidableEq, Repr

namespace Op

/-- The locations an operation accesses. -/
def locations : Op → List Location
  | .store l .. | .load l _ | .cas l .. => [l]
  | .fence _ | .cleanup _ | .resize .. | .debugFence | .dump => []

end Op

/-- The host while an operation is issued. -/
def Scripted.prepare (h : Scripted) (i : Issue) : Scripted :=
  { h with thread := i.thread, flags := i.flags, objects := i.objects }

namespace Machine

def issue (m : Machine Scripted) (i : Issue) : Outcome × Machine Scripted :=
  (m.withHost (m.host.prepare i)).perform i.op

/-- Every operation with its outcome and the machine after it. -/
def history (m : Machine Scripted) : List Issue → List (Issue × Outcome × Machine Scripted)
  | [] => []
  | i :: rest => (i, m.issue i) :: (m.issue i).2.history rest

def outcomes (m : Machine Scripted) (is : List Issue) : List Outcome :=
  (m.history is).map (·.2.1)

theorem map_fst_history (m : Machine Scripted) (is : List Issue) :
    (m.history is).map (·.1) = is := by
  induction is generalizing m with
  | nil => rfl
  | cons i rest ih => rw [history, List.map_cons, ih]

end Machine

end StoreBuffer
