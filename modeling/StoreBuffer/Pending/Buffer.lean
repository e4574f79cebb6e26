import StoreBuffer.Pending.Line

/-! # Store buffers

The lines of one thread, oldest first. What leaves a buffer is always returned, oldest first, since
the numbering of the lines that stay depends on it. -/

namespace StoreBuffer

/-- The lines of one thread in program order. -/
structure Buffer where
  lines : List Line := []
deriving DecidableEq, Inhabited, Repr

namespace Buffer

def size (b : Buffer) : Nat := b.lines.length

def isEmpty (b : Buffer) : Bool := b.lines.isEmpty

/-- Number of lines that are stores, committed ones included. -/
def storeCount (b : Buffer) : Nat := b.lines.countP (·.isStore)

def oldest? (b : Buffer) : Option Line := b.lines.head?

def newest? (b : Buffer) : Option Line := b.lines.getLast?

def get? (b : Buffer) (i : Nat) : Option Line := b.lines[i]?

def push (b : Buffer) (l : Line) : Buffer := ⟨b.lines ++ [l]⟩

/-- Changes the line at `i`, if there is one. -/
def modify (b : Buffer) (i : Nat) (f : Line → Line) : Buffer := ⟨b.lines.modify i f⟩

def map (b : Buffer) (f : Line → Line) : Buffer := ⟨b.lines.map f⟩

/-- Takes out the line at `i`. -/
def erase (b : Buffer) (i : Nat) : Option Line × Buffer := (b.lines[i]?, ⟨b.lines.eraseIdx i⟩)

/-- Takes out the lines for which `keep` fails. -/
def retain (b : Buffer) (keep : Line → Bool) : List Line × Buffer :=
  (b.lines.filter fun l => !keep l, ⟨b.lines.filter keep⟩)

/-- Takes out everything behind the first `n` lines. -/
def shrink (b : Buffer) (n : Nat) : List Line × Buffer := (b.lines.drop n, ⟨b.lines.take n⟩)

def clear (b : Buffer) : List Line × Buffer := (b.lines, {})

/-- Takes out the fences in front of the first store; they order nothing any more. -/
def dropLeadingFences (b : Buffer) : List Line × Buffer :=
  (b.lines.takeWhile (·.isFence), ⟨b.lines.dropWhile (·.isFence)⟩)

/-- Positions of the pending stores to bytes of the region. -/
def pendingAt (b : Buffer) (r : Region) : List Nat :=
  b.lines.zipIdx.filterMap fun (l, i) => if !l.committed && l.touches r then some i else none

/-- A committed store to bytes of the region is still in the buffer. -/
def hasCommittedAt (b : Buffer) (r : Region) : Bool :=
  b.lines.any fun l => l.committed && l.touches r

def text (b : Buffer) : String := " ".intercalate (b.lines.map Line.text)

theorem perm_retain (b : Buffer) (keep : Line → Bool) :
    ((b.retain keep).1 ++ (b.retain keep).2.lines).Perm b.lines :=
  List.perm_append_comm.trans (List.filter_append_perm keep b.lines)

theorem dropLeadingFences_append (b : Buffer) :
    b.dropLeadingFences.1 ++ b.dropLeadingFences.2.lines = b.lines :=
  List.takeWhile_append_dropWhile ..

theorem storeCount_dropLeadingFences (b : Buffer) :
    b.dropLeadingFences.2.storeCount = b.storeCount := by
  show (b.lines.dropWhile _).countP _ = b.lines.countP _
  induction b.lines with
  | nil => rfl
  | cons l rest ih =>
    cases h : l.isFence
    · simp [h]
    · have hs : l.isStore = false := by simp [Line.isStore_eq_not_isFence, h]
      simp [h, hs, ih]

end Buffer

end StoreBuffer
