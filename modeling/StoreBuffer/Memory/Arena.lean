/-! # Byte arenas

A fixed number of bytes, read and written by offset. A range that does not lie inside the arena is
refused as a whole. -/

namespace StoreBuffer

/-- Bytes `0` to `size - 1`. -/
structure Arena where
  bytes : Array UInt8
deriving DecidableEq, Inhabited, Repr

namespace Arena

/-- The arena of `size` zero bytes. -/
def zeros (size : Nat) : Arena := ⟨Array.replicate size 0⟩

def size (a : Arena) : Nat := a.bytes.size

/-- The `len` bytes from `offset` on lie inside. -/
def covers (a : Arena) (offset len : Nat) : Bool := decide (offset + len ≤ a.size)

def read? (a : Arena) (offset len : Nat) : Option (List UInt8) :=
  if a.covers offset len then some (a.bytes.extract offset (offset + len)).toList else none

/-- Puts `data` at `offset` and after. -/
def overlay (bytes : Array UInt8) (offset : Nat) : List UInt8 → Array UInt8
  | [] => bytes
  | b :: rest => overlay (bytes.setIfInBounds offset b) (offset + 1) rest

def write? (a : Arena) (offset : Nat) (data : List UInt8) : Option Arena :=
  if a.covers offset data.length then some ⟨overlay a.bytes offset data⟩ else none

def zero? (a : Arena) (offset len : Nat) : Option Arena :=
  if a.covers offset len then some ⟨overlay a.bytes offset (List.replicate len 0)⟩ else none

theorem size_overlay (bytes : Array UInt8) (offset : Nat) (data : List UInt8) :
    (overlay bytes offset data).size = bytes.size := by
  induction data generalizing bytes offset with
  | nil => rfl
  | cons b rest ih => rw [overlay, ih, Array.size_setIfInBounds]

/-- Inside the range the new bytes are found, elsewhere the old ones. -/
theorem getElem?_overlay (bytes : Array UInt8) (offset i : Nat) (data : List UInt8)
    (h : offset + data.length ≤ bytes.size) :
    (overlay bytes offset data)[i]? =
      if offset ≤ i ∧ i < offset + data.length then data[i - offset]? else bytes[i]? := by
  induction data generalizing bytes offset with
  | nil =>
    rw [overlay, if_neg]
    simp only [List.length_nil]
    omega
  | cons b rest ih =>
    rw [List.length_cons] at h
    rw [overlay, ih _ _ (by rw [Array.size_setIfInBounds]; omega), List.length_cons]
    by_cases hi : i = offset
    · subst hi
      rw [if_neg (by omega), if_pos (by omega), Array.getElem?_setIfInBounds_self_of_lt (by omega)]
      simp
    · rw [Array.getElem?_setIfInBounds_ne (by omega)]
      by_cases hr : offset + 1 ≤ i ∧ i < offset + 1 + rest.length
      · have hs : i - offset = i - (offset + 1) + 1 := by omega
        rw [if_pos hr, if_pos (by omega), hs, List.getElem?_cons_succ]
      · rw [if_neg hr, if_neg (by omega)]

theorem size_of_write? {a b : Arena} {offset : Nat} {data : List UInt8}
    (h : a.write? offset data = some b) : b.size = a.size := by
  unfold write? at h
  split at h
  · cases h; exact size_overlay ..
  · contradiction

end Arena

end StoreBuffer
