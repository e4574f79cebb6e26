/-! # Memory orders

An order is a set of seven flags. Five of them form a chain of strengths: each named strength
contains the ones it implies, so "at least as strong" is containment of sets. The other two tag the
operation the order belongs to and do not change its strength. -/

namespace StoreBuffer

/-- A set of order flags. -/
structure Order where
  bits : BitVec 7
deriving DecidableEq, Inhabited, Repr

namespace Order

/-- The order whose flags are the low seven bits of `n`. -/
def ofNat (n : Nat) : Order := ⟨BitVec.ofNat 7 n⟩

def toNat (o : Order) : Nat := o.bits.toNat

def notAtomic : Order := ofNat 0
def unordered : Order := ofNat 0b0000001
def monotonic : Order := ofNat 0b0000011
def acquire : Order := ofNat 0b0000111
def release : Order := ofNat 0b0001011
def acqRel : Order := ofNat 0b0001111
def seqCst : Order := ofNat 0b0011111

/-- Tags a store that belongs to a read-modify-write operation. -/
def atomicOp : Order := ofNat 0b0100000

/-- Lets a compare-and-swap fail although the values agree. -/
def weakCas : Order := ofNat 0b1000000

/-- The flags of both orders. -/
def union (a b : Order) : Order := ⟨a.bits ||| b.bits⟩

instance : OrOp Order := ⟨union⟩

/-- Every flag of `need` is set in `o`. -/
def atLeast (o need : Order) : Bool := need.bits &&& o.bits == need.bits

/-- The order without its tags. -/
def strength (o : Order) : Order := ⟨o.bits &&& seqCst.bits⟩

def isAtomicOp (o : Order) : Bool := o.atLeast atomicOp

def isWeakCas (o : Order) : Bool := o.atLeast weakCas

def isSeqCst (o : Order) : Bool := o.atLeast seqCst

/-- The name of a strength; a set of flags outside the named ones is mixed. -/
def strengthText (o : Order) : String :=
  if o.strength = notAtomic then "NotAtomic"
  else if o.strength = unordered then "Unordered"
  else if o.strength = monotonic then "Monotonic"
  else if o.strength = acquire then "Acquire"
  else if o.strength = release then "Release"
  else if o.strength = acqRel then "AcqRel"
  else if o.strength = seqCst then "SeqCst"
  else "Mixed"

/-- The strength followed by the tags. -/
def text (o : Order) : String :=
  o.strengthText ++ (if o.isAtomicOp then "|AtomicOp" else "") ++
    (if o.isWeakCas then "|WeakCAS" else "")

theorem atLeast_refl (o : Order) : o.atLeast o = true := by
  simp [atLeast]

theorem atLeast_union_left (a b : Order) : (a ||| b).atLeast a = true := by
  show (a.bits &&& (a.bits ||| b.bits) == a.bits) = true
  rw [beq_iff_eq]
  ext i hi
  simpa using Or.inl

/-- Tags do not change the strength. -/
theorem isSeqCst_union_atomicOp (o : Order) : (o ||| .atomicOp).isSeqCst = o.isSeqCst := by
  obtain ⟨b⟩ := o
  have hbits : seqCst.bits &&& (b ||| atomicOp.bits) = seqCst.bits &&& b := by
    revert b
    decide
  show (seqCst.bits &&& (b ||| atomicOp.bits) == seqCst.bits) = (seqCst.bits &&& b == seqCst.bits)
  rw [hbits]

theorem atLeast_trans {a b c : Order} (h : a.atLeast b = true) (h' : b.atLeast c = true) :
    a.atLeast c = true := by
  simp only [atLeast, beq_iff_eq] at *
  rw [← h', BitVec.and_assoc, h]

end Order

end StoreBuffer
