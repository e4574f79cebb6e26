import StoreBuffer.Json.Reader

/-! # Numbers

A number that stands where one is due is read in full, since a number too large for a double is no
JSON text, while any other number of the wrong kind is merely that. Whole numbers are exact up to 64
bits; beyond, and with a point or an exponent, the number is a double, of which only the question
matters whether it is finite.

A skipped number is only looked over, and one cut off by the end of the text is not taken for a
text that ends too early. -/

namespace StoreBuffer.Json

/-- A number as far as it matters. -/
inductive Number where
  | natural (n : Nat)
  /-- A negative whole number, a fraction, or a whole number beyond 64 bits. -/
  | other
deriving DecidableEq, Repr

/-- Significands are 64-bit words; digits that do not fit are left out. -/
def greatestSignificand : Nat := UInt64.size - 1

/-- The greatest exponent that is counted, as a 32-bit integer. -/
def greatestExponent : Nat := 0x7fffffff

/-- `n` rounded to 53 significant bits, a tie to the even neighbour. -/
def roundToDouble (n : Nat) : Nat :=
  let unit := 1 <<< (Nat.log2 n - 52)
  let q := n / unit
  let r := n % unit
  if 2 * r < unit ∨ (2 * r = unit ∧ q % 2 = 0) then q * unit else (q + 1) * unit

/-- The product of two doubles rounds to infinity from here on: half way from the greatest double
to the power of two after it. -/
def overflowBound : Nat := 1 <<< 1024 - 1 <<< 970

/-- `significand` times ten to `exponent` is a finite double. -/
def isFinite (significand : Nat) (exponent : Int) : Bool :=
  if significand = 0 ∨ exponent < 0 then true
  else if 308 < exponent then false
  else roundToDouble significand * roundToDouble (Nat.pow 10 exponent.toNat) < overflowBound

def finiteOrFail (significand : Nat) (exponent : Int) : Reader Number :=
  if isFinite significand exponent then pure .other else fail .notJson

/-- Appends decimal digits to a significand as long as they fit, and returns the digits left. -/
def appendDigits (significand : Nat) : List Nat → Nat × List Nat
  | [] => (significand, [])
  | d :: ds =>
    if significand * 10 + d ≤ greatestSignificand then appendDigits (significand * 10 + d) ds
    else (significand, d :: ds)

/-- An exponent, behind its letter. -/
def exponentPart (significand : Nat) (exponent : Int) : Reader Number := do
  let plus ← takeIf ['+']
  let minus ← if plus then pure false else takeIf ['-']
  match ← peekByte with
  | none => fail .truncated
  | some b =>
    if isDigit b then
      let ds ← digits
      let e := ds.foldl (fun n d => n * 10 + d) 0
      if greatestExponent < e then
        if significand ≠ 0 ∧ minus = false then fail .notJson else pure .other
      else finiteOrFail significand (if minus then exponent - e else exponent + e)
    else fail .notJson

/-- What may follow the digits of a number with a point. -/
def exponentOrEnd (significand : Nat) (exponent : Int) : Reader Number := do
  if ← takeIf ['e', 'E'] then exponentPart significand exponent
  else finiteOrFail significand exponent

/-- The digits behind a point, of which there has to be one. -/
def fractionPart (significand : Nat) (exponent : Int) : Reader Number := do
  match ← digits with
  | [] =>
    match ← peekByte with
    | none => fail .truncated
    | some _ => fail .notJson
  | ds =>
    let (significand', left) := appendDigits significand ds
    exponentOrEnd significand' (exponent - ((ds.length - left.length : Nat) : Int))

/-- What may follow the digits of a whole number; `dropped` of them did not fit. -/
def numberEnd (negative : Bool) (significand dropped : Nat) : Reader Number := do
  if ← takeIf ['.'] then fractionPart significand dropped
  else if ← takeIf ['e', 'E'] then exponentPart significand dropped
  else if dropped ≠ 0 then finiteOrFail significand dropped
  else pure (if negative then .other else .natural significand)

/-- A number behind its sign. -/
def number (negative : Bool) : Reader Number := do
  match ← peekByte with
  | none => fail .truncated
  | some b =>
    if isDigit b then
      match ← digits with
      | 0 :: _ :: _ => fail .notJson
      | ds =>
        let (significand, left) := appendDigits 0 ds
        numberEnd negative significand left.length
    else fail .notJson

/-- Leaves out digits, of which there has to be one. -/
def skipDigits : Reader Unit := do
  match ← digits with
  | [] => fail .notJson
  | _ => pure ()

/-- Leaves out a number behind its sign. -/
def skipNumber : Reader Unit := do
  match ← digits with
  | [] => fail .notJson
  | 0 :: _ :: _ => fail .notJson
  | _ => pure ()
  if ← takeIf ['.'] then skipDigits
  if ← takeIf ['e', 'E'] then
    if ← takeIf ['+', '-'] then pure ()
    skipDigits

end StoreBuffer.Json
