/-! # Reading JSON

A reader takes bytes from the front of a text and stops at the first thing that is wrong with it.
Texts are read once from left to right, so of several defects the leftmost is reported, and which
kind it is depends on what was due there: a value of the wrong kind is told from a text that is no
JSON and from one that ends too early. -/

namespace StoreBuffer.Json

/-- What is wrong with a text. -/
inductive Malformed where
  /-- It ends too early. -/
  | truncated
  /-- It is no JSON text. -/
  | notJson
  /-- A value is not of the kind its place asks for. -/
  | wrongKind
deriving DecidableEq, Inhabited, Repr

abbrev Bytes := List UInt8

/-- Takes bytes from the front of a text. -/
abbrev Reader := StateT Bytes (Except Malformed)

def fail {α : Type} (m : Malformed) : Reader α := throw m

/-- The byte of an ASCII character. -/
def ascii (c : Char) : UInt8 := UInt8.ofNat c.toNat

/-- Blanks between tokens: space, line feed, carriage return and tab, no others. -/
def isBlank (b : UInt8) : Bool :=
  b == ascii ' ' || b == ascii '\n' || b == ascii '\r' || b == ascii '\t'

def isDigit (b : UInt8) : Bool := ascii '0' ≤ b && b ≤ ascii '9'

def digitValue (b : UInt8) : Nat := (b - ascii '0').toNat

/-- The next byte, left in place. -/
def peekByte : Reader (Option UInt8) := return (← get).head?

/-- Leaves out the next byte. -/
def skipByte : Reader Unit := modify List.tail

/-- The first byte after blanks, left in place. -/
def peekToken : Reader (Option UInt8) := do
  modify (·.dropWhile isBlank)
  peekByte

/-- The first byte after blanks, which has to exist. -/
def needToken : Reader UInt8 := do
  match ← peekToken with
  | some b => pure b
  | none => fail .truncated

/-- The first byte after blanks has to be `c`. -/
def expect (c : Char) : Reader Unit := do
  if (← needToken) = ascii c then skipByte else fail .notJson

/-- The text goes on with exactly these characters. -/
def literal : List Char → Reader Unit
  | [] => pure ()
  | c :: rest => do
    match ← peekByte with
    | none => fail .truncated
    | some b =>
      skipByte
      if b = ascii c then literal rest else fail .notJson

/-- Takes bytes as long as they are digits. -/
def digits : Reader (List Nat) := do
  let text ← get
  set (text.dropWhile isDigit)
  pure ((text.takeWhile isDigit).map digitValue)

/-- The next byte is one of the characters; if so it is taken. -/
def takeIf (cs : List Char) : Reader Bool := do
  match ← peekByte with
  | some b => if cs.any (ascii · = b) then do skipByte; pure true else pure false
  | none => pure false

end StoreBuffer.Json
