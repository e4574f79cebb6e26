import StoreBuffer.Json.Number
import StoreBuffer.Json.Quoted

/-! # Skipping a value

A value that nobody asked for has to be well formed, however deeply it is nested. The brackets still
open are kept in a list, so that depth costs nothing but its length. -/

namespace StoreBuffer.Json

/-- A bracket that is still open. -/
inductive Bracket where
  | list | object
deriving DecidableEq

def Bracket.close : Bracket → Char
  | list => ']'
  | object => '}'

/-- What the text has to go on with. -/
inductive Due where
  | value
  /-- Something that may stand behind a value. -/
  | separator
  /-- The first thing behind an opening bracket. -/
  | first
deriving DecidableEq

/-- Leaves out a value other than a list or an object, whose first byte is `b`. -/
def skipScalar (b : UInt8) : Reader Unit := do
  if b = ascii '-' then do skipByte; skipNumber
  else if isDigit b then skipNumber
  else
    skipByte
    if b = ascii 'n' then literal ['u', 'l', 'l']
    else if b = ascii 't' then literal ['r', 'u', 'e']
    else if b = ascii 'f' then literal ['a', 'l', 's', 'e']
    else if b = ascii '"' then skipQuoted
    else fail .notJson

/-- Leaves out what stands before a value in a bracket: in an object, the name and the colon. -/
def skipName : Bracket → Reader Unit
  | .list => pure ()
  | .object => do
    expect '"'
    skipQuoted
    expect ':'

/-- Steps through a value; `n` bounds the number of steps. -/
def skipSteps : Nat → Due → List Bracket → Reader Unit
  | 0, _, _ => fail .truncated
  | n + 1, .value, opened => do
    let b ← needToken
    if b = ascii '[' then do skipByte; skipSteps n .first (.list :: opened)
    else if b = ascii '{' then do skipByte; skipSteps n .first (.object :: opened)
    else do skipScalar b; skipSteps n .separator opened
  | _ + 1, _, [] => pure ()
  | n + 1, due, bracket :: outer => do
    let b ← needToken
    if b = ascii bracket.close then do skipByte; skipSteps n .separator outer
    else if due = .first then do skipName bracket; skipSteps n .value (bracket :: outer)
    else if b = ascii ',' then do
      skipByte
      skipName bracket
      skipSteps n .value (bracket :: outer)
    else fail .notJson

/-- Leaves out a value. Every second step at least takes a byte. -/
def skipValue : Reader Unit := fun text => skipSteps (2 * text.length + 2) .value [] text

/-- Fails on the value that follows, which is of the wrong kind if it is one at all. Of lists and
objects the opening bracket is enough to tell. -/
def wrongKind {α : Type} (b : UInt8) : Reader α := do
  if b = ascii '[' ∨ b = ascii '{' then pure ()
  else if b = ascii '-' then do skipByte; discard (number true)
  else if isDigit b then discard (number false)
  else if b = ascii '"' then do skipByte; discard quoted
  else skipScalar b
  fail .wrongKind

end StoreBuffer.Json
