import StoreBuffer.Json.Skip

/-! # Reading records

A record is written as an object, or as a list of its members in their order. Members that are
missing keep their values. In an object, unknown members are skipped and a known one may not come
twice; in a list, there may be none too many. -/

namespace StoreBuffer.Json

/-- A named part of a record, with the reader that fills it in. -/
structure Member (α : Type) where
  name : String
  fill : α → Reader α

def Member.key {α : Type} (m : Member α) : Bytes := m.name.toUTF8.data.toList

/-- `true` or `false`. -/
def bool : Reader Bool := do
  let b ← needToken
  if b = ascii 't' then do skipByte; literal ['r', 'u', 'e']; pure true
  else if b = ascii 'f' then do skipByte; literal ['a', 'l', 's', 'e']; pure false
  else wrongKind b

/-- A whole number from 0 to `greatest`. -/
def natUpTo (greatest : Nat) : Reader Nat := do
  let b ← needToken
  if b = ascii '-' then do skipByte; discard (number true); fail .wrongKind
  else if isDigit b then
    match ← number false with
    | .natural n => if n ≤ greatest then pure n else fail .wrongKind
    | .other => fail .wrongKind
  else wrongKind b

/-- Goes to the next member of a bracket, past a comma unless it is the first. Tells whether there
is one. -/
def nextMember (close : Char) (first : Bool) : Reader Bool := do
  let b ← needToken
  if b = ascii close then pure false
  else if first then pure true
  else if b = ascii ',' then do
    skipByte
    if (← needToken) = ascii close then fail .notJson else pure true
  else fail .notJson

/-- The members of an object up to its closing bracket; `n` bounds their number. -/
def objectMembers {α : Type} (members : List (Member α)) :
    Nat → Bool → List Bytes → α → Reader α
  | 0, _, _, _ => fail .truncated
  | n + 1, first, seen, record => do
    if ← nextMember '}' first then
      expect '"'
      let key ← quoted
      match members.find? (·.key = key) with
      | some m =>
        if seen.contains key then fail .wrongKind
        else
          expect ':'
          let record ← m.fill record
          objectMembers members n false (key :: seen) record
      | none =>
        expect ':'
        skipValue
        objectMembers members n false seen record
    else
      skipByte
      pure record

/-- The members of a list, as far as there are any. -/
def listMembers {α : Type} : List (Member α) → Bool → α → Reader α
  | [], _, record => pure record
  | m :: rest, first, record => do
    if ← nextMember ']' first then
      let record ← m.fill record
      listMembers rest false record
    else pure record

/-- The end of a list in which every member has been read. -/
def listEnd : Reader Unit := expect ']'

/-- A record whose missing members are those of `record`. -/
def record {α : Type} (members : List (Member α)) (record : α) : Reader α := do
  let b ← needToken
  if b = ascii '[' then
    skipByte
    let record ← listMembers members true record
    listEnd
    pure record
  else if b = ascii '{' then
    skipByte
    objectMembers members ((← get).length + 1) true [] record
  else wrongKind b

/-- A whole text that holds what `r` reads, and nothing behind it. -/
def document {α : Type} (r : Reader α) (text : Bytes) : Except Malformed α := do
  let (a, rest) ← r text
  if (rest.dropWhile isBlank).isEmpty then pure a else throw .notJson

end StoreBuffer.Json
