import StoreBuffer.Json.Reader

/-! # Quoted texts

Texts between quotes, read behind the opening quote. `quoted` decodes one, and insists that escaped
surrogates come in pairs. `skipQuoted` only finds its end and lets lone surrogates pass. -/

namespace StoreBuffer.Json

/-- The value of a hexadecimal digit of either case. -/
def hexValue? (b : UInt8) : Option Nat :=
  if isDigit b then some (digitValue b)
  else if ascii 'a' ≤ b && b ≤ ascii 'f' then some ((b - ascii 'a').toNat + 10)
  else if ascii 'A' ≤ b && b ≤ ascii 'F' then some ((b - ascii 'A').toNat + 10)
  else none

/-- The four digits of an escaped code unit at the front of a text. -/
def codeUnit : Bytes → Except Malformed (Nat × Bytes)
  | a :: b :: c :: d :: rest =>
    match hexValue? a, hexValue? b, hexValue? c, hexValue? d with
    | some a, some b, some c, some d => .ok (((a * 16 + b) * 16 + c) * 16 + d, rest)
    | _, _, _, _ => .error .notJson
  | _ => .error .truncated

/-- The character that a short escape stands for. -/
def shortEscape? (b : UInt8) : Option UInt8 :=
  if b = ascii '"' then some (ascii '"')
  else if b = ascii '\\' then some (ascii '\\')
  else if b = ascii '/' then some (ascii '/')
  else if b = ascii 'b' then some 0x08
  else if b = ascii 'f' then some 0x0c
  else if b = ascii 'n' then some 0x0a
  else if b = ascii 'r' then some 0x0d
  else if b = ascii 't' then some 0x09
  else none

def isHighSurrogate (n : Nat) : Bool := 0xd800 ≤ n && n < 0xdc00

def isLowSurrogate (n : Nat) : Bool := 0xdc00 ≤ n && n < 0xe000

def utf8 (codePoint : Nat) : Bytes := String.utf8EncodeChar (Char.ofNat codePoint)

/-- The character behind `\u`, with its second half if it needs one. -/
def escapedChar (text : Bytes) : Except Malformed (Bytes × Bytes) := do
  let (unit, text) ← codeUnit text
  if isLowSurrogate unit then .error .notJson
  else if isHighSurrogate unit then
    match text with
    | [] => .error .truncated
    | a :: text =>
      if a ≠ ascii '\\' then .error .notJson
      else match text with
        | [] => .error .truncated
        | b :: text =>
          if b ≠ ascii 'u' then .error .notJson
          else
            let (low, text) ← codeUnit text
            if isLowSurrogate low then
              pure (utf8 (0x10000 + (unit - 0xd800) * 0x400 + (low - 0xdc00)), text)
            else .error .notJson
  else pure (utf8 unit, text)

/-- Steps through a quoted text; `n` bounds the number of steps. What has been decoded is kept last
byte first. -/
def quotedSteps (decoded : Bytes) : Nat → Bytes → Except Malformed (Bytes × Bytes)
  | 0, _ => .error .truncated
  | n + 1, text =>
    match text with
    | [] => .error .truncated
    | b :: text =>
      if b = ascii '"' then .ok (decoded.reverse, text)
      else if b < 0x20 then .error .notJson
      else if b = ascii '\\' then
        match text with
        | [] => .error .truncated
        | e :: text =>
          if e = ascii 'u' then
            match escapedChar text with
            | .error m => .error m
            | .ok (c, text) => quotedSteps (c.reverse ++ decoded) n text
          else match shortEscape? e with
            | some c => quotedSteps (c :: decoded) n text
            | none => .error .notJson
      else quotedSteps (b :: decoded) n text

/-- The decoded text up to the closing quote. -/
def quoted : Reader Bytes := fun text => quotedSteps [] (text.length + 1) text

/-- Where the skipping of a quoted text stands. -/
inductive QuotedState where
  | plain
  /-- Behind a backslash. -/
  | escape
  /-- So many hexadecimal digits are still due. -/
  | hex (due : Nat)

/-- Four bytes are left. -/
def hasFour : Bytes → Bool
  | _ :: _ :: _ :: _ :: _ => true
  | _ => false

/-- Finds the closing quote. -/
def skipQuotedFrom : QuotedState → Bytes → Except Malformed Bytes
  | _, [] => .error .truncated
  | .plain, b :: text =>
    if b = ascii '"' then .ok text
    else if b < 0x20 then .error .notJson
    else if b = ascii '\\' then skipQuotedFrom .escape text
    else skipQuotedFrom .plain text
  | .escape, b :: text =>
    if b = ascii 'u' then
      if hasFour text then skipQuotedFrom (.hex 3) text else .error .truncated
    else if (shortEscape? b).isSome then skipQuotedFrom .plain text
    else .error .notJson
  | .hex due, b :: text =>
    if (hexValue? b).isNone then .error .notJson
    else match due with
      | 0 => skipQuotedFrom .plain text
      | due + 1 => skipQuotedFrom (.hex due) text

/-- Leaves out a quoted text with its closing quote. -/
def skipQuoted : Reader Unit := fun text => return ((), ← skipQuotedFrom .plain text)

end StoreBuffer.Json
