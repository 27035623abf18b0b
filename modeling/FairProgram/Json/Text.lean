import FairProgram.Json.Number

/-!
# Strings of JSON text

Escapes of a string between its quotes. Characters beyond 16 bits are escaped as two surrogates,
which must come in pairs, and control characters must be escaped. The bytes of a string must be
valid text.
-/

namespace FairProgram.Json

def hexDigit? (b : UInt8) : Option Nat :=
  if Byte.isDigit b then some (Byte.digit b)
  else if 0x61 ≤ b ∧ b ≤ 0x66 then some (b.toNat - 0x61 + 10)
  else if 0x41 ≤ b ∧ b ≤ 0x46 then some (b.toNat - 0x41 + 10)
  else none

/-- The number that hexadecimal digits denote, if all of them are such. -/
def ofHex? (digits : List UInt8) : Option Nat :=
  digits.foldlM (fun n b => (hexDigit? b).map (16 * n + ·)) 0

def takeUnit (text : List UInt8) : Except Fault (Nat × Shorter text) :=
  match text with
  | a :: b :: c :: d :: rest =>
    match ofHex? [a, b, c, d] with
    | some unit => .ok (unit, ⟨rest, by simp only [List.length_cons]; omega⟩)
    | none => .error ⟨.badEscape, rest, false⟩
  | _ => .error ⟨.endInString, [], false⟩

def isLeading (unit : Nat) : Bool :=
  0xD800 ≤ unit && unit ≤ 0xDBFF

def isTrailing (unit : Nat) : Bool :=
  0xDC00 ≤ unit && unit ≤ 0xDFFF

def takeUnitMark (text : List UInt8) : Except Fault (Shorter text) :=
  match text with
  | Byte.backslash :: Byte.letterU :: rest =>
    .ok ⟨rest, by simp only [List.length_cons]; omega⟩
  | Byte.backslash :: _ :: rest => .error ⟨.missingSurrogate, rest, false⟩
  | [Byte.backslash] => .error ⟨.endInString, [], false⟩
  | _ :: rest => .error ⟨.missingSurrogate, rest, false⟩
  | [] => .error ⟨.endInString, [], false⟩

/-- A character escaped by one unit or by two surrogates. -/
def takeUnits (text : List UInt8) : Except Fault (Char × Shorter text) := do
  let (unit, afterUnit) ← takeUnit text
  if isTrailing unit then throw ⟨.unpairedSurrogate, afterUnit.1, false⟩
  if isLeading unit then
    let afterMark ← takeUnitMark afterUnit.1
    let (second, rest) ← takeUnit afterMark.1
    if isTrailing second then
      return (Char.ofNat (0x10000 + 0x400 * (unit - 0xD800) + (second - 0xDC00)),
        ⟨rest.1, Nat.lt_trans rest.2 (Nat.lt_trans afterMark.2 afterUnit.2)⟩)
    else throw ⟨.unpairedSurrogate, rest.1, false⟩
  return (Char.ofNat unit, afterUnit)

def unescape? : UInt8 → Option Char
  | Byte.quote => some '"'
  | Byte.backslash => some '\\'
  | Byte.slash => some '/'
  | Byte.letterB => some '\x08'
  | Byte.letterF => some '\x0c'
  | Byte.letterN => some '\n'
  | Byte.letterR => some '\r'
  | Byte.letterT => some '\t'
  | _ => none

def takeEscape (text : List UInt8) : Except Fault (Char × Shorter text) :=
  match text with
  | [] => .error ⟨.endInString, [], false⟩
  | Byte.letterU :: rest => do
    let (c, left) ← takeUnits rest
    return (c, ⟨left.1, Nat.lt_succ_of_lt left.2⟩)
  | b :: rest =>
    match unescape? b with
    | some escaped => .ok (escaped, ⟨rest, Nat.lt_succ_self _⟩)
    | none => .error ⟨.badEscape, rest, false⟩

/-- The string up to the closing quote. Its bytes go behind those read before, which come last
first. -/
def takeString (read : List UInt8) (text : List UInt8) : Except Fault (String × Shorter text) :=
  match text with
  | [] => .error ⟨.endInString, [], false⟩
  | Byte.quote :: rest =>
    match String.fromUTF8? ⟨read.reverse.toArray⟩ with
    | some result => .ok (result, ⟨rest, Nat.lt_succ_self _⟩)
    | none => .error ⟨.invalidCodePoint, rest, false⟩
  | Byte.backslash :: rest => do
    let (c, left) ← takeEscape rest
    let (result, last) ← takeString ((String.utf8EncodeChar c).reverse ++ read) left.1
    return (result, ⟨last.1, Nat.lt_succ_of_lt (Nat.lt_trans last.2 left.2)⟩)
  | b :: rest =>
    if b < Byte.space then .error ⟨.controlCharacter, rest, false⟩
    else do
      let (result, last) ← takeString (b :: read) rest
      return (result, ⟨last.1, Nat.lt_succ_of_lt last.2⟩)
termination_by text.length
decreasing_by
  · exact Nat.lt_succ_of_lt left.2
  · exact Nat.lt_succ_self _

end FairProgram.Json
