import FairProgram.Json.Byte

/-!
# Faults of JSON text

What is wrong with a text that is no JSON document, and where. Lines and columns count from one,
columns in bytes, up to the last byte that was looked at.
-/

namespace FairProgram.Json

inductive Cause where
  | endInValue
  | endInString
  | endInArray
  | endInObject
  | expectedColon
  | expectedCommaOrBracket
  | expectedCommaOrBrace
  | expectedWord
  | expectedValue
  | trailingComma
  | trailingText
  | keyNotString
  | badNumber
  | numberTooLarge
  | badEscape
  | unpairedSurrogate
  | missingSurrogate
  | controlCharacter
  | invalidCodePoint
  | tooDeep
deriving DecidableEq

def Cause.message : Cause → String
  | .endInValue => "EOF while parsing a value"
  | .endInString => "EOF while parsing a string"
  | .endInArray => "EOF while parsing a list"
  | .endInObject => "EOF while parsing an object"
  | .expectedColon => "expected `:`"
  | .expectedCommaOrBracket => "expected `,` or `]`"
  | .expectedCommaOrBrace => "expected `,` or `\x7d`"
  | .expectedWord => "expected ident"
  | .expectedValue => "expected value"
  | .trailingComma => "trailing comma"
  | .trailingText => "trailing characters"
  | .keyNotString => "key must be a string"
  | .badNumber => "invalid number"
  | .numberTooLarge => "number out of range"
  | .badEscape => "invalid escape"
  | .unpairedSurrogate => "lone leading surrogate in hex escape"
  | .missingSurrogate => "unexpected end of hex escape"
  | .controlCharacter =>
    "control character (\\u0000-\\u001F) found while parsing a string"
  | .invalidCodePoint => "invalid unicode code point"
  | .tooDeep => "recursion limit exceeded"

/-- A fault, the bytes left when it was noticed, and whether the first of them had been seen. -/
structure Fault where
  cause : Cause
  rest : List UInt8
  peeked : Bool

structure SyntaxError where
  cause : Cause
  line : Nat
  column : Nat

/-- Moves a line and column over a byte. -/
def advance (place : Nat × Nat) (b : UInt8) : Nat × Nat :=
  if b = Byte.lineFeed then (place.1 + 1, 0) else (place.1, place.2 + 1)

def Fault.locate (text : List UInt8) (fault : Fault) : SyntaxError :=
  let (line, column) :=
    (text.take (text.length - fault.rest.length)).foldl advance (1, 0)
  match fault.peeked, fault.rest with
  | true, Byte.lineFeed :: _ => ⟨fault.cause, line + 1, 0⟩
  | true, _ :: _ => ⟨fault.cause, line, column + 1⟩
  | _, _ => ⟨fault.cause, line, column⟩

def SyntaxError.message (e : SyntaxError) : String :=
  e.cause.message ++ " at line " ++ toString e.line ++ " column " ++ toString e.column

end FairProgram.Json
