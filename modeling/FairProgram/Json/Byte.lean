/-!
# Bytes of JSON text

The format is made of ASCII characters. All others stand inside strings, and a reader looks at their
bytes one by one.
-/

namespace FairProgram.Json.Byte

@[match_pattern] abbrev tab : UInt8 := 0x09
@[match_pattern] abbrev lineFeed : UInt8 := 0x0A
@[match_pattern] abbrev carriageReturn : UInt8 := 0x0D
@[match_pattern] abbrev space : UInt8 := 0x20
@[match_pattern] abbrev quote : UInt8 := 0x22
@[match_pattern] abbrev plus : UInt8 := 0x2B
@[match_pattern] abbrev comma : UInt8 := 0x2C
@[match_pattern] abbrev minus : UInt8 := 0x2D
@[match_pattern] abbrev point : UInt8 := 0x2E
@[match_pattern] abbrev slash : UInt8 := 0x2F
@[match_pattern] abbrev zero : UInt8 := 0x30
@[match_pattern] abbrev colon : UInt8 := 0x3A
@[match_pattern] abbrev capitalE : UInt8 := 0x45
@[match_pattern] abbrev openBracket : UInt8 := 0x5B
@[match_pattern] abbrev backslash : UInt8 := 0x5C
@[match_pattern] abbrev closeBracket : UInt8 := 0x5D
@[match_pattern] abbrev letterB : UInt8 := 0x62
@[match_pattern] abbrev letterE : UInt8 := 0x65
@[match_pattern] abbrev letterF : UInt8 := 0x66
@[match_pattern] abbrev letterN : UInt8 := 0x6E
@[match_pattern] abbrev letterR : UInt8 := 0x72
@[match_pattern] abbrev letterT : UInt8 := 0x74
@[match_pattern] abbrev letterU : UInt8 := 0x75
@[match_pattern] abbrev openBrace : UInt8 := 0x7B
@[match_pattern] abbrev closeBrace : UInt8 := 0x7D

def isDigit (b : UInt8) : Bool :=
  0x30 ≤ b && b ≤ 0x39

def digit (b : UInt8) : Nat :=
  b.toNat - 0x30

/-- The number that decimal digits denote. -/
def ofDigits (digits : List UInt8) : Nat :=
  digits.foldl (fun n b => 10 * n + digit b) 0

end FairProgram.Json.Byte
