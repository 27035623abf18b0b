import FairProgram.Decimal.Shortest
import FairProgram.Json.Value

/-!
# Compact JSON

The text of a value without blanks. Real numbers have the fewest digits that read back, and always a
point or an exponent.
-/

namespace FairProgram.Json

/-- A real number in scientific notation: one digit before the point, no point after a single digit,
and a sign in front of any exponent. -/
def scientific (digits : List Char) (exponent : Int) : List Char :=
  let sign := if exponent < 0 then '-' else '+'
  let tail := 'e' :: sign :: Nat.toDigits 10 exponent.natAbs
  match digits with
  | [] => []
  | [digit] => digit :: tail
  | first :: rest => first :: '.' :: rest ++ tail

/-- The text of a finite real number: written out where its leading digit stands within sixteen
places before or five places behind the point, in scientific notation elsewhere. -/
def realText (x : Float) : String :=
  let d := Double.ofFloat x
  let magnitude :=
    if d.mantissa = 0 then ['0', '.', '0']
    else
      let (value, place) := Decimal.shortest .even d
      let digits := Nat.toDigits 10 value
      let leading := digits.length + place
      if -5 < leading ∧ leading ≤ 16 then
        let written := Decimal.positional digits place
        if 0 ≤ place then written ++ ['.', '0'] else written
      else scientific digits (leading - 1)
  String.ofList (if d.negative then '-' :: magnitude else magnitude)

def numberText : JsonNumber → String
  | .int value => toString value
  | .real value => realText value

/-- A character of a string: quotes, backslashes and control characters are escaped. -/
def escape (c : Char) : List Char :=
  match c with
  | '"' => ['\\', '"']
  | '\\' => ['\\', '\\']
  | '\n' => ['\\', 'n']
  | '\r' => ['\\', 'r']
  | '\t' => ['\\', 't']
  | '\x08' => ['\\', 'b']
  | '\x0c' => ['\\', 'f']
  | c =>
    if c.toNat < 0x20 then
      ['\\', 'u', '0', '0', Nat.digitChar (c.toNat / 16), Nat.digitChar (c.toNat % 16)]
    else [c]

def stringText (s : String) : String :=
  String.ofList ('"' :: s.toList.flatMap escape ++ ['"'])

mutual
def compact : Json → String
  | .null => "null"
  | .bool value => if value then "true" else "false"
  | .number value => numberText value
  | .string value => stringText value
  | .array items => "[" ++ String.intercalate "," (compactItems items) ++ "]"
  | .object members => "\x7b" ++ String.intercalate "," (compactMembers members) ++ "\x7d"
def compactItems : List Json → List String
  | [] => []
  | item :: rest => item.compact :: compactItems rest
def compactMembers : List (String × Json) → List String
  | [] => []
  | (key, value) :: rest => (stringText key ++ ":" ++ value.compact) :: compactMembers rest
end

end FairProgram.Json
