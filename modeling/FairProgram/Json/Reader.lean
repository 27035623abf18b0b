import FairProgram.Json.Text

/-!
# Reading JSON

A document is one value with blanks around it. Arrays and objects nest at most 127 deep, and the
first fault from the left decides.
-/

namespace FairProgram.Json

def isSpace (b : UInt8) : Bool :=
  b == Byte.space || b == Byte.lineFeed || b == Byte.tab || b == Byte.carriageReturn

def skipSpaces (text : List UInt8) : Rest text :=
  ⟨text.dropWhile isSpace, (List.dropWhile_sublist _).length_le⟩

def takeWord (word text : List UInt8) : Except Fault (Rest text) :=
  match word, text with
  | [], text => .ok ⟨text, Nat.le_refl _⟩
  | _, [] => .error ⟨.endInValue, [], false⟩
  | expected :: word, b :: rest =>
    if b = expected then do
      let left ← takeWord word rest
      return ⟨left.1, Nat.le_succ_of_le left.2⟩
    else .error ⟨.expectedWord, rest, false⟩

def takeColon (text : List UInt8) : Except Fault (Rest text) :=
  let start := skipSpaces text
  match h : start.1 with
  | Byte.colon :: rest => .ok ⟨rest, by have := start.2; simp [h] at this; omega⟩
  | [] => .error ⟨.endInObject, [], true⟩
  | left => .error ⟨.expectedColon, left, true⟩

def maxNesting : Nat := 127

/-- What follows in an array or object. -/
inductive Next (text : List UInt8) where
  | close (rest : Rest text)
  | item (start : Rest text)

/-- Whether an item of an array follows: the first one at once, another one behind a comma. -/
def nextItem (isFirst : Bool) (text : List UInt8) : Except Fault (Next text) :=
  let start := skipSpaces text
  match h : start.1 with
  | [] => .error ⟨.endInArray, [], true⟩
  | b :: rest =>
    have shorter : rest.length < text.length := by have := start.2; simp [h] at this; omega
    if b = Byte.closeBracket then .ok (.close ⟨rest, Nat.le_of_lt shorter⟩)
    else if isFirst then .ok (.item start)
    else if b = Byte.comma then
      let after := skipSpaces rest
      match after.1 with
      | Byte.closeBracket :: left => .error ⟨.trailingComma, Byte.closeBracket :: left, true⟩
      | [] => .error ⟨.endInValue, [], true⟩
      | _ => .ok (.item ⟨after.1, Nat.le_trans after.2 (Nat.le_of_lt shorter)⟩)
    else .error ⟨.expectedCommaOrBracket, b :: rest, true⟩

/-- Whether a key of an object follows. An item starts behind the quote of its key. -/
def nextKey (isFirst : Bool) (text : List UInt8) : Except Fault (Next text) :=
  let start := skipSpaces text
  match h : start.1 with
  | [] => .error ⟨.endInObject, [], true⟩
  | b :: rest =>
    have shorter : rest.length < text.length := by have := start.2; simp [h] at this; omega
    if b = Byte.closeBrace then .ok (.close ⟨rest, Nat.le_of_lt shorter⟩)
    else if isFirst then
      if b = Byte.quote then .ok (.item ⟨rest, Nat.le_of_lt shorter⟩)
      else .error ⟨.keyNotString, b :: rest, true⟩
    else if b = Byte.comma then
      let after := skipSpaces rest
      match h : after.1 with
      | Byte.quote :: left => .ok (.item ⟨left, by have := after.2; simp [h] at this; omega⟩)
      | Byte.closeBrace :: left => .error ⟨.trailingComma, Byte.closeBrace :: left, true⟩
      | [] => .error ⟨.endInValue, [], true⟩
      | left => .error ⟨.keyNotString, left, true⟩
    else .error ⟨.expectedCommaOrBrace, b :: rest, true⟩

mutual
def takeValue (levels : Nat) (text : List UInt8) : Except Fault (Json × Shorter text) :=
  let start := skipSpaces text
  match h : start.1 with
  | [] => .error ⟨.endInValue, [], true⟩
  | b :: rest =>
    have shorter : rest.length < text.length := by have := start.2; simp [h] at this; omega
    let word (letters : String) (value : Json) : Except Fault (Json × Shorter text) := do
      let left ← takeWord letters.toUTF8.toList rest
      return (value, ⟨left.1, Nat.lt_of_le_of_lt left.2 shorter⟩)
    if b = Byte.letterN then word "ull" .null
    else if b = Byte.letterT then word "rue" (.bool true)
    else if b = Byte.letterF then word "alse" (.bool false)
    else if b = Byte.minus then do
      let (value, left) ← takeNumber true rest
      return (.number value, ⟨left.1, Nat.lt_trans left.2 shorter⟩)
    else if Byte.isDigit b then do
      let (value, left) ← takeNumber false start.1
      return (.number value, ⟨left.1, Nat.lt_of_lt_of_le left.2 start.2⟩)
    else if b = Byte.quote then do
      let (value, left) ← takeString [] rest
      return (.string value, ⟨left.1, Nat.lt_trans left.2 shorter⟩)
    else if b = Byte.openBracket then
      match levels with
      | 0 => .error ⟨.tooDeep, b :: rest, true⟩
      | levels + 1 => do
        let (items, left) ← takeItems levels true rest
        return (.array items, ⟨left.1, Nat.lt_of_le_of_lt left.2 shorter⟩)
    else if b = Byte.openBrace then
      match levels with
      | 0 => .error ⟨.tooDeep, b :: rest, true⟩
      | levels + 1 => do
        let (members, left) ← takeMembers levels true [] rest
        return (.object members, ⟨left.1, Nat.lt_of_le_of_lt left.2 shorter⟩)
    else .error ⟨.expectedValue, b :: rest, true⟩
termination_by 2 * text.length
decreasing_by all_goals omega

def takeItems (levels : Nat) (isFirst : Bool) (text : List UInt8) :
    Except Fault (List Json × Rest text) := do
  match ← nextItem isFirst text with
  | .close rest => return ([], rest)
  | .item start =>
    let (item, afterItem) ← takeValue levels start.1
    let (items, rest) ← takeItems levels false afterItem.1
    return (item :: items, ⟨rest.1, by
      have := start.2; have := afterItem.2; have := rest.2; omega⟩)
termination_by 2 * text.length + 1
decreasing_by
  · have := start.2; omega
  · have := start.2; have := afterItem.2; omega

/-- The members of an object up to its closing bracket, added to those before. -/
def takeMembers (levels : Nat) (isFirst : Bool) (members : List (String × Json))
    (text : List UInt8) : Except Fault (List (String × Json) × Rest text) := do
  match ← nextKey isFirst text with
  | .close rest => return (members, rest)
  | .item start =>
    let (key, afterKey) ← takeString [] start.1
    let afterColon ← takeColon afterKey.1
    let (value, afterValue) ← takeValue levels afterColon.1
    let (members, rest) ← takeMembers levels false (insertMember key value members) afterValue.1
    return (members, ⟨rest.1, by
      have := start.2; have := afterKey.2; have := afterColon.2; have := afterValue.2
      have := rest.2; omega⟩)
termination_by 2 * text.length + 1
decreasing_by
  · have := start.2; have := afterKey.2; have := afterColon.2; omega
  · have := start.2; have := afterKey.2; have := afterColon.2; have := afterValue.2; omega
end

/-- The value that a text starts with, and what follows it. -/
def readPrefix (text : List UInt8) : Except Fault (Json × List UInt8) := do
  let (value, rest) ← takeValue maxNesting text
  return (value, rest.1)

/-- Nothing but blanks may follow a document. -/
def expectEnd (rest : List UInt8) : Except Fault Unit :=
  match (skipSpaces rest).1 with
  | [] => .ok ()
  | left => .error ⟨.trailingText, left, true⟩

end FairProgram.Json
