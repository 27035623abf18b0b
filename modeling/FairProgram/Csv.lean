/-!
# Comma-separated records

Fields are separated by commas, and records end at a line feed, a carriage return, or both in this
order. A field that starts with a quote runs to the next single quote, two quotes in it stand for
one, and what follows its closing quote is added to it. A quote inside any other field is an
ordinary byte. Empty lines hold no record.
-/

namespace FairProgram.Csv

def comma : UInt8 := 0x2C
def quote : UInt8 := 0x22
def lineFeed : UInt8 := 0x0A
def carriageReturn : UInt8 := 0x0D

inductive Place where
  | lineStart
  | fieldStart
  /-- In a field that is read as it stands. -/
  | bare
  | quoted
  /-- Behind a quote that closes the field or is the first of two. -/
  | quoteSeen
deriving DecidableEq

/-- What has been read: whole records, the fields of the open one and its last field, each with
the newest part first. -/
structure Progress where
  place : Place := .lineStart
  records : List (List (List UInt8)) := []
  fields : List (List UInt8) := []
  field : List UInt8 := []

namespace Progress

def openRecord (p : Progress) : List (List UInt8) :=
  (p.field.reverse :: p.fields).reverse

def endField (p : Progress) : Progress :=
  { p with place := .fieldStart, fields := p.field.reverse :: p.fields, field := [] }

def endRecord (p : Progress) : Progress :=
  { place := .lineStart, records := p.openRecord :: p.records }

def add (p : Progress) (place : Place) (byte : UInt8) : Progress :=
  { p with place := place, field := byte :: p.field }

def readBare (p : Progress) (byte : UInt8) : Progress :=
  if byte = comma then p.endField
  else if byte = lineFeed ∨ byte = carriageReturn then p.endRecord
  else p.add .bare byte

def read (p : Progress) (byte : UInt8) : Progress :=
  match p.place with
  | .lineStart =>
    -- The line feed behind a carriage return is dropped here, like an empty line.
    if byte = lineFeed ∨ byte = carriageReturn then p
    else if byte = quote then { p with place := .quoted }
    else p.readBare byte
  | .fieldStart => if byte = quote then { p with place := .quoted } else p.readBare byte
  | .bare => p.readBare byte
  | .quoted => if byte = quote then { p with place := .quoteSeen } else p.add .quoted byte
  | .quoteSeen => if byte = quote then p.add .quoted byte else p.readBare byte

/-- The records read, with the open one, if any, as the last. -/
def finish (p : Progress) : List (List (List UInt8)) :=
  match p.place with
  | .lineStart => p.records.reverse
  | _ => (p.openRecord :: p.records).reverse

end Progress

/-- The input without a byte order mark at its start. -/
def withoutMark : List UInt8 → List UInt8
  | 0xEF :: 0xBB :: 0xBF :: rest => rest
  | bytes => bytes

def records (bytes : List UInt8) : List (List (List UInt8)) :=
  ((withoutMark bytes).foldl Progress.read {}).finish

end FairProgram.Csv
