/-!
# JSON values

Numbers keep apart whole numbers that fit 64 bits and all others. The members of an object are in
increasing order of their keys, each key once.
-/

namespace FairProgram

inductive JsonNumber where
  | int (value : Int)
  | real (value : Float)

def JsonNumber.toFloat : JsonNumber → Float
  | .int value => Float.ofInt value
  | .real value => value

inductive Json where
  | null
  | bool (value : Bool)
  | number (value : JsonNumber)
  | string (value : String)
  | array (items : List Json)
  | object (members : List (String × Json))

namespace Json

/-- Adds a member in the order of keys; the last member of a key counts. -/
def insertMember (key : String) (value : Json) : List (String × Json) → List (String × Json)
  | [] => [(key, value)]
  | (first, other) :: rest =>
    if key < first then (key, value) :: (first, other) :: rest
    else if key = first then (key, value) :: rest
    else (first, other) :: insertMember key value rest

def member? (key : String) (members : List (String × Json)) : Option Json :=
  (members.find? fun m => m.1 == key).map (·.2)

end Json

end FairProgram
