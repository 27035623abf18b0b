/-!
# Lines of program text

A program is a list of lines, each with its depth of indentation, one tab for each level.
-/

namespace FairProgram

structure Line where
  indent : Nat
  content : String

def Line.text (line : Line) : String :=
  String.ofList (List.replicate line.indent '\t') ++ line.content ++ "\n"

/-- The lines one after another, each ended by a line feed. -/
def Line.join (lines : List Line) : String :=
  String.join (lines.map Line.text)

end FairProgram
