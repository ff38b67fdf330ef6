import CoLang.Syntax
import CoLang.Text.Blank
/-!
# Process notes

A documentation comment whose first line begins with the word `@process` marks its declaration as a
step of the process that the program carries out. The rest of the comment is the note that goes into
the trace.
-/

namespace CoLang.Doc

/-- The word that marks a process step. -/
def marker : String := "@process"

/-- Whether a comment marks a process step: the first word of its first line is the marker. -/
def isProcess : Doc → Bool
  | [] => false
  | line :: _ => Text.firstWord line.toList == marker.toList

/-- What follows the marker on the first line, without the blanks around it. -/
def firstNote (line : String) : String :=
  String.ofList (Text.trim ((Text.trimFront line.toList).drop marker.length))

/-- The note of a process step: the first line without its marker, then the other lines as they
stand. -/
def processNote? (doc : Doc) : Option String :=
  match doc with
  | [] => none
  | line :: rest =>
    if isProcess doc then
      some (rest.foldl (fun note line => note ++ "\n" ++ line) (firstNote line))
    else none

end CoLang.Doc
