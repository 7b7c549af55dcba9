import Deadwood.Trim.Run

/-!
# Trimming by a stored report

A stored report passes on whatever values stand for files and exports, and trimming looks at such a
value only when it comes to it. A name that is no text may be left for a reason that has nothing to
do with its kind; it fails where the text of a file, or a text to look for, is needed.
-/

set_option autoImplicit false

namespace Deadwood.Trim

/-- How often a name stands in the texts of files other than `file`. Something that is no text
cannot be looked for, so then there must be nothing to search. -/
def storedRefs (read : String → List Char) (file name : Value) (paths : List String) :
    Except Fault Nat :=
  let searched := paths.filter fun path => !file.same (.text path)
  match name with
  | .text name => .ok (searched.foldl (fun n path => n + Reference.countTokens name (read path)) 0)
  | _ => if searched.isEmpty then .ok 0 else .error .wrongKind

/-- Why an export whose name is no text is left in the text of its file. -/
def absenceIn (text : List Char) : Obstacle :=
  match Module.parse text with
  | .error _ => .unparsable
  | .ok module => absence module

/-- Take one name out of a file, one of which is no text. A name that nothing else keeps is never
found, and a file that is no text cannot be read. -/
def trimOdd (project : Project) (disk : Disk) (paths : Except Failure (List String))
    (file : Value) (session : Session) (name : Value) : Except Failure (Entry Value × Session) := do
  if project.allowlist.any (·.same name) then return (leave file name .protectedName, session)
  else if name.same (.text "default") then return (leave file name .defaultExport, session)
  else if name.hasParts then .error (.data .wrongKind)
  else
    let refs ← ofFault (storedRefs (session.textOf disk project.root) file name (← paths))
    if 0 < refs then return (leave file name .referenced refs, session)
    else
      let path ← ofFault file.asText
      return (leave file name (absenceIn (← session.read disk project.root path)), session)

/-- Take one name out of a file of a stored report. -/
def trimStoredName (project : Project) (disk : Disk) (options : Options)
    (paths : Except Failure (List String)) (file : Value) (session : Session) (name : Value) :
    Except Failure (Entry Value × Session) :=
  match file, name with
  | .text file, .text name =>
    (trimName project disk options paths file session name).map
      fun (entry, session) => (entry.map .text, session)
  | _, _ => trimOdd project disk paths file session name

/-- Take the unused exports out of a file of a stored report. -/
def trimStoredFile (project : Project) (disk : Disk) (options : Options)
    (paths : Except Failure (List String)) (session : Session) (record : Record Value) :
    Except Failure (List (Entry Value) × Session) :=
  if Ignore.isProtected record.path.plain then
    .ok (record.unusedExports.map (leave record.path · .protectedDirectory), session)
  else if record.path.hasParts then .error (.data .wrongKind)
  else session.each (trimStoredName project disk options paths record.path) record.unusedExports

/-- What becomes of every unused export of the files of a stored report that are to be trimmed. -/
def planStored (project : Project) (disk : Disk) (options : Options) (session : Session)
    (targets : List (Record Value)) : Except Failure (List (Entry Value) × Session) := do
  let (entries, session) ← session.each
    (trimStoredFile project disk options (session.searched project disk)) targets
  return (entries.flatten, session)

/-- Trim the partly used files of a stored report. -/
def runStored (project : Project) (options : Options) (session : Session) (now : Stamp)
    (report : Report Value) : Act (Results Value) := do
  let (entries, session) ← Act.look fun disk =>
    planStored project disk options session report.partlyUsed
  finish project options session now entries

end Deadwood.Trim
