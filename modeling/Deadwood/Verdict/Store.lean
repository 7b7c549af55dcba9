import Deadwood.Act
import Deadwood.Json.Reader
import Deadwood.Json.Writer
import Deadwood.Verdict.Report

/-!
# Stored reports

Reports are kept as JSON documents on the disk.
-/

set_option autoImplicit false

namespace Deadwood

namespace Report

/-- The document of a report under a filter. -/
def render (report : Report Value) (filter : Filter) : List Char :=
  Json.write (report.toValue filter)

/-- Write a report under a filter to a file. -/
def save (report : Report Value) (path : Path) (filter : Filter) : Act Unit := do
  Act.change fun disk => disk.ensureDirectory path.parent
  Act.change fun disk => disk.writeText path (report.render filter ++ ['\n'])

/-- The report in a file. -/
def load (disk : Disk) (path : Path) : Except Failure (Report Value) :=
  match disk.readText path with
  | .error (.disk e) =>
    if e.cause = .missing then failConfig (.noReport path.toString)
    else failDisk e (.unreadableReport path.toString (.text (.disk e)))
  | .error (.encoding e) => .error (.encoding e)
  | .ok text =>
    match Json.read text with
    | .error e => failJson e (.unreadableReport path.toString (.format (.json e)))
    | .ok v =>
      match ofValue v with
      | .ok report => .ok report
      | .error fault =>
        if fault.isContent || fault matches .missing _ then
          failConfig (.invalidReport path.toString fault)
        else .error (.data fault)

end Report

end Deadwood
