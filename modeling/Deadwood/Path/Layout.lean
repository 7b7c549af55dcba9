import Deadwood.Path.Basic

/-!
# Where results are kept

All that the program writes about a project lies in one directory of the project: the configuration
it reads, the report, the results of trimming and deleting, and a directory of snapshots for each
run that changed files.
-/

set_option autoImplicit false

namespace Deadwood.Layout

/-- The directory of everything else here. -/
def home (root : Path) : Path := root.child ".orphanprune"

def config (root : Path) : Path := (home root).child "config.json"

def report (root : Path) : Path := (home root).child "report.json"

def trims (root : Path) : Path := (home root).child "trims.json"

def deletions (root : Path) : Path := (home root).child "deletions.json"

/-- The snapshots of one run. -/
def backups (root : Path) (run : String) : Path := ((home root).child "backups").child run

end Deadwood.Layout
