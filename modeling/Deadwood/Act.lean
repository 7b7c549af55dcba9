import Deadwood.Failure

/-!
# Actions

An action may change the disk and may fail. What was changed before a failure stays changed, so the
disk is the same whether an action is seen through to its end or stopped by the failure.
-/

set_option autoImplicit false

namespace Deadwood

/-- A computation that may change the disk and may fail. -/
abbrev Act (α : Type) := ExceptT Failure (StateM Disk) α

namespace Act

variable {α : Type}

/-- Run an action on a disk: its outcome, and the disk after it. -/
def run (act : Act α) (disk : Disk) : Except Failure α × Disk := act disk

/-- Look at the disk. -/
def look (f : Disk → Except Failure α) : Act α := ExceptT.mk fun disk => (f disk, disk)

/-- Change the disk. -/
def change (f : Disk → Except Disk.Error Disk) : Act Unit :=
  ExceptT.mk fun disk =>
    match f disk with
    | .ok disk => (.ok (), disk)
    | .error e => (.error (.disk e), disk)

/-- Change the disk, which stays changed if this fails. -/
def attempt (f : Disk → Except Failure α × Disk) : Act α := ExceptT.mk f

end Act

end Deadwood
