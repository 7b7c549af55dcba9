import Deadwood.Checkout
import Deadwood.Cli.Command
import Std.Time.Zoned

/-!
# The program

The disk is read into memory, the run is computed, and what it changed is written back.
-/

set_option autoImplicit false

namespace Deadwood.Program

/-- The name of a place. -/
def nameOf (place : Place) : String := (Path.mk 1 place).toString

/-- Add what stands at and below a place to a disk. Links are not followed. -/
partial def scan (disk : Disk) (place : Place) : IO Disk := do
  let path := (← IO.currentDir) / nameOf place
  match (← path.symlinkMetadata).type with
  | .file => return disk.put place (.file (← IO.FS.readBinFile path).toList)
  | .dir =>
    let mut disk := disk
    if !place.isEmpty then disk := disk.put place .directory
    for entry in ← path.readDir do
      disk ← scan disk (place ++ [entry.fileName])
    return disk
  | _ => return disk

/-- The part of the disk that a run can look at: what is below the directory in which it runs, and
below every argument that names something. -/
def snapshot (here : Place) (arguments : List String) : IO Disk := do
  let mut disk : Disk := { here }
  for argument in "." :: arguments do
    let place := ((Path.ofString argument).resolve here).parts
    if ← ((← IO.currentDir) / nameOf place).pathExists then
      disk := (disk.ensureDirectory ⟨1, place.dropLast⟩).toOption.getD disk
      disk ← scan disk place
  return disk

/-- Write what has changed: directories first, then files. -/
def writeBack (before after : Disk) : IO Unit := do
  let changed := after.nodes.filter fun (place, node) => before.at? place != some node
  for (place, node) in changed do
    if node = .directory then IO.FS.createDirAll (nameOf place)
  for (place, node) in changed do
    if let .file bytes := node then IO.FS.writeBinFile (nameOf place) ⟨bytes.toArray⟩
  for (place, node) in before.nodes do
    if node != .directory && after.at? place == none then IO.FS.removeFile (nameOf place)

/-- The stamp of a date and a time of day. -/
def stampOf (t : Std.Time.PlainDateTime) (offset : Option Int) : Stamp :=
  { year := t.date.year.toInt.toNat, month := t.date.month.val.toNat, day := t.date.day.val.toNat
    hour := t.time.hour.val.toNat, minute := t.time.minute.val.toNat
    second := t.time.second.val.toNat, fraction := t.time.nanosecond.val.toNat / 1000, offset }

/-- What a run finds around it. -/
def surroundings (disk : Disk) (arguments : List String) : IO Cli.Environment := do
  let directory := match Cli.Request.read arguments with
    | .ok (.apply request) => request.directory
    | _ => Path.ofString "."
  let moment ← Std.Time.DateTime.now
  let universal := Std.Time.DateTime.ofTimestamp moment.toTimestamp .UTC
  return {
    now := stampOf moment.toPlainDateTime none
    universal := stampOf universal.toPlainDateTime (some 0)
    automatic := ← IO.getEnv "CI"
    surroundings := { commit := Checkout.commit? disk directory } }

/-- Tell what ended a run that did not end well. -/
def report (outcome : Cli.Outcome) : IO Unit := do
  if let some usage := outcome.usage then IO.eprintln ("Error: " ++ usage.message)
  if let some crash := outcome.crash then IO.eprintln ("Error: " ++ crash.message)

end Deadwood.Program

open Deadwood Deadwood.Program

/-- Run the program on the arguments of the command line. A run that asks the user is computed again
with the answer. -/
def main (arguments : List String) : IO UInt32 := do
  let here := (Path.ofString (← IO.currentDir).toString).parts
  let disk ← snapshot here arguments
  let environment ← surroundings disk arguments
  let first := Cli.run environment arguments disk
  let mut outcome := first
  if let some shown := first.asked then
    IO.print (String.ofList shown)
    (← IO.getStdout).flush
    let answer ← (← IO.getStdin).getLine
    outcome := Cli.run { environment with input := answer.toList } arguments disk
  IO.print (String.ofList (outcome.output.drop (first.asked.getD []).length))
  report outcome
  writeBack disk outcome.disk
  return UInt32.ofNat outcome.exit
