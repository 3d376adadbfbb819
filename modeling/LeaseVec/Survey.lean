import LeaseVec.Bundle.Rows
import LeaseVec.Config.File
import LeaseVec.World.File

/-!
# Survey

Inspecting a bundle opens it in place under the configuration in force, takes its rows, and closes
it. With debugging on every field is also logged with how it was attached.
-/

namespace LeaseVec

open Number

structure Survey where
  file : Text
  bytes : Nat
  rows : List Bundle.Row
  log : List Text

namespace Survey

/-- The log line of a field. -/
def logLine (w : World) (f : Bundle.Field) : Text :=
  let v := w.vec f.vec
  Text.ofString "[cowvec] " ++ f.name ++
    Text.ofString s!": {f.attached.name} ({v.size} x {v.kind.name})"

/-- Open a bundle of a store and take its rows; the region is closed in the end. -/
def ofStore (store : Nat) (path shown : Text) (config : Config) : Action Survey := do
  let (fields, region) ← World.openInPlace store path config.policy
  let w ← get
  let rows := Bundle.rows w fields
  World.close region
  let rows ← Action.ofExcept rows
  return {
    file := shown
    bytes := (w.region region).byteLength
    rows := rows
    log := if config.debug then fields.map (logLine w) else [] }

/-- Inspect a file of the host. -/
def ofFile (h : Host) (file : Text) (config : Option Text) : Except Fault Survey := do
  let c ← ConfigFile.loadConfig h config
  let full := Path.resolve h.cwd file
  let action : Action Survey := do
    let store ← World.newDisk ⟨Path.dirname full, h.tree⟩
    ofStore store (Path.basename full) full c
  match action World.empty with
  | .ok i _ => return i
  | .error e _ => throw e

end Survey

end LeaseVec
