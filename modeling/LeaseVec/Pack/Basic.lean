import LeaseVec.Pack.Document
import LeaseVec.Json.Reader
import LeaseVec.World.Array
import LeaseVec.World.File

/-!
# Packing

Packing reads a field document from a store and writes the bundle it describes. Nothing is written
unless the whole bundle could be encoded.
-/

namespace LeaseVec.Pack

/-- A new owned vector with the values of a described field. -/
def FieldSpec.build (f : FieldSpec) : Action Nat := World.vecOfList f.kind f.values false

/-- The field document in a file's contents. -/
def read (contents : Bytes) : Except Fault (List FieldSpec) := do
  match Json.parse? (← Text.ofBytes contents) with
  | none => .error .notJson
  | some raw => (fields raw).mapError .document

/-- Pack one file into another; the answer is the number of fields and of bytes written. -/
def run (store : Nat) (input output : Text) : Action (Nat × Nat) := do
  let contents ← World.fetch store input
  let specs ← Action.ofExcept (read ((← get).bytes contents))
  let vectors ← specs.mapM (·.build)
  let sources := (specs.zip vectors).map fun (f, v) =>
    (⟨f.name, v, f.stride⟩ : Bundle.Source)
  let bytes ← World.storeBundle store output sources
  return (specs.length, bytes)

end LeaseVec.Pack
