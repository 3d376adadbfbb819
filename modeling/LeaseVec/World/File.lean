import LeaseVec.Bundle.Basic

/-!
# Files

A memory store slices what is put into it and what is read from it. Of plain bytes it has copies of its own,
and whoever reads a file gets another copy, so no later change is seen on either side. Bytes that share stay
shared with the store. A disk is read into new bytes and written with the bytes as they are then.
-/

namespace LeaseVec.World

open Number

def addStore (s : Store) : Action Nat := fun w =>
  .ok w.stores.size { w with stores := w.stores.push s }

/-- A new memory store with slices of these ranges. -/
def newMemory (files : List (Text × ByteRange)) : Action Nat := do
  let kept ← files.foldlM (fun kept f => do return Store.keep kept f.1 (← slice f.2)) []
  addStore (.memory kept)

def newDisk (disk : Disk) : Action Nat := addStore (.disk disk)

/-- The contents of a file. -/
def fetch (store : Nat) (path : Text) : Action ByteRange := do
  match (← get).store store with
  | .memory files => slice (← Action.ofExcept (Store.lookUp files path))
  | .disk d => alloc (← Action.ofExcept (d.read path))

/-- Put a slice of a range into a memory store. -/
def keepFile (store : Nat) (files : List (Text × ByteRange)) (path : Text) (contents : ByteRange) :
    Action Unit := do
  let kept ← slice contents
  modify fun w => w.setStore store (.memory (Store.keep files path kept))

/-- The answer of a step of a disk; what the step did before it failed stays done. -/
def settle {α : Type} (store : Nat) (step : Except Fault α × Disk) : Action α := do
  modify fun w => w.setStore store (.disk step.2)
  Action.ofExcept step.1

def putFile (store : Nat) (path : Text) (contents : ByteRange) : Action Unit := do
  let w ← get
  match w.store store with
  | .memory files => keepFile store files path contents
  | .disk d => settle store (d.write path (w.bytes contents))

/-- Replace a file with the first renames failing as imposed. -/
def replaceFileImposing (store : Nat) (path : Text) (contents : ByteRange)
    (imposed : List (Option Fault)) : Action Disk.ReplaceReport := do
  let w ← get
  match w.store store with
  | .memory files =>
    keepFile store files path contents
    return ⟨.ok (), 0, []⟩
  | .disk d =>
    let (report, d) := d.replaceImposing path (w.bytes contents) imposed
    settle store (.ok report, d)

def replaceFile (store : Nat) (path : Text) (contents : ByteRange) : Action Unit := do
  let report ← replaceFileImposing store path contents []
  Action.ofExcept report.outcome

def discardFile (store : Nat) (path : Text) : Action Unit := do
  match (← get).store store with
  | .memory files => modify fun w => w.setStore store (.memory (Store.without files path))
  | .disk d => settle store (d.remove path)

/-- Make a directory of a disk by its absolute path; a memory store has none. -/
def makeDir (store : Nat) (full : Text) : Action Unit := do
  match (← get).store store with
  | .memory _ => return
  | .disk d => settle store (d.makeDir full)

/-- A region over the contents of a file, labelled by its path. -/
def lendFile (store : Nat) (path : Text) : Action Nat := do
  lend (← fetch store path) path

/-- Encode fields and put the bundle in a file; the answer is the number of bytes. -/
def storeBundle (store : Nat) (path : Text) (fields : List Bundle.Source) : Action Nat := do
  let contents ← alloc (← Action.ofExcept (Bundle.encode (← get) fields))
  replaceFile store path contents
  return contents.length

/-- Open a bundle in place; the answer is its fields and the region that lends them. -/
def openInPlace (store : Nat) (path : Text) (policy : Bundle.Policy) :
    Action (List Bundle.Field × Nat) := do
  let region ← lendFile store path
  let fields ← Bundle.decode (← newBorrower region) policy
  return (fields, region)

end LeaseVec.World
