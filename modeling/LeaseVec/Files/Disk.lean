import LeaseVec.Files.Tree

/-!
# Disks

A disk reads and writes whole files of a file tree by path, relative paths counting from its base.

An atomic write writes a temporary file next to the target and renames it. A rename that finds the system
busy is tried again, at most four times in all and after growing pauses; when the write fails the temporary
file is removed and the error is the last one.
-/

namespace LeaseVec

structure Disk where
  base : Text
  tree : Tree
  deriving DecidableEq, Inhabited

namespace Disk

/-- The absolute path that a path means. -/
def fullPath (base path : Text) : Text :=
  if Path.isAbsolute path then path else Path.join base path

def read (d : Disk) (path : Text) : Except Fault Bytes :=
  (d.tree.contents? (fullPath d.base path)).mapError .system

/-- Make the directories above a path. -/
def makeAbove (tree : Tree) (full : Text) : Except Fault Unit × Tree :=
  let (made, tree) := tree.makeDir (Path.dirname full)
  (made.mapError .system, tree)

/-- Write a file, the directories above it first. The tree is given back also when the write fails. -/
def write (d : Disk) (path : Text) (contents : Bytes) : Except Fault Unit × Disk :=
  let full := fullPath d.base path
  match makeAbove d.tree full with
  | (.error e, tree) => (.error e, { d with tree := tree })
  | (.ok (), tree) =>
    match tree.putFile full contents with
    | .error e => (.error (.system e), { d with tree := tree })
    | .ok tree => (.ok (), { d with tree := tree })

/-- Whether a rename that failed may be tried again. -/
def isBusy : Fault → Bool
  | .system (.other code) =>
    code = Text.ofString "EBUSY" || code = Text.ofString "EMFILE" || code = Text.ofString "ENFILE"
  | _ => false

/-- How often a rename is tried in all. -/
def renameAttempts : Nat := 4

/-- The pause after a failed attempt, in milliseconds and without the random part. -/
def pause (attempt : Nat) : Nat := 100 * Nat.pow 2 attempt

/-- What an atomic write did: its outcome, the renames tried, and the pauses between them. -/
structure ReplaceReport where
  outcome : Except Fault Unit
  attempts : Nat
  pauses : List Nat

/-- Rename with retries. `imposed` gives the failures that the next attempts meet; an attempt without
one is carried out. -/
def renameRetrying (tree : Tree) (source target : Text) (imposed : List (Option Fault))
    (attempt : Nat) : Nat → ReplaceReport × Tree
  | 0 => (⟨.ok (), 0, []⟩, tree)
  | left + 1 =>
    let tried : Except Fault Tree :=
      match imposed with
      | some e :: _ => .error e
      | _ => (tree.rename source target).mapError .system
    match tried with
    | .ok tree => (⟨.ok (), 1, []⟩, tree)
    | .error e =>
      if left = 0 ∨ !isBusy e then (⟨.error e, 1, []⟩, tree)
      else
        let (report, tree) := renameRetrying tree source target imposed.tail (attempt + 1) left
        (⟨report.outcome, report.attempts + 1, pause attempt :: report.pauses⟩, tree)

/-- The temporary path of a target. -/
def temporary (full : Text) : Text := full ++ Text.ofString ".tmp"

/-- Remove the temporary file after a failure, which is reported unless removing fails as well. -/
def cleanUp (full : Text) (tree : Tree) (failure : Fault) : Except Fault Unit × Tree :=
  match tree.remove (temporary full) with
  | .ok tree => (.error failure, tree)
  | .error e => (.error (.system e), tree)

/-- Replace a file in one step, the first renames failing as imposed. -/
def replaceImposing (d : Disk) (path : Text) (contents : Bytes)
    (imposed : List (Option Fault)) : ReplaceReport × Disk :=
  let full := fullPath d.base path
  match makeAbove d.tree full with
  | (.error e, tree) => (⟨.error e, 0, []⟩, { d with tree := tree })
  | (.ok (), tree) =>
    match tree.putFile (temporary full) contents with
    | .error e =>
      let (outcome, tree) := cleanUp full tree (.system e)
      (⟨outcome, 0, []⟩, { d with tree := tree })
    | .ok tree =>
      let (report, tree) := renameRetrying tree (temporary full) full imposed 0 renameAttempts
      match report.outcome with
      | .ok () => (report, { d with tree := tree })
      | .error e =>
        let (outcome, tree) := cleanUp full tree e
        ({ report with outcome := outcome }, { d with tree := tree })

/-- Remove a file if there is one. -/
def remove (d : Disk) (path : Text) : Except Fault Unit × Disk :=
  match d.tree.remove (fullPath d.base path) with
  | .ok tree => (.ok (), { d with tree := tree })
  | .error e => (.error (.system e), d)

/-- Make a directory by its absolute path. -/
def makeDir (d : Disk) (full : Text) : Except Fault Unit × Disk :=
  let (made, tree) := d.tree.makeDir full
  (made.mapError .system, { d with tree := tree })

end Disk

end LeaseVec
