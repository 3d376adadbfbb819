import LeaseVec.CommandLine
import LeaseVec.Screen.Plain

/-!
# The program

The outer layer of the command line: it looks up the files that the arguments may mean, runs the
command on them, writes the files that came out changed, and prints.
-/

namespace LeaseVec.Program

/-- A path and every directory above it. -/
def chain (segments : List Text) : List Text :=
  (List.range segments.length).map fun i => Path.slash :: Path.unsplit (segments.take (i + 1))

/-- The paths that a configuration path may mean. -/
def candidates (base : Text) : List Text :=
  let stem := Path.join base (Text.ofString ConfigFile.stem)
  ConfigFile.extensions.flatMap fun e => [base ++ Text.ofString e, stem ++ Text.ofString e]

/-- The paths that a command may look at. -/
def paths (cwd : Text) (args : List Text) : List Text :=
  let bases := (Text.ofString ConfigFile.stem :: args).map (Path.resolve cwd)
  (bases.flatMap fun b => chain (Path.segments b) ++ candidates b).eraseDups

def toText (s : String) : Text := Text.ofString s

def ofText (t : Text) : String := String.ofList ((Text.Utf8.scalars t).map Char.ofNat)

/-- Put what the file system has at a path into a tree. -/
def lookUp (tree : Tree) (path : Text) : IO Tree := do
  let segments := Path.segments path
  if ← ((← IO.currentDir) / ofText path).isDir then
    return (tree.makeDir path).2
  try
    let contents ← IO.FS.readBinFile (ofText path)
    let made := (tree.makeDir (Path.dirname path)).2
    return made.put segments (.file contents.toList)
  catch _ => return tree

/-- Write a file in one step: next to its place first, and then into it. -/
def writeOut (segments : List Text) (contents : Bytes) : IO Unit := do
  let path := Path.slash :: Path.unsplit segments
  let temporary := ofText (Disk.temporary path)
  IO.FS.createDirAll (ofText (Path.dirname path))
  IO.FS.writeBinFile temporary ⟨contents.toArray⟩
  IO.FS.rename temporary (ofText path)

def print (stream : IO.FS.Stream) (t : Text) : IO Unit := do
  stream.write ⟨(Text.Utf8.encode t).toArray⟩
  stream.flush

def run (args : List String) : IO UInt32 := do
  let cwd := toText (← IO.currentDir).toString
  let args := args.map toText
  let tree ← (paths cwd args).foldlM lookUp Tree.empty
  let outcome := CommandLine.run ⟨cwd, tree, []⟩ args
  for (segments, entry) in outcome.tree.entries do
    match entry with
    | .file contents =>
      if tree.get? segments ≠ some entry then writeOut segments contents
    | .dir => pure ()
  print (← IO.getStdout) outcome.out
  match outcome.view with
  | some view => print (← IO.getStdout) (view.lines.flatMap fun l => l ++ CommandLine.newline)
  | none => pure ()
  print (← IO.getStderr) outcome.err
  return UInt32.ofNat outcome.code

end LeaseVec.Program

def main (args : List String) : IO UInt32 := LeaseVec.Program.run args
