import LeaseVec.Files.Path
import LeaseVec.Fault
import LeaseVec.Text.Utf8

/-!
# File trees

A tree maps absolute paths, as segments from the root, to files and directories, and to nothing else:
links are not modelled. The root is always a directory. The operations fail as the file system does: a
missing entry, a directory where a file is needed, a file where a directory is needed, a name or a path
that has too many bytes.
-/

namespace LeaseVec

inductive Entry where
  | file (contents : Bytes)
  | dir
  deriving DecidableEq

structure Tree where
  entries : List (List Text × Entry)
  deriving DecidableEq, Inhabited

namespace Tree

def empty : Tree := ⟨[]⟩

/-- What a path of segments names. -/
def get? (t : Tree) (path : List Text) : Option Entry :=
  if path = [] then some .dir else (t.entries.find? fun e => e.1 = path).map (·.2)

/-- Put an entry in place of what was there. -/
def put (t : Tree) (path : List Text) (entry : Entry) : Tree :=
  ⟨(path, entry) :: t.entries.filter fun e => e.1 ≠ path⟩

def erase (t : Tree) (path : List Text) : Tree := ⟨t.entries.filter fun e => e.1 ≠ path⟩

/-- The most bytes that a name may have. -/
def nameLimit : Nat := 255

/-- The most bytes that a path may have. -/
def pathLimit : Nat := 4095

/-- A path text as the file system takes it. A zero unit is in no path, and a surrogate that stands
alone is replaced. -/
def pathText (path : Text) : Except SystemError Text :=
  if path.contains 0 then .error .invalidPath
  else if pathLimit < Text.Utf8.byteLength path then .error .nameTooLong
  else .ok (Text.Utf8.settled path)

/-- A path text followed from the root: where it leads, what is there, and whether the text asks for a
directory by a slash at its end. -/
structure Place where
  path : List Text
  entry : Option Entry
  wantsDir : Bool

/-- Follow segments from a place on. All but the last have to name directories. -/
def follow (t : Tree) : List Text → List Text → Except SystemError (List Text)
  | path, [] => .ok path
  | path, segment :: rest =>
    match t.get? path with
    | none => .error .noEntry
    | some (.file _) => .error .notDirectory
    | some .dir =>
      if segment = [] ∨ segment = [Path.dot] then follow t path rest
      else if segment = [Path.dot, Path.dot] then follow t path.dropLast rest
      else if nameLimit < Text.Utf8.byteLength segment then .error .nameTooLong
      else follow t (path ++ [segment]) rest

/-- The place that an absolute path text means. -/
def place (t : Tree) (path : Text) : Except SystemError Place := do
  let text ← pathText path
  let found ← t.follow [] (Path.names text)
  return ⟨found, t.get? found, Path.endsInSlash path⟩

/-- The contents of a file. -/
def contents? (t : Tree) (path : Text) : Except SystemError Bytes := do
  let p ← t.place path
  match p.entry with
  | none => .error .noEntry
  | some .dir => .error .isDirectory
  | some (.file contents) => if p.wantsDir then .error .notDirectory else .ok contents

/-- Create a file or replace its contents. -/
def putFile (t : Tree) (path : Text) (contents : Bytes) : Except SystemError Tree := do
  let p ← t.place path
  if p.wantsDir then .error .isDirectory
  else
    match p.entry with
    | some .dir => .error .isDirectory
    | _ => .ok (t.put p.path (.file contents))

/-- Make every directory that is missing on the way, from a directory on. Those that were made before a
failure stay, also those that the way leaves again by `..`. -/
def makeAll (t : Tree) : List Text → List Text → Except SystemError Unit × Tree
  | _, [] => (.ok (), t)
  | path, segment :: rest =>
    if segment = [Path.dot] then makeAll t path rest
    else if segment = [Path.dot, Path.dot] then makeAll t path.dropLast rest
    else
      let next := path ++ [segment]
      match t.get? next with
      | none =>
        if nameLimit < Text.Utf8.byteLength segment then (.error .nameTooLong, t)
        else makeAll (t.put next .dir) next rest
      | some .dir => makeAll t next rest
      | some (.file _) => (.error (if rest = [] then .alreadyThere else .notDirectory), t)

/-- Make a directory and those above it. -/
def makeDir (t : Tree) (path : Text) : Except SystemError Unit × Tree :=
  match pathText path with
  | .ok text => t.makeAll [] (Path.names text)
  | .error e => (.error e, t)

/-- What a rename answers when one of its paths ends in no name. -/
def busy : SystemError := .other (Text.ofString "EBUSY")

/-- Move a file over another path. -/
def rename (t : Tree) (source target : Text) : Except SystemError Tree := do
  let p ← t.place source
  let q ← t.place target
  if ¬ (Path.endsInName source ∧ Path.endsInName target) then .error busy
  else
    match p.entry with
    | none => .error .noEntry
    | some entry =>
      if q.wantsDir then .error .notDirectory
      else
        match q.entry with
        | some .dir => .error .isDirectory
        | _ => .ok ((t.erase p.path).put q.path entry)

/-- Remove a file if there is one. -/
def remove (t : Tree) (path : Text) : Except SystemError Tree :=
  match t.place path with
  | .error .noEntry => .ok t
  | .error e => .error e
  | .ok p =>
    match p.entry with
    | none => .ok t
    | some .dir => .error .notRemovable
    | some (.file _) => if p.wantsDir then .error .notDirectory else .ok (t.erase p.path)

/-- Whether a path names a directory (`some true`), a file (`some false`) or nothing. -/
def isDir? (t : Tree) (path : Text) : Option Bool :=
  match t.place path with
  | .ok p =>
    match p.entry with
    | some .dir => some true
    | some (.file _) => if p.wantsDir then none else some false
    | none => none
  | .error _ => none

/-- The order of texts by their units. -/
def unitOrder : Text → Text → Bool
  | [], _ => true
  | _ :: _, [] => false
  | u :: s, v :: t => if u = v then unitOrder s t else u < v

/-- The paths below a directory as seen from it, in order; those of directories end in a slash. -/
def below (t : Tree) (dir : List Text) : List Text :=
  let names := t.entries.filterMap fun (path, entry) =>
    if dir.isPrefixOf path ∧ path ≠ dir then
      let name := Path.unsplit (path.drop dir.length)
      some (match entry with
        | .dir => name ++ [Path.slash]
        | .file _ => name)
    else none
  names.mergeSort unitOrder

end Tree

end LeaseVec
