import LeaseVec.Config.Basic
import LeaseVec.Config.Exports
import LeaseVec.Config.Report

/-!
# Configuration files

A configuration is found by its path, by its directory, or by its path without extension, and is
the value of an executable module. What running a module gives is the host's business: a host knows
the working directory, the file tree, and the outcomes of modules that are more than data.
-/

namespace LeaseVec

open Number

structure Host where
  cwd : Text
  tree : Tree
  /-- Outcomes of modules by their absolute paths. -/
  modules : List (Text × Module)

namespace ConfigFile

/-- The extensions of configuration files, in the order in which they are tried. -/
def extensions : List String := [".mjs", ".mts", ".ts", ".cjs", ".js"]

/-- The name of a configuration file without its extension. -/
def stem : String := "cowvec.config"

/-- What patterns the file names follow, for messages. -/
def patterns : String :=
  let names := extensions.map fun e => (e.drop 1).toString
  stem ++ "[" ++ "/".intercalate names ++ "]"

/-- The first extension with which a path names a file. -/
def withExtension? (tree : Tree) (path : Text) : Option Text :=
  (extensions.map fun e => path ++ Text.ofString e).find? fun p => tree.isDir? p = some false

/-- The configuration file that a path means, by absolute path. Without a path, or with an empty one,
it is looked for in the working directory. -/
def resolve? (h : Host) (path : Option Text) : Option Text :=
  let input := path.getD []
  let base := Path.resolve h.cwd (if input.isEmpty then Text.ofString stem else input)
  match h.tree.isDir? base with
  | some false => some base
  | some true => withExtension? h.tree (Path.join base (Text.ofString stem))
  | none =>
    if Module.isAmong (Path.extname base) extensions then none else withExtension? h.tree base

/-- The module at a path: the outcome that the host gives for it, or what its text says. -/
def moduleAt (h : Host) (path : Text) : Module :=
  match h.modules.find? fun m => m.1 = path with
  | some m => m.2
  | none => .ofText (Text.Utf8.decode ((h.tree.contents? path).toOption.getD []))

/-- The extensions of files whose failures are reworded, in any case. -/
def rewordedExtensions : List String := [".ts", ".mts"]

/-- A failure as it is reported for a file with an extension in lower case. -/
def reworded (file extension : Text) (e : Fault) : Fault :=
  if Module.isAmong extension rewordedExtensions then
    match failureText? e with
    | some cause => .configNotLoadable (Path.basename file) cause
    | none => .valueWithoutText
  else e

/-- Load the configuration that a path means. -/
def load (h : Host) (path : Option Text) : Except Fault Json :=
  match resolve? h path with
  | none => .error (.configNotFound (path.getD (Text.ofString (stem ++ ".*"))))
  | some file =>
    let extension := Module.lowered (Path.extname file)
    let m := moduleAt h file
    let loaded :=
      if extension = Text.ofString Module.wholeExtension then m.loadWhole file
      else (m.loadExports file).mapError (reworded file extension)
    loaded.map Module.defaultOr

/-- The configuration in a raw value. -/
def accept (raw : Json) : Except Fault Config := (Config.ofJson raw).mapError .config

/-- Load a configuration. A path that is given has to lead to a file; without one the default is used
when none is found. -/
def loadConfig (h : Host) (path : Option Text) : Except Fault Config :=
  if (path.getD []).isEmpty ∧ resolve? h none = none then .ok Config.default
  else (load h path).bind accept

/-- Check a configuration file: the configuration, or what is wrong. What is wrong may have no text,
which is a failure. -/
def validate (h : Host) (path : Option Text) : Except Fault (Except Text Config) :=
  match (load h path).bind accept with
  | .ok c => .ok (.ok c)
  | .error e =>
    match reportText? e with
    | some text => .ok (.error text)
    | none => .error .valueWithoutText

end ConfigFile

end LeaseVec
