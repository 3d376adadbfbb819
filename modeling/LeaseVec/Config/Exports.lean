import LeaseVec.Config.Module
import LeaseVec.Fault

/-!
# The value of a module file

What a module file gives depends on the module and on the extension of the file. Some extensions load
a module as one value and some by its exports, some allow no exports and some allow nothing else. An
extension counts letter by letter, except that one value is loaded under any case of its extension.
-/

namespace LeaseVec.Module

/-- Whether an extension is one of those listed, letter by letter. -/
def isAmong (extension : Text) (names : List String) : Bool :=
  names.any fun e => extension = Text.ofString e

/-- ASCII letters in lower case. -/
def lowered (t : Text) : Text := t.map fun u => if 0x41 ≤ u && u ≤ 0x5a then u + 0x20 else u

/-- The default member of a value, or else the value itself. -/
def defaultOr (v : Json) : Json := (v.get? (Text.ofString "default")).getD v

/-- The object of a module's exports. A default without a value is not in it. -/
def exportsObject (default : Option (Option Json)) (named : List (Text × Json)) : Json :=
  .object (match default.join with
    | some v => Json.put (Text.ofString "default") v named
    | none => named)

/-- The name of the mark that tells an object of exports from other objects. -/
def mark : Text := Text.ofString "__esModule"

/-- The object of the exports of a module that is loaded as one value. It is marked when there is a
default, unless the module has the mark among its exports. -/
def markedObject (default : Option (Option Json)) (named : List (Text × Json)) : Json :=
  if default.isSome && (Json.lookup? mark named).isNone then
    exportsObject default (Json.put mark (.bool true) named)
  else exportsObject default named

/-- Whether a module exports something. -/
def hasExports : Module → Bool
  | exports default named => default.isSome || !named.isEmpty
  | _ => false

/-- A module where no exports are allowed. -/
def withoutExports (m : Module) : Module := if m.hasExports then malformed else m

/-- The value of a module whose exports make an object by a given rule. -/
def value (m : Module)
    (object : Option (Option Json) → List (Text × Json) → Json) : Except Fault Json :=
  match m with
  | whole v => .ok v
  | exports default named => .ok (object default named)
  | throws message => .error (.configThrew message)
  | throwsValue v => .error (.configThrewValue v)
  | malformed => .error (.configRefused .malformed)

/-- The extension of modules that are loaded as one value. -/
def wholeExtension : String := ".cjs"

/-- The extensions of modules that are loaded by their exports, apart from files without one. -/
def exportExtensions : List String := [".mjs", ".mts", ".ts", ".cts", ".js"]

/-- The extensions that allow no exports. -/
def plainExtensions : List String := [".cjs", ".cts"]

/-- The extensions that allow nothing but exports. -/
def strictExtensions : List String := [".mjs", ".mts"]

/-- A module as its file has to hold it: without exports where the extension allows none. -/
def underExtension (m : Module) (extension : Text) : Module :=
  if isAmong extension plainExtensions then m.withoutExports else m

/-- Load a module as one value. -/
def loadWhole (m : Module) (file : Text) : Except Fault Json :=
  (m.underExtension (Path.extname file)).value markedObject

/-- Load a module by its exports. One value for the whole module counts as the default, where it is
allowed. -/
def loadExports (m : Module) (file : Text) : Except Fault Json :=
  let extension := Path.extname file
  if extension = Text.ofString ".json" then .error (.configRefused (.dataFile file))
  else if !(extension.isEmpty || isAmong extension exportExtensions) then
    .error (.configRefused (.unknownExtension extension file))
  else
    match m.underExtension extension with
    | whole v =>
      if isAmong extension strictExtensions then .error (.configRefused .notExports)
      else .ok (exportsObject (some (some v)) [])
    | m => m.value exportsObject

end LeaseVec.Module
