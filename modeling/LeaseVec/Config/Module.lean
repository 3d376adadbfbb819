import LeaseVec.Files.Tree
import LeaseVec.Json.Reader
import LeaseVec.Text.Utf8

/-!
# Configuration modules

A configuration module is a program, but most are plain data: one value that is exported as the
default or as the whole module, or is not exported at all. `Module.ofText` reads those; every other
text is malformed.
-/

namespace LeaseVec

/-- What running a module gives. -/
inductive Module where
  /-- A module with exports, one of which may be the default. A default may be without a value. -/
  | exports (default : Option (Option Json)) (named : List (Text × Json))
  /-- A module that is one value. -/
  | whole (value : Json)
  /-- A module that fails with an error. -/
  | throws (message : Text)
  /-- A module that fails with a value that is no error. -/
  | throwsValue (value : Json)
  /-- A text that is no module. -/
  | malformed

namespace Module

/-- The text after words that blanks may separate. -/
def after? : List String → Text → Option Text
  | [], t => some t
  | w :: rest, t => (Json.word? (Text.ofString w) (Json.skipBlanks t)).bind (after? rest)

/-- The one value in a text, which a semicolon may end. -/
def onlyValue? (t : Text) : Option Json :=
  match Json.value? (2 * t.length + 2) (Json.skipBlanks t) with
  | some (v, rest) =>
    if (Json.skipBlanks rest).isEmpty ∨ after? [";"] rest = some [] then some v else none
  | none => none

/-- Whether a value may stand in a module by itself. Braces would be a block, which holds no members. -/
def standsAlone : Json → Bool
  | .object members => members.isEmpty
  | _ => true

/-- What a module with a given text gives. A blank one exports nothing, and neither does a value that
stands by itself. -/
def ofText (t : Text) : Module :=
  let t := (t.reverse.dropWhile Json.isBlank).reverse
  if t.isEmpty then .exports none []
  else
    match (after? ["export", "default"] t).bind onlyValue? with
    | some v => .exports (some (some v)) []
    | none =>
      match (after? ["module.exports", "="] t).bind onlyValue? with
      | some v => .whole v
      | none => if (onlyValue? t).any standsAlone then .exports none [] else .malformed

end Module

end LeaseVec
