import LeaseVec.Scalar.Basic
import LeaseVec.Json.Writer

/-!
# Faults

Everything that can go wrong, as causes. The wording of a cause is in `Fault.message?`; causes that
come from the host (an allocation that is refused, a view that does not fit its buffer, a scalar of the
wrong sort, an operating system error) have no wording of their own.
-/

namespace LeaseVec

open Number

/-- What is wrong with a field descriptor of a bundle. -/
inductive FieldFlaw where
  | unknownCode (code : Nat)
  | zeroStride
  deriving DecidableEq

/-- Where a description of fields departs from its rules. Positions count from zero. -/
inductive DocumentFault where
  | noFields
  | notObject (field : Nat)
  | noName (field : Nat)
  | noKind (field : Nat)
  | badStride (field : Nat)
  | noValues (field : Nat)
  | unevenGroups (field count : Nat) (stride : Binary64)
  | notInteger (field index : Nat) (got : Json)
  | notNumber (field index : Nat) (got : Json)
  | outOfRange (field index : Nat) (value : Int) (kind : Kind)
  | notFinite (field index : Nat) (value : Binary64) (kind : Kind)
  | notInRange (field index : Nat) (value : Binary64) (kind : Kind)
  | duplicateName (name : Text)

/-- Where a configuration departs from its rules. -/
inductive ConfigFault where
  | notObject
  | notBoolean (place : String)
  | attachNotObject
  | badBound

/-- Why a file is refused as a configuration module. -/
inductive ModuleFault where
  | unknownExtension (extension path : Text)
  /-- A file of plain data, which is no module. -/
  | dataFile (path : Text)
  /-- A text that is no module of the form that the extension asks for. -/
  | malformed
  /-- One value for the whole module, in a file whose extension asks for exports. -/
  | notExports
  deriving DecidableEq

/-- What the file system can answer instead of doing what it is asked. -/
inductive SystemError where
  | noEntry
  | notDirectory
  | isDirectory
  | alreadyThere
  /-- A directory where only a file may be removed. -/
  | notRemovable
  | nameTooLong
  /-- A path that no file can have. -/
  | invalidPath
  | other (code : Text)
  deriving DecidableEq

inductive Fault where
  | alreadyOwned
  | outOfRange (index : Binary64) (size : Nat)
  | countTooLarge (count limit : Int)
  | inputEnds (requested : Binary64) (remaining : Nat)
  | borrowEnded (label : Text)
  | kindsDiffer (want got : Kind)
  | headerTooShort (got : Nat)
  | wrongMagic
  | unknownVersion (version : Nat)
  | badField (name : Text) (flaw : FieldFlaw)
  | invalidLength (got : Binary64)
  | invalidSize (got : Binary64)
  | invalidStride (got : Binary64)
  | invalidReadLength (got : Binary64)
  | unevenStride (size : Nat) (stride : Binary64)
  | allocationRefused
  | viewRefused
  /-- A number for elements that are exact integers, or an exact integer for elements that are numbers. -/
  | sortRefused
  /-- More bytes than the host makes a text of. -/
  | textTooLong
  | notWhole
  | repeatRefused
  | duplicateCode (code : Binary64) (later earlier : Text)
  | unsupportedCode (code : Binary64)
  | fileNotFound (path : Text)
  | system (error : SystemError)
  | injected
  | notJson
  | document (fault : DocumentFault)
  | config (fault : ConfigFault)
  | configNotFound (looked : Text)
  | configThrew (message : Text)
  | configThrewValue (value : Json)
  | configRefused (fault : ModuleFault)
  /-- A text is wanted of a value that has none. -/
  | valueWithoutText
  | configNotLoadable (file cause : Text)
  | missingBundlePath
  | missingPackPaths

namespace DocumentFault

def place (field : Nat) : Text := Text.ofString s!"fields[{field}]"

def valuePlace (field index : Nat) : Text := Text.ofString s!"fields[{field}].values[{index}]"

def message : DocumentFault → Text
  | noFields => Text.ofString "input must be an object with a 'fields' array"
  | notObject i => place i ++ Text.ofString " must be an object"
  | noName i => place i ++ Text.ofString ".name must be a non-empty string"
  | noKind i => place i ++
      Text.ofString ".kind must be one of u8, i8, u16, i16, u32, i32, f32, f64, i64, u64"
  | badStride i => place i ++ Text.ofString ".stride must be a positive integer"
  | noValues i => place i ++ Text.ofString ".values must be an array"
  | unevenGroups i count stride =>
    place i ++ Text.ofString s!": {count} values do not divide into groups of {stride.render}"
  | notInteger i j got =>
    valuePlace i j ++ Text.ofString ": expected an integer or decimal string, got " ++ got.render
  | notNumber i j got => valuePlace i j ++ Text.ofString ": expected a number, got " ++ got.render
  | outOfRange i j value kind =>
    valuePlace i j ++ Text.ofString s!": {value} is out of range for {kind.name}"
  | notFinite i j value kind =>
    valuePlace i j ++ Text.ofString s!": {value.render} is not a finite {kind.name}"
  | notInRange i j value kind =>
    let low := kind.range.1
    let high := kind.range.2
    valuePlace i j ++
      Text.ofString s!": {value.render} is not an integer in [{low}, {high}] for {kind.name}"
  | duplicateName name =>
    Text.ofString "duplicate field name '" ++ name ++ Text.ofString "'"

end DocumentFault

namespace ConfigFault

def message : ConfigFault → Text
  | notObject => Text.ofString "config must be an object (JS/TS module export)"
  | notBoolean place => Text.ofString s!"{place} must be a boolean"
  | attachNotObject => Text.ofString "config.attach must be an object"
  | badBound => Text.ofString "config.attach.maxCount must be an integer in [1, 2^40]"

end ConfigFault

namespace ModuleFault

/-- The text of a refusal in a message about it. -/
def text : ModuleFault → Text
  | unknownExtension extension path =>
    Text.ofString "Unknown file extension \"" ++ extension ++ Text.ofString "\" for " ++ path
  | dataFile path =>
    Text.ofString "Module \"file://" ++ path ++
      Text.ofString "\" needs an import attribute of \"type: json\""
  | malformed => Text.ofString "Unexpected token 'export'"
  | notExports => Text.ofString "module is not defined in ES module scope"

end ModuleFault

namespace FieldFlaw

def message : FieldFlaw → Text
  | unknownCode code => Text.ofString s!"unknown element code {code}"
  | zeroStride => Text.ofString "stride is 0"

end FieldFlaw

/-- The code of a file system error. -/
def SystemError.code : SystemError → Text
  | noEntry => Text.ofString "ENOENT"
  | notDirectory => Text.ofString "ENOTDIR"
  | isDirectory => Text.ofString "EISDIR"
  | alreadyThere => Text.ofString "EEXIST"
  | notRemovable => Text.ofString "ERR_FS_EISDIR"
  | nameTooLong => Text.ofString "ENAMETOOLONG"
  | invalidPath => Text.ofString "ERR_INVALID_ARG_VALUE"
  | other code => code

namespace Fault

/-- The wording of a fault, where it has one. -/
def message? : Fault → Option Text
  | alreadyOwned =>
    some (Text.ofString "cannot attach a foreign view: vector already owns its storage")
  | outOfRange index size =>
    some (Text.ofString s!"index {index.render} out of range for length {size}")
  | countTooLarge count limit =>
    some (Text.ofString s!"corrupt length prefix: count {count} is not below {limit}")
  | inputEnds requested remaining =>
    some (Text.ofString
      s!"truncated input: need {requested.render} bytes, {remaining} remaining")
  | borrowEnded label =>
    some (Text.ofString "region '" ++ label ++
      Text.ofString "' is closed; borrowed view is no longer valid")
  | kindsDiffer want got =>
    some (Text.ofString s!"element type mismatch: want {want.name}, got {got.name}")
  | headerTooShort got => some (Text.ofString s!"bundle too short: {got} bytes")
  | wrongMagic => some (Text.ofString "bad bundle magic")
  | unknownVersion version => some (Text.ofString s!"unsupported bundle version {version}")
  | badField name flaw =>
    some (Text.ofString "corrupt bundle field '" ++ name ++ Text.ofString "': " ++ flaw.message)
  | invalidLength got | invalidSize got =>
    some (Text.ofString s!"length must be a non-negative integer, got {got.render}")
  | invalidStride got =>
    some (Text.ofString s!"stride must be a positive integer, got {got.render}")
  | invalidReadLength got => some (Text.ofString s!"invalid read length {got.render}")
  | unevenStride size stride =>
    some (Text.ofString s!"vector length {size} is not a multiple of stride {stride.render}")
  | allocationRefused | viewRefused | sortRefused | textTooLong | notWhole | repeatRefused | system _
  | notJson => none
  | duplicateCode code later earlier =>
    some (Text.ofString s!"duplicate code {code.render} for " ++ later ++ Text.ofString " and " ++
      earlier)
  | unsupportedCode code => some (Text.ofString s!"unsupported code {code.render}")
  | fileNotFound path => some (Text.ofString "file not found: " ++ path)
  | injected => some (Text.ofString "injected")
  | document fault => some fault.message
  | config fault => some fault.message
  | configNotFound looked =>
    some (Text.ofString "Config not found. Looked for " ++ looked ++
      Text.ofString " with extensions .mjs, .mts, .ts, .cjs, .js")
  | configThrew message => some message
  | configThrewValue _ | configRefused _ | valueWithoutText => none
  | configNotLoadable file cause =>
    some (Text.ofString "Failed to load TypeScript config '" ++ file ++
      Text.ofString "'. Run under a TS-aware loader (e.g. tsx) or pre-compile to .mjs/.js. " ++
      Text.ofString "Original: " ++ cause)
  | missingBundlePath => some (Text.ofString "inspect needs a bundle path")
  | missingPackPaths => some (Text.ofString "pack needs <input.json> <out>")

end Fault

end LeaseVec
