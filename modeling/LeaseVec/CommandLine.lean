import LeaseVec.Survey
import LeaseVec.Pack.Basic
import LeaseVec.Screen.Table

/-!
# The command line

The commands work on a host and answer with an exit code, the text for each output stream, and the
file tree that they leave behind.
-/

namespace LeaseVec

open Number

namespace CommandLine

/-- What a run leaves. A view that was drawn is given as a node. -/
structure Outcome where
  code : Nat
  out : Text
  err : Text
  view : Option Screen.Node
  tree : Tree

def usage : String :=
  "\nUsage: cowvec <command> [options]\n\nCommands:\n" ++
  "  inspect <file>              Show the fields of a bundle and how they attach\n" ++
  "  pack <input.json> <out>     Build a bundle from a JSON description\n" ++
  "  validate-config [path]      Check a " ++ ConfigFile.patterns ++ " file\n\nOptions:\n" ++
  "  --config, -c <path>   Path to executable config\n" ++
  "  --help, -h            Show this help\n"

def newline : Text := [0x0a]

def isConfigFlag (a : Text) : Bool := a = Text.ofString "--config" || a = Text.ofString "-c"

/-- Whether help is asked for, or nothing at all. -/
def wantsHelp (args : List Text) : Bool :=
  args.isEmpty || args.contains (Text.ofString "--help") || args.contains (Text.ofString "-h") ||
    args.head? = some (Text.ofString "help")

/-- The argument after the first configuration flag: none without a flag, an empty one when it is
missing. -/
def configValue : List Text → Option Text
  | [] => none
  | a :: rest => if isConfigFlag a then some (rest.head?.getD []) else configValue rest

/-- The arguments that are neither flags nor directly behind a configuration flag. -/
def positional : Bool → List Text → List Text
  | _, [] => []
  | afterFlag, a :: rest =>
    let isFlag := a.head? = some 0x2d
    if isFlag || afterFlag then positional (isConfigFlag a) rest
    else a :: positional (isConfigFlag a) rest

def success (h : Host) (out : Text) : Outcome := ⟨0, out ++ newline, [], none, h.tree⟩

def failure (h : Host) (err : Text) : Outcome := ⟨1, [], err ++ newline, none, h.tree⟩

/-- Inspect a bundle; the lines of the log go to the output. -/
def inspect (h : Host) (file config : Option Text) : Outcome :=
  match file with
  | none | some [] => failure h (ConfigFile.reportText .missingBundlePath)
  | some file =>
    match Survey.ofFile h file config with
    | .error e => failure h (ConfigFile.reportText e)
    | .ok i =>
      let lines := i.log.flatMap fun t => t ++ newline
      ⟨0, lines, [], some (Screen.bundleView i.file (Binary64.ofNat i.bytes) i.rows), h.tree⟩

/-- Pack one file into another. -/
def pack (h : Host) (input output : Option Text) : Outcome :=
  let input := input.getD []
  let output := output.getD []
  if input.isEmpty || output.isEmpty then failure h (ConfigFile.reportText .missingPackPaths)
  else
    let action : Action (Nat × Nat) := do
      let store ← World.newDisk ⟨h.cwd, h.tree⟩
      Pack.run store input output
    let treeOf := fun w : World =>
      match w.store 0 with
      | .disk d => d.tree
      | .memory _ => h.tree
    match action World.empty with
    | .ok (fields, bytes) w =>
      success { h with tree := treeOf w }
        (Text.ofString s!"Packed {fields} fields into " ++ output ++
          Text.ofString s!" ({bytes} bytes)")
    | .error e w => failure { h with tree := treeOf w } (ConfigFile.reportText e)

/-- Check a configuration file. -/
def validate (h : Host) (file : Option Text) : Outcome :=
  let shown := file.getD (Text.ofString ConfigFile.patterns)
  match ConfigFile.validate h file with
  | .error e => failure h (ConfigFile.reportText e)
  | .ok (.ok _) => success h (Text.ofString "Config OK: " ++ shown)
  | .ok (.error message) =>
    failure h (Text.ofString "Invalid config at " ++ shown ++ Text.ofString ":\n- " ++ message)

/-- Run the command line. -/
def run (h : Host) (args : List Text) : Outcome :=
  match configValue args with
  | some [] => failure h (Text.ofString "Missing value for --config")
  | given =>
    let config := given.map (Path.resolve h.cwd)
    if wantsHelp args then success h (Text.ofString usage)
    else
      let words := positional false args
      let command := words.head?
      let rest := words.drop 1
      if command = some (Text.ofString "inspect") then inspect h rest.head? config
      else if command = some (Text.ofString "pack") then pack h rest.head? (rest.drop 1).head?
      else if command = some (Text.ofString "validate-config") then
        validate h (rest.head?.or config)
      else
        let name := command.getD (Text.ofString "undefined")
        { success h (Text.ofString usage) with
          code := 1
          err := Text.ofString "Unknown command: " ++ name ++ newline }

end CommandLine

end LeaseVec
