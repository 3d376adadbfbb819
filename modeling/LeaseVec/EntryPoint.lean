import LeaseVec.Text.Basic

/-!
# Entry points

The entry points that the published package is built from, each with the file it starts at and the
dependencies that are left outside.
-/

namespace LeaseVec

structure EntryPoint where
  name : String
  path : String
  description : String
  external : Option (List String)

namespace EntryPoint

def all : List EntryPoint := [
  ⟨"index", "src/index.ts", "Main library entry point", none⟩,
  ⟨"cli/index", "src/cli/main.tsx", "Command line interface", some ["ink", "react"]⟩,
  ⟨"storage/node", "src/storage/node.ts", "Node.js file system storage", none⟩,
  ⟨"storage/memory", "src/storage/memory.ts", "In-memory storage (works everywhere)", none⟩,
  ⟨"storage/types", "src/storage/types.ts", "Storage type definitions", none⟩,
  ⟨"config/index", "src/config/index.ts", "Config API surface and helpers", none⟩]

/-- The pattern of the built-in modules, which are always outside. -/
def builtinPattern : String := "/node:.+/"

/-- Everything that is left outside, each once and in the order of the entry points. -/
def externals : List String :=
  (all.flatMap fun e => e.external.getD []).foldl
    (fun seen e => if seen.contains e then seen else seen ++ [e]) [builtinPattern]

/-- The file of every entry point. -/
def files : List (String × String) := all.map fun e => (e.name, e.path)

end EntryPoint

end LeaseVec
