import LeaseVec.Files.Disk
import LeaseVec.Memory.Basic

/-!
# Stores

A store reads and writes whole files by path: it is a disk, or it is a map in memory. A memory store keeps
byte ranges under the path texts as they are. Which bytes these are, and who else has them, is seen in the
memory that they lie in.
-/

namespace LeaseVec

inductive Store where
  | memory (files : List (Text × ByteRange))
  | disk (disk : Disk)
  deriving DecidableEq

instance : Inhabited Store := ⟨.memory []⟩

namespace Store

/-- The file of a path in a memory store. -/
def find? (files : List (Text × ByteRange)) (path : Text) : Option ByteRange :=
  (files.find? fun f => f.1 = path).map (·.2)

def without (files : List (Text × ByteRange)) (path : Text) : List (Text × ByteRange) :=
  files.filter fun f => f.1 ≠ path

/-- Put a file in place of what a path had. -/
def keep (files : List (Text × ByteRange)) (path : Text) (r : ByteRange) : List (Text × ByteRange) :=
  (path, r) :: without files path

/-- The file that a path has to have. -/
def lookUp (files : List (Text × ByteRange)) (path : Text) : Except Fault ByteRange :=
  match find? files path with
  | some r => .ok r
  | none => .error (.fileNotFound path)

end Store

end LeaseVec
