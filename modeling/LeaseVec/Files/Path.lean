import LeaseVec.Text.Basic

/-!
# Paths

Slash-separated path texts. Normalising drops empty and `.` segments and lets `..` take back the
segment before it; a normalised path keeps one slash at its end, a resolved one does not.
-/

namespace LeaseVec.Path

def slash : UInt16 := 0x2f

def dot : UInt16 := 0x2e

/-- The segments between slashes. -/
def split : Text → List Text
  | [] => [[]]
  | u :: rest =>
    match split rest with
    | [] => [[u]]
    | segment :: more => if u = slash then [] :: segment :: more else (u :: segment) :: more

/-- Segments with slashes between them. -/
def unsplit (segments : List Text) : Text := Text.join [slash] segments

def isAbsolute (p : Text) : Bool := p.head? = some slash

def endsInSlash (p : Text) : Bool := p.getLast? = some slash

/-- The segments that say something, as the file system walks them. -/
def names (p : Text) : List Text := (split p).filter (· ≠ [])

/-- Whether the last thing a path says is a name, so neither the root nor a step in place or upwards. -/
def endsInName (p : Text) : Bool :=
  match (names p).getLast? with
  | none => false
  | some last => last ≠ [dot] ∧ last ≠ [dot, dot]

/-- Take one segment into a list of segments kept in reverse. Above the root there is only the root;
above a relative start `..` stays. -/
def stepSegment (absolute : Bool) (kept : List Text) (segment : Text) : List Text :=
  if segment = [] ∨ segment = [dot] then kept
  else if segment = [dot, dot] then
    match kept with
    | [] => if absolute then [] else [segment]
    | last :: before => if last = [dot, dot] then segment :: kept else before
  else segment :: kept

/-- The segments of a path after normalising. -/
def segments (p : Text) : List Text :=
  ((split p).foldl (stepSegment (isAbsolute p)) []).reverse

/-- The normalised path; the empty path is `.`. -/
def normalize (p : Text) : Text :=
  let body := unsplit (segments p)
  let ending := if endsInSlash p then [slash] else []
  if isAbsolute p then slash :: body ++ (if body = [] then [] else ending)
  else if body = [] then dot :: ending
  else body ++ ending

/-- Two paths one after the other, normalised; empty ones are left out. -/
def join (a b : Text) : Text :=
  if a = [] ∧ b = [] then [dot]
  else if a = [] then normalize b
  else if b = [] then normalize a
  else normalize (a ++ slash :: b)

/-- The absolute path that a path means in a working directory. -/
def resolve (cwd p : Text) : Text :=
  let full := if isAbsolute p then p else cwd ++ slash :: p
  slash :: unsplit (segments full)

/-- A path without the slashes at its end, in reverse. -/
def trimmed (p : Text) : Text := p.reverse.dropWhile (· = slash)

/-- The last segment. -/
def basename (p : Text) : Text := ((trimmed p).takeWhile (· ≠ slash)).reverse

/-- The path without its last segment. -/
def dirname (p : Text) : Text :=
  if p = [] then [dot]
  else
    let before := (trimmed p).dropWhile (· ≠ slash)
    match before with
    | [] => if isAbsolute p then [slash] else [dot]
    | _ :: rest =>
      if rest = [] then [slash]
      else if rest = [slash] then [slash, slash]
      else rest.reverse

/-- The extension: from the last dot of the last segment, unless nothing stands before that dot. -/
def extname (p : Text) : Text :=
  let name := basename p
  let back := name.reverse
  let after := back.takeWhile (· ≠ dot)
  if after.length = name.length then []
  else if after.length + 1 = name.length then []
  else if name = [dot, dot] then []
  else dot :: after.reverse

/-- The path of `p` as seen from a directory, both absolute. -/
def relative (dir p : Text) : Text :=
  let rec common : List Text → List Text → List Text × List Text
    | a :: as, b :: bs => if a = b then common as bs else (a :: as, b :: bs)
    | as, bs => (as, bs)
  let (up, down) := common (segments dir) (segments p)
  unsplit (up.map (fun _ => [dot, dot]) ++ down)

end LeaseVec.Path
