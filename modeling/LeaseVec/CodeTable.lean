import LeaseVec.Fault

/-!
# Code tables

A table gives every name a code, and no two names the same one: codes are compared as keys, so the
two zeros are one code and NaN is a code like any other.
-/

namespace LeaseVec

open Number

structure CodeTable where
  entries : List (Text × Binary64)

namespace CodeTable

/-- The name of a code among entries. -/
def nameOf? (entries : List (Text × Binary64)) (code : Binary64) : Option Text :=
  (entries.find? fun e => e.2.sameKey code).map (·.1)

/-- Check entries one after the other against those before them. -/
def check (seen : List (Text × Binary64)) : List (Text × Binary64) → Except Fault CodeTable
  | [] => .ok ⟨seen⟩
  | (name, code) :: rest =>
    match nameOf? seen code with
    | some earlier => .error (.duplicateCode code name earlier)
    | none => check (seen ++ [(name, code)]) rest

/-- The table of names and codes. A name that is given twice keeps its place and takes the last code;
names that are array indices come first. -/
def ofList (entries : List (Text × Binary64)) : Except Fault CodeTable :=
  check [] (Json.collect entries)

def encode? (t : CodeTable) (name : Text) : Option Binary64 := Json.lookup? name t.entries

def decode (t : CodeTable) (code : Binary64) : Except Fault Text :=
  match nameOf? t.entries code with
  | some name => .ok name
  | none => .error (.unsupportedCode code)

end CodeTable

namespace Kind

/-- The kind that a code given as a double stands for. -/
def ofCode (code : Binary64) : Except Fault Kind :=
  match code.toNat?.bind ofCode? with
  | some kind => .ok kind
  | none => .error (.unsupportedCode code)

end Kind

end LeaseVec
