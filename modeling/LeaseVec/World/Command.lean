import LeaseVec.World.Array
import LeaseVec.World.File

/-!
# Commands

Everything that can be asked of a world, as data. A command answers with a reply or fails, and what it
did before it failed stays done. A history is a list of commands that are carried out one after the
other, each in the world that the one before it left.
-/

namespace LeaseVec

open Number

/-- What can be asked of one vector. -/
inductive VecCommand where
  | attach (view : View) (region : Nat)
  | item (index : Binary64)
  | unchecked (index : Binary64)
  | front
  | back
  | toList
  | share
  | isView (view : View)
  | writable
  | set (index : Binary64) (value : Scalar)
  | push (value : Scalar)
  | pop
  | resize (length : Binary64) (fill : Option Scalar)
  | swap (array : Nat)
  | clear
  | iterate

/-- What can be asked of one growable array. -/
inductive ArrayCommand where
  | reserve (extra : Binary64)
  | push (value : Scalar)
  | pop
  | resize (length : Binary64) (fill : Scalar)
  | share
  | clear
  | release
  | swap (other : Nat)

/-- What can be asked of one reader. -/
inductive ReaderCommand where
  | u32
  | i32
  | u64
  | copy (n : Binary64)
  | borrow (n : Binary64)
  | align (n : Binary64)
  | field (vec : Nat) (stride : Binary64) (policy : ReadPolicy)
  | bundle (policy : Bundle.Policy)

/-- What can be asked of one writer. -/
inductive WriterCommand where
  | word32 (value : Binary64)
  | word64 (value : Scalar)
  | bytes (range : ByteRange)
  | align (n : Binary64)
  | field (vec : Nat) (stride : Binary64)
  | join

/-- What can be asked of one store. -/
inductive StoreCommand where
  | fetch (path : Text)
  | put (path : Text) (contents : ByteRange)
  | replace (path : Text) (contents : ByteRange)
  | replaceImposing (path : Text) (contents : ByteRange) (imposed : List (Option Fault))
  | discard (path : Text)
  | makeDir (full : Text)
  | lend (path : Text)
  | save (path : Text) (fields : List Bundle.Source)
  | openInPlace (path : Text) (policy : Bundle.Policy)

inductive Command where
  | alloc (contents : Bytes)
  | duplicate (range : ByteRange)
  | poke (range : ByteRange) (index : Binary64) (value : Scalar)
  | view (kind : Kind) (buffer : Nat) (offset : Binary64) (length : Option Binary64)
  | setElement (view : View) (index : Binary64) (value : Scalar)
  | lend (range : ByteRange) (label : Text)
  | lentBytes (region : Nat)
  | close (region : Nat)
  | newVec (kind : Kind) (checked : Bool)
  | vecOfList (kind : Kind) (values : List Scalar) (checked : Bool)
  | vecOfView (kind : Kind) (view : View) (checked : Bool)
  | vec (id : Nat) (command : VecCommand)
  | next (iteration : Nat)
  | newArray (kind : Kind) (length : Binary64) (fill : Option Scalar)
  | arrayOfList (kind : Kind) (values : List Scalar)
  | arrayOfView (kind : Kind) (view : View)
  | array (id : Nat) (command : ArrayCommand)
  | newReader (source : ByteRange)
  | newBorrower (region : Nat)
  | reader (id : Nat) (command : ReaderCommand)
  | newWriter
  | writer (id : Nat) (command : WriterCommand)
  | encode (fields : List Bundle.Source)
  | decodeCopy (source : ByteRange) (policy : Bundle.Policy)
  | newMemory (files : List (Text × ByteRange))
  | newDisk (disk : Disk)
  | store (id : Nat) (command : StoreCommand)

/-- What a command answers with. -/
inductive Reply where
  | done
  | made (id : Nat)
  | truth (value : Bool)
  | integer (value : Int)
  | element (kind : Kind) (value : Option Scalar)
  | elements (kind : Kind) (values : List Scalar)
  | view (view : View)
  | range (range : ByteRange)
  | lent (range : ByteRange) (region : Nat)
  | mode (mode : Mode)
  | fields (fields : List Bundle.Field)
  | opened (fields : List Bundle.Field) (region : Nat)
  | replaced (report : Disk.ReplaceReport)

open World

/-- Carry out a step that has no answer of its own. -/
def Action.done (action : Action Unit) : Action Reply := do
  action
  return .done

/-- Ask the world without changing it. -/
def Action.ask {α : Type} (question : World → Except Fault α) : Action α := do
  Action.ofExcept (question (← get))

def VecCommand.run (id : Nat) (c : VecCommand) : Action Reply := do
  let v := (← get).vec id
  match c with
  | attach view region => (World.attach id view region).done
  | item index => return .element v.kind (← Action.ask fun w => w.at? v index)
  | unchecked index => return .element v.kind (← Action.ask fun w => w.get? v index)
  | front => return .element v.kind (← Action.ask fun w => w.front? v)
  | back => return .element v.kind (← Action.ask fun w => w.back? v)
  | toList => return .elements v.kind (← Action.ask fun w => w.elements v)
  | share => return .view (← shareView id)
  | isView view => return .truth (← Action.ask fun w => w.isView v view)
  | writable => return .view (← writableView id)
  | set index value => (setAt id index value).done
  | push value => (World.push id value).done
  | pop => return .element v.kind (← World.pop id)
  | resize length fill => (World.resize id length fill).done
  | swap array => (swapWith id array).done
  | clear => (World.clear id).done
  | iterate => return .made (← World.iterate id)

def ArrayCommand.run (id : Nat) (c : ArrayCommand) : Action Reply := do
  match c with
  | reserve extra => return .truth (← World.reserve id extra)
  | push value => (pushArray id value).done
  | pop => return .element ((← get).array id).kind (← popArray id)
  | resize length fill => (resizeArray id length fill).done
  | share => return .view (← shareArray id)
  | clear => (clearArray id).done
  | release => (releaseArray id).done
  | swap other => (swapArrays id other).done

def ReaderCommand.run (id : Nat) (c : ReaderCommand) : Action Reply := do
  match c with
  | u32 => return .integer (← scan id Scan.u32)
  | i32 => return .integer (← scan id Scan.i32)
  | u64 => return .integer (← scan id Scan.u64)
  | copy n => return .range (← copyNext id n)
  | borrow n =>
    let (range, region) ← borrowNext id n
    return .lent range region
  | align n => (scan id (Scan.align n)).done
  | field vec stride policy => return .mode (← readField id vec stride policy)
  | bundle policy => return .fields (← Bundle.decode id policy)

def WriterCommand.run (id : Nat) (c : WriterCommand) : Action Reply := do
  match c with
  | word32 value => (changeWriter id fun _ x => .ok (x.push32 value)).done
  | word64 value => (changeWriter id fun _ x => value.whole.map x.push64).done
  | bytes range => (changeWriter id fun _ x => .ok (x.pushPart (.shared range))).done
  | align n => (changeWriter id fun w x => x.align w.memory.limit n).done
  | field vec stride => (changeWriter id fun w x => w.writeField (w.vec vec) stride x).done
  | join => return .range (← joined id)

def StoreCommand.run (id : Nat) (c : StoreCommand) : Action Reply := do
  match c with
  | fetch path => return .range (← World.fetch id path)
  | put path contents => (putFile id path contents).done
  | replace path contents => (replaceFile id path contents).done
  | replaceImposing path contents imposed =>
    return .replaced (← replaceFileImposing id path contents imposed)
  | discard path => (discardFile id path).done
  | makeDir full => (World.makeDir id full).done
  | lend path => return .made (← lendFile id path)
  | save path fields => return .integer (← storeBundle id path fields)
  | openInPlace path policy =>
    let (fields, region) ← World.openInPlace id path policy
    return .opened fields region

/-- Carry out a command. -/
def Command.run (c : Command) : Action Reply := do
  match c with
  | alloc contents => return .range (← World.alloc contents)
  | duplicate range => return .range (← World.alloc ((← get).bytes range))
  | poke range index value => (World.poke range index value).done
  | view kind buffer offset length => return .view (← World.view kind buffer offset length)
  | setElement v index value => (World.setElement v index value).done
  | lend range label => return .made (← World.lend range label)
  | lentBytes region => return .range (← Action.ask fun w => w.lentBytes region)
  | close region => (World.close region).done
  | newVec kind checked => return .made (← World.newVec kind checked)
  | vecOfList kind values checked => return .made (← World.vecOfList kind values checked)
  | vecOfView kind v checked => return .made (← World.vecOfView kind v checked)
  | vec id command => command.run id
  | next iteration =>
    let kind := (← get).iteratedKind iteration
    return .element kind (← World.next iteration)
  | newArray kind length fill => return .made (← World.newArray kind length fill)
  | arrayOfList kind values => return .made (← World.arrayOfList kind values)
  | arrayOfView kind v => return .made (← World.arrayOfView kind v)
  | array id command => command.run id
  | newReader source => return .made (← World.newReader source)
  | newBorrower region => return .made (← World.newBorrower region)
  | reader id command => command.run id
  | newWriter => return .made (← World.newWriter)
  | writer id command => command.run id
  | encode fields => return .range (← World.alloc (← Action.ask fun w => Bundle.encode w fields))
  | decodeCopy source policy => return .fields (← Bundle.decodeCopy source policy)
  | newMemory files => return .made (← World.newMemory files)
  | newDisk disk => return .made (← World.newDisk disk)
  | store id command => command.run id

namespace World

/-- The outcome of a command, and the world after it. -/
def perform (w : World) (c : Command) : Except Fault Reply × World :=
  match c.run w with
  | .ok reply w => (.ok reply, w)
  | .error e w => (.error e, w)

/-- The outcomes of a history, and the world after it. -/
def performAll (w : World) : List Command → List (Except Fault Reply) × World
  | [] => ([], w)
  | c :: rest =>
    let (outcome, w) := w.perform c
    let (outcomes, w) := w.performAll rest
    (outcome :: outcomes, w)

/-- The worlds that a history can reach from the empty one, on any host. -/
def Reachable (w : World) : Prop := ∃ limit history, ((empty limit).performAll history).2 = w

end World

end LeaseVec
