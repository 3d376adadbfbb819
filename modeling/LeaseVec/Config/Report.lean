import LeaseVec.Fault

/-!
# Reports of failures

The text that is shown for a failure to load a configuration. A module may fail with any value, and
some values have no text: then there is nothing to show, and asking for the text is a failure of its
own.
-/

namespace LeaseVec.ConfigFile

open Number

/-- The text of a value where a text is wanted: the items of an array with commas between them, and a
fixed word for an object. An object with a member `toString` has none, since the member stands where
the rule for its text would be. -/
def valueText? : Json → Option Text
  | .null => some (Text.ofString "null")
  | .bool true => some (Text.ofString "true")
  | .bool false => some (Text.ofString "false")
  | .number x => some (Text.ofString x.render)
  | .string t => some t
  | .array items => itemTexts? items
  | .object members =>
    if (Json.lookup? (Text.ofString "toString") members).isSome then none
    else some (Text.ofString "[object Object]")
where
  /-- The texts of items; a null has an empty one. -/
  itemTexts? : List Json → Option Text
    | [] => some []
    | [v] => itemText? v
    | v :: w :: rest =>
      match itemText? v, itemTexts? (w :: rest) with
      | some t, some more => some (t ++ 0x2c :: more)
      | _, _ => none
  itemText? : Json → Option Text
    | .null => some []
    | v => valueText? v

/-- The text of a failure in a message about it: the message of the value that a module fails with, or
the text of the value itself. -/
def failureText? : Fault → Option Text
  | .configThrewValue v =>
    match v.get? (Text.ofString "message") with
    | some message => valueText? message
    | none => valueText? v
  | .configRefused fault => some fault.text
  | e => some (e.message?.getD [])

/-- What is shown where a value has no text. -/
def noText : Text := Text.ofString "Cannot convert object to primitive value"

/-- The text that reports a fault, where it has one: its message, the code of a file system error, or
the text of a value that is no error. -/
def reportText? : Fault → Option Text
  | .configThrewValue v => valueText? v
  | .valueWithoutText => some noText
  | .system e => some e.code
  | .configRefused fault => some fault.text
  | e => some (e.message?.getD [])

/-- The text that reports a fault. -/
def reportText (e : Fault) : Text := (reportText? e).getD noText

end LeaseVec.ConfigFile
