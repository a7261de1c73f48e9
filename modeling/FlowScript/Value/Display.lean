import FlowScript.Value.Operation
/-!
# Values as text

How a value is shown.  A text is shown as it is, but quoted inside of a struct; a struct shows its
fields in order.  Structs that nest too deep, as one that contains itself does, cannot be shown, and
neither can whole numbers with too many digits.
-/

namespace FlowScript

namespace Value

/-- The inside of a quoted text: backslashes and quotes get a backslash in front. -/
def quotedChars : List Char → List Char
  | [] => []
  | c :: rest => if c = '\\' ∨ c = '"' then '\\' :: c :: quotedChars rest else c :: quotedChars rest

/-- A text in quotes. -/
def quoted (text : String) : String := "\"" ++ String.ofList (quotedChars text.toList) ++ "\""

/-- How deep structs may nest when they are shown. -/
def displayLevels : Nat := 2000

/-- Shows the fields of a struct, with `inner` for the values; texts are quoted. -/
def displayFields (inner : Value → Except Failure String) :
    List (String × Value) → Except Failure (List String)
  | [] => .ok []
  | (name, value) :: rest => do
    let text ← match value with
      | .string text => .ok (quoted text)
      | value => inner value
    return (name ++ ": " ++ text) :: (← displayFields inner rest)

/-- Shows a value; structs may nest `levels` deep. -/
def displayAt (heap : Heap) : (levels : Nat) → Value → Except Failure String
  | _, .nil => .ok "nil"
  | _, .bool value => .ok (if value then "true" else "false")
  | _, .int value =>
    match intText? value with
    | some text => .ok text
    | none => .error .digits
  | _, .float value => .ok (floatText value)
  | _, .string value => .ok value
  | 0, .instance _ => .error .nesting
  | levels + 1, .instance id => do
    let target := heap.instanceAt id
    let fields ← displayFields (displayAt heap levels) target.fields.entries
    return if fields.isEmpty then target.decl.name ++ " \x7b\x7d"
      else target.decl.name ++ " \x7b " ++ String.intercalate ", " fields ++ " \x7d"
  | _, .closure target => .ok ("<fn " ++ target.name ++ ">")
  | _, .method _ receiver target =>
    .ok ("<method " ++ (heap.instanceAt receiver).decl.name ++ "." ++ target.name ++ ">")
  | _, .constructor _ decl _ => .ok ("<struct " ++ decl.name ++ ">")
  | _, .host name => .ok ("<host fn " ++ name ++ ">")

/-- Shows a value. -/
def display (heap : Heap) (value : Value) : Except Failure String :=
  displayAt heap displayLevels value

/-! ## Type tests -/

/-- Whether a value is of a type. -/
def hasType (heap : Heap) (value : Value) : Ty → Bool
  | .nilable inner =>
    match value with
    | .nil => true
    | _ => value.hasType heap inner
  | .nil => match value with | .nil => true | _ => false
  | .bool => match value with | .bool _ => true | _ => false
  | .int => match value with | .int _ => true | _ => false
  | .float => match value with | .float _ => true | _ => false
  | .string => match value with | .string _ => true | _ => false
  | .struct name =>
    match value with
    | .instance id => (heap.instanceAt id).decl.name = name
    | _ => false
  | .trait name =>
    match value with
    | .instance id => (heap.instanceAt id).decl.traits.any fun ref => ref.name = name
    | _ => false
  | .function _ _ =>
    match value with
    | .closure _ | .method .. | .constructor .. | .host _ => true
    | _ => false
  | .any => true
  | .unknown | .error => false

end Value

end FlowScript
