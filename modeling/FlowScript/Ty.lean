/-!
# Types

The types of the language, their text, and how values flow between them.  Struct and trait types
are nominal, function types match positionally, and a nilable type wraps a type that is neither nil
nor nilable.

Main statements: equality of types is decidable (`Ty.beq_iff_eq`), and making a type nilable twice
changes nothing (`Ty.orNil_orNil`).
-/

namespace FlowScript

/-- A type of the language. -/
inductive Ty where
  | int
  | float
  | bool
  | string
  /-- The type of `nil` alone. -/
  | nil
  /-- A type that is not determined yet. -/
  | unknown
  /-- The type of a host parameter that takes every value. -/
  | any
  /-- The type of an expression that has a problem already; it fits everywhere, so that one mistake
  is reported once. -/
  | error
  | struct (name : String)
  | trait (name : String)
  | function (params : List Ty) (result : Ty)
  /-- A value of the inner type or `nil`. -/
  | nilable (inner : Ty)
  deriving Repr, Inhabited

namespace Ty

/-! ## Equality -/

mutual

/-- Whether two types are the same. -/
def beq : Ty → Ty → Bool
  | .int, .int => true
  | .float, .float => true
  | .bool, .bool => true
  | .string, .string => true
  | .nil, .nil => true
  | .unknown, .unknown => true
  | .any, .any => true
  | .error, .error => true
  | .struct a, .struct b => a = b
  | .trait a, .trait b => a = b
  | .function ps r, .function qs s => beqList ps qs && beq r s
  | .nilable a, .nilable b => beq a b
  | _, _ => false

/-- Whether two lists of types are the same. -/
def beqList : List Ty → List Ty → Bool
  | [], [] => true
  | a :: as, b :: bs => beq a b && beqList as bs
  | _, _ => false

end

mutual

theorem eq_of_beq : ∀ {a b : Ty}, beq a b = true → a = b
  | a, b, h => by
    cases a <;> cases b <;> simp only [beq, Bool.and_eq_true, decide_eq_true_eq] at h <;>
      first
        | rfl
        | exact absurd h Bool.false_ne_true
        | exact congrArg _ h
        | exact congrArg _ (eq_of_beq h)
        | exact congr (congrArg _ (eq_of_beqList h.1)) (eq_of_beq h.2)

theorem eq_of_beqList : ∀ {as bs : List Ty}, beqList as bs = true → as = bs
  | [], [], _ => rfl
  | a :: as, b :: bs, h => by
    simp only [beqList, Bool.and_eq_true] at h
    rw [eq_of_beq h.1, eq_of_beqList h.2]

end

mutual

theorem beq_self : ∀ a : Ty, beq a a = true
  | .int | .float | .bool | .string | .nil | .unknown | .any | .error => by simp [beq]
  | .struct _ | .trait _ => by simp [beq]
  | .function ps r => by simp [beq, beqList_self ps, beq_self r]
  | .nilable a => by simp [beq, beq_self a]

theorem beqList_self : ∀ as : List Ty, beqList as as = true
  | [] => by simp [beqList]
  | a :: as => by simp [beqList, beq_self a, beqList_self as]

end

theorem beq_iff_eq {a b : Ty} : beq a b = true ↔ a = b :=
  ⟨eq_of_beq, fun h => h ▸ beq_self a⟩

instance : DecidableEq Ty := fun _ _ => decidable_of_iff _ beq_iff_eq

/-! ## Text -/

mutual

/-- The text of a type in messages. -/
def text : Ty → String
  | .int => "Int"
  | .float => "Float"
  | .bool => "Bool"
  | .string => "String"
  | .nil => "Nil"
  | .unknown => "Unknown"
  | .any => "Any"
  | .error => "<error>"
  | .struct name => name
  | .trait name => name
  | .function params result => "fn(" ++ textList params ++ ") -> " ++ text result
  | .nilable (.function params result) =>
    "(fn(" ++ textList params ++ ") -> " ++ text result ++ ")?"
  | .nilable inner => text inner ++ "?"

/-- The texts of a list of types, with commas between them. -/
def textList : List Ty → String
  | [] => ""
  | [ty] => text ty
  | ty :: rest => text ty ++ ", " ++ textList rest

end

instance : ToString Ty := ⟨text⟩

/-! ## Classes of types -/

/-- Whether arithmetic applies to a type. -/
def isNumeric : Ty → Bool
  | .int | .float => true
  | _ => false

/-- Whether `nil` belongs to a type by itself: `nil`'s own type, and nilable types. -/
def isNilable : Ty → Bool
  | .nil | .nilable _ => true
  | _ => false

/-- Whether a type stands for a reported problem. -/
def isError : Ty → Bool
  | .error => true
  | _ => false

/-- Whether a type is not determined yet. -/
def isUnknown : Ty → Bool
  | .unknown => true
  | _ => false

/-- A type without `nil`: the inner type of a nilable one, and every other type itself. -/
def inner : Ty → Ty
  | .nilable ty => ty
  | ty => ty

/-- The component types: the parameters of a function type, the inner type of a nilable one. -/
def params : Ty → List Ty
  | .function params _ => params
  | .nilable ty => [ty]
  | _ => []

/-- A type with `nil` added. -/
def orNil : Ty → Ty
  | .nil => .nil
  | .nilable ty => .nilable ty
  | .error => .error
  | ty => .nilable ty

/-- Adding `nil` twice adds it once. -/
@[simp] theorem orNil_orNil (ty : Ty) : ty.orNil.orNil = ty.orNil := by
  cases ty <;> rfl

/-- The type of arithmetic on two numeric types: a whole number is widened next to a double. -/
def joinNumeric (left right : Ty) : Ty :=
  if left = .float ∨ right = .float then .float else .int

/-! ## Names of the builtin types -/

/-- The type that a builtin type name denotes. -/
def primitive? : String → Option Ty
  | "int" => some .int
  | "float" => some .float
  | "bool" => some .bool
  | "str" => some .string
  | "nil" => some .nil
  | _ => none

/-- The builtin type name that a common misspelling stands for. -/
def spellingHint? : String → Option String
  | "Int" => some "int"
  | "Float" => some "float"
  | "Bool" => some "bool"
  | "String" => some "str"
  | "string" => some "str"
  | "Str" => some "str"
  | "Nil" => some "nil"
  | "null" => some "nil"
  | "integer" => some "int"
  | "double" => some "float"
  | _ => none

/-! ## Flow between types -/

/-- How a value of one type becomes one of another: as it is, or with its whole number part
widened to a double. -/
inductive Coercion where
  | exact
  | widening
  deriving DecidableEq, Repr

/-- How a value of type `source` flows into a place of type `target`, if it does.
`conforms struct trait` tells whether a struct declares a trait. -/
def coerce? (conforms : String → String → Bool) (source : Ty) : (target : Ty) → Option Coercion
  | .nilable inner =>
    if source.isError ∨ source = .nilable inner ∨ source = .nil then some .exact
    else coerce? conforms source.inner inner
  | target =>
    if source.isError ∨ target.isError ∨ target = .any ∨ source = target then some .exact
    else
      match source, target with
      | .int, .float => some .widening
      | .struct name, .trait traitName => if conforms name traitName then some .exact else none
      | _, _ => none

/-- Whether a method that returns `found` may stand for one declared to return `expected`. -/
def satisfies (conforms : String → String → Bool) (found : Ty) : (expected : Ty) → Bool
  | .nilable inner =>
    if found.isError ∨ found = .nilable inner ∨ found = .nil then true
    else satisfies conforms found.inner inner
  | expected =>
    if found = expected ∨ found.isError ∨ expected.isError then true
    else
      match found, expected with
      | .struct name, .trait traitName => conforms name traitName
      | _, _ => false

end Ty

end FlowScript
