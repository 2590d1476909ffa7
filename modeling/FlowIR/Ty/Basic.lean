import FlowIR.Attribute

/-!
# Linked types

The types of a module are numbered, and refer to their components by number. A recursive type is a
cycle of such references.
-/
namespace FlowIR

abbrev TypeId := Nat

inductive Ty where
  | void
  | label
  | metadata
  | integer (width : UInt32)
  | float (kind : FloatKind)
  | pointer (pointee : TypeId) (addrSpace : UInt32)
  | array (len : UInt64) (elem : TypeId)
  | vector (len : UInt64) (elem : TypeId)
  | function (ret : TypeId) (params : List TypeId) (vararg : Bool)
  | struct (fields : List TypeId) (packed : Bool)
  | named (name : String) (inner : TypeId)
  | opaqueType (name : String)
  deriving DecidableEq, Repr, Inhabited

namespace Ty

/-- The name of a type number in texts. -/
def idText (id : TypeId) : String := s!"t{id}"

def idTexts (ids : List TypeId) : List String := ids.map idText

def braces (text : String) : String := "\x7b" ++ text ++ "\x7d"

def commaSeparated (texts : List String) : String := ", ".intercalate texts

/-- The text of a type. Components are only named. -/
def text : Ty → String
  | void => "void"
  | label => "label"
  | metadata => "metadata"
  | integer width => s!"i{width}"
  | float kind => kind.name.toLower
  | pointer pointee _ => idText pointee ++ "*"
  | array len elem => s!"[{len} x " ++ idText elem ++ "]"
  | vector len elem => s!"<{len} x " ++ idText elem ++ ">"
  | function ret params vararg =>
    let parts := idTexts params ++ if vararg then ["..."] else []
    idText ret ++ " (" ++ commaSeparated parts ++ ")"
  | struct fields packed =>
    let body := braces (commaSeparated (idTexts fields))
    if packed then "<" ++ body ++ ">" else body
  | named name _ => "%" ++ name
  | opaqueType name => "%" ++ name

/-- The components by which types are compared. A type with a name is compared by its name alone. -/
def components : Ty → List TypeId
  | pointer pointee _ => [pointee]
  | array _ elem => [elem]
  | vector _ elem => [elem]
  | function ret params _ => ret :: params
  | struct fields _ => fields
  | _ => []

/-- What is left of a type when its components are forgotten. -/
def skeleton : Ty → Ty
  | pointer _ addrSpace => pointer 0 addrSpace
  | array len _ => array len 0
  | vector len _ => vector len 0
  | function _ _ vararg => function 0 [] vararg
  | struct _ packed => struct [] packed
  | named name _ => named name 0
  | ty => ty

/-- The outermost layers of two types agree. -/
def sameShape (s t : Ty) : Bool :=
  s.skeleton = t.skeleton && s.components.length = t.components.length

end Ty

end FlowIR
