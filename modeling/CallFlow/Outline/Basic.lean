import CallFlow.CallSite

/-! The outline of one source file: what it declares, in the order and nesting of
the text, before anything gets a number. -/

namespace CallFlow

structure Import where
  path : String
  /-- The name behind `as`. -/
  renamed : Option String
  /-- For `path.*`. -/
  wildcard : Bool
deriving Repr, DecidableEq, Inhabited

structure Property where
  name : String
  /-- The written type without type arguments; none if no class type is written. -/
  typeName : Option String
  fromConstructor : Bool
deriving Repr, DecidableEq, Inhabited

def Property.declaredType (p : Property) : String := p.typeName.getD "UNKNOWN"

namespace Outline

structure FunctionHead where
  name : String
  doc : Option Span
  span : Span
  line : Nat
  annotations : List String
  calls : List CallSite
deriving Repr, DecidableEq, Inhabited

structure ClassHead where
  name : String
  isObject : Bool
  doc : Option Span
  span : Span
deriving Repr, DecidableEq, Inhabited

/-- The members of a class are in the order of the text, parameters of its
constructor first. -/
inductive Decl where
  | property (p : Property)
  | function (head : FunctionHead)
  | classLike (head : ClassHead) (members : List Decl)
deriving Repr, Inhabited

def Decl.property? : Decl → Option Property
  | property p => some p
  | _ => none

end Outline

structure Outline where
  path : String
  source : String
  package : String
  imports : List Import
  decls : List Outline.Decl
deriving Repr, Inhabited

end CallFlow
