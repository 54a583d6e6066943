import FrozenHeap.Live
import FrozenHeap.Region

namespace FrozenHeap

structure Nomination where
  className : String
  fieldName : String
  region : Region
  /-- The class and the offset that the names stand for. -/
  resolved : Option (ClassId × UInt32)
  canPreserve : Bool
  deriving DecidableEq, Repr, Inhabited

namespace Nomination

def of (className fieldName : String) (region : Region) : Nomination :=
  ⟨className, fieldName, region, none, true⟩

/-- The reference field that the names stand for, if there is one. -/
def field? (nomination : Nomination) (live : Live) : Option (ClassId × UInt32) := do
  let ofClass ← live.classNamed? nomination.className
  let loaded ← live.classes[ofClass.index]?
  let field ← loaded.shape.static? nomination.fieldName
  if field.isReference then return (ofClass, field.offset) else none

/-- Resolve the names, once. A nomination that cannot be resolved is given up. -/
def resolve (nomination : Nomination) (live : Live) : Nomination :=
  match nomination.resolved with
  | some _ => nomination
  | none =>
    match nomination.field? live with
    | some field => { nomination with resolved := some field }
    | none => { nomination with canPreserve := false }

/-- Resolved, and nothing was found against it. -/
def isPreservable (nomination : Nomination) : Bool :=
  nomination.canPreserve && nomination.resolved.isSome

end Nomination
end FrozenHeap
