import FrozenHeap.Nomination
import FrozenHeap.Search

/-!
Screening. Before anything is archived, the graphs behind the nominated fields and classes are
searched for objects that may not leave their process: objects of a class with unfit traits, of an
excluded name, or of a class that was itself found not preservable.
-/
namespace FrozenHeap

inductive Verdict where
  | unchecked
  | preservable
  | notPreservable
  deriving DecidableEq, Repr, Inhabited

/-- What is known of classes and objects so far. -/
structure Screening where
  excluded : List String
  verdicts : Std.TreeMap ClassId Verdict
  /-- Objects whose whole graph passed. -/
  clean : Std.TreeSet ObjectId
  /-- Objects that failed themselves. -/
  tainted : Std.TreeSet ObjectId

namespace Screening

def start (excluded : List String) : Screening := ⟨excluded, ∅, ∅, ∅⟩

def verdict (screening : Screening) (ofClass : ClassId) : Verdict :=
  screening.verdicts[ofClass]?.getD .unchecked

/-- May an instance of this class be archived? -/
def admits (screening : Screening) (ofClass : ClassId) (shape : ClassShape) : Bool :=
  !shape.traits.unfit && !screening.excluded.contains shape.name &&
    screening.verdict ofClass != .notPreservable

/-- May an instance of this class of a heap be archived? -/
def admitsClass (screening : Screening) (live : Live) (ofClass : ClassId) : Run Bool := do
  return screening.admits ofClass (← live.shapeOf ofClass)

/-- How a search ended: with the objects that it visited, or at one that may not be archived. -/
inductive Finding where
  | passed (visited : Std.TreeSet ObjectId)
  | stopped (culprit : ObjectId)

/-- Search on from the objects of a stack, leaving out what is visited or known to be clean. -/
def explore (screening : Screening) (live : Live) (stack : List ObjectId)
    (visited : Std.TreeSet ObjectId) : Run Finding :=
  match stack with
  | [] => .ok (.passed visited)
  | object :: rest =>
    if screening.tainted.contains object then .ok (.stopped object)
    else if screening.clean.contains object then explore screening live rest visited
    else if fresh : visited.contains object = false then
      if inside : object.index < live.objects.size then
        if screening.admits live.objects[object.index].ofClass (live.shapeAt _ inside) then
          explore screening live ((targetsOf live.objects[object.index].slots).reverse ++ rest)
            (visited.insert object)
        else .ok (.stopped object)
      else .error .outOfRange
    else explore screening live rest visited
termination_by stack.length + live.unexplored visited.contains
decreasing_by
  · simp only [List.length_cons]; omega
  · have bound := length_targetsOf_le live.objects[object.index].slots
    have step := Live.unexplored_visit _ inside fresh contains_insert_self
      fun _ => contains_insert_of_contains object
    simp only [List.length_append, List.length_reverse, List.length_cons]
    omega
  · simp only [List.length_cons]; omega

/-- May everything reachable from an object be archived? -/
def checkObject (screening : Screening) (live : Live) (root : ObjectId) : Run (Bool × Screening) :=
  match screening.explore live [root] ∅ with
  | .error breach => .error breach
  | .ok (.passed visited) =>
    .ok (true, { screening with clean := visited.foldl (·.insert ·) screening.clean })
  | .ok (.stopped culprit) =>
    .ok (false, { screening with tainted := screening.tainted.insert culprit })

/-- May the graph behind a static field be archived? Null and primitive bits have none. -/
def checkStatic (screening : Screening) (live : Live) (ofClass : ClassId) (offset : UInt32) :
    Run (Bool × Screening) :=
  match live.static? ofClass offset with
  | some (.ref root) => screening.checkObject live root
  | some _ => .ok (true, screening)
  | none => .ok (false, screening)

/-- Check static fields one after the other, up to the first that fails. -/
def checkStatics (screening : Screening) (live : Live) (ofClass : ClassId) :
    List StaticField → Run (Bool × Screening)
  | [] => .ok (true, screening)
  | field :: rest =>
    match screening.checkStatic live ofClass field.offset with
    | .error breach => .error breach
    | .ok (true, screening) => screening.checkStatics live ofClass rest
    | .ok (false, screening) => .ok (false, screening)

def settle (screening : Screening) (ofClass : ClassId) (passed : Bool) : Screening :=
  { screening with
    verdicts := screening.verdicts.insert ofClass
      (if passed then .preservable else .notPreservable) }

/-- May a class of this shape be archived, with all that its static reference fields lead to? -/
def checkShape (screening : Screening) (live : Live) (ofClass : ClassId) (shape : ClassShape) :
    Run (Bool × Screening) :=
  if screening.admits ofClass shape then
    screening.checkStatics live ofClass (shape.statics.toList.filter (·.isReference))
  else .ok (false, screening)

/-- Check a class that was not checked yet. -/
def checkClass (screening : Screening) (live : Live) (ofClass : ClassId) : Run Screening :=
  if screening.verdict ofClass ≠ .unchecked then .ok screening
  else do
    let shape ← live.shapeOf ofClass
    let (passed, screening) ← screening.checkShape live ofClass shape
    return screening.settle ofClass passed

/-- Settle the verdicts on classes in this order. A class that is rejected may have instances among
the objects found clean before, so these are forgotten in the end. -/
def checkClasses (screening : Screening) (live : Live) (classes : List ClassId) :
    Run Screening := do
  let screening ← classes.foldlM (·.checkClass live ·) screening
  return { screening with clean := ∅ }

/-- Check the graph behind a resolved nomination that nothing speaks against yet. -/
def checkNomination (screening : Screening) (live : Live) (nomination : Nomination) :
    Run (Nomination × Screening) :=
  match nomination.canPreserve, nomination.resolved with
  | true, some (ofClass, offset) =>
    match screening.checkStatic live ofClass offset with
    | .error breach => .error breach
    | .ok (true, screening) => .ok (nomination, screening)
    | .ok (false, screening) => .ok ({ nomination with canPreserve := false }, screening)
  | _, _ => .ok (nomination, screening)

def checkEach (screening : Screening) (live : Live) :
    List Nomination → Run (List Nomination × Screening)
  | [] => .ok ([], screening)
  | nomination :: rest => do
    let (checked, screening) ← screening.checkNomination live nomination
    let (others, screening) ← screening.checkEach live rest
    return (checked :: others, screening)

/-- Resolve all nominations, then check the graphs behind them. -/
def checkFields (screening : Screening) (live : Live) (nominations : List Nomination) :
    Run (List Nomination × Screening) :=
  screening.checkEach live (nominations.map (·.resolve live))

end Screening
end FrozenHeap
