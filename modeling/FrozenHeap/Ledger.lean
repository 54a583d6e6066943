import FrozenHeap.Entry

/-!
Ledgers. A ledger has one page for each root class, in the order in which recordings first named
them: its entries so far, and the classes met in the graphs behind them.
-/
namespace FrozenHeap

/-- What was recorded for one root class. -/
structure Page where
  ofClass : ClassId
  name : String
  entries : Array Entry
  /-- The classes of the objects behind the entries, in the order in which they were met. -/
  classes : Array (ClassId × String)
  isPartial : Bool
  deriving DecidableEq, Repr, Inhabited

namespace Page

def blank (ofClass : ClassId) (name : String) (isPartial : Bool) : Page :=
  ⟨ofClass, name, #[], #[], isPartial⟩

def addEntry (page : Page) (entry : Entry) : Run Page := do
  ensure (page.entries.all (·.offset != entry.offset) = true)
  return { page with entries := page.entries.push entry }

def hasClass (page : Page) (ofClass : ClassId) : Bool := page.classes.any (·.1 == ofClass)

/-- Add a class unless it was met before. -/
def addClass (page : Page) (met : ClassId × String) : Page :=
  if page.hasClass met.1 then page else { page with classes := page.classes.push met }

def markPartial (page : Page) : Page := { page with isPartial := true }

def toRecord (page : Page) : Record :=
  ⟨page.name, page.entries.toList, page.classes.toList.map (·.2), page.isPartial⟩

private theorem ofClass_addEntry {page added : Page} {entry : Entry}
    (done : page.addEntry entry = .ok added) :
    added.ofClass = page.ofClass := by
  unfold addEntry ensure at done
  split at done
  · cases done; rfl
  · cases done

theorem ofClass_addClass (page : Page) (met : ClassId × String) :
    (page.addClass met).ofClass = page.ofClass := by
  unfold addClass
  split <;> rfl

end Page

/-- Pages of distinct classes. -/
structure Ledger where
  pages : Array Page
  distinct : (pages.toList.map (·.ofClass)).Nodup
  deriving DecidableEq

namespace Ledger

def empty : Ledger := ⟨#[], by simp⟩

instance : Inhabited Ledger := ⟨empty⟩

def indexOf? (ledger : Ledger) (ofClass : ClassId) : Option Nat :=
  ledger.pages.findIdx? (·.ofClass == ofClass)

def page? (ledger : Ledger) (ofClass : ClassId) : Option Page :=
  ledger.pages.find? (·.ofClass == ofClass)

/-- Put another page of the same class in place of one. -/
def replace (ledger : Ledger) (index : Nat) (inside : index < ledger.pages.size) (page : Page)
    (same : page.ofClass = ledger.pages[index].ofClass) : Ledger where
  pages := ledger.pages.set index page
  distinct := by
    rw [Array.toList_set, List.map_set, same]
    have kept : (ledger.pages.toList.map (·.ofClass)).set index ledger.pages[index].ofClass =
        ledger.pages.toList.map (·.ofClass) := by
      apply List.ext_getElem (by simp)
      intro other _ _
      rw [List.getElem_set]
      split
      · rename_i here
        subst here
        simp
      · rfl
    rw [kept]
    exact ledger.distinct

/-- Change the page of a class, if there is one. -/
def modify (ledger : Ledger) (ofClass : ClassId) (change : Page → Page)
    (keeps : ∀ page, (change page).ofClass = page.ofClass) : Ledger :=
  match ledger.indexOf? ofClass with
  | none => ledger
  | some index =>
    if inside : index < ledger.pages.size then
      ledger.replace index inside (change ledger.pages[index]) (keeps _)
    else ledger

/-- Open a page for a class that has none. -/
def enter (ledger : Ledger) (ofClass : ClassId) (name : String) (isPartial : Bool) : Ledger :=
  match found : ledger.indexOf? ofClass with
  | some _ => ledger
  | none => {
      pages := ledger.pages.push (.blank ofClass name isPartial)
      distinct := by
        rw [Array.toList_push, List.map_append, List.nodup_append]
        refine ⟨ledger.distinct, by simp, ?_⟩
        intro other member last listed
        have same : last = ofClass := by simpa [Page.blank] using listed
        subst same
        obtain ⟨page, present, here⟩ := List.mem_map.mp member
        have different := Array.findIdx?_eq_none_iff.mp found page (Array.mem_toList_iff.mp present)
        intro equal
        subst equal
        simp [here] at different }

/-- Add an entry to the page of a class, if there is one. -/
def addEntry (ledger : Ledger) (ofClass : ClassId) (entry : Entry) : Run Ledger :=
  match ledger.indexOf? ofClass with
  | none => .ok ledger
  | some index =>
    if inside : index < ledger.pages.size then
      match added : ledger.pages[index].addEntry entry with
      | .error breach => .error breach
      | .ok page => .ok (ledger.replace index inside page (Page.ofClass_addEntry added))
    else .ok ledger

/-- Add the classes met behind an entry to the page of a class, if there is one. -/
def addClasses (ledger : Ledger) (ofClass : ClassId) (met : List (ClassId × String)) : Ledger :=
  ledger.modify ofClass (fun page => met.foldl (·.addClass ·) page) fun page => by
    induction met generalizing page with
    | nil => rfl
    | cons head rest ih => rw [List.foldl_cons, ih, Page.ofClass_addClass]

def markPartial (ledger : Ledger) (ofClass : ClassId) : Ledger :=
  ledger.modify ofClass Page.markPartial fun _ => rfl

/-- The number of classes on the page of a class. -/
def classCount (ledger : Ledger) (ofClass : ClassId) : Nat :=
  ((ledger.page? ofClass).map (·.classes.size)).getD 0

end Ledger
end FrozenHeap
