import FrozenHeap.Proofs.Recording.Complete
import FrozenHeap.Proofs.Thaw.Serving

namespace FrozenHeap

namespace Live

/-- Where both heaps define a class, they lay out its static fields alike. -/
def LaidOutAlike (live target : Live) : Prop :=
  ∀ loaded ∈ live.classes, ∀ other ∈ target.classes,
    other.shape.name = loaded.shape.name → other.shape.statics = loaded.shape.statics

/-- All that is reachable from an object is of classes that another heap defines. -/
def WelcomeIn (live target : Live) (object : ObjectId) : Prop :=
  ∀ other seen, live.Reaches object other → live.portrait? other = some seen →
    (target.classNamed? seen.shape.name).isSome = true

variable {live target : Live}

theorem WelcomeIn.of_refers {object other : ObjectId} (welcome : live.WelcomeIn target object)
    (refers : live.Refers object other) : live.WelcomeIn target other :=
  fun last seen path found => welcome last seen (.head refers path) found

theorem LaidOutAlike.static (alike : live.LaidOutAlike target) {name : String}
    {ofClass other : ClassId} (named : live.classNamed? name = some ofClass)
    (defined : target.classNamed? name = some other) {offset : UInt32}
    (declared : (live.static? ofClass offset).isSome = true) :
    (target.static? other offset).isSome = true := by
  obtain ⟨inside, title⟩ := lt_of_classNamed? named
  obtain ⟨within, same⟩ := lt_of_classNamed? defined
  exact isSome_static? (Array.getElem?_eq_getElem inside) (Array.getElem?_eq_getElem within)
    (alike _ (Array.getElem_mem inside) _ (Array.getElem_mem within) (same.trans title.symm))
      declared

end Live

/-- A complete page lists the classes of all that its entries lead to. -/
theorem Page.Complete.welcomeIn {live target : Live} {narrowing : Narrowing} {copies : Copies}
    {page : Page} (complete : page.Complete live narrowing copies)
    (resolved : ∀ name ∈ page.toRecord.classes, (target.classNamed? name).isSome = true)
    {entry : Entry} (present : entry ∈ page.entries) {root : ObjectId}
    (tells : entry.Tells narrowing copies (.ref root)) : live.WelcomeIn target root := by
  intro object seen path found
  have listed := (complete.listed seen.ofClass).mpr
    ⟨entry, present, root, tells, object, seen, path, found, rfl⟩
  exact resolved seen.shape.name
    (complete.mem_names.mpr ⟨seen.ofClass, listed, Live.classNamed?_of_portrait? found⟩)

namespace Loaded

variable {loaded : Loaded} {thaw : Thaw} {name : String}

/-- A call for a class changes nothing if the class has no record, or if the record lists a class
that is not defined. Otherwise it stores all entries of the record, and nothing fails: each
reference leads to a complete copy. -/
inductive Serves (loaded : Loaded) (name : String) (before : Thaw) : Option Bool → Thaw → Prop where
  | missed (unlisted : ∀ record, loaded.table.find? name = some record →
      ∃ other ∈ record.classes, before.heap.classNamed? other = none) :
      Serves loaded name before none before
  | stored {record : Record} {after : Thaw} (found : loaded.table.find? name = some record)
      (resolved : ∀ other ∈ record.classes, (before.heap.classNamed? other).isSome = true)
      (failed : after.failed = before.failed) (sound : Thaw.Sound loaded after)
      (entries : ∀ entry ∈ record.entries, ∃ value, loaded.valueOf? entry = .ok (some value) ∧
        Thaw.Stored after name entry.offset value) :
      Serves loaded name before (some record.isPartial) after

theorem resolveAll_missing {names : List String} {other : String} (listed : other ∈ names)
    (missing : thaw.heap.classNamed? other = none) :
    resolveAll (Thaw.host loaded) thaw names = (false, thaw) := by
  induction names with
  | nil => cases listed
  | cons first rest ih =>
    cases here : thaw.heap.classNamed? first with
    | none => simp [resolveAll, Thaw.host, here]
    | some _ =>
      have behind : other ∈ rest := by
        rcases List.mem_cons.mp listed with rfl | behind
        · cases here.symm.trans missing
        · exact behind
      have others := ih behind
      simp only [resolveAll, Thaw.host, here, Option.isSome_some] at others ⊢
      exact others

/-- Values that are read together are the values of the entries. -/
theorem exists_value {entries : List Entry} {values : List (UInt32 × Value)}
    (read : loaded.valuesOf? entries = .ok (some values)) :
    ∀ entry ∈ entries, ∃ value, loaded.valueOf? entry = .ok (some value) ∧
      (entry.offset, value) ∈ values := by
  induction entries generalizing values with
  | nil => exact fun _ member => by cases member
  | cons entry rest ih =>
    obtain ⟨first, here, read⟩ := bind_eq_ok_iff.mp read
    cases first with
    | none => cases read
    | some value =>
      obtain ⟨others, behind, same⟩ := bind_eq_ok_iff.mp read
      cases others with
      | none => cases same
      | some others =>
        cases same
        refine List.forall_mem_cons.mpr ⟨⟨value, here, List.mem_cons_self⟩, fun other member => ?_⟩
        obtain ⟨value, found, listed⟩ := ih behind other member
        exact ⟨value, found, List.mem_cons_of_mem _ listed⟩

/-- What each call delivers, a sequence of calls delivers. -/
theorem delivers_serveAll {room : Prop} {holds : Thaw → Prop} {calls : List String}
    (each : ∀ name ∈ calls, ∀ thaw, holds thaw → Delivers room
      (loaded.serve (Thaw.host loaded) thaw name) fun answer => holds answer.2)
    (initial : holds thaw) :
    Delivers room (loaded.serveAll (Thaw.host loaded) thaw calls) fun answer => holds answer.2 := by
  induction calls generalizing thaw with
  | nil => exact .ok initial
  | cons name rest ih =>
    refine (each name List.mem_cons_self thaw initial).bind fun answer first => ?_
    refine (ih (fun other member => each other (List.mem_cons_of_mem _ member)) first).bind ?_
    exact fun others last => .ok last

end Loaded
end FrozenHeap
