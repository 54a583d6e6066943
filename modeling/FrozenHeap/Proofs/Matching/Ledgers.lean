import FrozenHeap.Proofs.Matching.Walks

namespace FrozenHeap

/-- Pages that hold the same, for classes that are kin. -/
structure Page.Alike (left right : Live) (page other : Page) : Prop where
  owners : left.Kin right page.ofClass other.ofClass
  name : page.name = other.name
  entries : page.entries = other.entries
  classes : List.Forall₂ (left.ListedAlike right) page.classes.toList other.classes.toList
  isPartial : page.isPartial = other.isPartial

/-- Ledgers with the same pages in the same order. -/
def Ledger.Alike (left right : Live) (ledger other : Ledger) : Prop :=
  List.Forall₂ (Page.Alike left right) ledger.pages.toList other.pages.toList

variable {left right : Live} {former latter : ClassId}

theorem Live.Kin.beq_eq (kin : left.Kin right former latter) {owner another : ClassId}
    (owners : left.Kin right owner another) : (owner == former) = (another == latter) :=
  beq_eq_of_biUnique (kin_biUnique left right) owners kin

namespace Page.Alike

variable {page other : Page}

theorem hasClass (alike : page.Alike left right other) (kin : left.Kin right former latter) :
    page.hasClass former = other.hasClass latter := by
  have found := forall₂_find? alike.classes fun one two here => kin.beq_eq here.1
  rw [Page.hasClass, Page.hasClass, ← Array.any_toList, ← Array.any_toList, ← List.isSome_find?,
    ← List.isSome_find?]
  exact isSome_eq_of_rel found

theorem addClass (alike : page.Alike left right other) {met another : ClassId × String}
    (listed : left.ListedAlike right met another) :
    (page.addClass met).Alike left right (other.addClass another) := by
  unfold Page.addClass
  rw [alike.hasClass listed.1]
  split
  · exact alike
  · refine { alike with classes := ?_ }
    simp only [Array.toList_push]
    exact List.rel_append alike.classes (.cons listed .nil)

theorem addClasses (alike : page.Alike left right other) {met others : List (ClassId × String)}
    (listed : List.Forall₂ (left.ListedAlike right) met others) :
    (met.foldl (·.addClass ·) page).Alike left right (others.foldl (·.addClass ·) other) :=
  List.rel_foldl (fun _ _ now _ _ here => now.addClass here) alike listed

theorem addEntry (alike : page.Alike left right other) (entry : Entry) :
    Parallel (Page.Alike left right) (page.addEntry entry) (other.addEntry entry) := by
  unfold Page.addEntry
  rw [alike.entries]
  refine Parallel.bind .refl fun _ _ _ => ?_
  exact .ok { alike with entries := rfl }

theorem toRecord (alike : page.Alike left right other) : page.toRecord = other.toRecord := by
  have names := map_eq_of_forall₂ alike.classes fun one two here => here.2
  rw [Page.toRecord, Page.toRecord, alike.name, alike.entries, alike.isPartial, names]

end Page.Alike

namespace Ledger.Alike

variable {ledger other : Ledger}

theorem indexOf? (alike : ledger.Alike left right other) (kin : left.Kin right former latter) :
    ledger.indexOf? former = other.indexOf? latter :=
  findIdx?_eq alike fun _ _ here => kin.beq_eq here.owners

private theorem getElem (alike : ledger.Alike left right other) {index : Nat}
    (inside : index < ledger.pages.size) :
    ∃ within : index < other.pages.size, ledger.pages[index].Alike left right
      other.pages[index] := by
  have here := forall₂_getElem? alike index
  rw [Array.getElem?_toList, Array.getElem?_toList, Array.getElem?_eq_getElem inside] at here
  generalize found : other.pages[index]? = there at here
  cases here with
  | some same =>
    obtain ⟨within, rfl⟩ := Array.getElem?_eq_some_iff.mp found
    exact ⟨within, same⟩

theorem replace (alike : ledger.Alike left right other) {index : Nat}
    {inside : index < ledger.pages.size} {within : index < other.pages.size} {page another : Page}
    {same : page.ofClass = ledger.pages[index].ofClass}
    {equal : another.ofClass = other.pages[index].ofClass} (pages : page.Alike left right another) :
    (ledger.replace index inside page same).Alike left right
      (other.replace index within another equal) := by
  simp only [Ledger.Alike, Ledger.replace, Array.toList_set]
  exact forall₂_set alike index pages

/-- A class has a page in both ledgers or in neither; both are changed alike. -/
theorem modify (alike : ledger.Alike left right other) (kin : left.Kin right former latter)
    {change switch : Page → Page} {keeps : ∀ page, (change page).ofClass = page.ofClass}
    {retains : ∀ page, (switch page).ofClass = page.ofClass}
    (pages : ∀ page another, page.Alike left right another →
      (change page).Alike left right (switch another)) :
    (ledger.modify former change keeps).Alike left right (other.modify latter switch retains) := by
  unfold Ledger.modify
  rw [alike.indexOf? kin]
  cases other.indexOf? latter with
  | none => exact alike
  | some index =>
    by_cases inside : index < ledger.pages.size
    · obtain ⟨within, here⟩ := alike.getElem inside
      simp only [dif_pos inside, dif_pos within]
      exact alike.replace (pages _ _ here)
    · have sizes : ledger.pages.size = other.pages.size := by
        simpa using List.Forall₂.length_eq alike
      simp only [dif_neg inside, dif_neg (sizes ▸ inside)]
      exact alike

theorem markPartial (alike : ledger.Alike left right other) (kin : left.Kin right former latter) :
    (ledger.markPartial former).Alike left right (other.markPartial latter) :=
  alike.modify kin fun _ _ pages => { pages with isPartial := rfl }

theorem addClasses (alike : ledger.Alike left right other) (kin : left.Kin right former latter)
    {met others : List (ClassId × String)}
    (listed : List.Forall₂ (left.ListedAlike right) met others) :
    (ledger.addClasses former met).Alike left right (other.addClasses latter others) :=
  alike.modify kin fun _ _ pages => pages.addClasses listed

theorem classCount (alike : ledger.Alike left right other) (kin : left.Kin right former latter) :
    ledger.classCount former = other.classCount latter := by
  have pages := forall₂_find? alike fun one two here => kin.beq_eq here.owners
  rw [Ledger.classCount, Ledger.classCount, Ledger.page?, Ledger.page?, ← Array.find?_toList,
    ← Array.find?_toList]
  generalize List.find? _ ledger.pages.toList = one at pages ⊢
  generalize List.find? _ other.pages.toList = two at pages ⊢
  cases pages with
  | none => rfl
  | some here => simpa using here.classes.length_eq

theorem enter (alike : ledger.Alike left right other) (kin : left.Kin right former latter)
    (name : String) (isPartial : Bool) :
    (ledger.enter former name isPartial).Alike left right (other.enter latter name isPartial) := by
  have same := alike.indexOf? kin
  unfold Ledger.enter
  split
  · rename_i found
    split
    · exact alike
    · rename_i absent
      rw [found, absent] at same
      cases same
  · rename_i absent
    split
    · rename_i found
      rw [found, absent] at same
      cases same
    · simp only [Ledger.Alike, Array.toList_push]
      exact List.rel_append alike (.cons ⟨kin, rfl, rfl, .nil, rfl⟩ .nil)

theorem addEntry (alike : ledger.Alike left right other) (kin : left.Kin right former latter)
    (entry : Entry) :
    Parallel (Ledger.Alike left right) (ledger.addEntry former entry)
      (other.addEntry latter entry) := by
  unfold Ledger.addEntry
  rw [alike.indexOf? kin]
  cases other.indexOf? latter with
  | none => exact .ok alike
  | some index =>
    by_cases inside : index < ledger.pages.size
    · obtain ⟨within, here⟩ := alike.getElem inside
      have added := here.addEntry entry
      simp only [dif_pos inside, dif_pos within]
      split
      · rename_i broken
        rw [broken] at added
        split
        · rename_i breaks
          rw [breaks] at added
          cases added
          exact .broken
        · rename_i done
          rw [done] at added
          cases added
      · rename_i done
        rw [done] at added
        split
        · rename_i breaks
          rw [breaks] at added
          cases added
        · rename_i ended
          rw [ended] at added
          cases added with
          | ok pages => exact .ok (alike.replace pages)
    · have sizes : ledger.pages.size = other.pages.size := by
        simpa using List.Forall₂.length_eq alike
      simp only [dif_neg inside, dif_neg (sizes ▸ inside)]
      exact .ok alike

end Ledger.Alike
end FrozenHeap
