import FrozenHeap.Ledger
import Mathlib.Data.List.Nodup

namespace FrozenHeap

/-- Meeting classes changes nothing but the list of classes. -/
@[simp] theorem Page.entries_foldl_addClass (met : List (ClassId × String)) (page : Page) :
    (met.foldl (·.addClass ·) page).entries = page.entries := by
  induction met generalizing page with
  | nil => rfl
  | cons head rest ih =>
    rw [List.foldl_cons, ih, Page.addClass]
    split <;> rfl

@[simp] theorem Page.ofClass_foldl_addClass (met : List (ClassId × String)) (page : Page) :
    (met.foldl (·.addClass ·) page).ofClass = page.ofClass := by
  induction met generalizing page with
  | nil => rfl
  | cons head rest ih => rw [List.foldl_cons, ih, Page.ofClass_addClass]

theorem Page.hasClass_iff {page : Page} {ofClass : ClassId} :
    page.hasClass ofClass = true ↔ ofClass ∈ page.classes.toList.map (·.1) := by
  rw [hasClass, Array.any_eq_true', List.mem_map]
  simp only [beq_iff_eq, Array.mem_toList_iff]

theorem Page.foldl_addClass_eq (met : List (ClassId × String)) (page : Page) :
    met.foldl (·.addClass ·) page =
      { page with classes := (met.foldl (·.addClass ·) page).classes } := by
  induction met generalizing page with
  | nil => rfl
  | cons head rest ih =>
    rw [List.foldl_cons, ih, Page.addClass]
    split <;> rfl

private theorem Page.hasClass_addClass (page : Page) (met : ClassId × String) (ofClass : ClassId) :
    (page.addClass met).hasClass ofClass = (page.hasClass ofClass || met.1 == ofClass) := by
  unfold addClass
  split
  · rename_i known
    by_cases same : met.1 = ofClass
    · rw [← same, known, Bool.true_or]
    · simp [same]
  · simp [hasClass]

theorem Page.hasClass_foldl_addClass (met : List (ClassId × String)) (page : Page)
    (ofClass : ClassId) : (met.foldl (·.addClass ·) page).hasClass ofClass = true ↔
      page.hasClass ofClass = true ∨ ofClass ∈ met.map (·.1) := by
  induction met generalizing page with
  | nil => simp
  | cons head rest ih =>
    rw [List.foldl_cons, ih, Page.hasClass_addClass, Bool.or_eq_true, beq_iff_eq, List.map_cons,
      List.mem_cons, or_assoc, eq_comm (a := head.1)]

/-- Classes that are listed already are not listed again. -/
theorem Page.foldl_addClass_eq_self {met : List (ClassId × String)} {page : Page}
    (listed : ∀ ofClass ∈ met.map (·.1), page.hasClass ofClass = true) :
    met.foldl (·.addClass ·) page = page := by
  induction met with
  | nil => rfl
  | cons head rest ih =>
    rw [List.map_cons, List.forall_mem_cons] at listed
    rw [List.foldl_cons, Page.addClass, if_pos listed.1, ih listed.2]

namespace Ledger

variable {ledger : Ledger} {ofClass : ClassId} {page : Page}

private theorem mem_replace {index : Nat} {inside : index < ledger.pages.size} {other : Page}
    {same : other.ofClass = ledger.pages[index].ofClass}
    (member : page ∈ (ledger.replace index inside other same).pages) :
    page ∈ ledger.pages ∨ page = other :=
  Array.mem_or_eq_of_mem_set (w := inside) member

theorem of_indexOf? {index : Nat} (found : ledger.indexOf? ofClass = some index) :
    ∃ inside : index < ledger.pages.size, ledger.pages[index].ofClass = ofClass := by
  obtain ⟨inside, here, _⟩ := Array.findIdx?_eq_some_iff_getElem.mp found
  exact ⟨inside, by simpa using here⟩

theorem page?_eq_some_iff :
    ledger.page? ofClass = some page ↔ page ∈ ledger.pages ∧ page.ofClass = ofClass := by
  have found {other : Page} (here : ledger.page? ofClass = some other) :
      other ∈ ledger.pages ∧ other.ofClass = ofClass :=
    ⟨Array.mem_of_find?_eq_some here, by simpa using Array.find?_some here⟩
  refine ⟨found, fun ⟨member, owner⟩ => ?_⟩
  cases here : ledger.page? ofClass with
  | none => exact absurd owner (by simpa using Array.find?_eq_none.mp here page member)
  | some other =>
    obtain ⟨there, same⟩ := found here
    rw [List.inj_on_of_nodup_map ledger.distinct (Array.mem_toList_iff.mpr there)
      (Array.mem_toList_iff.mpr member) (same.trans owner.symm)]

theorem indexOf?_eq_some {index : Nat} (here : ledger.pages[index]? = some page) :
    ledger.indexOf? page.ofClass = some index := by
  cases found : ledger.indexOf? page.ofClass with
  | none =>
    have absent := Array.findIdx?_eq_none_iff.mp found page (Array.mem_of_getElem? here)
    simp at absent
  | some other =>
    obtain ⟨inside, owner⟩ := of_indexOf? found
    have equal : (ledger.pages.toList.map (·.ofClass))[other]? =
        (ledger.pages.toList.map (·.ofClass))[index]? := by
      simp [Array.getElem?_eq_getElem inside, owner, here]
    rw [(List.getElem?_inj (by simpa using inside) ledger.distinct).mp equal]

/-- Changing the page of a class changes this page and no other. -/
theorem mem_modify_iff {change : Page → Page}
    {keeps : ∀ page, (change page).ofClass = page.ofClass} :
    page ∈ (ledger.modify ofClass change keeps).pages ↔ page ∈ ledger.pages ∧
      page.ofClass ≠ ofClass ∨ ∃ old ∈ ledger.pages, old.ofClass = ofClass ∧ page = change old := by
  cases found : ledger.indexOf? ofClass with
  | none =>
    have absent : ∀ old ∈ ledger.pages, old.ofClass ≠ ofClass := fun old member => by
      simpa using Array.findIdx?_eq_none_iff.mp found old member
    simp only [modify, found]
    constructor
    · exact fun member => .inl ⟨member, absent page member⟩
    · rintro (⟨member, _⟩ | ⟨old, member, here, _⟩)
      · exact member
      · exact absurd here (absent old member)
  | some index =>
    obtain ⟨inside, here⟩ := of_indexOf? found
    simp only [modify, found, dif_pos inside, replace, Array.mem_iff_getElem?, Array.getElem?_set]
    constructor
    · rintro ⟨position, there⟩
      split at there
      · cases there
        exact .inr ⟨_, ⟨index, Array.getElem?_eq_getElem inside⟩, here, rfl⟩
      · rename_i apart
        refine .inl ⟨⟨position, there⟩, fun owner => apart ?_⟩
        have again := indexOf?_eq_some there
        rw [owner, found] at again
        exact Option.some.inj again
    · rintro (⟨⟨position, there⟩, different⟩ | ⟨old, ⟨position, there⟩, owner, rfl⟩)
      · refine ⟨position, ?_⟩
        rw [if_neg]
        · exact there
        · rintro rfl
          rw [Array.getElem?_eq_getElem inside] at there
          cases there
          exact different here
      · have again := indexOf?_eq_some there
        rw [owner, found] at again
        cases again
        rw [Array.getElem?_eq_getElem inside] at there
        cases there
        exact ⟨index, if_pos rfl⟩

theorem mem_modify {change : Page → Page} {keeps : ∀ page, (change page).ofClass = page.ofClass}
    (member : page ∈ (ledger.modify ofClass change keeps).pages) :
    page ∈ ledger.pages ∨ ∃ old ∈ ledger.pages, old.ofClass = ofClass ∧ page = change old :=
  (mem_modify_iff.mp member).imp_left And.left

/-- Changing the page of a class leaves the others as they are. -/
theorem page?_modify (ledger : Ledger) (ofClass other : ClassId) {change : Page → Page}
    (keeps : ∀ page, (change page).ofClass = page.ofClass) :
    (ledger.modify ofClass change keeps).page? other =
      if other = ofClass then (ledger.page? ofClass).map change else ledger.page? other := by
  apply Option.ext
  intro page
  rw [page?_eq_some_iff, mem_modify_iff]
  split
  · rename_i here
    rw [Option.map_eq_some_iff, here]
    simp only [page?_eq_some_iff]
    constructor
    · rintro ⟨⟨_, different⟩ | ⟨old, member, owner, rfl⟩, same⟩
      · exact absurd same different
      · exact ⟨old, ⟨member, owner⟩, rfl⟩
    · rintro ⟨old, ⟨member, owner⟩, rfl⟩
      exact ⟨.inr ⟨old, member, owner, rfl⟩, (keeps old).trans owner⟩
  · rename_i different
    rw [page?_eq_some_iff]
    constructor
    · rintro ⟨⟨member, _⟩ | ⟨old, _, owner, rfl⟩, same⟩
      · exact ⟨member, same⟩
      · exact absurd (same.symm.trans ((keeps old).trans owner)) different
    · rintro ⟨member, same⟩
      exact ⟨.inl ⟨member, fun owner => different (same.symm.trans owner)⟩, same⟩

theorem modify_eq_self {change : Page → Page} {keeps : ∀ page, (change page).ofClass = page.ofClass}
    (same : ∀ page, ledger.page? ofClass = some page → change page = page) :
    ledger.modify ofClass change keeps = ledger := by
  cases found : ledger.indexOf? ofClass with
  | none => simp only [modify, found]
  | some index =>
    obtain ⟨inside, here⟩ := of_indexOf? found
    have still := same _ (page?_eq_some_iff.mpr ⟨Array.getElem_mem inside, here⟩)
    cases ledger
    simp only [modify, found, dif_pos inside, replace, still, Array.set_getElem_self]

theorem mem_enter {name : String} {isPartial : Bool}
    (member : page ∈ (ledger.enter ofClass name isPartial).pages) :
    page ∈ ledger.pages ∨ page = .blank ofClass name isPartial := by
  unfold enter at member
  split at member
  · exact .inl member
  · exact Array.mem_push.mp member

theorem mem_markPartial (member : page ∈ (ledger.markPartial ofClass).pages) :
    page ∈ ledger.pages ∨ ∃ old ∈ ledger.pages, page = old.markPartial := by
  rcases mem_modify member with old | ⟨old, present, _, same⟩
  · exact .inl old
  · exact .inr ⟨old, present, same⟩

/-- An entry is added to the page of its class, where its offset is new. -/
theorem mem_addEntry {entry : Entry} {after : Ledger}
    (done : ledger.addEntry ofClass entry = .ok after) (member : page ∈ after.pages) :
    page ∈ ledger.pages ∨ ∃ old ∈ ledger.pages, old.ofClass = ofClass ∧
      (∀ other ∈ old.entries, other.offset ≠ entry.offset) ∧
      page = { old with entries := old.entries.push entry } := by
  unfold addEntry at done
  split at done
  · cases done
    exact .inl member
  · rename_i index found
    obtain ⟨inside, here⟩ := of_indexOf? found
    rw [dif_pos inside] at done
    split at done
    · cases done
    · rename_i added addition
      cases done
      rcases mem_replace member with old | rfl
      · exact .inl old
      · obtain ⟨_, fresh, same⟩ := bind_eq_ok_iff.mp addition
        cases same
        refine .inr ⟨_, Array.getElem_mem inside, here, ?_, rfl⟩
        intro other listed
        have apart := Array.all_eq_true'.mp (ensure_eq_ok_iff.mp fresh) other listed
        simpa using apart

/-- Under a class whose page has no entry at an offset, one can be added there. -/
def Free (ledger : Ledger) (ofClass : ClassId) (offset : UInt32) : Prop :=
  ∀ page ∈ ledger.pages, page.ofClass = ofClass → ∀ entry ∈ page.entries, entry.offset ≠ offset

theorem Free.addEntry {entry : Entry} (free : ledger.Free ofClass entry.offset) :
    ∃ after, ledger.addEntry ofClass entry = .ok after := by
  unfold Ledger.addEntry
  split
  · exact ⟨ledger, rfl⟩
  · rename_i index found
    obtain ⟨inside, here⟩ := of_indexOf? found
    have apart : (ledger.pages[index].entries.all (·.offset != entry.offset)) = true := by
      rw [Array.all_eq_true']
      intro other listed
      simpa using free _ (Array.getElem_mem inside) here other listed
    rw [dif_pos inside]
    split
    · rename_i breach broken
      simp [Page.addEntry, ensure, apart, bind, Except.bind, pure, Except.pure] at broken
    · exact ⟨_, rfl⟩

theorem Free.addClasses {root : ClassId} {offset : UInt32} (free : ledger.Free root offset)
    (ofClass : ClassId) (met : List (ClassId × String)) :
    (ledger.addClasses ofClass met).Free root offset := by
  intro page member owner entry listed
  rcases mem_modify member with old | ⟨old, present, here, rfl⟩
  · exact free page old owner entry listed
  · rw [Page.entries_foldl_addClass] at listed
    rw [Page.ofClass_foldl_addClass] at owner
    exact free old present owner entry listed

/-- The page of a class has an entry at an offset. -/
def Entered (ledger : Ledger) (ofClass : ClassId) (offset : UInt32) : Prop :=
  ∃ page ∈ ledger.pages, page.ofClass = ofClass ∧ ∃ entry ∈ page.entries, entry.offset = offset

variable {other : ClassId} {offset : UInt32}

theorem free_iff : ledger.Free ofClass offset ↔ ¬ ledger.Entered ofClass offset := by
  constructor
  · rintro free ⟨page, member, owner, entry, listed, same⟩
    exact free page member owner entry listed same
  · exact fun unentered page member owner entry listed same =>
      unentered ⟨page, member, owner, entry, listed, same⟩

theorem not_entered_empty : ¬ empty.Entered ofClass offset :=
  fun ⟨page, member, _⟩ => Array.not_mem_empty page member

theorem entered_iff : ledger.Entered ofClass offset ↔
    ∃ page, ledger.page? ofClass = some page ∧ ∃ entry ∈ page.entries, entry.offset = offset := by
  simp only [Entered, page?_eq_some_iff, and_assoc]

/-- A change that leaves the entries of a page alone leaves those of all pages alone. -/
theorem entered_modify {change : Page → Page} {keeps : ∀ page, (change page).ofClass = page.ofClass}
    (same : ∀ page, (change page).entries = page.entries) :
    (ledger.modify ofClass change keeps).Entered other offset ↔ ledger.Entered other offset := by
  rw [entered_iff, entered_iff, page?_modify]
  split
  · rename_i here
    simp [here, same]
  · rfl

theorem entered_markPartial :
    (ledger.markPartial ofClass).Entered other offset ↔ ledger.Entered other offset :=
  entered_modify fun _ => rfl

theorem entered_enter {name : String} {isPartial : Bool} :
    (ledger.enter ofClass name isPartial).Entered other offset ↔ ledger.Entered other offset := by
  constructor
  · rintro ⟨page, member, owner, entry, listed, same⟩
    rcases mem_enter member with old | rfl
    · exact ⟨page, old, owner, entry, listed, same⟩
    · exact absurd listed (Array.not_mem_empty entry)
  · rintro ⟨page, member, rest⟩
    refine ⟨page, ?_, rest⟩
    unfold enter
    split
    · exact member
    · exact Array.mem_push_of_mem _ member

/-- Adding an entry changes the page of its class, if there is one. -/
theorem addEntry_ok {entry : Entry} {after : Ledger}
    (done : ledger.addEntry ofClass entry = .ok after) :
    after = ledger.modify ofClass (fun page => { page with entries := page.entries.push entry })
      fun _ => rfl := by
  unfold addEntry at done
  unfold modify
  split at done
  · cases done
    simp only [*]
  · rename_i index found
    obtain ⟨inside, _⟩ := of_indexOf? found
    rw [dif_pos inside] at done
    split at done
    · cases done
    · rename_i added addition
      cases done
      obtain ⟨_, _, same⟩ := bind_eq_ok_iff.mp addition
      cases same
      simp only [dif_pos inside]

theorem entered_addEntry {entry : Entry} {after : Ledger}
    (opened : (ledger.page? ofClass).isSome = true)
    (done : ledger.addEntry ofClass entry = .ok after) : after.Entered other offset ↔
      ledger.Entered other offset ∨ other = ofClass ∧ offset = entry.offset := by
  obtain ⟨page, found⟩ := Option.isSome_iff_exists.mp opened
  rw [addEntry_ok done, entered_iff, entered_iff, page?_modify]
  split
  · rename_i here
    simp [here, found, or_and_right, exists_or, eq_comm]
  · rename_i different
    simp [different]

theorem isSome_page?_modify {change : Page → Page}
    {keeps : ∀ page, (change page).ofClass = page.ofClass} :
    ((ledger.modify ofClass change keeps).page? other).isSome = (ledger.page? other).isSome := by
  rw [page?_modify]
  split
  · rename_i here
    rw [here, Option.isSome_map]
  · rfl

theorem isSome_page?_markPartial :
    ((ledger.markPartial ofClass).page? other).isSome = (ledger.page? other).isSome :=
  isSome_page?_modify

theorem page?_markPartial (found : ledger.page? ofClass = some page) :
    (ledger.markPartial ofClass).page? ofClass = some page.markPartial := by
  obtain ⟨member, owner⟩ := page?_eq_some_iff.mp found
  exact page?_eq_some_iff.mpr ⟨mem_modify_iff.mpr (.inr ⟨page, member, owner, rfl⟩), owner⟩

theorem isSome_page?_enter {name : String} {isPartial : Bool} :
    ((ledger.enter ofClass name isPartial).page? ofClass).isSome = true := by
  unfold enter
  split
  · rename_i index found
    obtain ⟨inside, here⟩ := of_indexOf? found
    rw [page?_eq_some_iff.mpr ⟨Array.getElem_mem inside, here⟩]
    rfl
  · simp [page?, Page.blank]

end Ledger
end FrozenHeap
