import FrozenHeap.Proofs.Recording.Counts

namespace FrozenHeap

/-- What was archived of a class, and whether that is only a part. -/
structure Outline where
  entries : List Entry
  isPartial : Bool

namespace Outline

/-- An attempt that succeeds adds its entry; one that fails adds nothing. -/
def take (outline : Outline) (outcome : Outcome Entry) : Outline :=
  { outline with entries := outline.entries ++ outcome.toOption.toList }

/-- Once it is partial, an outline stays so. -/
def mark (outline : Outline) (isPartial : Bool) : Outline :=
  { outline with isPartial := outline.isPartial || isPartial }

private theorem take_error (outline : Outline) (failure : Failure) :
    outline.take (.error failure) = outline := by
  simp [take, Except.toOption]

theorem mark_of_isPartial {outline : Outline} (old : outline.isPartial = true) (isPartial : Bool) :
    outline.mark isPartial = outline := by
  rw [mark, old, Bool.true_or, ← old]

theorem mark_false (outline : Outline) : outline.mark false = outline := by
  simp [mark]

/-- An entry at a new offset leaves the offsets distinct. -/
theorem nodup_take {outline : Outline} {outcome : Outcome Entry}
    (distinct : (outline.entries.map (·.offset)).Nodup)
    (fresh : ∀ entry, outcome = .ok entry → entry.offset ∉ outline.entries.map (·.offset)) :
    ((outline.take outcome).entries.map (·.offset)).Nodup := by
  cases outcome with
  | error failure => rwa [take_error]
  | ok entry =>
    simp only [take, Except.toOption, Option.toList, List.map_append, List.map_cons, List.map_nil]
    refine List.nodup_append.mpr ⟨distinct, by simp, ?_⟩
    rintro earlier listed other last rfl
    exact fresh entry rfl (List.mem_singleton.mp last ▸ listed)

end Outline

def Page.outline (page : Page) : Outline := ⟨page.entries.toList, page.isPartial⟩

namespace Ledger

def outline? (ledger : Ledger) (ofClass : ClassId) : Option Outline :=
  (ledger.page? ofClass).map Page.outline

variable {ledger : Ledger} {ofClass other : ClassId}

theorem outline?_eq_some_iff {outline : Outline} : ledger.outline? ofClass = some outline ↔
    ∃ page ∈ ledger.pages, page.ofClass = ofClass ∧ page.outline = outline := by
  simp only [outline?, Option.map_eq_some_iff, page?_eq_some_iff, and_assoc]

private theorem outline?_modify {change : Page → Page}
    {keeps : ∀ page, (change page).ofClass = page.ofClass} (effect : Outline → Outline)
    (same : ∀ page, (change page).outline = effect page.outline) :
    (ledger.modify ofClass change keeps).outline? other =
      if other = ofClass then (ledger.outline? ofClass).map effect else ledger.outline? other := by
  rw [outline?, page?_modify]
  split
  · simp only [outline?, Option.map_map]
    congr 1
    funext page
    exact same page
  · rfl

private theorem outline?_addClasses (met : List (ClassId × String)) :
    (ledger.addClasses ofClass met).outline? other = ledger.outline? other := by
  rw [addClasses, outline?_modify id fun page => by rw [Page.foldl_addClass_eq]; rfl, Option.map_id]
  split
  · rename_i here
    rw [here, id]
  · rfl

theorem outline?_markPartial : (ledger.markPartial ofClass).outline? other =
    if other = ofClass then (ledger.outline? ofClass).map (·.mark true)
    else ledger.outline? other :=
  outline?_modify _ fun page => by simp [Page.outline, Page.markPartial, Outline.mark]

theorem outline?_addEntry {entry : Entry} {after : Ledger}
    (done : ledger.addEntry ofClass entry = .ok after) :
    after.outline? other =
      if other = ofClass then (ledger.outline? ofClass).map (·.take (.ok entry))
      else ledger.outline? other := by
  rw [addEntry_ok done]
  exact outline?_modify _ fun page => by simp [Page.outline, Outline.take, Except.toOption]

theorem fresh_of_addEntry {entry : Entry} {after : Ledger} {outline : Outline}
    (done : ledger.addEntry ofClass entry = .ok after)
    (here : ledger.outline? ofClass = some outline) :
    entry.offset ∉ outline.entries.map (·.offset) := by
  obtain ⟨page, found, rfl⟩ := Option.map_eq_some_iff.mp here
  obtain ⟨member, owner⟩ := page?_eq_some_iff.mp found
  obtain ⟨index, present⟩ := Array.mem_iff_getElem?.mp member
  obtain ⟨inside, rfl⟩ := Array.getElem?_eq_some_iff.mp present
  have position := indexOf?_eq_some present
  unfold addEntry at done
  rw [← owner, position] at done
  simp only [dif_pos inside] at done
  split at done
  · cases done
  · rename_i added addition
    obtain ⟨_, fresh, _⟩ := bind_eq_ok_iff.mp addition
    have apart := Array.all_eq_true'.mp (ensure_eq_ok_iff.mp fresh)
    intro listed
    obtain ⟨earlier, entered, same⟩ := List.mem_map.mp listed
    simpa [same] using apart earlier (Array.mem_toList_iff.mp entered)

private theorem outline?_enter {name : String} {isPartial : Bool} :
    (ledger.enter ofClass name isPartial).outline? other =
      if other = ofClass then some ((ledger.outline? ofClass).getD ⟨[], isPartial⟩)
      else ledger.outline? other := by
  unfold enter
  split
  · rename_i index found
    obtain ⟨inside, here⟩ := of_indexOf? found
    have opened := page?_eq_some_iff.mpr ⟨Array.getElem_mem inside, here⟩
    split
    · rename_i same
      rw [same, outline?, opened]
      rfl
    · rfl
  · rename_i absent
    have blank : ledger.page? ofClass = none := by
      rw [page?, Array.find?_eq_none]
      intro page member
      simpa using Array.findIdx?_eq_none_iff.mp absent page member
    by_cases same : other = ofClass
    · rw [if_pos same, outline?, outline?, page?, Array.find?_push, ← page?, same, blank]
      simp [Page.blank, Page.outline]
    · rw [if_neg same, outline?, page?, Array.find?_push, ← page?, if_neg]
      · rw [Option.or_none]
        rfl
      · simpa [Page.blank] using Ne.symm same

end Ledger

namespace Recording

variable {live : Live} {screening : Screening} {recording after : Recording} {round : Round}
  {root other ofClass : ClassId} {offset : UInt32} {region : Region} {outcome : Outcome Entry}

/-- A round that starts opens an outline for its root, or goes on with the one that is there. -/
theorem outline?_startRound {isPartial : Bool}
    (done : recording.startRound live root isPartial = .ok after) :
    after.ledger.outline? other =
      if other = root then
        some (((recording.ledger.outline? root).getD ⟨[], isPartial⟩).mark isPartial)
      else recording.ledger.outline? other := by
  obtain ⟨_, _, done⟩ := bind_eq_ok_iff.mp done
  obtain ⟨shape, _, same⟩ := bind_eq_ok_iff.mp done
  cases same
  cases isPartial with
  | false =>
    simp only [Bool.false_eq_true, if_false, Ledger.outline?_enter, Outline.mark_false]
  | true =>
    simp only [if_true, Ledger.outline?_markPartial, Ledger.outline?_enter, Option.map_some]
    split <;> rfl

theorem outline?_endRound {tally : Tally} (done : recording.endRound = .ok (tally, after)) :
    after.ledger.outline? other = recording.ledger.outline? other := by
  rw [(endRound_ok done).1]

theorem outline?_markPartial (rooted : recording.Rooted root) :
    recording.markPartial.ledger.outline? other =
      if other = root then (recording.ledger.outline? root).map (·.mark true)
      else recording.ledger.outline? other := by
  obtain ⟨round, current, rfl⟩ := rooted
  simp only [markPartial, current, Ledger.outline?_markPartial]

variable {tiles : List Tile}

private theorem Intact.outline?_copyGraph
    (intact : recording.Intact live.classNames live.portrait? tiles)
    (current : recording.current = some round) {object : ObjectId} {outcome : Outcome Place}
    (done : recording.copyGraph round live screening object region = .ok (outcome, after)) :
    after.ledger.outline? other = recording.ledger.outline? other := by
  obtain ⟨_, _, _, ledger⟩ := intact.grows_copyGraph current done
  rcases ledger with same | ⟨met, _, same⟩
  · rw [same]
  · rw [same, Ledger.outline?_addClasses]

/-- An attempt that succeeds adds its entry to the outline of the root; no attempt changes
anything else. -/
theorem Attempt.outline? (intact : recording.Intact live.classNames live.portrait? tiles)
    (current : recording.current = some round)
    (attempt : Attempt live screening recording round ofClass offset region outcome after) :
    after.ledger.outline? other =
      if other = round.root then (recording.ledger.outline? round.root).map (·.take outcome)
      else recording.ledger.outline? other := by
  have unchanged (failure : Failure) : recording.ledger.outline? other =
      if other = round.root then
        (recording.ledger.outline? round.root).map (·.take (.error failure))
      else recording.ledger.outline? other := by
    simp only [Outline.take_error, Option.map_id']
    split
    · rename_i here
      rw [here]
    · rfl
  cases attempt with
  | missing => exact unchanged _
  | plain _ _ _ added => exact Ledger.outline?_addEntry added
  | refused _ copying => rw [intact.outline?_copyGraph current copying, ← unchanged]
  | differs _ copying => rw [intact.outline?_copyGraph current copying, ← unchanged]
  | copied _ copying _ _ added =>
    rw [Ledger.outline?_addEntry added, intact.outline?_copyGraph current copying,
      intact.outline?_copyGraph current copying]

/-- An entry is added at an offset of the root where there was none. -/
theorem Attempt.fresh (intact : recording.Intact live.classNames live.portrait? tiles)
    (current : recording.current = some round) {entry : Entry} {outline : Outline}
    (attempt : Attempt live screening recording round ofClass offset region (.ok entry) after)
    (found : recording.ledger.outline? round.root = some outline) :
    entry.offset ∉ outline.entries.map (·.offset) := by
  cases attempt with
  | plain _ _ _ added => exact Ledger.fresh_of_addEntry added found
  | copied _ copying _ _ added =>
    refine Ledger.fresh_of_addEntry added ?_
    rw [intact.outline?_copyGraph current copying, found]

theorem offset_of_archiveStatic {entry : Entry}
    (done : recording.archiveStatic live screening ofClass offset region = .ok (.ok entry, after)) :
    entry.offset = offset := by
  cases current : recording.current with
  | none =>
    simp only [archiveStatic, current] at done
    cases done
  | some round =>
    cases attempt_of_archiveStatic current done with
    | plain _ _ here _ => exact here
    | copied _ _ _ here _ => exact here

end Recording
end FrozenHeap
