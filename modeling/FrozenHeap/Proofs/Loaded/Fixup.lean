import FrozenHeap.Loaded
import FrozenHeap.Proofs.Marks

namespace FrozenHeap

namespace Resident

variable {resident : Resident} {narrowing : Narrowing} {relocations : Relocations}

/-- The marked words have targets, or are null. -/
def Sound (resident : Resident) (narrowing : Narrowing) (relocations : Relocations) : Prop :=
  ∀ index, resident.marks.isSet index = true →
    ∃ address, resident.target narrowing relocations index = .ok (.ok address)

/-- The address that a marked word stands for, if it has a target. -/
def move? (resident : Resident) (narrowing : Narrowing) (relocations : Relocations)
    (index : Nat) : Option UInt64 :=
  match resident.target narrowing relocations index with
  | .ok (.ok address) => address
  | _ => none

def moved (resident : Resident) (narrowing : Narrowing) (relocations : Relocations) (index : Nat)
    (word : UInt64) : UInt64 :=
  if resident.marks.isSet index then
    (resident.move? narrowing relocations index).getD word
  else word

/-- The region with its marked words replaced by the addresses that they stand for. -/
def fixedUp (resident : Resident) (narrowing : Narrowing) (relocations : Relocations) :
    Resident where
  region := resident.region
  base := resident.base
  live := resident.live
  words := resident.words.mapIdx (resident.moved narrowing relocations)
  marks := resident.marks
  fixed := true
  fits := by
    rw [Array.size_mapIdx]
    exact resident.fits

theorem target_of_sound (sound : resident.Sound narrowing relocations) {index : Nat}
    (marked : resident.marks.isSet index = true) :
    resident.target narrowing relocations index =
      .ok (.ok (resident.move? narrowing relocations index)) := by
  obtain ⟨address, target⟩ := sound index marked
  rw [move?, target]

/-- Those of some words that have targets, with the addresses that they stand for. -/
def moves (resident : Resident) (narrowing : Narrowing) (relocations : Relocations)
    (indexes : List Nat) : List (Nat × UInt64) :=
  indexes.filterMap fun index => (resident.move? narrowing relocations index).map (index, ·)

private theorem targets_eq (sound : resident.Sound narrowing relocations) (indexes : List Nat)
    (marked : ∀ index ∈ indexes, resident.marks.isSet index = true) (found : Array (Nat × UInt64))
    (nulls : Nat) :
    ∃ more, resident.targets narrowing relocations indexes found nulls =
      .ok (.ok (found ++ (resident.moves narrowing relocations indexes).toArray, more)) := by
  induction indexes generalizing found nulls with
  | nil => exact ⟨nulls, by simp [targets, moves]⟩
  | cons index rest ih =>
    have here := target_of_sound sound (marked index List.mem_cons_self)
    have behind := ih fun other member => marked other (List.mem_cons_of_mem _ member)
    cases move : resident.move? narrowing relocations index with
    | none =>
      obtain ⟨more, others⟩ := behind found (nulls + 1)
      refine ⟨more, ?_⟩
      simp only [targets, here, move, others, moves, List.filterMap_cons, Option.map_none]
    | some address =>
      obtain ⟨more, others⟩ := behind (found.push (index, address)) nulls
      refine ⟨more, ?_⟩
      simp only [targets, here, move, others, moves, List.filterMap_cons, Option.map_some]
      simp

def setWords (resident : Resident) (moves : List (Nat × UInt64)) : Resident :=
  moves.foldl (fun resident (index, word) => resident.setWord index word) resident

private theorem setWords_frame (moves : List (Nat × UInt64)) (resident : Resident) :
    (resident.setWords moves).region = resident.region ∧
      (resident.setWords moves).base = resident.base ∧
      (resident.setWords moves).live = resident.live ∧
      (resident.setWords moves).marks = resident.marks := by
  induction moves generalizing resident with
  | nil => exact ⟨rfl, rfl, rfl, rfl⟩
  | cons head rest ih => exact ih (resident.setWord head.1 head.2)

/-- Storing an address for each index that has one changes the words at these indexes. -/
theorem getElem?_setWords (move? : Nat → Option UInt64) (indexes : List Nat) (resident : Resident)
    (index : Nat) :
    (resident.setWords (indexes.filterMap fun index => (move? index).map
      (index, ·))).words[index]? = (resident.words[index]?).map fun word =>
        if index ∈ indexes then (move? index).getD word else word := by
  induction indexes generalizing resident with
  | nil => simp [setWords]
  | cons head rest ih =>
    cases move : move? head with
    | none =>
      simp only [List.filterMap_cons, move, Option.map_none]
      rw [ih]
      by_cases same : index = head
      · subst same
        simp [move]
      · simp [same]
    | some address =>
      simp only [List.filterMap_cons, move, Option.map_some]
      change ((resident.setWord head address).setWords _).words[index]? = _
      rw [ih]
      simp only [setWord, Array.getElem?_setIfInBounds]
      by_cases same : head = index
      · subst same
        by_cases inside : head < resident.words.size
        · simp [move, inside]
        · simp [inside]
      · simp [same, Ne.symm same]

/-- A region that agrees with another one in everything but the marked words, and holds the
addresses that these stand for, is the other one fixed up. -/
theorem eq_fixedUp {after : Resident} (region : after.region = resident.region)
    (base : after.base = resident.base) (live : after.live = resident.live)
    (marks : after.marks = resident.marks)
    (words : ∀ index, after.words[index]? = (resident.words[index]?).map
      (resident.moved narrowing relocations index)) :
    { after with fixed := true } = resident.fixedUp narrowing relocations := by
  have same : after.words = resident.words.mapIdx (resident.moved narrowing relocations) := by
    apply Array.ext_getElem?
    intro index
    rw [words, Array.getElem?_mapIdx]
  cases after
  cases region
  cases base
  cases live
  cases marks
  cases same
  rfl

/-- A region whose marked words all have targets is fixed up as a whole. -/
theorem fixup_eq (fresh : resident.fixed = false) (sound : resident.Sound narrowing relocations) :
    ∃ count, resident.fixup narrowing relocations =
      .ok (.ok count, resident.fixedUp narrowing relocations) := by
  obtain ⟨nulls, found⟩ := targets_eq sound resident.marks.toList
    (fun index member => Marks.mem_toList.mp member) #[] 0
  rw [Array.empty_append] at found
  obtain ⟨region, base, live, marks⟩ := setWords_frame
    (resident.moves narrowing relocations resident.marks.toList) resident
  have patched : { resident.setWords (resident.moves narrowing relocations
    resident.marks.toList) with
      fixed := true } = resident.fixedUp narrowing relocations := by
    refine eq_fixedUp region base live marks fun index => ?_
    rw [moves, getElem?_setWords]
    congr 1
    funext word
    rw [moved]
    simp only [Marks.mem_toList]
  refine ⟨⟨(resident.moves narrowing relocations resident.marks.toList).length, nulls⟩, ?_⟩
  have stored : (resident.moves narrowing relocations resident.marks.toList).toArray.foldl
      (fun resident (index, word) => resident.setWord index word) resident =
        resident.setWords (resident.moves narrowing relocations resident.marks.toList) := by
    rw [← Array.foldl_toList]
    rfl
  rw [fixup, if_neg (by simp [fresh]), found, ← patched, ← stored]
  rfl

/-- Where relocating has a meaning for every address, a word has a target, is null, or is reported
as dangling. -/
theorem target_cases (resident : Resident) (narrowing : Narrowing)
    (relocates : ∀ address, ∃ live, relocations.relocate? address = .ok live) (index : Nat) :
    (∃ address, resident.target narrowing relocations index = .ok (.ok address)) ∨
      ∃ narrow, resident.target narrowing relocations index =
        .ok (.error (.danglingReference resident.region index narrow)) := by
  unfold target
  cases resident.words[index]? with
  | none => exact .inr ⟨_, rfl⟩
  | some word =>
    obtain ⟨live, moved⟩ := relocates (narrowing.widen word.toUInt32)
    simp only [moved]
    by_cases wide : UInt32.size ≤ word.toNat
    · exact .inr ⟨_, if_pos wide⟩
    · rw [if_neg wide]
      by_cases null : word = 0
      · exact .inl ⟨none, if_pos null⟩
      · rw [if_neg null]
        cases live with
        | none => exact .inr ⟨_, rfl⟩
        | some address => exact .inl ⟨some address, rfl⟩

private theorem targets_stop
    (relocates : ∀ address, ∃ live, relocations.relocate? address = .ok live)
    {indexes : List Nat} {lost : Nat} (listed : lost ∈ indexes)
    (homeless : ∀ address, resident.target narrowing relocations lost ≠ .ok (.ok address))
    (found : Array (Nat × UInt64)) (nulls : Nat) :
    ∃ index narrow, resident.targets narrowing relocations indexes found nulls =
      .ok (.error (.danglingReference resident.region index narrow)) := by
  induction indexes generalizing found nulls with
  | nil => cases listed
  | cons index rest ih =>
    rcases target_cases resident narrowing relocates index with
      ⟨address, here⟩ | ⟨narrow, here⟩
    · have behind : lost ∈ rest := by
        rcases List.mem_cons.mp listed with rfl | behind
        · exact absurd here (homeless address)
        · exact behind
      cases address with
      | none =>
        simp only [targets, here]
        exact ih behind found (nulls + 1)
      | some address =>
        simp only [targets, here]
        exact ih behind (found.push (index, address)) nulls
    · exact ⟨index, narrow, by simp only [targets, here]⟩

/-- A region with a marked word that has no target stays as it is. -/
theorem fixup_unsound (relocates : ∀ address, ∃ live, relocations.relocate? address = .ok live)
    (fresh : resident.fixed = false) (unsound : ¬ resident.Sound narrowing relocations) :
    ∃ index narrow, resident.fixup narrowing relocations =
      .ok (.error (.danglingReference resident.region index narrow), resident) := by
  simp only [Sound, Classical.not_forall, not_exists] at unsound
  obtain ⟨lost, marked, homeless⟩ := unsound
  obtain ⟨index, narrow, stopped⟩ :=
    targets_stop relocates (Marks.mem_toList.mpr marked) homeless #[] 0
  refine ⟨index, narrow, ?_⟩
  rw [fixup, if_neg (by simp [fresh]), stopped]

end Resident
end FrozenHeap
