import FrozenHeap.Proofs.Recording.Intact

/-! Chronicles. Whatever a recording is asked for, and however the live heap changes in
between, the images are exactly tiled by the finished copies of the objects as they were when
they were copied. -/

namespace FrozenHeap

/-- A call to a recording, with the live heap as it is at the time of the call. -/
inductive Call where
  | start (live : Live) (root : ClassId) (isPartial : Bool)
  | archive (live : Live) (screening : Screening) (ofClass : ClassId) (offset : UInt32)
      (region : Region)
  | markPartial
  | finish

namespace Call

/-- What a call makes of a recording, whether it succeeds or fails. -/
def perform (recording : Recording) : Call → Run Recording
  | start live root isPartial => recording.startRound live root isPartial
  | archive live screening ofClass offset region => do
    return (← recording.archiveStatic live screening ofClass offset region).2
  | markPartial => .ok recording.markPartial
  | finish => do return (← recording.endRound).2

def live? : Call → Option Live
  | start live _ _ => some live
  | archive live _ _ _ _ => some live
  | markPartial => none
  | finish => none

/-- The classes of the heap that a call looks at are among those of these names. -/
def Knows (names : List String) (call : Call) : Prop :=
  ∀ live, call.live? = some live → ∀ name ∈ live.classNames, name ∈ names

end Call

/-- A recording, with what the objects that have copies looked like when they were copied. -/
structure Chronicle where
  recording : Recording
  memory : ObjectId → Option Portrait

namespace Chronicle

def start (draft : Draft) (verifies : Bool) : Chronicle :=
  ⟨.start draft verifies, fun _ => none⟩

/-- A call copies objects as it finds them. -/
def perform (chronicle : Chronicle) (call : Call) : Run Chronicle := do
  let recording ← call.perform chronicle.recording
  return ⟨recording, match call with
    | .archive live .. => remember chronicle.recording.copies chronicle.memory live
    | _ => chronicle.memory⟩

def play (calls : List Call) (chronicle : Chronicle) : Run Chronicle :=
  calls.foldlM perform chronicle

/-- The images of a recording hold the copies of its tiles, and nothing else but the first word of
the closed region. -/
structure WellFormed (chronicle : Chronicle) (tiles : List Tile) : Prop where
  /-- Each object that has a copy has one tile, which is where its copy is. -/
  distinct : (tiles.map Tile.object).Nodup
  copied : ∀ object place, chronicle.recording.copies[object]? = some place ↔
    ∃ tile ∈ tiles, tile.object = object ∧ tile.place chronicle.recording.draft = place
  /-- A tile holds its object as it was when it was copied. -/
  remembered : ∀ tile ∈ tiles, ∃ seen,
    chronicle.memory tile.object = some seen ∧ tile.Depicts seen
  /-- The tiles of a region lie one behind the other, and end where the image ends. -/
  tiled : ∀ region, Abutting region.first (tilesIn region tiles)
    (chronicle.recording.draft.image region).words.size
  /-- No object has the narrow form of null. -/
  sentinel : chronicle.recording.draft.closed.words[0]? = some 0
  /-- Each tile starts with the header of its object. -/
  headers : ∀ tile ∈ tiles, ∃ word,
    (chronicle.recording.draft.image tile.region).words[tile.start]? = some word ∧
      chronicle.recording.draft.names[headerClass word]? = some tile.name ∧
      headerSlots word = tile.slots.size
  covered : ∀ region, (chronicle.recording.draft.image region).marks.length =
    (chronicle.recording.draft.image region).words.size
  /-- The marked words are the reference slots of the tiles. -/
  marked : ∀ region index,
    (chronicle.recording.draft.image region).marks.isSet index = true ↔
      ∃ tile ∈ tiles, tile.region = region ∧ ∃ slot : Nat, index = tile.start + 1 + slot ∧
        ∃ reference, tile.slots[slot]? = some reference ∧ reference.isReference = true
  /-- A marked word is null or leads to the start of a copy, and never out of the closed region. -/
  references : ∀ region index word,
    (chronicle.recording.draft.image region).words[index]? = some word →
    (chronicle.recording.draft.image region).marks.isSet index = true →
      word = 0 ∨ ∃ narrow : Narrow, word = narrow.toUInt64 ∧ ∃ tile ∈ tiles,
        chronicle.recording.draft.resolve? narrow =
          .ok (some (tile.place chronicle.recording.draft)) ∧
        (region = .closed → tile.region = .closed)

variable {known : List String} {chronicle after : Chronicle} {tiles : List Tile}

/-- A call leaves finished copies of the objects as they were when they were copied. -/
theorem intact_perform {call : Call} (familiar : call.Knows known)
    (done : chronicle.perform call = .ok after)
    (intact : ∃ tiles, chronicle.recording.Intact known chronicle.memory tiles) :
    ∃ tiles, after.recording.Intact known after.memory tiles := by
  obtain ⟨tiles, intact⟩ := intact
  obtain ⟨recording, performed, same⟩ := bind_eq_ok_iff.mp done
  cases same
  cases call with
  | start live root isPartial => exact ⟨tiles, intact.startRound performed⟩
  | archive live screening ofClass offset region =>
    obtain ⟨⟨outcome, later⟩, archived, same⟩ := bind_eq_ok_iff.mp performed
    cases same
    obtain ⟨more, finished⟩ := intact.archiveStatic (familiar live rfl) archived
    exact ⟨tiles ++ more, finished⟩
  | markPartial =>
    cases performed
    exact ⟨tiles, intact.markPartial⟩
  | finish =>
    obtain ⟨⟨tally, later⟩, ended, same⟩ := bind_eq_ok_iff.mp performed
    cases same
    exact ⟨tiles, intact.endRound ended⟩

private theorem intact_play {settings : Settings} {draft : Draft} {verifies : Bool}
    {calls : List Call} (started : Draft.start settings = .ok draft) (bounded : settings.Bounded)
    (familiar : ∀ call ∈ calls, call.Knows known)
    (played : play calls (start draft verifies) = .ok chronicle) :
    ∃ tiles, chronicle.recording.Intact known chronicle.memory tiles :=
  foldlM_preserves (fun chronicle => ∃ tiles,
      chronicle.recording.Intact known chronicle.memory tiles)
    (fun call member _ _ done intact => intact_perform (familiar call member) done intact)
    ⟨[], .start started bounded verifies⟩ played

private theorem wellFormed_of_intact {names : List String}
    (intact : chronicle.recording.Intact names chronicle.memory tiles)
    (few : names.length ≤ UInt32.size) : chronicle.WellFormed tiles := by
  have linked := intact.linked
  have tiling := linked.tiling
  constructor
  · exact tiling.distinct
  · exact tiling.copied
  · exact linked.remembered
  · exact tiling.abutting
  · exact (Image.cellAt?_eq_some_iff.mp tiling.framed.sentinel).1
  · intro tile member
    have shows := linked.shows tile member
    obtain ⟨classIndex, named, cell⟩ := shows.header
    have small := Nat.lt_of_lt_of_le (Array.getElem?_eq_some_iff.mp named).1
      (Nat.le_trans intact.named.size_le few)
    refine ⟨_, (Image.cellAt?_eq_some_iff.mp cell).1, ?_, ?_⟩
    · rw [headerClass_header, UInt32.toNat_ofNat', Nat.mod_eq_of_lt small]
      exact named
    · rw [headerSlots_header, UInt32.toNat_ofNat', Nat.mod_eq_of_lt shows.short]
  · exact tiling.framed.covered
  · exact fun _ _ => linked.isSet_iff
  · intro region index word found marked
    obtain ⟨tile, member, rfl, slot, rfl, reference, value, _⟩ := linked.isSet_iff.mp marked
    obtain ⟨inside, same⟩ := Array.getElem?_eq_some_iff.mp value
    have cell := (Image.cellAt?_eq_some_iff.mp ((linked.shows tile member).slots slot inside)).1
    rw [found, same] at cell
    cases reference with
    | bits _ => contradiction
    | null => exact .inl (Option.some.inj cell)
    | ref target =>
      obtain ⟨place, known, closed⟩ :=
        linked.settled tile member target (same ▸ Array.getElem_mem inside)
      obtain ⟨other, there, rfl, rfl⟩ := (tiling.copied target place).mp known
      obtain ⟨narrow, stored, _, _, _, resolved⟩ := tiling.linkWord_eq there
      exact .inr ⟨narrow, (Option.some.inj cell).trans stored, other, there, resolved, closed⟩

/-- Every run of calls ends with well-formed images, whichever calls fail and however the slots, the
static fields and the objects of the live heap change in between. -/
theorem wellFormed_play {settings : Settings} {draft : Draft} {verifies : Bool}
    {calls : List Call} (heap : Live) (started : Draft.start settings = .ok draft)
    (bounded : settings.Bounded) (classes : ∀ call ∈ calls, call.Knows heap.classNames)
    (played : play calls (start draft verifies) = .ok chronicle) :
    ∃ tiles, chronicle.WellFormed tiles := by
  obtain ⟨tiles, intact⟩ := intact_play started bounded classes played
  refine ⟨tiles, wellFormed_of_intact intact ?_⟩
  rw [Live.classNames, List.length_map, Array.length_toList]
  exact heap.numbered

/-- Recordings of the ring, into either region; the second one may not reach into the first. -/
def ringCalls : List Call :=
  [.start .ring ⟨0⟩ false, .archive .ring (.start []) ⟨0⟩ 16 .opened, .finish,
    .start .ring ⟨0⟩ true, .archive .ring (.start []) ⟨0⟩ 24 .closed,
    .archive .ring (.start []) ⟨0⟩ 16 .closed, .finish]

theorem wellFormed_play_ring : ∃ draft chronicle, Draft.start {} = .ok draft ∧
    play ringCalls (start draft true) = .ok chronicle ∧ ∃ tiles, chronicle.WellFormed tiles := by
  obtain ⟨draft, started, played⟩ : ∃ draft, Draft.start {} = .ok draft ∧
      (play ringCalls (start draft true)).isOk = true := ⟨_, rfl, by decide +kernel⟩
  cases result : play ringCalls (start draft true) with
  | error breach =>
    rw [result] at played
    cases played
  | ok chronicle =>
    refine ⟨draft, chronicle, started, result, wellFormed_play .ring started (by decide) ?_ result⟩
    intro call member live looks name listed
    have same : live = .ring := by
      simp only [ringCalls, List.mem_cons, List.not_mem_nil, or_false] at member
      rcases member with rfl | rfl | rfl | rfl | rfl | rfl | rfl <;> cases looks <;> rfl
    exact same ▸ listed

end Chronicle
end FrozenHeap
