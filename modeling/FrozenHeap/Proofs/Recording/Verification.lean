import FrozenHeap.Proofs.Recording.Embedding
import FrozenHeap.Proofs.Recording.Rollback

/-! What a recording answers when it compares its copies with a live heap, as it is then. -/

namespace FrozenHeap
namespace Recording

private theorem framed_play {settings : Settings} {draft : Draft} {verifies : Bool}
    {calls : List Call} {recording : Recording} (started : Draft.start settings = .ok draft)
    (bounded : settings.Bounded)
    (played : calls.foldlM Call.perform (start draft verifies) = .ok recording) :
    recording.draft.Framed := by
  -- the invariant of chronicles needs the names of all classes that are looked at
  let known := calls.flatMap fun call => (call.live?.map Live.classNames).getD []
  have familiar : ∀ call ∈ calls, call.Knows known := by
    intro call member live looks name listed
    refine List.mem_flatMap.mpr ⟨call, member, ?_⟩
    rw [looks]
    exact listed
  have intact : ∃ memory tiles, recording.Intact known memory tiles := by
    refine foldlM_preserves (fun recording => ∃ memory tiles, recording.Intact known memory tiles)
      ?_ ⟨fun _ => none, [], .start started bounded verifies⟩ played
    rintro call member before after done ⟨memory, intact⟩
    have performed : Chronicle.perform ⟨before, memory⟩ call = .ok ⟨after, _⟩ :=
      bind_eq_ok_iff.mpr ⟨after, done, rfl⟩
    exact ⟨_, Chronicle.intact_perform (familiar call member) performed intact⟩
  obtain ⟨memory, tiles, intact⟩ := intact
  exact intact.linked.tiling.framed

/-- A comparison of a graph of copies with a live graph has an answer. It succeeds exactly if each
object has one copy that it agrees with; so what it accepts has the shape of the live graph unless
two objects share a copy. -/
theorem decides_verify {settings : Settings} {draft : Draft} {verifies : Bool} {calls : List Call}
    {recording : Recording} {live : Live} {root : ObjectId}
    (started : Draft.start settings = .ok draft) (bounded : settings.Bounded)
    (played : calls.foldlM Call.perform (start draft verifies) = .ok recording)
    (closed : live.Closed) (inside : root.index < live.objects.size) (place : Place) :
    (∃ outcome, recording.draft.verify live root place = .ok outcome ∧
      ∀ failure, outcome = .error failure → failure.isMismatch = true) ∧
    (recording.draft.verify live root place = .ok (.ok ()) ↔
      ∃ image, recording.draft.Embeds live root place image) ∧
    (recording.draft.Isomorphic live root place ↔
      recording.draft.verify live root place = .ok (.ok ()) ∧
        ¬ recording.draft.Merges live root place) := by
  refine ⟨?_, Draft.verify_ok_iff, Draft.isomorphic_iff⟩
  obtain ⟨outcome, compared⟩ := (framed_play started bounded played).exists_lockstep closed
    [(root, place)] ∅ fun pairing member => by rwa [List.mem_singleton.mp member]
  refine ⟨outcome, compared, fun failure same => ?_⟩
  cases same
  exact Draft.isMismatch_of_lockstep compared

def leafy : Array LoadedClass := Live.ring.classes.push (.ofShape (.named "Leaf" .plain))

def twice : Live where
  classes := leafy
  objects := #[⟨⟨0⟩, #[.ref ⟨1⟩, .ref ⟨1⟩]⟩, ⟨⟨1⟩, #[.bits 7]⟩]
  distinct := by decide
  classified := by decide
  numbered := by decide

/-- The same node when one of its references leads to another leaf with the same bits. -/
def parted : Live where
  classes := leafy
  objects := #[⟨⟨0⟩, #[.ref ⟨1⟩, .ref ⟨2⟩]⟩, ⟨⟨1⟩, #[.bits 7]⟩, ⟨⟨1⟩, #[.bits 7]⟩]
  distinct := by decide
  classified := by decide
  numbered := by decide

/-- The node is archived while it refers to one leaf. -/
def twiceCalls : List Call :=
  [.start twice ⟨0⟩ false, .archive twice (.start []) ⟨0⟩ 16 .opened, .finish]

/-- A copy in which two leaves are one passes its comparison. -/
theorem decides_verify_parted : ∃ draft recording place, Draft.start {} = .ok draft ∧
    twiceCalls.foldlM Call.perform (start draft true) = .ok recording ∧
    recording.copies[(⟨0⟩ : ObjectId)]? = some place ∧
    recording.draft.verify parted ⟨0⟩ place = .ok (.ok ()) ∧
    ¬ recording.draft.Isomorphic parted ⟨0⟩ place := by
  obtain ⟨draft, started, ran⟩ : ∃ draft, Draft.start {} = .ok draft ∧
      (twiceCalls.foldlM Call.perform (start draft true)).toOption.any (fun recording =>
        recording.copies[(⟨0⟩ : ObjectId)]?.any fun place =>
          recording.copies[(⟨1⟩ : ObjectId)]?.any fun leaf => (parted.portrait? ⟨0⟩).any fun seen =>
            decide (recording.draft.verify parted ⟨0⟩ place = .ok (.ok ()) ∧
              recording.draft.compareObject seen.shape seen.slots place =
                .ok (.ok [(⟨1⟩, leaf), (⟨2⟩, leaf)]))) = true := ⟨_, rfl, by decide +kernel⟩
  obtain ⟨recording, played, checked⟩ := any_toOption_iff.mp ran
  simp only [Option.any_eq_true, decide_eq_true_eq] at checked
  obtain ⟨place, known, leaf, _, seen, found, done, compared⟩ := checked
  have closed : parted.Closed := Live.closed_of_targets (by decide +kernel) (by decide +kernel)
  have inside : (⟨0⟩ : ObjectId).index < parted.objects.size := by decide
  obtain ⟨_, accepts, same⟩ := decides_verify started (by decide) played closed inside place
  refine ⟨draft, recording, place, started, played, known, done, fun isomorphic => ?_⟩
  obtain ⟨image, embeds⟩ := accepts.mp done
  obtain ⟨_, here, agrees⟩ := embeds.agrees ⟨0⟩ .refl
  cases found.symm.trans here
  obtain ⟨_, again, follow⟩ := Draft.agrees_iff.mp agrees
  rw [embeds.start, compared] at again
  cases again
  have first : image ⟨1⟩ = leaf := follow (⟨1⟩, leaf) (by simp)
  have second : image ⟨2⟩ = leaf := follow (⟨2⟩, leaf) (by simp)
  have reaches : ∀ target, (∃ copy, (target, copy) ∈ [((⟨1⟩ : ObjectId), leaf), (⟨2⟩, leaf)]) →
      parted.Reaches ⟨0⟩ target := fun target member =>
    .single ⟨seen, found, (Draft.exists_pairing_iff compared).mp member⟩
  exact (same.mp isomorphic).2 ⟨image, embeds, ⟨1⟩, ⟨2⟩, reaches _ ⟨leaf, by simp⟩,
    reaches _ ⟨leaf, by simp⟩, by decide, first.trans second.symm⟩

end Recording
end FrozenHeap
