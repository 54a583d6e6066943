import FrozenHeap.Dump
import FrozenHeap.Proofs.Recording.Truthful

namespace FrozenHeap

namespace Dump

/-- A dump of a heap and of these nominations, of which nothing but true pages was recorded. -/
structure Truthful (live : Live) (nominations : Array Nomination) (dump : Dump) : Prop where
  heap : dump.live = live
  nominated : dump.nominations = nominations
  recorded : dump.recording.Truthful live

/-- The nominations of these indices are of static fields of one class. -/
def Grouped (nominations : Array Nomination) (group : ClassId × List Nat) : Prop :=
  ∀ index ∈ group.2, ∀ nomination, nominations[index]? = some nomination →
    ∃ offset, nomination.resolved = some (group.1, offset)

variable {live : Live} {nominations : Array Nomination} {dump after : Dump} {root : ClassId}

namespace Truthful

/-- A dump goes on with what was recorded; the counts do not matter. -/
theorem record (truthful : dump.Truthful live nominations) {recording : Recording}
    (recorded : recording.Truthful live) (change : Totals → Totals) :
    (Dump.count { dump with recording := recording } change).Truthful live nominations := by
  obtain ⟨tiles, intact⟩ := recorded.intact
  exact ⟨truthful.heap, truthful.nominated, ⟨tiles, intact.congr rfl rfl intact.seen⟩,
    recorded.pages⟩

/-- Archiving a nominated field of the root in progress leaves true pages. -/
theorem archive (truthful : dump.Truthful live nominations) (rooted : dump.recording.Rooted root)
    {index : Nat} (ofRoot : ∀ nomination, nominations[index]? = some nomination →
      ∃ offset, nomination.resolved = some (root, offset))
    {answer : Option Entry} (done : dump.archive index = .ok (answer, after)) :
    after.Truthful live nominations ∧ after.recording.Rooted root := by
  unfold Dump.archive at done
  split at done
  · cases done
    exact ⟨truthful, rooted⟩
  · rename_i nomination found
    obtain ⟨offset, resolved⟩ := ofRoot nomination (truthful.nominated ▸ found)
    split at done
    · obtain ⟨⟨outcome, recording⟩, archived, done⟩ := bind_eq_ok_iff.mp done
      simp only [Recording.archiveNomination, resolved, truthful.heap] at archived
      obtain ⟨finished, still⟩ := truthful.recorded.archiveStatic rooted archived
      cases outcome with
      | error failure =>
        cases done
        exact ⟨truthful.record finished _, still⟩
      | ok entry =>
        cases done
        exact ⟨truthful.record finished _, still⟩
    · cases done
      exact ⟨truthful.record truthful.recorded _, rooted⟩

theorem startRound (truthful : dump.Truthful live nominations) {isPartial : Bool}
    (done : dump.startRound root isPartial = .ok after) :
    after.Truthful live nominations ∧ after.recording.Rooted root := by
  obtain ⟨recording, started, same⟩ := bind_eq_ok_iff.mp done
  cases same
  rw [truthful.heap] at started
  obtain ⟨finished, rooted⟩ := truthful.recorded.startRound started
  exact ⟨⟨truthful.heap, truthful.nominated, finished⟩, rooted⟩

theorem endRound (truthful : dump.Truthful live nominations) {tally : Tally}
    (done : dump.endRound = .ok (tally, after)) : after.Truthful live nominations := by
  obtain ⟨⟨_, recording⟩, ended, same⟩ := bind_eq_ok_iff.mp done
  cases same
  exact ⟨truthful.heap, truthful.nominated, truthful.recorded.endRound ended⟩

theorem archiveGroup (truthful : dump.Truthful live nominations) {group : ClassId × List Nat}
    (grouped : Grouped nominations group) (done : dump.archiveGroup group = .ok after) :
    after.Truthful live nominations := by
  obtain ⟨started, starts, done⟩ := bind_eq_ok_iff.mp done
  obtain ⟨archived, archives, done⟩ := bind_eq_ok_iff.mp done
  obtain ⟨⟨tally, ended⟩, ends, same⟩ := bind_eq_ok_iff.mp done
  cases same
  have kept := foldlM_preserves
    (fun dump => dump.Truthful live nominations ∧ dump.recording.Rooted group.1)
    (fun index member dump next step ⟨truthful, rooted⟩ => by
      obtain ⟨⟨answer, later⟩, archived, same⟩ := bind_eq_ok_iff.mp step
      cases same
      exact truthful.archive rooted (grouped index member) archived)
    (truthful.startRound starts) archives
  exact kept.1.endRound ends

/-- Archiving a static field of the root in progress leaves true pages. -/
theorem archiveStatic (truthful : dump.Truthful live nominations)
    (rooted : dump.recording.Rooted root) {field : StaticField}
    (done : dump.archiveStatic root field = .ok after) :
    after.Truthful live nominations ∧ after.recording.Rooted root := by
  obtain ⟨⟨outcome, recording⟩, archived, done⟩ := bind_eq_ok_iff.mp done
  rw [truthful.heap] at archived
  obtain ⟨finished, still⟩ := truthful.recorded.archiveStatic rooted archived
  cases outcome with
  | error failure =>
    cases done
    obtain ⟨marked, rooted⟩ := finished.markPartial still
    exact ⟨truthful.record marked _, rooted⟩
  | ok entry =>
    cases done
    exact ⟨truthful.record finished _, still⟩

theorem archiveWhole (truthful : dump.Truthful live nominations)
    (done : dump.archiveWhole root = .ok after) : after.Truthful live nominations := by
  obtain ⟨shape, _, done⟩ := bind_eq_ok_iff.mp done
  simp only at done
  split at done
  · obtain ⟨started, starts, done⟩ := bind_eq_ok_iff.mp done
    obtain ⟨archived, archives, done⟩ := bind_eq_ok_iff.mp done
    obtain ⟨⟨tally, ended⟩, ends, same⟩ := bind_eq_ok_iff.mp done
    cases same
    have kept := foldlM_preserves
      (fun dump => dump.Truthful live nominations ∧ dump.recording.Rooted root)
      (fun _ _ _ _ step ⟨truthful, rooted⟩ => truthful.archiveStatic rooted step)
      (truthful.startRound starts) archives
    exact kept.1.endRound ends
  · cases done
    exact truthful.record truthful.recorded _

end Truthful

theorem grouped_of_mem_groups {group : ClassId × List Nat} (member : group ∈ dump.groups) :
    Grouped dump.nominations group := by
  obtain ⟨region, _, member⟩ := List.mem_flatMap.mp member
  obtain ⟨ofClass, _, rfl⟩ := List.mem_map.mp member
  intro index listed nomination found
  obtain ⟨pair, present, rfl⟩ := List.mem_map.mp listed
  obtain ⟨present, same⟩ := List.mem_filter.mp present
  obtain ⟨⟨other, position⟩, numbered, kept⟩ := List.mem_filterMap.mp present
  have here := List.mem_zipIdx_iff_getElem?.mp numbered
  rw [Array.getElem?_toList] at here
  simp only at kept
  split at kept
  · rename_i owner offset resolved
    split at kept
    · cases kept
      rw [found] at here
      cases here
      exact ⟨offset, resolved.trans (congrArg (fun owner => some (owner, offset))
        (beq_iff_eq.mp same))⟩
    · cases kept
  · cases kept

/-- Archiving all that was nominated leaves true pages. -/
theorem truthful_archiveAll (recording : dump.recording.Truthful dump.live)
    (done : dump.archiveAll = .ok after) :
    after.live = dump.live ∧ after.recording.Truthful dump.live := by
  obtain ⟨screened, screens, done⟩ := bind_eq_ok_iff.mp done
  obtain ⟨grouped, groups, wholes⟩ := bind_eq_ok_iff.mp done
  have kept : screened.live = dump.live ∧ screened.recording = dump.recording := by
    unfold screen at screens
    split at screens
    · cases screens
      exact ⟨rfl, rfl⟩
    · obtain ⟨_, _, screens⟩ := bind_eq_ok_iff.mp screens
      obtain ⟨_, _, same⟩ := bind_eq_ok_iff.mp screens
      cases same
      exact ⟨rfl, rfl⟩
  have start : screened.Truthful dump.live screened.nominations :=
    ⟨kept.1, rfl, kept.2 ▸ recording⟩
  have middle := foldlM_preserves (Truthful dump.live screened.nominations)
    (fun group member _ _ step truthful =>
      truthful.archiveGroup (grouped_of_mem_groups member) step) start groups
  have last := foldlM_preserves (Truthful dump.live screened.nominations)
    (fun _ _ _ _ step truthful => truthful.archiveWhole step) middle wholes
  exact ⟨last.heap, last.recorded⟩

end Dump
end FrozenHeap
