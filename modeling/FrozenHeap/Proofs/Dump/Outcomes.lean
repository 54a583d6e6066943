import FrozenHeap.Proofs.Dump.Logs

namespace FrozenHeap

private theorem map_offset_filterMap {trials : List Trial}
    (placed : ∀ trial ∈ trials, ∃ entry, trial.outcome = .ok entry ∧ entry.offset = trial.offset) :
    (trials.filterMap (·.outcome.toOption)).map (·.offset) = trials.map (·.offset) := by
  induction trials with
  | nil => rfl
  | cons trial rest ih =>
    obtain ⟨entry, succeeded, here⟩ := placed trial List.mem_cons_self
    have first : trial.outcome.toOption = some entry := by
      rw [succeeded]
      rfl
    have others := ih fun other listed => placed other (List.mem_cons_of_mem _ listed)
    simp only [List.filterMap_cons, first, List.map_cons, here, others]

namespace Dump

/-- A class that passed the screening declares static fields, and all of them were archived. -/
structure ArchivedWhole (screened : Dump) (ofClass : ClassId) (shape : ClassShape) : Prop where
  known : screened.live.shapeOf ofClass = .ok shape
  passed : screened.isPreservableClass ofClass = true
  declares : 0 < shape.statics.size
  archived : ∀ field ∈ shape.statics, ∃ entry, screened.Tries ofClass field.offset (.ok entry)

variable {screened turn after : Dump} {log : List Trial} {index : Nat} {ofClass : ClassId}
  {offset : UInt32} {outcome : Outcome Entry} {field : StaticField} {outline : Outline}

/-- A log has all that was tried, as it is in the end. -/
structure Completes (screened : Dump) (log : List Trial) (after : Dump) : Prop where
  logged : screened.Logged log after
  covers : ∀ index ∈ screened.groups.flatMap (·.2), screened.Covers log index
  enumerates : ∀ ofClass ∈ screened.wholes, screened.Enumerates log ofClass

/-- A dump that was screened with care has a log when all has been archived. -/
theorem Vetted.exists_log (vetted : screened.Vetted)
    (blank : ∀ ofClass, screened.outline? ofClass = none)
    (done : screened.archiveScreened = .ok after) : ∃ log, screened.Completes log after := by
  obtain ⟨grouped, groups, wholes⟩ := bind_eq_ok_iff.mp done
  obtain ⟨onward, _⟩ := vetted.ready.archiveGroups groups
  obtain ⟨log, logged, apart, covers⟩ := vetted.ready.exists_log_archiveGroups blank groups
  rw [onward.underway.wholes] at wholes
  obtain ⟨more, logged, enumerates⟩ :=
    vetted.exists_log_archiveWholes groups logged apart wholes
  exact ⟨log ++ more, logged, fun index listed =>
    (covers index listed).mono (List.subset_append_left _ _), enumerates⟩

namespace Completes

variable (completes : screened.Completes log after)
include completes

/-- A static field of a whole class that passed the screening is in the log. -/
theorem exists_trial {shape : ClassShape} (whole : ofClass ∈ screened.wholes)
    (passed : screened.isPreservableClass ofClass = true)
    (known : screened.live.shapeOf ofClass = .ok shape) (declared : field ∈ shape.statics) :
    ∃ trial ∈ log, trial.ofClass = ofClass ∧ trial.offset = field.offset := by
  have listed : field.offset ∈ (trialsOf log ofClass).map (·.offset) := by
    rw [completes.enumerates ofClass whole passed shape known]
    exact List.mem_map_of_mem (Array.mem_toList_iff.mpr declared)
  obtain ⟨trial, member, here⟩ := List.mem_map.mp listed
  obtain ⟨member, owner⟩ := mem_trialsOf.mp member
  exact ⟨trial, member, owner, here⟩

variable (vetted : screened.Vetted)
include vetted

theorem mem_log (tries : screened.Tries ofClass offset outcome) :
    ⟨ofClass, offset, outcome⟩ ∈ log := by
  have listed : ∃ trial ∈ log, trial.ofClass = ofClass ∧ trial.offset = offset := by
    cases tries with
    | nominated turns found passed resolved =>
      exact completes.covers _ turns.mem_groups ofClass offset ⟨_, found, passed, resolved⟩
    | whole turns here =>
      obtain ⟨shape, known, declared⟩ := turns.exists_shape
      exact here ▸ completes.exists_trial turns.mem_wholes turns.passed known declared
  obtain ⟨⟨_, _, other⟩, member, rfl, rfl⟩ := listed
  cases tries.unique vetted (completes.logged.tried _ member)
  exact member

/-- The entries of a class are those of its static fields that were tried with success. -/
theorem mem_entries_iff (found : after.outline? ofClass = some outline) {entry : Entry} :
    entry ∈ outline.entries ↔ screened.Tries ofClass entry.offset (.ok entry) := by
  rw [completes.logged.outlined ofClass outline found, mem_entries_outlineOf]
  constructor
  · rintro ⟨trial, member, rfl, succeeded⟩
    have tries := completes.logged.tried trial member
    rw [succeeded] at tries
    exact tries.offset_eq ▸ tries
  · exact fun tries => ⟨_, completes.mem_log vetted tries, rfl, rfl⟩

theorem exists_outline {entry : Entry} (tries : screened.Tries ofClass offset (.ok entry)) :
    ∃ outline, after.outline? ofClass = some outline ∧ entry ∈ outline.entries := by
  obtain ⟨outline, found⟩ :=
    Option.isSome_iff_exists.mp (completes.logged.opened _ (completes.mem_log vetted tries))
  exact ⟨outline, found, (completes.mem_entries_iff vetted found).mpr (tries.offset_eq ▸ tries)⟩

/-- A class with entries is not partial exactly if it is whole and all of it was archived. -/
theorem isPartial_iff (found : after.outline? ofClass = some outline)
    (written : outline.entries ≠ []) : outline.isPartial = false ↔
      ofClass ∈ screened.wholes ∧ ∃ shape, screened.ArchivedWhole ofClass shape := by
  obtain ⟨entry, present⟩ := List.exists_mem_of_ne_nil _ written
  have first := (completes.mem_entries_iff vetted found).mp present
  rw [completes.logged.outlined ofClass outline found, isPartial_outlineOf, decide_eq_false_iff_not,
    not_not]
  refine and_congr_right fun whole => ⟨fun succeeded => ?_, ?_⟩
  · obtain ⟨field, turn, turns, _⟩ := first.exists_turn whole
    obtain ⟨shape, known, declared⟩ := turns.exists_shape
    refine ⟨shape, known, turns.passed, Array.size_pos_of_mem declared, fun other member => ?_⟩
    obtain ⟨trial, listed, rfl, here⟩ :=
      completes.exists_trial whole turns.passed known member
    obtain ⟨entry, success⟩ := succeeded trial listed rfl
    exact ⟨entry, success ▸ here ▸ completes.logged.tried trial listed⟩
  · rintro ⟨shape, archived⟩ trial listed rfl
    have tries := completes.logged.tried trial listed
    obtain ⟨field, turn, turns, here⟩ := tries.exists_turn whole
    obtain ⟨other, known, declared⟩ := turns.exists_shape
    rw [archived.known] at known
    cases known
    obtain ⟨entry, success⟩ := archived.archived field declared
    exact ⟨entry, tries.unique vetted (here ▸ success)⟩

/-- A class that is not partial has one entry for each static field, in the order in which they
are declared. -/
theorem map_offset_entries {shape : ClassShape} (found : after.outline? ofClass = some outline)
    (written : outline.entries ≠ []) (complete : outline.isPartial = false)
    (known : screened.live.shapeOf ofClass = .ok shape) :
    outline.entries.map (·.offset) = shape.statics.toList.map (·.offset) := by
  obtain ⟨whole, other, archived⟩ := (completes.isPartial_iff vetted found written).mp complete
  rw [completes.logged.outlined ofClass outline found, isPartial_outlineOf] at complete
  rw [completes.logged.outlined ofClass outline found, outlineOf,
    ← completes.enumerates ofClass whole archived.passed shape known]
  refine map_offset_filterMap fun trial listed => ?_
  obtain ⟨member, owner⟩ := mem_trialsOf.mp listed
  obtain ⟨entry, success⟩ := complete.2 trial member owner
  exact ⟨entry, success, (success ▸ completes.logged.tried trial member).offset_eq⟩

end Completes
end Dump
end FrozenHeap
