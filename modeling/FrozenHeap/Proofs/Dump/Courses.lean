import FrozenHeap.Proofs.Dump.Completion
import FrozenHeap.Proofs.Recording.Listing

namespace FrozenHeap

namespace Recording

/-- A recording has gone on by calls that look at one heap and at one screening. The counts may have
changed in between. -/
inductive Course (live : Live) (screening : Screening) (before : Recording) : Recording → Prop where
  | stay : Course live screening before before
  | perform {middle after : Recording} (call : Call) (course : Course live screening before middle)
      (looks : call.LooksAt live screening) (done : call.perform middle = .ok after) :
      Course live screening before after
  | recount {middle : Recording} (totals : Totals) (course : Course live screening before middle) :
      Course live screening before { middle with totals := totals }

variable {live : Live} {screening : Screening} {before middle after : Recording}

namespace Course

theorem trans (front : Course live screening before middle)
    (back : Course live screening middle after) : Course live screening before after := by
  induction back with
  | stay => exact front
  | perform call _ looks done ih => exact ih.perform call looks done
  | recount totals _ ih => exact ih.recount totals

theorem preserves (holds : Recording → Prop) (course : Course live screening before after)
    (perform : ∀ (call : Call) (recording next : Recording), call.LooksAt live screening →
      holds recording → call.perform recording = .ok next → holds next)
    (recount : ∀ recording totals, holds recording →
      holds { recording with totals := totals }) (initial : holds before) : holds after := by
  induction course with
  | stay => exact initial
  | perform call _ looks done ih => exact perform call _ _ looks ih done
  | recount totals _ ih => exact recount _ totals ih

theorem archiveStatic {ofClass : ClassId} {offset : UInt32} {region : Region}
    {outcome : Outcome Entry} (done : before.archiveStatic live screening ofClass offset region =
      .ok (outcome, after)) : Course live screening before after :=
  Course.stay.perform (.archive live screening ofClass offset region) ⟨rfl, rfl⟩
    (bind_eq_ok_iff.mpr ⟨_, done, rfl⟩)

end Course
end Recording

namespace Dump

/-- A dump has gone on recording; nothing else of it has changed. -/
structure Continues (before after : Dump) : Prop where
  same : after = { before with recording := after.recording }
  course : Recording.Course before.live before.screening before.recording after.recording

variable {dump before middle after : Dump} {root : ClassId}

namespace Continues

theorem refl (dump : Dump) : dump.Continues dump := ⟨rfl, .stay⟩

theorem trans (front : before.Continues middle) (back : middle.Continues after) :
    before.Continues after where
  same := by rw [back.same, front.same]
  course := by
    have course := back.course
    rw [front.same] at course
    exact front.course.trans course

theorem fold {α : Type} {change : Dump → α → Run Dump} {items : List α}
    (step : ∀ item ∈ items, ∀ state next, change state item = .ok next → state.Continues next)
    (done : items.foldlM change before = .ok after) : before.Continues after :=
  foldlM_preserves (Continues before)
    (fun item member _ _ changed continues => continues.trans (step item member _ _ changed))
    (refl before) done

theorem startRound {isPartial : Bool} (done : dump.startRound root isPartial = .ok after) :
    dump.Continues after := by
  obtain ⟨recording, started, same⟩ := bind_eq_ok_iff.mp done
  cases same
  exact ⟨rfl, Recording.Course.stay.perform (.start dump.live root isPartial) rfl started⟩

theorem endRound {tally : Tally} (done : dump.endRound = .ok (tally, after)) :
    dump.Continues after := by
  obtain ⟨⟨_, recording⟩, ended, same⟩ := bind_eq_ok_iff.mp done
  cases same
  exact ⟨rfl, Recording.Course.stay.perform .finish trivial
    (bind_eq_ok_iff.mpr ⟨_, ended, rfl⟩)⟩

theorem archive {index : Nat} {answer : Option Entry}
    (done : dump.archive index = .ok (answer, after)) : dump.Continues after := by
  rcases archive_cases done with ⟨_, _, totals, _, rfl⟩ |
    ⟨nomination, outcome, recording, totals, _, _, archived, _, _, rfl⟩
  · exact ⟨rfl, .recount totals .stay⟩
  · refine ⟨rfl, .recount totals ?_⟩
    unfold Recording.archiveNomination at archived
    split at archived
    · cases archived
      exact .stay
    · exact .archiveStatic archived

theorem archiveGroup {group : ClassId × List Nat} (done : dump.archiveGroup group = .ok after) :
    dump.Continues after := by
  obtain ⟨started, starts, done⟩ := bind_eq_ok_iff.mp done
  obtain ⟨archived, archives, done⟩ := bind_eq_ok_iff.mp done
  obtain ⟨⟨tally, ended⟩, ends, same⟩ := bind_eq_ok_iff.mp done
  cases same
  have turns : started.Continues archived := by
    refine fold (fun index _ state next step => ?_) archives
    obtain ⟨⟨answer, later⟩, turned, same⟩ := bind_eq_ok_iff.mp step
    cases same
    exact archive turned
  exact (startRound starts).trans (turns.trans (endRound ends))

theorem archiveStatic {field : StaticField} (done : dump.archiveStatic root field = .ok after) :
    dump.Continues after := by
  obtain ⟨⟨outcome, recording⟩, archived, done⟩ := bind_eq_ok_iff.mp done
  have course := Recording.Course.archiveStatic archived
  cases outcome with
  | error failure =>
    cases done
    exact ⟨rfl, .recount _ (course.perform .markPartial trivial rfl)⟩
  | ok entry =>
    cases done
    exact ⟨rfl, .recount _ course⟩

theorem archiveWhole (done : dump.archiveWhole root = .ok after) : dump.Continues after := by
  obtain ⟨shape, _, done⟩ := bind_eq_ok_iff.mp done
  simp only at done
  split at done
  · obtain ⟨started, starts, done⟩ := bind_eq_ok_iff.mp done
    obtain ⟨archived, archives, done⟩ := bind_eq_ok_iff.mp done
    obtain ⟨⟨tally, ended⟩, ends, same⟩ := bind_eq_ok_iff.mp done
    cases same
    have fields : started.Continues archived :=
      fold (fun _ _ _ _ step => archiveStatic step) archives
    exact (startRound starts).trans (fields.trans (endRound ends))
  · cases done
    exact ⟨rfl, .recount _ .stay⟩

theorem archiveScreened (done : before.archiveScreened = .ok after) : before.Continues after := by
  obtain ⟨grouped, groups, wholes⟩ := bind_eq_ok_iff.mp done
  exact (fold (fun _ _ _ _ step => archiveGroup step) groups).trans
    (fold (fun _ _ _ _ step => archiveWhole step) wholes)

end Continues

/-- A screening settles what there is to archive; it records nothing. -/
theorem screen_ok (done : dump.screen = .ok after) :
    dump.screened = true ∧ after = dump ∨
      dump.screened = false ∧ ∃ classes fields nominations,
        dump.screening.checkClasses dump.live
          (dump.wholeNames.toList.filterMap dump.live.classNamed?) = .ok classes ∧
        classes.checkFields dump.live dump.nominations.toList = .ok (nominations, fields) ∧
        after = { dump with
          screening := fields
          nominations := nominations.toArray
          wholes := dump.wholeNames.toList.filterMap dump.live.classNamed?
          screened := true } := by
  unfold screen at done
  split at done
  · rename_i before
    cases done
    exact .inl ⟨before, rfl⟩
  · rename_i unscreened
    obtain ⟨classes, checked, done⟩ := bind_eq_ok_iff.mp done
    obtain ⟨⟨nominations, fields⟩, passed, same⟩ := bind_eq_ok_iff.mp done
    cases same
    exact .inr ⟨Bool.eq_false_iff.mpr unscreened, classes, fields, nominations, checked,
      passed, rfl⟩

end Dump
end FrozenHeap
