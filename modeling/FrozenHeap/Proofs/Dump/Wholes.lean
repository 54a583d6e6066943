import FrozenHeap.Proofs.Dump.Turns
import FrozenHeap.Proofs.Live

namespace FrozenHeap

namespace Dump

def staticCount (dump : Dump) (ofClass : ClassId) : Nat :=
  (dump.live.classes[ofClass.index]?.map (·.shape.statics.size)).getD 0

variable {screened dump after : Dump} {root : ClassId}

/-- Archiving a static field of a whole class enters it at most. -/
theorem Underway.archiveStatic {field : StaticField} (underway : screened.Underway dump)
    (headed : dump.recording.Headed root) (done : dump.archiveStatic root field = .ok after) :
    screened.Onward (fun ofClass offset => ofClass = root ∧ offset = field.offset) False
      (3 * screened.live.objects.size) dump after ∧ after.recording.Headed root := by
  obtain ⟨⟨outcome, recording⟩, archived, done⟩ := bind_eq_ok_iff.mp done
  rw [underway.live] at archived
  obtain ⟨truthful, rooted⟩ := underway.recorded.archiveStatic headed.rooted archived
  obtain ⟨tiles, intact⟩ := underway.recorded.intact
  obtain ⟨round, current, rfl⟩ := headed.rooted
  have attempt := Recording.attempt_of_archiveStatic current archived
  obtain ⟨still, entered⟩ := attempt.entered intact current headed
  have spent := attempt.spent_le current
  have gained (ofClass : ClassId) (offset : UInt32)
      (now : recording.ledger.Entered ofClass offset) :
      dump.recording.ledger.Entered ofClass offset ∨
        ofClass = round.root ∧ offset = field.offset :=
    ((entered ofClass offset).mp now).imp_right And.right
  cases outcome with
  | error failure =>
    cases done
    obtain ⟨marked, _⟩ := truthful.markPartial rooted
    obtain ⟨again, _, same, partial_⟩ := Recording.markPartial_ok still
    refine ⟨?_, again.rooted, again.paged⟩
    constructor
    case underway => exact underway.record (marked.recount _)
    case kept =>
      intro ofClass offset old
      have kept := (entered ofClass offset).mpr (.inl old)
      exact (partial_ ofClass offset).mpr kept
    case gained =>
      intro ofClass offset now
      exact gained ofClass offset ((partial_ ofClass offset).mp now)
    case unopened => exact False.elim
    case spent => exact same ▸ spent
  | ok entry =>
    cases done
    refine ⟨?_, still.rooted, still.paged⟩
    constructor
    case underway => exact underway.record (truthful.recount _)
    case kept => exact fun ofClass offset old => (entered ofClass offset).mpr (.inl old)
    case gained => exact gained
    case unopened => exact False.elim
    case spent => exact spent

/-- Archiving static fields of a whole class enters them at most. -/
theorem Underway.archiveStatics {fields : List StaticField} (underway : screened.Underway dump)
    (headed : dump.recording.Headed root)
    (done : fields.foldlM (·.archiveStatic root ·) dump = .ok after) :
    screened.Onward (fun ofClass offset => ofClass = root ∧ offset ∈ fields.map (·.offset)) False
      (fields.length * (3 * screened.live.objects.size)) dump after ∧
        after.recording.Headed root := by
  have step (field : StaticField) (member : field ∈ fields) (state next : Dump)
      (underway : screened.Underway state) (headed : state.recording.Headed root)
      (step : state.archiveStatic root field = .ok next) :
      screened.Onward (fun ofClass offset => ofClass = root ∧ offset ∈ fields.map (·.offset)) False
        (3 * screened.live.objects.size) state next ∧ next.recording.Headed root := by
    obtain ⟨onward, headed⟩ := underway.archiveStatic headed step
    refine ⟨onward.weaken (fun ofClass offset => ?_) id (Nat.le_refl _), headed⟩
    rintro ⟨same, rfl⟩
    exact ⟨same, List.mem_map_of_mem member⟩
  exact Onward.fold_const underway headed step done

/-- A whole class is archived in a round of its own, and enters its fields at most. -/
theorem Underway.archiveWhole (underway : screened.Underway dump)
    (idle : dump.recording.current = none) (done : dump.archiveWhole root = .ok after) :
    screened.Onward (fun ofClass _ => ofClass = root) False
      (screened.toll (screened.staticCount root)) dump after ∧ after.recording.current = none := by
  obtain ⟨shape, known, done⟩ := bind_eq_ok_iff.mp done
  rw [underway.live] at known
  obtain ⟨loaded, found, same⟩ := bind_eq_ok_iff.mp known
  cases same
  have count : loaded.shape.statics.toList.length = screened.staticCount root := by
    rw [staticCount, entryAt_eq_ok_iff.mp found, Array.length_toList]
    rfl
  simp only at done
  split at done
  · obtain ⟨started, starts, done⟩ := bind_eq_ok_iff.mp done
    obtain ⟨archived, archives, done⟩ := bind_eq_ok_iff.mp done
    obtain ⟨⟨tally, ended⟩, ends, same⟩ := bind_eq_ok_iff.mp done
    cases same
    obtain ⟨first, headed⟩ := underway.startRound starts
    obtain ⟨fields, _⟩ := first.underway.archiveStatics headed archives
    obtain ⟨last, idle⟩ := fields.underway.endRound ends
    rw [count] at fields
    have opening := first.anywhere.trans fields
    rw [Nat.zero_add] at opening
    have whole := opening.trans last.anywhere
    exact ⟨whole.weaken (fun _ _ => And.left) id (Nat.le_refl _), idle⟩
  · cases done
    exact ⟨⟨underway.record (underway.recorded.recount _), fun _ _ => id, fun _ _ => .inl,
      fun _ => id, Nat.le_add_right _ _⟩, idle⟩

/-- Whole classes are archived one after the other, and enter their fields at most. -/
theorem Underway.archiveWholes {wholes : List ClassId} (underway : screened.Underway dump)
    (idle : dump.recording.current = none)
    (done : wholes.foldlM Dump.archiveWhole dump = .ok after) :
    screened.Onward (fun ofClass _ => ofClass ∈ wholes) False
      (wholes.map fun ofClass => screened.toll (screened.staticCount ofClass)).sum dump after ∧
        after.recording.current = none := by
  have step (ofClass : ClassId) (member : ofClass ∈ wholes) (state next : Dump)
      (underway : screened.Underway state) (idle : state.recording.current = none)
      (step : state.archiveWhole ofClass = .ok next) :
      screened.Onward (fun ofClass _ => ofClass ∈ wholes) False
        (screened.toll (screened.staticCount ofClass)) state next ∧
          next.recording.current = none := by
    obtain ⟨onward, idle⟩ := underway.archiveWhole idle step
    exact ⟨onward.weaken (fun _ _ same => same ▸ member) id (Nat.le_refl _), idle⟩
  exact Onward.fold underway idle step done

theorem Underway.exists_archiveStatic {field : StaticField} (underway : screened.Underway dump)
    (closed : screened.live.Closed) (headed : dump.recording.Headed root)
    (known : root.index < screened.live.classes.size)
    (fresh : ¬ dump.recording.ledger.Entered root field.offset) :
    ∃ after, dump.archiveStatic root field = .ok after := by
  obtain ⟨tiles, intact⟩ := underway.recorded.intact
  obtain ⟨round, current, rfl⟩ := headed.rooted
  obtain ⟨outcome, recording, archived, _⟩ := intact.exists_archiveStatic closed current known
    (Ledger.free_iff.mpr fresh) dump.screening .opened
  rw [← underway.live] at archived
  cases outcome with
  | error failure => exact ⟨_, bind_eq_ok_iff.mpr ⟨_, archived, rfl⟩⟩
  | ok entry => exact ⟨_, bind_eq_ok_iff.mpr ⟨_, archived, rfl⟩⟩

/-- A whole class that exists and has no entries is archived, as long as the counts stay
below 64 bits. -/
theorem Underway.exists_archiveWhole (underway : screened.Underway dump)
    (closed : screened.live.Closed) (idle : dump.recording.current = none)
    (known : root.index < screened.live.classes.size)
    (blank : ∀ offset, ¬ dump.recording.ledger.Entered root offset)
    (small : dump.recording.spent + screened.toll (screened.staticCount root) < UInt64.size) :
    ∃ after, dump.archiveWhole root = .ok after := by
  have present := Array.getElem?_eq_getElem known
  have shape : dump.live.shapeOf root = .ok screened.live.classes[root.index].shape := by
    rw [underway.live]
    exact Live.shapeOf_eq known
  have count : screened.live.classes[root.index].shape.statics.toList.length =
      screened.staticCount root := by
    rw [staticCount, present, Array.length_toList]
    rfl
  by_cases passed : dump.isPreservableClass root = true
  · obtain ⟨started, starts⟩ := underway.exists_startRound idle known false
    obtain ⟨first, headed⟩ := underway.startRound starts
    have step (front : List StaticField) (field : StaticField) (back : List StaticField)
        (state : Dump) (split : screened.live.classes[root.index].shape.statics.toList =
          front ++ field :: back)
        (reached : front.foldlM (·.archiveStatic root ·) started = .ok state) :
        ∃ next, state.archiveStatic root field = .ok next := by
      obtain ⟨fields, headed⟩ := first.underway.archiveStatics headed reached
      refine fields.underway.exists_archiveStatic closed headed known fun entered => ?_
      rcases fields.gained root field.offset entered with early | ⟨_, again⟩
      · exact (first.gained root field.offset early).elim (blank field.offset) id
      · have distinct := screened.live.classes[root.index].shape.nodup_offsets
        rw [split, List.map_append, List.map_cons, List.nodup_middle, List.nodup_cons] at distinct
        exact distinct.1 (List.mem_append_left _ again)
    obtain ⟨archived, archives⟩ := exists_foldlM step
    obtain ⟨fields, headed⟩ := first.underway.archiveStatics headed archives
    have spent := first.spent
    have more := fields.spent
    rw [count] at more
    obtain ⟨tally, ended, ends⟩ := exists_endRound headed (by unfold toll at small; omega)
    refine ⟨ended, bind_eq_ok_iff.mpr ⟨_, shape, ?_⟩⟩
    rw [if_pos passed]
    exact bind_eq_ok_iff.mpr ⟨started, starts, bind_eq_ok_iff.mpr ⟨archived, archives,
      bind_eq_ok_iff.mpr ⟨(tally, ended), ends, rfl⟩⟩⟩
  · refine ⟨dump.count (·.addSkipped screened.live.classes[root.index].shape.statics.toList.length),
      bind_eq_ok_iff.mpr ⟨_, shape, ?_⟩⟩
    rw [if_neg passed]
    rfl

end Dump
end FrozenHeap
