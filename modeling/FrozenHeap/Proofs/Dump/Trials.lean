import FrozenHeap.Proofs.Dump.Completion
import FrozenHeap.Proofs.Recording.Outlines

namespace FrozenHeap

theorem ClassShape.split_unique {shape : ClassShape}
    {earlier later before behind : List StaticField} {field other : StaticField}
    (listed : shape.statics.toList = earlier ++ field :: later)
    (again : shape.statics.toList = before ++ other :: behind)
    (same : field.offset = other.offset) : earlier = before := by
  obtain rfl : field = other := List.inj_on_of_nodup_map shape.nodup_offsets
    (listed ▸ List.mem_append_right _ List.mem_cons_self)
    (again ▸ List.mem_append_right _ List.mem_cons_self) same
  have distinct := List.Nodup.of_map _ shape.nodup_offsets
  rw [listed, List.nodup_middle, List.nodup_cons, List.mem_append, not_or] at distinct
  exact ((List.append_cons_inj_of_notMem distinct.1.1 distinct.1.2).mp (listed.symm.trans again)).1

namespace Dump

/-- The turn of a static field of a whole class has come: all groups and the whole classes in front
of its class have been archived, a round for its class has started, and the static fields in front
of it have been tried. -/
inductive WholeTurn (screened : Dump) (ofClass : ClassId) (field : StaticField) (turn : Dump) :
    Prop where
  | intro {grouped before started : Dump} {shape : ClassShape} {front back : List ClassId}
      {earlier later : List StaticField}
      (groups : screened.groups.foldlM archiveGroup screened = .ok grouped)
      (split : screened.wholes = front ++ ofClass :: back)
      (wholes : front.foldlM archiveWhole grouped = .ok before)
      (passed : screened.isPreservableClass ofClass = true)
      (known : screened.live.shapeOf ofClass = .ok shape)
      (listed : shape.statics.toList = earlier ++ field :: later)
      (starts : before.startRound ofClass false = .ok started)
      (archives : earlier.foldlM (·.archiveStatic ofClass ·) started = .ok turn)

/-- In its turn, a static field of a class is tried, with this outcome: as a nomination that passed
the screening, or as a field of a whole class. -/
inductive Tries (screened : Dump) (ofClass : ClassId) (offset : UInt32) (outcome : Outcome Entry) :
    Prop where
  | nominated {index : Nat} {nomination : Nomination} {turn : Dump} {recording : Recording}
      (turns : screened.Turn index turn)
      (found : screened.nominations[index]? = some nomination)
      (passed : nomination.isPreservable = true)
      (resolved : nomination.resolved = some (ofClass, offset))
      (tried : turn.recording.archiveStatic screened.live screened.screening ofClass offset
        nomination.region = .ok (outcome, recording))
  | whole {field : StaticField} {turn : Dump} {recording : Recording}
      (turns : screened.WholeTurn ofClass field turn) (here : field.offset = offset)
      (tried : turn.recording.archiveStatic screened.live screened.screening ofClass offset
        .opened = .ok (outcome, recording))

variable {screened turn : Dump} {index : Nat} {root ofClass : ClassId} {field : StaticField}
  {offset : UInt32} {outcome : Outcome Entry}

theorem Turn.mem_groups (turns : screened.Turn index turn) :
    index ∈ screened.groups.flatMap (·.2) := by
  obtain ⟨split, listed, _⟩ := turns
  exact List.mem_flatMap.mpr ⟨_, split ▸ List.mem_append_right _ List.mem_cons_self,
    listed ▸ List.mem_append_right _ List.mem_cons_self⟩

/-- The nomination of a turn is not one of a whole class. -/
theorem Turn.not_mem_wholes {nomination : Nomination} (turns : screened.Turn index turn)
    (found : screened.nominations[index]? = some nomination)
    (resolved : nomination.resolved = some (ofClass, offset)) : ofClass ∉ screened.wholes := by
  obtain ⟨split, listed, _, _, _⟩ := turns
  have member := split ▸ List.mem_append_right _ List.mem_cons_self
  obtain ⟨_, owned⟩ := grouped_of_mem_groups member _
    (listed ▸ List.mem_append_right _ List.mem_cons_self) nomination found
  rw [resolved] at owned
  cases owned
  exact not_mem_wholes_of_mem_groups member

namespace WholeTurn

theorem mem_wholes (turns : screened.WholeTurn ofClass field turn) : ofClass ∈ screened.wholes := by
  obtain ⟨_, split, _⟩ := turns
  exact split ▸ List.mem_append_right _ List.mem_cons_self

theorem passed (turns : screened.WholeTurn ofClass field turn) :
    screened.isPreservableClass ofClass = true := by
  obtain ⟨_, _, _, passed⟩ := turns
  exact passed

theorem exists_shape (turns : screened.WholeTurn ofClass field turn) :
    ∃ shape, screened.live.shapeOf ofClass = .ok shape ∧ field ∈ shape.statics := by
  obtain ⟨_, _, _, _, known, listed, _, _⟩ := turns
  exact ⟨_, known,
    Array.mem_toList_iff.mp (listed ▸ List.mem_append_right _ List.mem_cons_self)⟩

/-- A whole class comes once, and so does each of its static fields. -/
theorem unique {other : StaticField} {again : Dump} (once : screened.wholes.Nodup)
    (left : screened.WholeTurn ofClass field turn) (right : screened.WholeTurn ofClass other again)
    (same : field.offset = other.offset) : turn = again := by
  obtain ⟨groups, split, wholes, _, known, listed, starts, archives⟩ := left
  obtain ⟨grouped, place, classes, _, shaped, row, opens, passes⟩ := right
  rw [groups] at grouped
  cases grouped
  rw [known] at shaped
  cases shaped
  have apart := once
  rw [split, List.nodup_middle, List.nodup_cons, List.mem_append, not_or] at apart
  obtain ⟨rfl, _, _⟩ :=
    (List.append_cons_inj_of_notMem apart.1.1 apart.1.2).mp (split.symm.trans place)
  rw [wholes] at classes
  cases classes
  rw [starts] at opens
  cases opens
  rw [ClassShape.split_unique listed row same, passes] at archives
  cases archives
  rfl

/-- Where the turn of a static field comes, the round in progress is one for its class. -/
theorem underway (ready : screened.Ready) (turns : screened.WholeTurn ofClass field turn) :
    screened.Underway turn ∧ turn.recording.Headed ofClass := by
  obtain ⟨groups, _, wholes, _, _, _, starts, archives⟩ := turns
  obtain ⟨grouped, idle⟩ := ready.archiveGroups groups
  obtain ⟨classes, _⟩ := grouped.underway.archiveWholes idle wholes
  obtain ⟨start, headed⟩ := classes.underway.startRound starts
  obtain ⟨fields, headed⟩ := start.underway.archiveStatics headed archives
  exact ⟨fields.underway, headed⟩

end WholeTurn

namespace Tries

theorem unique {other : Outcome Entry} (vetted : screened.Vetted)
    (left : screened.Tries ofClass offset outcome) (right : screened.Tries ofClass offset other) :
    outcome = other := by
  cases left with
  | nominated turns found passed resolved tried =>
    cases right with
    | nominated again present also same attempted =>
      have one := vetted.distinct _ _ ofClass offset ⟨_, found, passed, resolved⟩
        ⟨_, present, also, same⟩
      subst one
      rw [found] at present
      cases present
      rw [turns.unique again, attempted] at tried
      cases tried
      rfl
    | whole again => exact absurd again.mem_wholes (turns.not_mem_wholes found resolved)
  | whole turns here tried =>
    cases right with
    | nominated again present _ same =>
      exact absurd turns.mem_wholes (again.not_mem_wholes present same)
    | whole again there attempted =>
      rw [turns.unique vetted.once again (here.trans there.symm), attempted] at tried
      cases tried
      rfl

theorem offset_eq {entry : Entry} (tries : screened.Tries ofClass offset (.ok entry)) :
    entry.offset = offset := by
  cases tries with
  | nominated _ _ _ _ tried => exact Recording.offset_of_archiveStatic tried
  | whole _ _ tried => exact Recording.offset_of_archiveStatic tried

/-- What is tried of a whole class is one of its static fields, in its turn. -/
theorem exists_turn (tries : screened.Tries ofClass offset outcome)
    (whole : ofClass ∈ screened.wholes) :
    ∃ field turn, screened.WholeTurn ofClass field turn ∧ field.offset = offset := by
  cases tries with
  | nominated turns found _ resolved => exact absurd whole (turns.not_mem_wholes found resolved)
  | whole turns here => exact ⟨_, _, turns, here⟩

end Tries
end Dump
end FrozenHeap
