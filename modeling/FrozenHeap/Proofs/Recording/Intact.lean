import FrozenHeap.Proofs.Recording.Linked

namespace FrozenHeap

/-- The copies of a recording are finished, and what the round in progress has seen has copies. -/
structure Recording.Intact (known : List String) (recording : Recording)
    (memory : ObjectId → Option Portrait) (tiles : List Tile) : Prop where
  linked : Linked recording.draft recording.copies memory tiles
  named : recording.draft.Named known
  seen : ∀ round, recording.current = some round →
    ∀ object, round.seen.contains object = true → object ∈ recording.copies

namespace Walk

variable {live : Live} {screening : Screening} {region : Region}

theorem Step.keeps {stack middle : List ObjectId} {walk later : Walk}
    (step : Step live screening region stack walk middle later) {object : ObjectId} {place : Place}
    (found : walk.copies[object]? = some place) : later.copies[object]? = some place := by
  cases step with
  | again => exact found
  | cached => exact found
  | @laid fresh _ _ _ _ _ _ _ _ _ uncached =>
    have apart : fresh ≠ object := by
      rintro rfl
      rw [found] at uncached
      cases uncached
    show (walk.copies.insert fresh _)[object]? = some place
    rw [Std.ExtTreeMap.getElem?_insert]
    simpa [apart] using found

theorem Runs.keeps {stack last : List ObjectId} {walk final : Walk}
    (runs : Runs live screening region stack walk last final) {object : ObjectId} {place : Place}
    (found : walk.copies[object]? = some place) : final.copies[object]? = some place :=
  runs.preserves (fun _ walk => walk.copies[object]? = some place)
    (fun _ _ _ _ step found => step.keeps found) found

theorem Runs.named {known : List String} {stack last : List ObjectId} {walk final : Walk}
    (runs : Runs live screening region stack walk last final)
    (familiar : ∀ name ∈ live.classNames, name ∈ known)
    (named : walk.draft.Named known) : final.draft.Named known := by
  refine runs.preserves (fun _ walk => walk.draft.Named known) ?_ named
  intro _ _ _ _ step named
  cases step with
  | again => exact named
  | cached => exact named
  | laid found _ _ _ _ laid =>
    exact named.allocate (familiar _ (Live.name_mem_of_portrait? found)) laid

end Walk

theorem Linked.remember {draft : Draft} {copies : Copies} {memory : ObjectId → Option Portrait}
    {tiles : List Tile} (linked : Linked draft copies memory tiles) (live : Live) :
    Linked draft copies (remember copies memory live) tiles := by
  refine { linked with remembered := fun tile member => ?_ }
  have cached := linked.tiling.mem_iff.mpr ⟨tile, member, rfl⟩
  rw [FrozenHeap.remember, if_pos cached]
  exact linked.remembered tile member

namespace Recording.Intact

variable {known : List String} {recording : Recording} {memory : ObjectId → Option Portrait}
  {tiles : List Tile} {round : Round} {live : Live} {screening : Screening} {region : Region}
  {root : ObjectId}

theorem start {settings : Settings} {draft : Draft} (started : Draft.start settings = .ok draft)
    (bounded : settings.Bounded) (verifies : Bool) :
    (Recording.start draft verifies).Intact known memory [] where
  linked := .empty started bounded
  named := by
    unfold Draft.start at started
    split at started
    · cases started
    · cases started
      exact ⟨List.nodup_nil, fun _ member => by simp [Recording.start] at member⟩
  seen _ current := by cases current

/-- Only the copies, the draft and the round in progress matter. -/
theorem congr {after : Recording} (intact : recording.Intact known memory tiles)
    (draft : after.draft = recording.draft) (copies : after.copies = recording.copies)
    (current : ∀ round, after.current = some round → ∀ object, round.seen.contains object = true →
      object ∈ recording.copies) : after.Intact known memory tiles where
  linked := by
    rw [draft, copies]
    exact intact.linked
  named := draft ▸ intact.named
  seen round here object member := copies ▸ current round here object member

/-- The walk of a recording starts from finished copies. -/
theorem laying (intact : recording.Intact known memory tiles)
    (current : recording.current = some round) (root : ObjectId) (live : Live) (region : Region) :
    Walk.Laying live region recording.draft root tiles [root]
      (Walk.start recording.draft recording.copies round.seen round.tally.walked) [] :=
  .start intact.linked.tiling (intact.seen round current) _

/-- A failed walk adds class names to a recording, and changes a tally. -/
theorem failed (intact : recording.Intact known memory tiles)
    (current : recording.current = some round) (familiar : ∀ name ∈ live.classNames, name ∈ known)
    {walk : Walk} {failure : Failure}
    (done : Walk.advance live screening region [root]
      (Walk.start recording.draft recording.copies round.seen round.tally.walked) =
        .ok (.error failure, walk)) :
    recording.abandon round walk =
      { recording with
        draft := { recording.draft with names := walk.draft.names }
        current := some { round with tally := { round.tally with walked := walk.walked } } } ∧
    (recording.abandon round walk).Intact known memory tiles := by
  obtain ⟨last, final, runs, stop⟩ := Walk.runs_of_advance_error done
  obtain ⟨same, longer, _⟩ := abandoned intact.linked.tiling.framed.covered done
  refine ⟨same, ?_⟩
  rw [same]
  have named := runs.named familiar intact.named
  rw [← stop.draft_eq] at named
  exact ⟨intact.linked.rename longer, ⟨named.distinct, named.known⟩, fun other here => by
    cases here
    exact intact.seen round current⟩

/-- A walk that succeeds can be kept, and has a copy of its root. -/
theorem kept (intact : recording.Intact known memory tiles)
    (current : recording.current = some round) (familiar : ∀ name ∈ live.classNames, name ∈ known)
    {walk : Walk}
    (done : Walk.advance live screening region [root]
      (Walk.start recording.draft recording.copies round.seen round.tally.walked) =
        .ok (.ok (), walk)) :
    ∃ draft more, recording.keep round walk = .ok (recording.adopt round walk draft) ∧
      (recording.adopt round walk draft).Intact known (remember recording.copies memory live)
        (tiles ++ more) ∧ Settled region walk.copies root := by
  have runs := Walk.runs_of_advance_ok done
  obtain ⟨fresh, laying⟩ := Walk.Laying.runs runs ⟨[], intact.laying current root live region⟩
  obtain ⟨draft, patched, rewrites, linked⟩ := intact.linked.link laying fun _ _ => runs.keeps
  refine ⟨draft, fresh, ?_, ⟨linked, ?_, ?_⟩, ?_⟩
  · rw [keep, patched]
    rfl
  · have named := runs.named familiar intact.named
    exact ⟨rewrites.names ▸ named.distinct, rewrites.names ▸ named.known⟩
  · intro other here
    cases here
    exact laying.seen
  · rcases laying.pending root (.inl rfl) with listed | settled
    · cases listed
    · exact settled

theorem still (intact : recording.Intact known memory tiles) (live : Live) :
    recording.Intact known (remember recording.copies memory live) (tiles ++ []) := by
  rw [List.append_nil]
  exact { intact with linked := intact.linked.remember live }

/-- Copying a graph leaves finished copies, and one of the root if it succeeds. -/
theorem copyGraph (intact : recording.Intact known memory tiles)
    (current : recording.current = some round) (familiar : ∀ name ∈ live.classNames, name ∈ known)
    {outcome : Outcome Place} {after : Recording}
    (done : recording.copyGraph round live screening root region = .ok (outcome, after)) :
    ∃ more, after.Intact known (remember recording.copies memory live) (tiles ++ more) ∧
      ∀ place, outcome = .ok place → after.copies[root]? = some place := by
  unfold Recording.copyGraph at done
  simp only at done
  split at done
  · cases done
  · rename_i failure walk failed
    cases done
    exact ⟨[], ((intact.still live).failed current familiar failed).2,
      fun place same => by cases same⟩
  · rename_i walk walked
    obtain ⟨draft, more, keeps, finished, place, found, _⟩ := intact.kept current familiar walked
    have found : (recording.adopt round walk draft).copies[root]? = some place := found
    simp only [keeps, found, bind, Except.bind, pure, Except.pure] at done
    cases done
    exact ⟨more, finished, fun _ same => by
      cases same
      exact found⟩

theorem enter (intact : recording.Intact known memory tiles) {entry : Entry}
    {outcome : Outcome Entry} {after : Recording}
    (done : recording.enter round entry = .ok (outcome, after)) :
    after.Intact known memory tiles := by
  obtain ⟨ledger, _, same⟩ := bind_eq_ok_iff.mp done
  cases same
  exact intact.congr rfl rfl intact.seen

/-- Comparing copies with the live graph changes nothing but the count of comparisons. -/
theorem compare_ok {place : Place} {after : Recording}
    (done : recording.compare live root place = .ok (.ok after)) :
    after = { recording with totals := after.totals } := by
  unfold Recording.compare at done
  split at done
  · split at done
    · cases done
    · cases done
    · cases done
      rfl
  · cases done
    rfl

/-- Archiving a graph leaves finished copies, also when the comparison with the live graph fails. -/
theorem archiveObject (intact : recording.Intact known memory tiles)
    (current : recording.current = some round) (familiar : ∀ name ∈ live.classNames, name ∈ known)
    {offset : UInt32} {outcome : Outcome Entry} {after : Recording}
    (done : recording.archiveObject round live screening root offset region =
      .ok (outcome, after)) :
    ∃ more, after.Intact known (remember recording.copies memory live) (tiles ++ more) := by
  obtain ⟨⟨copied, middle⟩, copying, done⟩ := bind_eq_ok_iff.mp done
  obtain ⟨more, kept, _⟩ := intact.copyGraph current familiar copying
  refine ⟨more, ?_⟩
  cases copied with
  | error failure =>
    cases done
    exact kept
  | ok place =>
    obtain ⟨compared, comparing, done⟩ := bind_eq_ok_iff.mp done
    cases compared with
    | error failure =>
      cases done
      exact kept
    | ok compared =>
      obtain ⟨narrow, _, done⟩ := bind_eq_ok_iff.mp done
      have same := compare_ok comparing
      have finished : compared.Intact known (remember recording.copies memory live)
          (tiles ++ more) := by
        rw [same]
        exact kept.congr rfl rfl kept.seen
      exact finished.enter done

theorem archiveStatic (intact : recording.Intact known memory tiles)
    (familiar : ∀ name ∈ live.classNames, name ∈ known) {ofClass : ClassId} {offset : UInt32}
    {outcome : Outcome Entry} {after : Recording}
    (done : recording.archiveStatic live screening ofClass offset region = .ok (outcome, after)) :
    ∃ more, after.Intact known (remember recording.copies memory live) (tiles ++ more) := by
  have still := intact.still live
  unfold Recording.archiveStatic at done
  split at done
  · cases done
  rename_i round current
  obtain ⟨shape, _, done⟩ := bind_eq_ok_iff.mp done
  split at done
  · cases done
    exact ⟨[], still⟩
  · exact ⟨[], still.enter done⟩
  · exact ⟨[], still.enter done⟩
  · exact intact.archiveObject current familiar done

theorem startRound (intact : recording.Intact known memory tiles) {ofClass : ClassId}
    {isPartial : Bool} {after : Recording}
    (done : recording.startRound live ofClass isPartial = .ok after) :
    after.Intact known memory tiles := by
  obtain ⟨_, _, done⟩ := bind_eq_ok_iff.mp done
  obtain ⟨shape, _, same⟩ := bind_eq_ok_iff.mp done
  cases same
  refine intact.congr rfl rfl fun round here object member => ?_
  cases here
  simp at member

theorem endRound (intact : recording.Intact known memory tiles) {tally : Tally}
    {after : Recording} (done : recording.endRound = .ok (tally, after)) :
    after.Intact known memory tiles := by
  unfold Recording.endRound at done
  split at done
  · cases done
  · split at done
    · cases done
    · cases done
      exact intact.congr rfl rfl fun round here => by cases here

theorem markPartial (intact : recording.Intact known memory tiles) :
    recording.markPartial.Intact known memory tiles := by
  unfold Recording.markPartial
  split
  · exact intact.congr rfl rfl intact.seen
  · exact intact

end Recording.Intact
end FrozenHeap
