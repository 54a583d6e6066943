import FrozenHeap.Proofs.Dump.Vigilance
import FrozenHeap.Proofs.Session

/-! Sessions under any commands: they are given in any order and number, and whatever they do, the
dump stays vigilant. -/

namespace FrozenHeap

/-- What a session can be told to do. -/
inductive Command where
  | register (registration : Registration)
  | screen
  | startRound (root : ClassId) (isPartial : Bool)
  | archive (index : Nat)
  | endRound
  | archiveAll

namespace Session

def obey (session : Session) : Command → Run Session
  | .register registration => session.register registration
  | .screen => do return (← session.screen).2
  | .startRound root isPartial => do return (← session.startRound root isPartial).2
  | .archive index => do return (← session.archive index).2
  | .endRound => do return (← session.endRound).2
  | .archiveAll => do return (← session.archiveAll).2

variable {session after last : Session}

/-- What a change keeps of a dump, a session keeps when it makes the change. -/
theorem act_preserves (holds : Dump → Prop) {idle : α} {change : Dump → Run (α × Dump)}
    (before : ∀ dump, session.dump = some dump → holds dump)
    (keeps : ∀ dump answer later, holds dump → change dump = .ok (answer, later) → holds later)
    (done : (do return (← session.act idle change).2) = .ok after) :
    ∀ dump, after.dump = some dump → holds dump := by
  obtain ⟨⟨answer, next⟩, acted, same⟩ := bind_eq_ok_iff.mp done
  cases same
  intro later there
  obtain ⟨dump, here, changed⟩ := exists_origin there acted
  exact keeps dump answer later (before dump here) changed

private theorem vigilant_obey {live : Live} {excluded : List String} {command : Command}
    (before : ∀ dump, session.dump = some dump → dump.Vigilant live excluded)
    (done : session.obey command = .ok after) :
    ∀ dump, after.dump = some dump → dump.Vigilant live excluded := by
  cases command with
  | register registration =>
    cases registration with
    | field className fieldName region =>
      refine act_preserves _ before (fun dump answer later vigilant changed => ?_) done
      obtain rfl : (dump.nominate className fieldName region).2 = later :=
        congrArg Prod.snd (Except.ok.inj changed)
      exact vigilant.nominate className fieldName region
    | whole name =>
      refine act_preserves _ before (fun dump answer later vigilant changed => ?_) done
      obtain rfl : (dump.nominateWhole name).2 = later :=
        congrArg Prod.snd (Except.ok.inj changed)
      exact vigilant.nominateWhole name
  | screen =>
    refine act_preserves _ before (fun dump answer later vigilant changed => ?_) done
    obtain ⟨screened, screens, same⟩ := bind_eq_ok_iff.mp changed
    cases same
    exact (vigilant.screen screens).2
  | startRound root isPartial =>
    refine act_preserves _ before (fun dump answer later vigilant changed => ?_) done
    obtain ⟨started, starts, same⟩ := bind_eq_ok_iff.mp changed
    cases same
    exact vigilant.startRound starts
  | archive index =>
    exact act_preserves _ before (fun _ _ _ vigilant changed => vigilant.archive changed) done
  | endRound =>
    exact act_preserves _ before (fun _ _ _ vigilant changed => vigilant.endRound changed) done
  | archiveAll =>
    refine act_preserves _ before (fun dump answer later vigilant changed => ?_) done
    obtain ⟨archived, archives, same⟩ := bind_eq_ok_iff.mp changed
    cases same
    exact vigilant.archiveAll archives

private theorem vigilant_start {settings : Settings} {live : Live}
    (started : Session.start settings live = .ok session) :
    ∀ dump, session.dump = some dump → dump.Vigilant live settings.excluded :=
  fun _ here => .start (start_of_dump started here)

/-- Whatever a session was told to do, and in whatever order, nothing that it has recorded and
nothing in its archive is of a class that is flagged, excluded by name or not preservable: no object
that was copied, no copy that can be read from the images, no class on a page and no class name. -/
theorem only_of_obey {settings : Settings} {live : Live} {commands : List Command}
    (started : Session.start settings live = .ok session)
    (obeyed : commands.foldlM obey session = .ok last) :
    ∀ dump, last.dump = some dump →
      (dump.recording.Only live fun name => ¬ dump.screening.Bars live settings.excluded name) ∧
      (∀ place copy, dump.recording.draft.copyAt? place = .ok (some copy) →
        ¬ dump.screening.Bars live settings.excluded copy.className) ∧
      ∀ dumped, last.finish = .ok (.ok (some dumped)) →
        dumped.archive.Only fun name => ¬ dump.screening.Bars live settings.excluded name := by
  intro dump here
  have vigilant := foldlM_preserves
    (fun session => ∀ dump, session.dump = some dump → dump.Vigilant live settings.excluded)
    (fun _ _ _ _ done before => vigilant_obey before done) (vigilant_start started) obeyed dump here
  refine ⟨vigilant.only, fun place copy => vigilant.only.copyAt?, fun dumped finished => ?_⟩
  unfold finish at finished
  rw [here] at finished
  obtain ⟨outcome, ended, same⟩ := bind_eq_ok_iff.mp finished
  cases outcome with
  | error failure => cases same
  | ok other =>
    cases same
    exact Dump.only_of_finish vigilant.only ended

/-- A field is asked for too early, another one leads to a lock, and a class comes too late. -/
def forkedCommands : List Command :=
  [.register (.field "Index" "first" .opened), .register (.field "Index" "second" .opened),
    .startRound ⟨0⟩ false, .archive 0, .endRound, .screen, .register (.whole "Tail"),
    .startRound ⟨1⟩ false, .archive 1, .endRound, .archiveAll]

theorem only_of_obey_forked : ∃ session last dump dumped,
    Session.start {} Recording.forked = .ok session ∧
    forkedCommands.foldlM obey session = .ok last ∧ last.dump = some dump ∧
    last.finish = .ok (.ok (some dumped)) ∧ dumped.archive.names = #["Node", "Leaf"] ∧
    dump.screening.Bars Recording.forked [] "Lock" ∧
    dumped.archive.Only fun name => ¬ dump.screening.Bars Recording.forked [] name := by
  obtain ⟨session, started, ran⟩ : ∃ session, Session.start {} Recording.forked = .ok session ∧
      (left? (do
        let last ← forkedCommands.foldlM obey session
        return (last, ← last.finish))).any (fun left =>
          left.1.dump.isSome && left.2.archive.names == #["Node", "Leaf"]) = true :=
    ⟨_, rfl, by decide +kernel⟩
  obtain ⟨⟨last, dumped⟩, found, checked⟩ := (Option.any_eq_true _ _).mp ran
  obtain ⟨_, obeyed, ends⟩ := bind_eq_ok_iff.mp (of_left? found)
  obtain ⟨_, finished, same⟩ := bind_eq_ok_iff.mp ends
  cases same
  rw [Bool.and_eq_true] at checked
  obtain ⟨dump, here⟩ := Option.isSome_iff_exists.mp checked.1
  obtain ⟨_, _, only⟩ := only_of_obey started obeyed dump here
  exact ⟨session, last, dump, dumped, started, obeyed, here, finished, eq_of_beq checked.2,
    .inr ⟨⟨4⟩, _, rfl, rfl, .inl rfl⟩, only dumped finished⟩

end Session
end FrozenHeap
