import FrozenHeap.Pages
import FrozenHeap.Proofs.Loaded.Bounds
import FrozenHeap.Proofs.Thaw.Returning

/-! Processes that load archives. Whatever bytes a process is given for an archive, and wherever
regions are placed, every call returns, and nothing is read but words of regions. -/

namespace FrozenHeap

/-- A process: the archive that it has loaded, if any, and the live heap that takes objects in. -/
structure Process where
  loaded : Option Loaded
  thaw : Thaw

namespace Process

/-- What a process may be asked for. -/
inductive Request where
  /-- Read an archive and load it in place of the one before. -/
  | load (bytes : List UInt8) (enabled : Bool) (mapper : Mapper)
  | fixup
  /-- Read the object at an address. -/
  | look (address : UInt64)
  /-- Store what is archived for a class. -/
  | serve (name : String)
  /-- Copy the object at an address into the heap. -/
  | copy (address : UInt64)
  /-- Go on with another heap, and what has been copied into it. -/
  | turn (thaw : Thaw)

/-- How a request ends: with a failure of the domain, with nothing found, or with a result. -/
inductive Answer where
  | loaded (outcome : Outcome Unit)
  | fixedUp (outcome : Outcome FixupCount)
  | object (found : Option FrozenObject)
  | served (isPartial : Option Bool)
  | copied (copy : Option ObjectId)
  | done

/-- Do what is asked for. Without an archive there is nothing to be found. -/
def perform (process : Process) : Request → Run (Answer × Process)
  | .load bytes enabled mapper =>
    match Archive.ofBytes bytes with
    | .error cause => .ok (.loaded (.error (.malformed cause)), process)
    | .ok archive =>
      match Loaded.load archive enabled mapper with
      | .error failure => .ok (.loaded (.error failure), process)
      | .ok loaded => .ok (.loaded (.ok ()), { process with loaded := some loaded })
  | .fixup =>
    match process.loaded with
    | none => .ok (.fixedUp (.ok {}), process)
    | some loaded => do
      let (outcome, loaded) ← loaded.fixup
      return (.fixedUp outcome, { process with loaded := some loaded })
  | .look address => .ok (.object (process.loaded.bind (·.objectAt? address)), process)
  | .serve name =>
    match process.loaded with
    | none => .ok (.served none, process)
    | some loaded => do
      let (isPartial, thaw) ← loaded.serve (Thaw.host loaded) process.thaw name
      return (.served isPartial, { process with thaw := thaw })
  | .copy address =>
    match process.loaded with
    | none => .ok (.copied none, process)
    | some loaded => do
      let (copy, thaw) ← process.thaw.object loaded address
      return (.copied copy, { process with thaw := thaw })
  | .turn thaw => .ok (.done, { process with thaw := thaw })

/-- Do what is asked for, one request after the other. -/
def play : List Request → Process → Run (List Answer × Process)
  | [], process => .ok ([], process)
  | request :: rest, process => do
    let (answer, process) ← process.perform request
    let (answers, process) ← play rest process
    return (answer :: answers, process)

/-- The heaps that there are, one after the other, while requests are performed. -/
inductive Meets : Process → List Request → Live → Prop where
  | copy {process : Process} {loaded : Loaded} {address : UInt64} {rest : List Request}
      {heap : Live} (here : process.loaded = some loaded)
      (passes : Thaw.Passes loaded process.thaw.heap [address] process.thaw.copies heap) :
      Meets process (.copy address :: rest) heap
  | serve {process : Process} {loaded : Loaded} {name : String} {rest : List Request} {heap : Live}
      {record : Record} {values : List (UInt32 × Value)} (here : process.loaded = some loaded)
      (usable : loaded.isUsable = true) (found : loaded.table.find? name = some record)
      (resolved : (Loaded.resolveAll (Thaw.host loaded) process.thaw record.classes).1 = true)
      (read : loaded.valuesOf? record.entries = .ok (some values))
      (stores : Thaw.Stores loaded name process.thaw values heap) :
      Meets process (.serve name :: rest) heap
  | later {process next : Process} {request : Request} {answer : Answer} {rest : List Request}
      {heap : Live} (done : process.perform request = .ok (answer, next))
      (behind : Meets next rest heap) : Meets process (request :: rest) heap

variable {process : Process}

/-- The archive of a process was read, and loaded, and fixed up as far as it could be. -/
def Sane (process : Process) : Prop := ∀ loaded, process.loaded = some loaded → loaded.Afoot

/-- A request returns if there is room in each heap on the way. -/
theorem Sane.perform (sane : process.Sane) {request : Request} {rest : List Request}
    (room : ∀ heap, process.Meets (request :: rest) heap → heap.objects.size < UInt32.size) :
    ∃ answer next, process.perform request = .ok (answer, next) ∧ next.Sane := by
  obtain ⟨here, thaw⟩ := process
  cases request with
  | load bytes enabled mapper =>
    cases read : Archive.ofBytes bytes with
    | error cause =>
      exact ⟨.loaded (.error (.malformed cause)), ⟨here, thaw⟩,
        by simp only [Process.perform, read], sane⟩
    | ok archive =>
      cases loads : Loaded.load archive enabled mapper with
      | error failure =>
        exact ⟨.loaded (.error failure), ⟨here, thaw⟩, by simp only [Process.perform, read, loads],
          sane⟩
      | ok loaded =>
        refine ⟨.loaded (.ok ()), ⟨some loaded, thaw⟩,
          by simp only [Process.perform, read, loads], ?_⟩
        intro other here
        cases here
        exact Loaded.afoot_of_load read loads
  | fixup =>
    cases here with
    | none => exact ⟨_, _, rfl, sane⟩
    | some loaded =>
      obtain ⟨outcome, next, done, afoot⟩ := (sane loaded rfl).exists_fixup
      refine ⟨_, _, bind_eq_ok_iff.mpr ⟨_, done, rfl⟩, fun other here => ?_⟩
      cases here
      exact afoot
  | look address => exact ⟨_, _, rfl, sane⟩
  | serve name =>
    cases here with
    | none => exact ⟨_, _, rfl, sane⟩
    | some loaded =>
      have serves : ∃ answer, loaded.serve (Thaw.host loaded) thaw name = .ok answer := by
        refine Loaded.exists_serve fun record later values usable found resolved read => ?_
        have same := Thaw.resolveAll_keeps loaded thaw record.classes
        rw [resolved] at same
        obtain rfl : later = thaw := same
        exact Thaw.exists_stores fun heap stores =>
          room heap (.serve rfl usable found (by rw [resolved]) read stores)
      obtain ⟨answer, done⟩ := serves
      exact ⟨_, _, bind_eq_ok_iff.mpr ⟨_, done, rfl⟩, sane⟩
  | copy address =>
    cases here with
    | none => exact ⟨_, _, rfl, sane⟩
    | some loaded =>
      obtain ⟨copy, after, done, _⟩ :=
        Thaw.exists_object fun heap passes => room heap (.copy rfl passes)
      exact ⟨_, _, bind_eq_ok_iff.mpr ⟨_, done, rfl⟩, sane⟩
  | turn thaw => exact ⟨_, _, rfl, sane⟩

theorem Sane.play (sane : process.Sane) (requests : List Request)
    (room : ∀ heap, process.Meets requests heap → heap.objects.size < UInt32.size) :
    ∃ answers after, play requests process = .ok (answers, after) ∧ after.Sane := by
  induction requests generalizing process with
  | nil => exact ⟨_, _, rfl, sane⟩
  | cons request rest ih =>
    obtain ⟨answer, next, done, still⟩ := sane.perform room
    obtain ⟨answers, after, others, finished⟩ :=
      ih still fun heap behind => room heap (.later done behind)
    refine ⟨answer :: answers, after, ?_, finished⟩
    simp only [Process.play, done, others, bind, Except.bind, pure, Except.pure]

/-- Whatever a process is asked for, in any order, each request returns as long as there is room in
the heap: with a failure, with nothing found, or with a result. Marked words are words of their
regions, an object is read from within a region that is fixed up, and the addresses that it refers
to lie in regions. Any other process can be served from there as well. -/
theorem play_returns (thaw : Thaw) (requests : List Request)
    (room : ∀ heap, Meets ⟨none, thaw⟩ requests heap → heap.objects.size < UInt32.size) :
    ∃ answers after, play requests ⟨none, thaw⟩ = .ok (answers, after) ∧
      ∀ loaded, after.loaded = some loaded → loaded.Guarded ∧
        ∀ (State : Type) (host : Host State),
          (∀ state name offset value, ∃ next, host.store state name offset value = .ok next) →
          ∀ state name, ∃ answer, loaded.serve host state name = .ok answer := by
  have sane : Process.Sane ⟨none, thaw⟩ := fun _ absent => by cases absent
  obtain ⟨answers, after, done, still⟩ := sane.play requests room
  refine ⟨answers, after, done, fun loaded here => ⟨(still loaded here).guarded, ?_⟩⟩
  exact fun State host takes state name => Loaded.exists_serve_of_total takes

end Process

namespace Archive

/-- An archive that no session leaves: the header of its first object is a reference to that object,
and its second object lies in the first. -/
def entangled : Archive where
  narrowing := ⟨0x800, 1, by decide, by decide, by decide⟩
  names := Array.replicate 9 "Node"
  table := (TableLayout.block 1 []).toArray
  regions := [⟨.closed, 0x2000, #[0xC00, 0xC04, 5], ((Marks.clear 3).add 0).add 1⟩]

private theorem wellFormed_entangled : entangled.WellFormed where
  ordered := by decide
  covered := by
    unfold Image.Covered
    decide
  few := by decide

end Archive

namespace Process

/-- Pages at an address that reads as the header of an object with one slot. -/
def headerMapper : Mapper := .pages fun _ _ _ => 0x100000000

theorem play_returns_entangled : ∃ bytes requests, Archive.ofBytes bytes = .ok .entangled ∧
    requests = [.load bytes true headerMapper, .fixup, .look 0x100000000, .copy 0x100000000] ∧
    (∀ heap, Meets ⟨none, .start .ring⟩ requests heap → heap.objects.size < UInt32.size) ∧
    ∃ answers after, play requests ⟨none, .start .ring⟩ = .ok (answers, after) ∧
      ∀ loaded, after.loaded = some loaded → loaded.Guarded ∧
        ∀ (State : Type) (host : Host State),
          (∀ state name offset value, ∃ next, host.store state name offset value = .ok next) →
          ∀ state name, ∃ answer, loaded.serve host state name = .ok answer := by
  obtain ⟨bytes, written⟩ : ∃ bytes, Archive.entangled.toBytes = .ok bytes :=
    ⟨_, (if_neg (by decide)).trans (if_pos (by decide +kernel))⟩
  have read := Archive.wellFormed_entangled.ofBytes_toBytes written []
  rw [List.append_nil] at read
  -- Both objects are copied, and then the heap is as large as it gets.
  have ran : (Loaded.load .entangled true headerMapper).toOption.any (fun loaded =>
      loaded.fixup.toOption.any fun called =>
        (Thaw.allocate called.2 .ring [0x100000000] ∅ #[]).toOption.any fun copied =>
          copied.1.isSome && decide (copied.2.objects.size = 4)) = true := by decide +kernel
  obtain ⟨loaded, loads, ran⟩ := any_toOption_iff.mp ran
  obtain ⟨⟨outcome, fixed⟩, called, ran⟩ := any_toOption_iff.mp ran
  obtain ⟨⟨copied, last⟩, allocated, ran⟩ := any_toOption_iff.mp ran
  have size : last.objects.size = 4 := by simpa using ((Bool.and_eq_true _ _).mp ran).2
  have room : ∀ heap, Meets ⟨none, .start .ring⟩ [.load bytes true headerMapper, .fixup,
      .look 0x100000000, .copy 0x100000000] heap → heap.objects.size < UInt32.size := by
    intro heap meets
    cases meets with
    | later done meets =>
      simp only [perform, read, loads, Except.ok.injEq, Prod.mk.injEq] at done
      obtain ⟨_, rfl⟩ := done
      cases meets with
      | later done meets =>
        simp only [perform, called, bind, Except.bind, pure, Except.pure, Except.ok.injEq,
          Prod.mk.injEq] at done
        obtain ⟨_, rfl⟩ := done
        cases meets with
        | later done meets =>
          simp only [perform, Except.ok.injEq, Prod.mk.injEq] at done
          obtain ⟨_, rfl⟩ := done
          cases meets with
          | copy here passes =>
            cases here
            have bound := passes.size_le allocated
            have small : 4 < UInt32.size := by decide
            omega
          | later _ meets => cases meets
  exact ⟨bytes, _, read, rfl, room, play_returns (.start .ring) _ room⟩

end Process
end FrozenHeap
