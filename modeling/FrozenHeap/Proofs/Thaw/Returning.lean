import FrozenHeap.Proofs.Loaded.Retries
import FrozenHeap.Proofs.Thaw.Copying

namespace FrozenHeap

namespace Thaw

variable {loaded : Loaded} {heap after met : Live} {stack : List UInt64} {copies : Thawed}
  {made : Array (FrozenObject × ObjectId)} {thaw : Thaw} {name : String}

/-- The heaps that there are, one after the other, while objects are allocated for the addresses of
a stack and all that is reachable from them. -/
inductive Passes (loaded : Loaded) : Live → List UInt64 → Thawed → Live → Prop where
  | here {heap : Live} {stack : List UInt64} {copies : Thawed} :
      Passes loaded heap stack copies heap
  | skip {heap met : Live} {address : UInt64} {rest : List UInt64} {copies : Thawed}
      (known : copies.contains address = true) (later : Passes loaded heap rest copies met) :
      Passes loaded heap (address :: rest) copies met
  | make {heap next met : Live} {address : UInt64} {rest : List UInt64} {copies : Thawed}
      {object : FrozenObject} {ofClass : ClassId} {copy : ObjectId}
      (absent : copies.contains address = false) (found : loaded.objectAt? address = some object)
      (known : heap.classNamed? object.className = some ofClass)
      (done : heap.alloc ofClass object.blankSlots = .ok (copy, next))
      (later :
        Passes loaded next (object.targets.reverse ++ rest) (copies.insert address copy) met) :
      Passes loaded heap (address :: rest) copies met

theorem allocate_keeps {answer : Option (Thawed × Array (FrozenObject × ObjectId))}
    (done : allocate loaded heap stack copies made = .ok (answer, after)) :
    after.classes = heap.classes ∧ heap.Grows after := by
  fun_induction allocate loaded heap stack copies made with
  | case1 =>
    cases done
    exact ⟨rfl, .refl _⟩
  | case2 =>
    cases done
    exact ⟨rfl, .refl _⟩
  | case3 =>
    cases done
    exact ⟨rfl, .refl _⟩
  | case4 => cases done
  | case5 heap copies made address rest absent object found ofClass known copy next allocated
      _ ih =>
    obtain ⟨same, grows⟩ := ih done
    exact ⟨same.trans (Live.alloc_ok allocated).2.1, (Live.grows_alloc allocated).trans grows⟩
  | case6 heap copies made address rest present ih => exact ih done

theorem Passes.size_le (passes : Passes loaded heap stack copies met)
    {answer : Option (Thawed × Array (FrozenObject × ObjectId))}
    (done : allocate loaded heap stack copies made = .ok (answer, after)) :
    met.objects.size ≤ after.objects.size := by
  induction passes generalizing made with
  | here => exact (allocate_keeps done).2.size
  | skip known later ih =>
    rw [allocate, dif_neg (by simp [known])] at done
    exact ih done
  | make absent found known allocated later ih =>
    rw [allocate, dif_pos absent] at done
    split at done
    · rename_i missing
      cases found.symm.trans missing
    · rename_i object read
      cases found.symm.trans read
      simp only [known, allocated] at done
      exact ih done

private theorem exists_allocate
    (room : ∀ met, Passes loaded heap stack copies met → met.objects.size < UInt32.size) :
    ∃ answer, allocate loaded heap stack copies made = .ok answer := by
  fun_induction allocate loaded heap stack copies made with
  | case1 => exact ⟨_, rfl⟩
  | case2 => exact ⟨_, rfl⟩
  | case3 => exact ⟨_, rfl⟩
  | case4 heap copies made address rest absent object found ofClass known breach broken =>
    obtain ⟨copy, next, done⟩ :=
      Live.exists_alloc (Live.lt_of_classNamed? known).1 (room heap .here) object.blankSlots
    cases done.symm.trans broken
  | case5 heap copies made address rest absent object found ofClass known copy next allocated
      _ ih =>
    exact ih fun met later => room met (.make absent found known allocated later)
  | case6 heap copies made address rest present ih =>
    exact ih fun met later => room met (.skip (Bool.of_not_eq_false present) later)

theorem exists_object {address : UInt64} (room : ∀ met,
    Passes loaded thaw.heap [address] thaw.copies met → met.objects.size < UInt32.size) :
    ∃ copy after, thaw.object loaded address = .ok (copy, after) ∧
      after.heap.classes = thaw.heap.classes := by
  obtain ⟨⟨answer, next⟩, ran⟩ :
      ∃ answer, allocate loaded thaw.heap [address] thaw.copies #[] = .ok answer :=
    exists_allocate room
  have classes := (allocate_keeps ran).1
  cases answer with
  | none => exact ⟨none, _, object_eq_ok_iff.mpr (.inl ⟨next, ran, rfl, rfl⟩), classes⟩
  | some grown =>
    obtain ⟨grown, all⟩ := grown
    -- That each copy lies where it was allocated does not depend on what had a copy before.
    have allocating := allocating_of_allocate ran
    obtain ⟨linked, links, same, _⟩ := allocating.links
    exact ⟨grown[address]?, ⟨linked, grown, thaw.failed⟩,
      object_eq_ok_iff.mpr (.inr ⟨grown, all, next, linked, ran, links, rfl, rfl⟩), same⟩

private theorem exists_storeSlot {ofClass : ClassId}
    (known : ofClass.index < thaw.heap.classes.size)
    (offset : UInt32) (slot : Slot) : ∃ after, thaw.storeSlot ofClass offset slot = .ok after := by
  have stores : ∃ stored, thaw.heap.setStaticAt ofClass offset slot = .ok stored := by
    unfold Live.setStaticAt
    rw [dif_pos known]
    split <;> exact ⟨_, rfl⟩
  obtain ⟨stored, done⟩ := stores
  rw [storeSlot, done]
  cases stored <;> exact ⟨_, rfl⟩

private theorem exists_store {offset : UInt32} {value : Value}
    (room : ∀ ofClass address, thaw.heap.classNamed? name = some ofClass → value = .object address →
      ∀ met, Passes loaded thaw.heap [address] thaw.copies met → met.objects.size < UInt32.size) :
    ∃ after, store loaded thaw name offset value = .ok after := by
  unfold store
  cases named : thaw.heap.classNamed? name with
  | none => exact ⟨_, rfl⟩
  | some ofClass =>
    have known := (Live.lt_of_classNamed? named).1
    cases value with
    | null => exact exists_storeSlot known offset .null
    | bits word => exact exists_storeSlot known offset (.bits word)
    | object address =>
      obtain ⟨copy, next, done, classes⟩ := exists_object (room ofClass address named rfl)
      simp only [done, bind, Except.bind]
      cases copy with
      | none => exact ⟨_, rfl⟩
      | some copy => exact exists_storeSlot (classes ▸ known) offset (.ref copy)

/-- The heaps that there are, one after the other, while values are stored for a class. -/
inductive Stores (loaded : Loaded) (name : String) : Thaw → List (UInt32 × Value) → Live →
    Prop where
  | now {thaw : Thaw} {ofClass : ClassId} {offset : UInt32} {address : UInt64}
      {rest : List (UInt32 × Value)} {met : Live}
      (named : thaw.heap.classNamed? name = some ofClass)
      (passes : Passes loaded thaw.heap [address] thaw.copies met) :
      Stores loaded name thaw ((offset, .object address) :: rest) met
  | later {thaw next : Thaw} {offset : UInt32} {value : Value} {rest : List (UInt32 × Value)}
      {met : Live} (done : store loaded thaw name offset value = .ok next)
      (behind : Stores loaded name next rest met) :
      Stores loaded name thaw ((offset, value) :: rest) met

theorem exists_stores {values : List (UInt32 × Value)}
    (room : ∀ met, Stores loaded name thaw values met → met.objects.size < UInt32.size) :
    ∃ after, values.foldlM (fun state (offset, value) =>
      (host loaded).store state name offset value) thaw = .ok after := by
  induction values generalizing thaw with
  | nil => exact ⟨thaw, rfl⟩
  | cons pair rest ih =>
    obtain ⟨offset, value⟩ := pair
    obtain ⟨next, done⟩ : ∃ next, store loaded thaw name offset value = .ok next :=
      exists_store fun ofClass address named same met passes =>
        room met (by subst same; exact .now named passes)
    obtain ⟨after, others⟩ := ih fun met behind => room met (.later done behind)
    exact ⟨after, by rw [List.foldlM_cons]; exact bind_eq_ok_iff.mpr ⟨next, done, others⟩⟩

/-- A live heap does not change when it is asked for classes. -/
theorem resolveAll_keeps (loaded : Loaded) (thaw : Thaw) (names : List String) :
    (Loaded.resolveAll (host loaded) thaw names).2 = thaw := by
  induction names with
  | nil => rfl
  | cons first rest ih =>
    cases defined : (thaw.heap.classNamed? first).isSome with
    | true => simpa only [Loaded.resolveAll, host, defined] using ih
    | false => simp only [Loaded.resolveAll, host, defined]

end Thaw

namespace Loaded

variable {loaded : Loaded} {State : Type} {host : Host State} {state : State} {name : String}

private theorem exists_valueOf? (loaded : Loaded) (entry : Entry) :
    ∃ value, loaded.valueOf? entry = .ok value := by
  unfold valueOf?
  cases entry.kind with
  | primitive => exact ⟨_, rfl⟩
  | reference region =>
    dsimp only
    split
    · exact ⟨_, rfl⟩
    · split
      · exact ⟨_, rfl⟩
      · split
        · obtain ⟨live, moved⟩ := loaded.relocates (loaded.narrowing.widen ‹Narrow›)
          rw [moved]
          cases live <;> exact ⟨_, rfl⟩
        · exact ⟨_, rfl⟩

private theorem exists_valuesOf? (loaded : Loaded) (entries : List Entry) :
    ∃ values, loaded.valuesOf? entries = .ok values := by
  induction entries with
  | nil => exact ⟨_, rfl⟩
  | cons entry rest ih =>
    obtain ⟨first, here⟩ := loaded.exists_valueOf? entry
    obtain ⟨others, behind⟩ := ih
    simp only [valuesOf?, here, behind, bind, Except.bind]
    cases first <;> exact ⟨_, rfl⟩

/-- Serving a class returns if the values of its record can be stored one after the other. -/
theorem exists_serve (stores : ∀ record later values, loaded.isUsable = true →
      loaded.table.find? name = some record →
      resolveAll host state record.classes = (true, later) →
      loaded.valuesOf? record.entries = .ok (some values) →
      ∃ after, values.foldlM (fun state (offset, value) =>
        host.store state name offset value) later = .ok after) :
    ∃ answer, loaded.serve host state name = .ok answer := by
  unfold serve
  split
  · rename_i usable
    cases found : loaded.table.find? name with
    | none => exact ⟨_, rfl⟩
    | some record =>
      dsimp only
      split
      · exact ⟨_, rfl⟩
      · rename_i later resolved
        obtain ⟨values, read⟩ := loaded.exists_valuesOf? record.entries
        simp only [read, bind, Except.bind]
        cases values with
        | none => exact ⟨_, rfl⟩
        | some values =>
          obtain ⟨after, done⟩ := stores record later values usable found resolved read
          simp only [done]
          exact ⟨_, rfl⟩
  · exact ⟨_, rfl⟩

/-- Serving a class returns for a process that takes in whatever it is given. -/
theorem exists_serve_of_total (takes : ∀ state name offset value,
    ∃ after, host.store state name offset value = .ok after) :
    ∃ answer, loaded.serve host state name = .ok answer :=
  exists_serve fun _ _ _ _ _ _ _ =>
    exists_foldlM fun _ item _ state _ _ => takes state name item.1 item.2

end Loaded
end FrozenHeap
