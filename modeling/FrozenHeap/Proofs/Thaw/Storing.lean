import FrozenHeap.Proofs.Thaw.Copying

namespace FrozenHeap.Thaw

variable {loaded : Loaded} {holds : UInt64 → Prop} {heap : Live} {thaw after : Thaw}
  {name : String} {offset : UInt32} {value : Value}

/-- A live heap in which nothing but complete copies and archived statics was put since it was as it
is here, and nothing has failed. -/
structure Fit (loaded : Loaded) (holds : UInt64 → Prop) (heap : Live) (thaw : Thaw) : Prop where
  sound : Sound loaded thaw
  confined : Confined heap.objects.size holds thaw
  shapes : thaw.heap.shapes = heap.shapes
  declared : ∀ ofClass offset, (heap.static? ofClass offset).isSome = true →
    (thaw.heap.static? ofClass offset).isSome = true
  failed : thaw.failed = 0

theorem Fit.start (heap : Live) : Fit loaded holds heap (start heap) where
  sound := ⟨fun _ _ _ found => by simp [Thaw.start] at found,
    fun _ _ found => by simp [Thaw.start] at found⟩
  confined := ⟨fun _ behind inside => absurd inside (Nat.not_lt_of_le behind),
    fun _ member => by simp [Thaw.start] at member⟩
  shapes := rfl
  declared _ _ declared := declared
  failed := rfl

theorem Ready.congr {other : Live} (ready : Ready loaded holds heap)
    (shapes : other.shapes = heap.shapes) : Ready loaded holds other where
  follows := ready.follows
  read address held := by
    obtain ⟨object, ofClass, found, named⟩ := ready.read address held
    exact ⟨object, ofClass, found, (Live.classNamed?_of_shapes shapes _).trans named⟩

/-- A static field holds an archived value, and the object that it refers to has its copy. -/
structure Stored (thaw : Thaw) (name : String) (offset : UInt32) (value : Value) : Prop where
  held : ∃ ofClass, thaw.heap.classNamed? name = some ofClass ∧
    thaw.heap.static? ofClass offset = some (value.slot thaw.copies)
  copied : ∀ address, value = .object address → address ∈ thaw.copies

/-- A static field can take a value. -/
structure Fits (holds : UInt64 → Prop) (heap : Live) (name : String) (offset : UInt32)
    (value : Value) : Prop where
  declared : ∃ ofClass, heap.classNamed? name = some ofClass ∧
    (heap.static? ofClass offset).isSome = true
  sought : ∀ address, value = .object address → holds address

/-- What was stored stays when more objects are copied. -/
theorem Stored.grow (stored : Stored thaw name offset value) (grows : Grows thaw after) :
    Stored after name offset value := by
  obtain ⟨ofClass, named, held⟩ := stored.held
  have same : value.slot after.copies = value.slot thaw.copies := by
    cases value with
    | null => rfl
    | bits _ => rfl
    | object address =>
      obtain ⟨copy, known⟩ := mem_copies_iff.mp (stored.copied address rfl)
      rw [Value.slot, Value.slot, known, grows.copies address copy known]
  constructor
  · refine ⟨ofClass, (Live.classNamed?_congr grows.classes name).trans named, ?_⟩
    rw [same, ← held, Live.static?, Live.static?, grows.classes]
  · intro address equal
    obtain ⟨copy, known⟩ := mem_copies_iff.mp (stored.copied address equal)
    exact mem_copies_iff.mpr ⟨_, grows.copies address copy known⟩

theorem Fit.grow (fit : Fit loaded holds heap thaw) (grows : Grows thaw after)
    (sound : Sound loaded after) (confined : Confined heap.objects.size holds after) :
    Fit loaded holds heap after where
  sound := sound
  confined := confined
  shapes := by
    rw [← fit.shapes, Live.shapes, Live.shapes, grows.classes]
  declared ofClass offset declared := by
    rw [Live.static?, grows.classes]
    exact fit.declared ofClass offset declared
  failed := grows.failed.trans fit.failed

/-- Storing the slot of a value stores the value, and takes away no other that was stored. -/
theorem storeSlot_ok (fit : Fit loaded holds heap thaw) (fits : Fits holds heap name offset value)
    (copied : ∀ address, value = .object address → address ∈ thaw.copies) {ofClass : ClassId}
    (named : thaw.heap.classNamed? name = some ofClass) :
    ∃ after, thaw.storeSlot ofClass offset (value.slot thaw.copies) = .ok after ∧
      Fit loaded holds heap after ∧ Stored after name offset value ∧
      ∀ other place kept, Stored thaw other place kept →
        (other = name → place = offset → kept = value) → Stored after other place kept := by
  obtain ⟨same, known, declared⟩ := fits.declared
  rw [← Live.classNamed?_of_shapes fit.shapes, named] at known
  cases known
  obtain ⟨next, done, objects, shapes, here, others⟩ :=
    Live.setStaticAt_ok (fit.declared ofClass offset declared) (value.slot thaw.copies)
  have names (other : String) : next.classNamed? other = thaw.heap.classNamed? other :=
    Live.classNamed?_of_shapes shapes other
  refine ⟨{ thaw with heap := next }, ?_, ?_, ?_, ?_⟩
  · simp only [storeSlot, done, bind, Except.bind, pure, Except.pure]
  · constructor
    · refine ⟨fit.sound.injective, fun address copy found => ?_⟩
      obtain ⟨object, class_, read, defined, held, closed⟩ := fit.sound.complete address copy found
      exact ⟨object, class_, read, (names _).trans defined, by rw [objects]; exact held, closed⟩
    · refine ⟨fun index behind inside => ?_, fit.confined.held⟩
      rw [objects] at inside
      exact fit.confined.covers index behind inside
    · exact shapes.trans fit.shapes
    · intro other place there
      by_cases written : other = ofClass ∧ place = offset
      · rw [written.1, written.2, here]
        rfl
      · rw [others other place written]
        exact fit.declared other place there
    · exact fit.failed
  · exact ⟨⟨ofClass, (names name).trans named, here⟩, copied⟩
  · intro other place kept stored agrees
    obtain ⟨class_, defined, held⟩ := stored.held
    refine ⟨⟨class_, (names other).trans defined, ?_⟩, stored.copied⟩
    by_cases written : class_ = ofClass ∧ place = offset
    · obtain ⟨rfl, rfl⟩ := written
      rw [here, agrees (Live.name_inj defined named) rfl]
    · rw [others class_ place written]
      exact held

/-- Storing an archived value copies what it refers to, and takes away no other that was stored. -/
theorem delivers_store (ready : Ready loaded holds heap) (fit : Fit loaded holds heap thaw)
    (fits : Fits holds heap name offset value) :
    Delivers (Roomy heap.objects.size holds) (store loaded thaw name offset value) fun after =>
      Fit loaded holds heap after ∧ Stored after name offset value ∧
      ∀ other place kept, Stored thaw other place kept →
        (other = name → place = offset → kept = value) → Stored after other place kept := by
  obtain ⟨ofClass, known, _⟩ := fits.declared
  have named : thaw.heap.classNamed? name = some ofClass :=
    (Live.classNamed?_of_shapes fit.shapes name).trans known
  simp only [store, named]
  cases value with
  | null =>
    obtain ⟨after, stored, rest⟩ := storeSlot_ok fit fits (fun _ same => by cases same) named
    exact .of_eq_ok stored rest
  | bits word =>
    obtain ⟨after, stored, rest⟩ := storeSlot_ok fit fits (fun _ same => by cases same) named
    exact .of_eq_ok stored rest
  | object address =>
    refine (delivers_object (ready.congr fit.shapes) fit.sound fit.confined
      (fits.sought address rfl)).bind ?_
    rintro ⟨_, next⟩ ⟨copy, rfl, sound, grows, copied, confined⟩
    have fit := fit.grow grows sound confined
    have named : next.heap.classNamed? name = some ofClass :=
      (Live.classNamed?_congr grows.classes name).trans named
    obtain ⟨after, stored, fit, held, kept⟩ := storeSlot_ok fit fits
      (fun other same => by cases same; exact mem_copies_iff.mpr ⟨_, copied⟩) named
    rw [Value.slot, copied] at stored
    exact .of_eq_ok stored ⟨fit, held, fun other place value before agrees =>
      kept other place value (before.grow grows) agrees⟩

/-- Values for some static fields, one for each. -/
def Functional (plan : String → UInt32 → Value → Prop) : Prop :=
  ∀ name offset value other, plan name offset value → plan name offset other → value = other

/-- Storing values for the static fields of a class, all under one plan, stores all of them. -/
theorem delivers_stores {plan : String → UInt32 → Value → Prop} (functional : Functional plan)
    (planned : ∀ name offset value, plan name offset value → Fits holds heap name offset value)
    (ready : Ready loaded holds heap) (values : List (UInt32 × Value))
    (fit : Fit loaded holds heap thaw) (wanted : ∀ pair ∈ values, plan name pair.1 pair.2) :
    Delivers (Roomy heap.objects.size holds) (values.foldlM (fun state (offset, value) =>
        (host loaded).store state name offset value) thaw) fun after =>
      Fit loaded holds heap after ∧ (∀ pair ∈ values, Stored after name pair.1 pair.2) ∧
      ∀ other offset value, plan other offset value → Stored thaw other offset value →
        Stored after other offset value := by
  induction values generalizing thaw with
  | nil => exact .ok ⟨fit, fun _ member => (by cases member), fun _ _ _ _ stored => stored⟩
  | cons pair rest ih =>
    have here := wanted pair List.mem_cons_self
    rw [List.foldlM_cons]
    refine (delivers_store ready fit (planned _ _ _ here)).bind ?_
    rintro next ⟨fit, stored, kept⟩
    refine (ih fit fun other member => wanted other (List.mem_cons_of_mem _ member)).imp ?_
    rintro after ⟨finished, all, still⟩
    refine ⟨finished, ?_, ?_⟩
    · intro other member
      rcases List.mem_cons.mp member with rfl | behind
      · exact still _ _ _ here stored
      · exact all other behind
    · intro other offset value agreed before
      refine still other offset value agreed (kept other offset value before ?_)
      rintro rfl rfl
      exact functional _ _ _ _ agreed here

private theorem resolveAll_host (names : List String)
    (defined : ∀ name ∈ names, (thaw.heap.classNamed? name).isSome = true) :
    Loaded.resolveAll (host loaded) thaw names = (true, thaw) := by
  induction names with
  | nil => rfl
  | cons name rest ih =>
    have here := defined name List.mem_cons_self
    have others := ih fun other member => defined other (List.mem_cons_of_mem _ member)
    simp only [Loaded.resolveAll, host, here] at others ⊢
    exact others

/-- A class whose record can be read, all of it, is served. -/
theorem delivers_serve (plan : String → UInt32 → Value → Prop) (functional : Functional plan)
    (planned : ∀ name offset value, plan name offset value → Fits holds heap name offset value)
    (ready : Ready loaded holds heap) (usable : loaded.isUsable = true) {record : Record}
    (found : loaded.table.find? name = some record)
    (defined : ∀ other ∈ record.classes, (heap.classNamed? other).isSome = true)
    {values : List (UInt32 × Value)} (read : loaded.valuesOf? record.entries = .ok (some values))
    (wanted : ∀ pair ∈ values, plan name pair.1 pair.2) (fit : Fit loaded holds heap thaw) :
    Delivers (Roomy heap.objects.size holds) (loaded.serve (host loaded) thaw name) fun answer =>
      answer.1 = some record.isPartial ∧ Fit loaded holds heap answer.2 ∧
      (∀ pair ∈ values, Stored answer.2 name pair.1 pair.2) ∧
      ∀ other offset value, plan other offset value → Stored thaw other offset value →
        Stored answer.2 other offset value := by
  have resolved : Loaded.resolveAll (host loaded) thaw record.classes = (true, thaw) := by
    refine resolveAll_host _ fun other member => ?_
    rw [Live.classNamed?_of_shapes fit.shapes]
    exact defined other member
  have stores := delivers_stores functional planned ready values fit wanted
  simp only [Loaded.serve, usable, if_true, found, resolved, read]
  exact stores.bind fun after rest => .ok ⟨rfl, rest⟩

end FrozenHeap.Thaw
