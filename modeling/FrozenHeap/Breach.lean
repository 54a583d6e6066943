/-!
Broken contracts. A `Breach` is not an error of the domain: it says that a caller left the range in
which an operation has a meaning, so nothing after it is worth computing.
-/
namespace FrozenHeap

/-- Why an operation had no meaning. -/
inductive Breach where
  /-- A result does not fit its machine width. -/
  | overflow
  /-- An index names nothing. -/
  | outOfRange
  /-- A stated precondition does not hold. -/
  | precondition
  deriving DecidableEq, Repr

/-- A computation that either has a meaning or is stopped by a breach. -/
abbrev Run (α : Type) := Except Breach α

/-- A sequence has a meaning if both its parts have one. -/
theorem bind_eq_ok_iff {ε : Type} {first : Except ε α} {next : α → Except ε β} {result : β} :
    first >>= next = .ok result ↔ ∃ value, first = .ok value ∧ next value = .ok result := by
  cases first with
  | error cause => simp [bind, Except.bind]
  | ok value => simp [bind, Except.bind]

/-- A result passes a check if there is one, and it does. -/
theorem any_toOption_iff {ε : Type} {ran : Except ε α} {check : α → Bool} :
    ran.toOption.any check = true ↔ ∃ value, ran = .ok value ∧ check value = true := by
  cases ran with
  | error breach => simp [Except.toOption]
  | ok value => simp [Except.toOption]

/-- What each item of a sequence keeps, the whole sequence keeps. -/
theorem foldlM_preserves {State : Type} (holds : State → Prop) {change : State → α → Run State}
    {items : List α} {before after : State}
    (keeps : ∀ item ∈ items, ∀ state next, change state item = .ok next → holds state → holds next)
    (initial : holds before) (done : items.foldlM change before = .ok after) : holds after := by
  induction items generalizing before with
  | nil =>
    cases done
    exact initial
  | cons item rest ih =>
    rw [List.foldlM_cons] at done
    obtain ⟨next, first, done⟩ := bind_eq_ok_iff.mp done
    have now := keeps item List.mem_cons_self before next first initial
    exact ih (fun other member => keeps other (List.mem_cons_of_mem _ member)) now done

/-- What holds at the start and passes from item to item holds, in the end, of the
whole sequence. -/
theorem foldlM_prefix {State : Type} (holds : List α → State → Prop)
    {change : State → α → Run State} {items : List α} {before after : State}
    (step : ∀ front item back state next, items = front ++ item :: back →
      front.foldlM change before = .ok state → change state item = .ok next → holds front state →
        holds (front ++ [item]) next)
    (initial : holds [] before) (done : items.foldlM change before = .ok after) :
    holds items after := by
  have reached (back : List α) : ∀ front state, items = front ++ back →
      front.foldlM change before = .ok state → holds front state →
      back.foldlM change state = .ok after → holds items after := by
    induction back with
    | nil =>
      intro front state split _ now rest
      cases rest
      rwa [split, List.append_nil]
    | cons item back ih =>
      intro front state split here now rest
      rw [List.foldlM_cons] at rest
      obtain ⟨next, first, rest⟩ := bind_eq_ok_iff.mp rest
      refine ih (front ++ [item]) next (by rw [split, List.append_assoc]; rfl) ?_
        (step front item back state next split here first now) rest
      rw [List.foldlM_append, here]
      simp [first, bind, Except.bind, pure, Except.pure]
  exact reached items [] before rfl rfl initial done

/-- A sequence has a meaning if each item has one in the state that the items before it lead to. -/
theorem exists_foldlM {State : Type} {change : State → α → Run State} {items : List α}
    {before : State}
    (step : ∀ front item back state, items = front ++ item :: back →
      front.foldlM change before = .ok state → ∃ next, change state item = .ok next) :
    ∃ after, items.foldlM change before = .ok after := by
  induction items generalizing before with
  | nil => exact ⟨before, rfl⟩
  | cons item rest ih =>
    obtain ⟨next, first⟩ := step [] item rest before rfl rfl
    obtain ⟨after, done⟩ := ih fun front other back state split reached =>
      step (item :: front) other back state (by rw [split, List.cons_append])
        (by rw [List.foldlM_cons, first]; exact reached)
    exact ⟨after, by rw [List.foldlM_cons, first]; exact done⟩

/-- A sequence has a meaning if its parts in front of an item, at it and behind it have one. -/
theorem foldlM_append_cons_eq_ok_iff {State : Type} {change : State → α → Run State}
    {front back : List α} {item : α} {before after : State} :
    (front ++ item :: back).foldlM change before = .ok after ↔
      ∃ state next, front.foldlM change before = .ok state ∧ change state item = .ok next ∧
        back.foldlM change next = .ok after := by
  simp only [List.foldlM_append, List.foldlM_cons, bind_eq_ok_iff]
  constructor
  · rintro ⟨state, reached, next, first, done⟩
    exact ⟨state, next, reached, first, done⟩
  · rintro ⟨state, next, reached, first, done⟩
    exact ⟨state, reached, next, first, done⟩

/-- A computation delivers if whatever it results in is good, and if there is a result once there is
room for it. -/
structure Delivers (room : Prop) (ran : Run α) (good : α → Prop) : Prop where
  good : ∀ value, ran = .ok value → good value
  returns : room → ∃ value, ran = .ok value

namespace Delivers

variable {room : Prop} {ran : Run α} {good fine : α → Prop}

theorem of_eq_ok {value : α} (done : ran = .ok value) (holds : good value) :
    Delivers room ran good where
  good other same := by
    cases done.symm.trans same
    exact holds
  returns _ := ⟨value, done⟩

theorem ok {value : α} (holds : good value) : Delivers room (.ok value) good := of_eq_ok rfl holds

theorem error {breach : Breach} (crowded : ¬ room) : Delivers room (.error breach) good where
  good value same := by cases same
  returns spacious := absurd spacious crowded

theorem bind {next : α → Run β} {last : β → Prop} (first : Delivers room ran good)
    (second : ∀ value, good value → Delivers room (next value) last) :
    Delivers room (ran >>= next) last where
  good result done := by
    obtain ⟨value, here, done⟩ := bind_eq_ok_iff.mp done
    exact (second value (first.good value here)).good result done
  returns spacious := by
    obtain ⟨value, here⟩ := first.returns spacious
    obtain ⟨result, done⟩ := (second value (first.good value here)).returns spacious
    exact ⟨result, bind_eq_ok_iff.mpr ⟨value, here, done⟩⟩

theorem imp (delivers : Delivers room ran good) (weaker : ∀ value, good value → fine value) :
    Delivers room ran fine :=
  ⟨fun value done => weaker value (delivers.good value done), delivers.returns⟩

theorem exists_ok (delivers : Delivers room ran good) (spacious : room) :
    ∃ value, ran = .ok value ∧ good value := by
  obtain ⟨value, done⟩ := delivers.returns spacious
  exact ⟨value, done, delivers.good value done⟩

end Delivers

/-- Continue only under `condition`. -/
def ensure (condition : Prop) [Decidable condition] : Run Unit :=
  if condition then .ok () else .error .precondition

theorem ensure_eq_ok_iff {condition : Prop} [Decidable condition] :
    ensure condition = .ok () ↔ condition := by
  unfold ensure
  split <;> simp [*]

def entryAt (entries : Array α) (index : Nat) : Run α :=
  match entries[index]? with
  | some entry => .ok entry
  | none => .error .outOfRange

theorem entryAt_eq_ok_iff {entries : Array α} {index : Nat} {entry : α} :
    entryAt entries index = .ok entry ↔ entries[index]? = some entry := by
  unfold entryAt
  cases entries[index]? <;> simp

/-- Sums that must stay below `2 ^ 64`. -/
def addWord (a b : UInt64) : Run UInt64 :=
  if a.toNat + b.toNat < UInt64.size then .ok (a + b) else .error .overflow

def subWord (a b : UInt64) : Run UInt64 :=
  if b ≤ a then .ok (a - b) else .error .overflow

def toWord (n : Nat) : Run UInt64 :=
  if n < UInt64.size then .ok (UInt64.ofNat n) else .error .overflow

def toHalf (n : Nat) : Run UInt32 :=
  if n < UInt32.size then .ok (UInt32.ofNat n) else .error .overflow

theorem addWord_eq_ok_iff {a b c : UInt64} :
    addWord a b = .ok c ↔ a.toNat + b.toNat = c.toNat := by
  have bound : c.toNat < UInt64.size := c.toNat_lt
  unfold addWord
  split
  · rename_i small
    constructor
    · intro same
      cases same
      rw [UInt64.toNat_add, Nat.mod_eq_of_lt small]
    · intro same
      congr 1
      apply UInt64.toNat.inj
      rw [UInt64.toNat_add, Nat.mod_eq_of_lt small, same]
  · rename_i large
    constructor
    · intro impossible; cases impossible
    · intro same; omega

theorem subWord_eq_ok_iff {a b c : UInt64} :
    subWord a b = .ok c ↔ a.toNat = b.toNat + c.toNat := by
  unfold subWord
  split
  · rename_i below
    have order := UInt64.le_iff_toNat_le.mp below
    constructor
    · intro same
      cases same
      rw [UInt64.toNat_sub_of_le _ _ below]
      omega
    · intro same
      congr 1
      apply UInt64.toNat.inj
      rw [UInt64.toNat_sub_of_le _ _ below]
      omega
  · rename_i above
    have order : ¬ b.toNat ≤ a.toNat := fun h => above (UInt64.le_iff_toNat_le.mpr h)
    constructor
    · intro impossible; cases impossible
    · intro same; omega

theorem toWord_eq_ok_iff {n : Nat} {w : UInt64} : toWord n = .ok w ↔ w.toNat = n := by
  have bound : w.toNat < UInt64.size := w.toNat_lt
  unfold toWord
  split
  · rename_i small
    constructor
    · intro same
      cases same
      rw [UInt64.toNat_ofNat', Nat.mod_eq_of_lt small]
    · intro same
      congr 1
      apply UInt64.toNat.inj
      rw [UInt64.toNat_ofNat', Nat.mod_eq_of_lt small, same]
  · constructor
    · intro impossible; cases impossible
    · intro same; omega

end FrozenHeap
