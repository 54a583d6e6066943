import FrozenHeap.Breach
import Mathlib.Data.List.Forall2
import Mathlib.Logic.Relator

namespace FrozenHeap

/-- Two computations are stopped by the same breach, or have results that are related. -/
inductive Parallel (related : α → β → Prop) : Run α → Run β → Prop where
  | broken {breach : Breach} : Parallel related (.error breach) (.error breach)
  | ok {left : α} {right : β} (here : related left right) : Parallel related (.ok left) (.ok right)

/-- Two computations fail, each for a cause of its own, or have results that are related. -/
inductive Answered (related : α → β → Prop) : Except ε α → Except δ β → Prop where
  | refused {former : ε} {latter : δ} : Answered related (.error former) (.error latter)
  | ok {left : α} {right : β} (here : related left right) :
    Answered related (.ok left) (.ok right)

/-- Two runs are stopped by the same breach, or give the same answer and end in states that
are related. -/
abbrev Agree {State Twin : Type} (related : State → Twin → Prop) :
    Run (α × State) → Run (α × Twin) → Prop :=
  Parallel fun one two => one.1 = two.1 ∧ related one.2 two.2

namespace Parallel

variable {R : α → β → Prop} {S : γ → δ → Prop} {left : Run α} {right : Run β}

theorem bind {next : α → Run γ} {last : β → Run δ} (first : Parallel R left right)
    (second : ∀ one two, R one two → Parallel S (next one) (last two)) :
    Parallel S (left >>= next) (right >>= last) := by
  cases first with
  | broken => exact .broken
  | ok here => exact second _ _ here

theorem imp (parallel : Parallel R left right) {T : α → β → Prop}
    (weaker : ∀ one two, R one two → T one two) : Parallel T left right := by
  cases parallel with
  | broken => exact .broken
  | ok here => exact .ok (weaker _ _ here)

theorem error_eq {breach : Breach} (parallel : Parallel R (.error breach) right) :
    right = .error breach := by
  cases parallel
  rfl

theorem exists_ok {one : α} (parallel : Parallel R (.ok one) right) :
    ∃ two, right = .ok two ∧ R one two := by
  cases parallel with
  | ok here => exact ⟨_, rfl, here⟩

theorem refl {ran : Run α} : Parallel Eq ran ran := by
  cases ran with
  | error breach => exact .broken
  | ok value => exact .ok rfl

theorem eq {left right : Run α} (parallel : Parallel Eq left right) : left = right := by
  cases parallel with
  | broken => rfl
  | ok here => rw [here]

/-- Sequences over corresponding items run in parallel if each item keeps the states related. -/
theorem foldlM {change : α → γ → Run α} {switch : β → δ → Run β} {items : List γ} {others : List δ}
    {former : α} {latter : β} (step : ∀ former latter one two, R former latter → S one two →
      Parallel R (change former one) (switch latter two))
    (corresponding : List.Forall₂ S items others) (initial : R former latter) :
    Parallel R (items.foldlM change former) (others.foldlM switch latter) := by
  induction corresponding generalizing former latter with
  | nil => exact .ok initial
  | cons here _ ih =>
    rw [List.foldlM_cons, List.foldlM_cons]
    exact (step _ _ _ _ initial here).bind fun _ _ now => ih now

end Parallel

theorem Agree.map {State Twin : Type} {related : State → Twin → Prop} {one : Run (α × State)}
    {two : Run (α × Twin)} (agree : Agree related one two) (change : α → β) :
    Agree related (do let (answer, after) ← one; return (change answer, after))
      (do let (answer, after) ← two; return (change answer, after)) :=
  agree.bind fun _ _ ⟨same, after⟩ => .ok ⟨congrArg change same, after⟩

/-- A sequence does to a view of a state what it does to the state, if each of its items does. -/
theorem foldlM_map {State View : Type} {change : State → α → Run State}
    {switch : View → α → Run View} {view : State → View}
    (step : ∀ state item, switch (view state) item = (change state item).map view)
    (items : List α) (state : State) :
    items.foldlM switch (view state) = (items.foldlM change state).map view := by
  induction items generalizing state with
  | nil => rfl
  | cons item rest ih =>
    rw [List.foldlM_cons, List.foldlM_cons, step]
    cases change state item with
    | error breach => rfl
    | ok next => exact ih next

section Lists

variable {related : α → β → Prop} {items : List α} {others : List β}

theorem forall₂_zipIdx (corresponding : List.Forall₂ related items others) (start : Nat) :
    List.Forall₂ (fun one two => related one.1 two.1 ∧ one.2 = two.2) (items.zipIdx start)
      (others.zipIdx start) := by
  induction corresponding generalizing start with
  | nil => exact .nil
  | cons here _ ih => exact .cons ⟨here, rfl⟩ (ih _)

theorem forall₂_set (corresponding : List.Forall₂ related items others) (index : Nat) {one : α}
    {two : β} (here : related one two) :
    List.Forall₂ related (items.set index one) (others.set index two) := by
  induction corresponding generalizing index with
  | nil => exact .nil
  | cons head tail ih =>
    cases index with
    | zero => exact .cons here tail
    | succ index => exact .cons head (ih index)

theorem forall₂_getElem? (corresponding : List.Forall₂ related items others) (index : Nat) :
    Option.Rel related items[index]? others[index]? := by
  induction corresponding generalizing index with
  | nil => exact .none
  | cons head _ ih =>
    cases index with
    | zero => exact .some head
    | succ index => exact ih index

theorem isSome_eq_of_rel {one : Option α} {two : Option β} (same : Option.Rel related one two) :
    one.isSome = two.isSome := by
  cases same <;> rfl

/-- A search finds the same position among corresponding items. -/
theorem findIdx?_eq {items : Array α} {others : Array β} {check : α → Bool} {test : β → Bool}
    (corresponding : List.Forall₂ related items.toList others.toList)
    (same : ∀ one two, related one two → check one = test two) :
    items.findIdx? check = others.findIdx? test := by
  obtain ⟨items⟩ := items
  obtain ⟨others⟩ := others
  rw [List.findIdx?_toArray, List.findIdx?_toArray]
  simp only at corresponding
  induction corresponding with
  | nil => rfl
  | cons head _ ih => rw [List.findIdx?_cons, List.findIdx?_cons, same _ _ head, ih]

theorem forall₂_find? {p : α → Bool} {q : β → Bool}
    (corresponding : List.Forall₂ related items others)
    (same : ∀ one two, related one two → p one = q two) :
    Option.Rel related (items.find? p) (others.find? q) := by
  induction corresponding with
  | nil => exact .none
  | cons head _ ih =>
    rw [List.find?_cons, List.find?_cons, same _ _ head]
    split
    · exact .some head
    · exact ih

theorem map_eq_of_forall₂ {read : α → γ} {look : β → γ}
    (corresponding : List.Forall₂ related items others)
    (same : ∀ one two, related one two → read one = look two) :
    items.map read = others.map look := by
  induction corresponding with
  | nil => rfl
  | cons head _ ih => rw [List.map_cons, List.map_cons, same _ _ head, ih]

theorem exists_left_of_forall₂ (corresponding : List.Forall₂ related items others) :
    ∀ other ∈ others, ∃ item ∈ items, related item other := by
  induction corresponding with
  | nil => exact fun _ listed => absurd listed List.not_mem_nil
  | @cons item other rest behind here _ ih =>
    intro another listed
    rcases List.mem_cons.mp listed with rfl | later
    · exact ⟨item, List.mem_cons_self, here⟩
    · obtain ⟨found, member, same⟩ := ih another later
      exact ⟨found, List.mem_cons_of_mem _ member, same⟩

theorem exists_right_of_forall₂ (corresponding : List.Forall₂ related items others) :
    ∀ item ∈ items, ∃ other ∈ others, related item other :=
  exists_left_of_forall₂ corresponding.flip

/-- Lists that agree in what is read off their items correspond item by item. -/
theorem forall₂_of_map_eq {read : α → γ} {look : β → γ} (same : items.map read = others.map look)
    (similar : ∀ item ∈ items, ∀ other ∈ others, read item = look other → related item other) :
    List.Forall₂ related items others := by
  induction items generalizing others with
  | nil =>
    rw [List.map_nil, eq_comm, List.map_eq_nil_iff] at same
    exact same ▸ .nil
  | cons item rest ih =>
    obtain ⟨other, behind, rfl, first, later⟩ := List.map_eq_cons_iff.mp same.symm
    refine .cons (similar item List.mem_cons_self other List.mem_cons_self first.symm)
      (ih later.symm fun item member other there => ?_)
    exact similar item (List.mem_cons_of_mem _ member) other (List.mem_cons_of_mem _ there)

/-- Related values are equal on one side where they are on the other one. -/
theorem beq_eq_of_biUnique [BEq α] [LawfulBEq α] [BEq β] [LawfulBEq β]
    (unique : Relator.BiUnique related) {one last : α} {two final : β} (here : related one two)
    (there : related last final) : (one == last) = (two == final) := by
  rw [Bool.eq_iff_iff, beq_iff_eq, beq_iff_eq]
  exact Relator.rel_eq unique here there

/-- Corresponding items correspond when each is kept once. -/
theorem forall₂_eraseDups [BEq α] [LawfulBEq α] [BEq β] [LawfulBEq β]
    (unique : Relator.BiUnique related) (corresponding : List.Forall₂ related items others) :
    List.Forall₂ related items.eraseDups others.eraseDups := by
  -- A head outlives its copies in the tail, which is shorter without them.
  induction length : items.length using Nat.strongRecOn generalizing items others with
  | ind _ ih =>
    cases corresponding with
    | nil => exact .nil
    | cons head tail =>
      rw [List.eraseDups_cons, List.eraseDups_cons]
      refine .cons head (ih _ ?_ (List.rel_filter (fun one two here => ?_) tail) rfl)
      · subst length
        exact Nat.lt_succ_of_le (List.length_filter_le _ _)
      · simp only [beq_eq_of_biUnique unique here head]

end Lists
end FrozenHeap
