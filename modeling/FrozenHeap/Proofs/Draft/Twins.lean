import FrozenHeap.Proofs.Draft.Alike
import FrozenHeap.Proofs.Recording.Laying

namespace FrozenHeap

/-- An address that has a narrow form which is not null is what this form stands for. -/
theorem Narrowing.widen_of_narrow {narrowing : Narrowing} {address : UInt64} {narrow : Narrow}
    (narrowed : narrowing.narrow address = .ok narrow) (live : narrow ≠ 0) :
    narrowing.widen narrow = address := by
  unfold Narrowing.narrow narrowFrom at narrowed
  split at narrowed
  · cases narrowed
    exact absurd rfl live
  split at narrowed
  · cases narrowed
  split at narrowed
  · cases narrowed
  rename_i above _
  simp only at narrowed
  split at narrowed
  · rename_i fit
    cases narrowed
    have order : narrowing.base.toNat < address.toNat := by
      rw [UInt64.le_iff_toNat_le] at above
      omega
    have steps := Nat.div_mul_cancel (Nat.dvd_of_mod_eq_zero fit.1)
    refine narrowing.widen_eq (Nat.pos_of_ne_zero fun zero => live ?_) fit.2 (by omega)
    rw [zero]
    rfl
  · cases narrowed

/-- Where an image tells whether it spans an address, it compares the address with its ends. -/
theorem Image.contains_iff {image : Image} {address : UInt64} {inside : Bool}
    (told : image.contains address = .ok inside) : inside = true ↔
      image.base.toNat ≤ address.toNat ∧ address.toNat < image.base.toNat + image.byteLength := by
  unfold Image.contains at told
  split at told
  · rename_i below
    cases told
    rw [UInt64.lt_iff_toNat_lt] at below
    simp only [Bool.false_eq_true, false_iff]
    omega
  · rename_i above
    rw [UInt64.lt_iff_toNat_lt, Nat.not_lt] at above
    split at told
    · cases told
      rw [decide_eq_true_eq]
      exact ⟨fun below => ⟨above, below⟩, And.right⟩
    · cases told

/-- An image that spans an address ends at an address that exists. -/
theorem Image.finish_lt {image : Image} {address : UInt64}
    (told : image.contains address = .ok true) :
    image.base.toNat + image.byteLength < UInt64.size := by
  unfold Image.contains at told
  split at told
  · cases told
  · split at told
    · assumption
    · cases told

/-- A reference in a cell is null or leads to a copy. -/
def Cell.Leads (narrowing : Narrowing) (copies : Copies) (cell : Cell) : Prop :=
  cell.isReference = true → cell.word = 0 ∨ ∃ (target : ObjectId) (place : Place) (narrow : Narrow),
    copies[target]? = some place ∧ narrowing.narrow place.address = .ok narrow ∧
      cell.word = narrow.toUInt64

/-- The copies there are when laying out an object has ended in this way. -/
def Copies.note (copies : Copies) (object : ObjectId) : Outcome Place → Copies
  | .ok place => copies.insert object place
  | .error _ => copies

namespace Draft

/-- Two drafts hold the same copy at a place. -/
def Share (left right : Draft) (copies : Copies) (place : Place) : Prop :=
  ∃ start copy,
    place.address.toNat = (right.image place.region).base.toNat + wordBytes * start ∧
    left.Holds place.region start copy ∧ right.Holds place.region start copy ∧
    ∀ cell ∈ copy.cells, cell.Leads right.narrowing copies

/-- Two drafts that are alike and hold the same copies, where no class name but those that are known
has a number. -/
structure Twins (known : List String) (copies : Copies) (left right : Draft) : Prop
    extends Draft.Alike #[] left right where
  covered : ∀ region, (right.image region).Covered
  /-- The opened region starts where the closed one ends at the latest. -/
  apart : (right.image .opened).base =
    Settings.addSaturating (right.image .closed).base right.capacity
  within : wordBytes * (right.image .closed).words.size ≤ right.capacity.toNat
  named : left.Named known
  renamed : right.Named known
  shared : ∀ (object : ObjectId) (place : Place), copies[object]? = some place →
    left.Share right copies place

namespace Holds

variable {before after : Draft} {region : Region} {start : Nat} {copy : Copy}

theorem grow (holds : before.Holds region start copy) (grown : before.Extends after) :
    after.Holds region start copy where
  header := by
    obtain ⟨classIndex, named, found⟩ := holds.header
    exact ⟨classIndex, grown.name named, by
      rw [grown.cells region start (Image.lt_of_cellAt? found), found]⟩
  short := holds.short
  cells index inside := by
    have found := holds.cells index inside
    rw [grown.cells region _ (Image.lt_of_cellAt? found), found]

/-- Overwriting a marked word of a draft overwrites a cell of the copies that it belongs to. -/
theorem setWord (holds : before.Holds region start copy) {other : Region} {index : Nat}
    (marked : (before.image other).marks.isSet index = true) (word : UInt64) :
    (before.modifyImage other (·.setWord index word)).Holds region start
      { copy with cells := copy.cells.mapIdx fun position cell =>
        if region = other ∧ start + 1 + position = index then ⟨word, cell.isReference⟩
        else cell } where
  header := by
    obtain ⟨classIndex, named, found⟩ := holds.header
    refine ⟨classIndex, by rwa [names_modifyImage], ?_⟩
    rw [Array.size_mapIdx, ← found, image_modifyImage]
    split
    · rename_i same
      subst same
      refine Image.cellAt?_setWord_of_ne _ _ fun here => ?_
      rw [here, (Image.cellAt?_eq_some_iff.mp found).2] at marked
      cases marked
    · rfl
  short := by
    rw [Array.size_mapIdx]
    exact holds.short
  cells position inside := by
    rw [Array.size_mapIdx] at inside
    have found := holds.cells position inside
    rw [Array.getElem_mapIdx, image_modifyImage]
    by_cases same : region = other
    · subst same
      rw [if_pos rfl]
      by_cases here : start + 1 + position = index
      · subst here
        rw [if_pos ⟨rfl, rfl⟩, Image.cellAt?_setWord_self found]
      · rw [if_neg fun both => here both.2, Image.cellAt?_setWord_of_ne _ _ (Ne.symm here), found]
    · rw [if_neg same, if_neg fun both => same both.1, found]

end Holds

theorem wordIndex_eq {image : Image} {address : UInt64} {start : Nat}
    (here : address.toNat = image.base.toNat + wordBytes * start) :
    wordIndex image address = .ok start := by
  have small := address.toNat_lt
  have distance : subWord address image.base = .ok (UInt64.ofNat (wordBytes * start)) := by
    rw [subWord_eq_ok_iff, UInt64.toNat_ofNat', Nat.mod_eq_of_lt (by omega)]
    exact here
  simp only [wordIndex, distance, bind, Except.bind, pure, Except.pure]
  rw [UInt64.toNat_ofNat', Nat.mod_eq_of_lt (by omega), Nat.mul_div_cancel_left start (by decide)]

/-- An object that was laid out is held where the words of its region ended. -/
theorem holds_laidOut {draft : Draft} (covered : ∀ region, (draft.image region).Covered)
    (region : Region) (name : String) {slots : Array Slot} (short : slots.size < UInt32.size) :
    (draft.laidOut region name slots).Holds region (draft.image region).words.size
      ⟨name, slots.map (Slot.cell Slot.blank)⟩ := by
  have named : ((draft.nameIndex name).2.image region).Covered := by
    rw [image_nameIndex]
    exact covered region
  have shows := shows_layOut named (draft.nameIndex_cases name).2 short ⟨0⟩
  rw [image_nameIndex] at shows
  exact shows.holds

/-- References are null where an object was laid out. -/
theorem leads_blank {slots : Array Slot} {cell : Cell} (narrowing : Narrowing) (copies : Copies)
    (member : cell ∈ slots.map (Slot.cell Slot.blank)) : cell.Leads narrowing copies := by
  intro reference
  obtain ⟨slot, _, rfl⟩ := Array.mem_map.mp member
  cases slot with
  | bits _ => cases reference
  | null => exact .inl rfl
  | ref _ => exact .inl rfl

theorem Named.laidOut {known : List String} {draft : Draft} (named : draft.Named known)
    {name : String} (member : name ∈ known) (region : Region) (slots : Array Slot) :
    (draft.laidOut region name slots).Named known := by
  have added := named.nameIndex member
  constructor
  · rw [Draft.laidOut, names_modifyImage]
    exact added.distinct
  · rw [Draft.laidOut, names_modifyImage]
    exact added.known

/-- What two drafts share, they share when both grow, and when other objects get copies. -/
theorem Share.grow {left right leftAfter rightAfter : Draft} {copies more : Copies} {place : Place}
    (share : left.Share right copies place) (grownLeft : left.Extends leftAfter)
    (grown : right.Extends rightAfter)
    (keeps : ∀ (target : ObjectId) (place : Place), copies[target]? = some place →
      more[target]? = some place) : leftAfter.Share rightAfter more place := by
  obtain ⟨start, copy, here, former, latter, leads⟩ := share
  refine ⟨start, copy, by rw [grown.base]; exact here, former.grow grownLeft, latter.grow grown,
    fun cell member marked => ?_⟩
  rw [grown.narrowing]
  exact (leads cell member marked).imp_right fun ⟨target, at_, narrow, known, narrowed, word⟩ =>
    ⟨target, at_, narrow, keeps target at_ known, narrowed, word⟩

namespace Twins

variable {known : List String} {copies : Copies} {left right : Draft}

theorem covered_left (twins : Twins known copies left right) (region : Region) :
    (left.image region).Covered := by
  rw [Image.Covered, (twins.image region).marks, twins.size]
  exact twins.covered region

theorem contains_eq (twins : Twins known copies left right) (region : Region) (address : UInt64) :
    (left.image region).contains address = (right.image region).contains address := by
  unfold Image.contains Image.byteLength
  rw [(twins.image region).base, twins.size]

theorem resolve?_eq (twins : Twins known copies left right) (narrow : Narrow) :
    left.resolve? narrow = right.resolve? narrow := by
  have closed (address : UInt64) : left.closed.contains address = right.closed.contains address :=
    twins.contains_eq .closed address
  have opened (address : UInt64) : left.opened.contains address = right.opened.contains address :=
    twins.contains_eq .opened address
  simp only [resolve?, closed, opened, twins.narrowing]

/-- The narrow form of a copy's place resolves to this place, if to any. -/
theorem resolve?_place (twins : Twins known copies left right) {object : ObjectId}
    {place found : Place} {narrow : Narrow} (cached : copies[object]? = some place)
    (narrowed : right.narrowing.narrow place.address = .ok narrow)
    (resolved : right.resolve? narrow = .ok (some found)) : found = place := by
  obtain ⟨start, copy, here, _, holds, _⟩ := twins.shared object place cached
  obtain ⟨region, address⟩ := place
  simp only at here holds narrowed
  have finish := holds.finish_le
  have apart := congrArg UInt64.toNat twins.apart
  rw [Settings.toNat_addSaturating] at apart
  have within := twins.within
  simp only [image] at apart within
  unfold resolve? at resolved
  split at resolved
  · cases resolved
  rename_i live
  rw [Narrowing.widen_of_narrow narrowed live] at resolved
  obtain ⟨inClosed, closed, resolved⟩ := bind_eq_ok_iff.mp resolved
  have spans := Image.contains_iff closed
  unfold Image.byteLength at spans
  cases region with
  | closed =>
    simp only [image] at here finish
    have within : inClosed = true := spans.mpr (by
      unfold wordBytes at *
      omega)
    rw [if_pos within] at resolved
    cases resolved
    rfl
  | opened =>
    simp only [image] at here finish
    have beyond : ¬ inClosed = true := by
      intro inside
      have spanned := spans.mp inside
      have finish := Image.finish_lt (inside ▸ closed)
      unfold Image.byteLength UInt64.size wordBytes at *
      omega
    rw [if_neg beyond] at resolved
    obtain ⟨inOpened, opened, resolved⟩ := bind_eq_ok_iff.mp resolved
    cases inOpened with
    | true =>
      cases resolved
      rfl
    | false => cases resolved

private theorem names_le (twins : Twins known copies left right)
    (few : known.length ≤ UInt32.size) :
    left.names.size ≤ UInt32.size ∧ right.names.size ≤ UInt32.size :=
  ⟨Nat.le_trans twins.named.size_le few, Nat.le_trans twins.renamed.size_le few⟩

/-- At the place of a copy, twins are read in the same way. -/
theorem copyAt?_eq (twins : Twins known copies left right) (few : known.length ≤ UInt32.size)
    {object : ObjectId} {place : Place} (cached : copies[object]? = some place) :
    left.copyAt? place = right.copyAt? place ∧
      ∀ copy, right.copyAt? place = .ok (some copy) →
        ∀ cell ∈ copy.cells, cell.Leads right.narrowing copies := by
  obtain ⟨start, copy, here, former, latter, leads⟩ := twins.shared object place cached
  obtain ⟨fewLeft, fewRight⟩ := twins.names_le few
  have first := former.readCopy fewLeft
  have second := latter.readCopy fewRight
  have index := wordIndex_eq here
  have index' : wordIndex (left.image place.region) place.address = .ok start := by
    apply wordIndex_eq
    rw [(twins.image place.region).base]
    exact here
  unfold copyAt?
  simp only [twins.contains_eq]
  cases (right.image place.region).contains place.address with
  | error breach => exact ⟨rfl, fun _ impossible => by cases impossible⟩
  | ok inside =>
    cases inside with
    | false => exact ⟨rfl, fun _ impossible => by cases impossible⟩
    | true =>
      simp only [index, index', first, second, bind, Except.bind, pure, Except.pure, if_true,
        true_and]
      intro other same
      cases same
      exact leads

/-- The copies, and what is laid out, stay the same where an object is laid out in both twins. -/
theorem laidOut (twins : Twins known copies left right) {region : Region} {name : String}
    {slots : Array Slot} (member : name ∈ known) (room : ¬ right.Full region slots)
    {object : ObjectId} {place : Place} (here : place.region = region)
    (there : place.address.toNat = (right.image region).base.toNat +
      wordBytes * (right.image region).words.size) (uncached : copies[object]? = none) :
    Twins known (copies.insert object place) (left.laidOut region name slots)
      (right.laidOut region name slots) := by
  have grown := extends_laidOut twins.covered region name slots
  have grownLeft := extends_laidOut twins.covered_left region name slots
  have short : slots.size < UInt32.size := Nat.lt_of_not_le fun long => room (.inr long)
  have keeps (target : ObjectId) (at_ : Place) (old : copies[target]? = some at_) :
      (copies.insert object place)[target]? = some at_ := by
    rw [Std.ExtTreeMap.getElem?_insert, if_neg]
    · exact old
    · rw [Std.LawfulEqOrd.compare_eq_iff_eq]
      rintro rfl
      rw [uncached] at old
      cases old
  have holdsLeft := holds_laidOut twins.covered_left region name short
  rw [twins.size] at holdsLeft
  constructor
  case toAlike => exact twins.toAlike.laidOut region name slots
  case covered => exact covered_laidOut twins.covered
  case apart =>
    rw [grown.base, grown.base, grown.capacity]
    exact twins.apart
  case within =>
    rw [size_laidOut, grown.capacity]
    have within := twins.within
    split
    · rename_i closed
      subst closed
      unfold Full at room
      unfold wordBytes at *
      omega
    · exact within
  case named => exact twins.named.laidOut member region slots
  case renamed => exact twins.renamed.laidOut member region slots
  case shared =>
    intro other at_ cached
    rw [Std.ExtTreeMap.getElem?_insert] at cached
    split at cached
    · cases cached
      subst here
      refine ⟨_, _, ?_, holdsLeft, holds_laidOut twins.covered place.region name short, ?_⟩
      · rw [grown.base]
        exact there
      · exact fun cell member => leads_blank _ _ member
    · exact (twins.shared other at_ cached).grow grownLeft grown keeps

/-- Laying out an object in both twins has the same outcome, and leaves twins where the object has a
copy from then on. -/
theorem allocate (twins : Twins known copies left right) {region : Region} {name : String}
    {slots : Array Slot} (member : name ∈ known) {object : ObjectId}
    (uncached : copies[object]? = none) :
    Parallel (fun one two => one.1 = two.1 ∧ Twins known (copies.note object one.1) one.2 two.2)
      (left.allocate region name slots) (right.allocate region name slots) := by
  have alike := twins.toAlike.allocate region name slots
  generalize first : left.allocate region name slots = one at alike
  generalize second : right.allocate region name slots = two at alike
  cases alike with
  | broken => exact .broken
  | @ok one two here =>
    obtain ⟨outcome, leftAfter⟩ := one
    obtain ⟨_, rightAfter⟩ := two
    obtain ⟨rfl, _⟩ := here
    cases outcome with
    | error failure =>
      obtain ⟨_, _, rfl⟩ := allocate_error first
      obtain ⟨_, _, rfl⟩ := allocate_error second
      exact .ok ⟨rfl, twins⟩
    | ok place =>
      obtain ⟨_, _, _, rfl⟩ := allocate_ok first
      obtain ⟨room, here, there, rfl⟩ := allocate_ok second
      exact .ok ⟨rfl, twins.laidOut member room here there uncached⟩

/-- Storing a reference to a copy in both twins leaves twins. -/
theorem setWord (twins : Twins known copies left right) {region : Region} {index : Nat}
    {target : ObjectId} {place : Place} {narrow : Narrow}
    (marked : (right.image region).marks.isSet index = true) (cached : copies[target]? = some place)
    (narrowed : right.narrowing.narrow place.address = .ok narrow) :
    Twins known copies (left.modifyImage region (·.setWord index narrow.toUInt64))
      (right.modifyImage region (·.setWord index narrow.toUInt64)) := by
  have first := Rewrites.setWord left region index narrow.toUInt64
  have second := Rewrites.setWord right region index narrow.toUInt64
  constructor
  case toAlike => exact twins.toAlike.modifyImage ((twins.image region).setWord _ (.same _))
  case covered =>
    intro other
    rw [Image.Covered, second.marks, second.size]
    exact twins.covered other
  case apart =>
    rw [second.base, second.base, second.capacity]
    exact twins.apart
  case within =>
    rw [second.size, second.capacity]
    exact twins.within
  case named => exact ⟨first.names ▸ twins.named.distinct, first.names ▸ twins.named.known⟩
  case renamed => exact ⟨second.names ▸ twins.renamed.distinct, second.names ▸ twins.renamed.known⟩
  case shared =>
    intro object at_ known
    obtain ⟨start, copy, here, former, latter, leads⟩ := twins.shared object at_ known
    refine ⟨start, _, by rw [second.base]; exact here,
      former.setWord (by rw [(twins.image region).marks]; exact marked) narrow.toUInt64,
      latter.setWord marked narrow.toUInt64, fun cell member reference => ?_⟩
    rw [second.narrowing]
    obtain ⟨position, inside, rfl⟩ := Array.mem_mapIdx.mp member
    by_cases stored : at_.region = region ∧ start + 1 + position = index
    · rw [if_pos stored]
      exact .inr ⟨target, place, narrow, cached, narrowed, rfl⟩
    · rw [if_neg stored] at reference ⊢
      exact leads _ (Array.getElem_mem inside) reference

theorem rename (twins : Twins known copies left right) {names others : Array String}
    (longer : left.names.toList <+: names.toList)
    (named : Draft.Named known { left with names := names })
    (more : right.names.toList <+: others.toList)
    (renamed : Draft.Named known { right with names := others }) :
    Twins known copies { left with names := names } { right with names := others } where
  toAlike := twins.toAlike.rename longer more
  covered region := by
    rw [image_rename]
    exact twins.covered region
  apart := twins.apart
  within := twins.within
  named := named
  renamed := renamed
  shared object place cached := (twins.shared object place cached).grow (left.extends_names longer)
    (right.extends_names more) fun _ _ => id

/-- Storing a reference to a copy in both twins has the same outcome. -/
theorem patch (twins : Twins known copies left right) {target : ObjectId} {place : Place}
    (cached : copies[target]? = some place) (holder : Place) (slot : Nat) :
    Parallel (Twins known copies) (left.patch holder slot (some place))
      (right.patch holder slot (some place)) := by
  have alike := twins.toAlike.patch holder slot (some place)
  generalize first : left.patch holder slot (some place) = one at alike
  generalize second : right.patch holder slot (some place) = two at alike
  cases alike with
  | broken => exact .broken
  | ok _ =>
    obtain ⟨start, narrow, here, narrowed, _, _, rfl⟩ := patch_ok first
    obtain ⟨place, other, there, again, marked, _, rfl⟩ := patch_ok second
    -- Both store the same form in the same word, as these depend on nothing but the place.
    rw [wordIndex, (twins.image holder.region).base] at here
    cases here.symm.trans there
    rw [twins.narrowing] at narrowed
    cases narrowed.symm.trans again
    exact .ok (twins.setWord marked cached again)

theorem patchLinks (twins : Twins known copies left right) (links : List Link) :
    Parallel (Twins known copies) (Walk.patchLinks copies left links)
      (Walk.patchLinks copies right links) := by
  refine Parallel.foldlM (S := Eq) (fun former latter link _ twins same => ?_)
    (List.forall₂_same.mpr fun _ _ => rfl) twins
  subst same
  cases cached : copies[link.target]? with
  | none => exact .broken
  | some place => exact twins.patch cached link.holder link.slot

theorem start {settings : Settings} {draft : Draft} (started : start settings = .ok draft) :
    Twins known ∅ draft draft := by
  obtain ⟨valid, capacity, bases⟩ := validate_of_start started
  obtain ⟨_, positive, even, _⟩ := Settings.of_validate valid
  have fresh : (∀ region, (draft.image region).Covered) ∧ draft.closed.words.size = 1 ∧
      draft.names = #[] := by
    unfold Draft.start at started
    split at started
    · cases started
    · cases started
      exact ⟨fun region => by cases region <;> rfl, rfl, rfl⟩
  obtain ⟨covered, one, none⟩ := fresh
  have named : draft.Named known := ⟨by rw [none]; exact List.nodup_nil, fun name member => by
    rw [none] at member
    exact absurd member (Array.not_mem_empty name)⟩
  exact {
    toAlike := .refl draft ⟨_, List.nil_append _⟩
    covered := covered
    apart := by rw [bases, bases, capacity]; rfl
    within := by
      show wordBytes * draft.closed.words.size ≤ _
      rw [one, capacity, Nat.mul_one]
      exact Nat.le_of_dvd positive even
    named := named
    renamed := named
    shared := fun object place impossible => by simp at impossible }

end Twins
end Draft
end FrozenHeap
