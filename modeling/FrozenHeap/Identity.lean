import Std.Data.TreeMap

namespace FrozenHeap

/-- A class of a running process. -/
structure ClassId where
  index : Nat
  deriving DecidableEq, Repr, Inhabited

/-- An object of a running process. -/
structure ObjectId where
  index : Nat
  deriving DecidableEq, Repr, Inhabited

instance : Ord ClassId := ⟨fun left right => compare left.index right.index⟩
instance : Ord ObjectId := ⟨fun left right => compare left.index right.index⟩

instance : Std.TransOrd ClassId where
  eq_swap {left right} :=
    show compare left.index right.index = (compare right.index left.index).swap from
      Std.OrientedCmp.eq_swap
  isLE_trans {low _ high} first second :=
    show (compare low.index high.index).isLE = true from Std.TransCmp.isLE_trans first second

instance : Std.LawfulEqOrd ClassId where
  eq_of_compare {left right} same := by
    have index : left.index = right.index := Std.LawfulEqOrd.eq_of_compare (α := Nat) same
    cases left
    cases right
    cases index
    rfl

instance : Std.TransOrd ObjectId where
  eq_swap {left right} :=
    show compare left.index right.index = (compare right.index left.index).swap from
      Std.OrientedCmp.eq_swap
  isLE_trans {low _ high} first second :=
    show (compare low.index high.index).isLE = true from Std.TransCmp.isLE_trans first second

instance : Std.LawfulEqOrd ObjectId where
  eq_of_compare {left right} same := by
    have index : left.index = right.index := Std.LawfulEqOrd.eq_of_compare (α := Nat) same
    cases left
    cases right
    cases index
    rfl

end FrozenHeap
