import Mathlib

/-!
# Sorting by keys

When the keys of the listed items are different, sorting by them leaves no
choice: every listing of the items is sorted into the same list.
-/

namespace ConvexWasm.KeySort

variable {Item Key : Type*} [LinearOrder Key] {items items' : List Item}

theorem sorted_by_key (key : Item → Key) (items : List Item) :
    (items.insertionSort fun first second => key first ≤ key second).Pairwise
      fun first second => key first ≤ key second := by
  have htotal : Std.Total fun first second : Item => key first ≤ key second :=
    ⟨fun first second => le_total (key first) (key second)⟩
  have htrans : IsTrans Item fun first second => key first ≤ key second :=
    ⟨fun _ _ _ => le_trans⟩
  exact List.pairwise_insertionSort _ items

/-- Listings of the same items are sorted into one list. -/
theorem insertionSort_eq_of_perm (key : Item → Key) (hperm : items.Perm items')
    (hkeys : ∀ first ∈ items, ∀ second ∈ items, key first = key second → first = second) :
    items.insertionSort (fun first second => key first ≤ key second) =
      items'.insertionSort fun first second => key first ≤ key second := by
  have hsorted : (items.insertionSort fun first second => key first ≤ key second).Perm
      (items'.insertionSort fun first second => key first ≤ key second) :=
    (List.perm_insertionSort _ _).trans (hperm.trans (List.perm_insertionSort _ _).symm)
  apply hsorted.eq_of_pairwise _ (sorted_by_key key items) (sorted_by_key key items')
  intro first second hfirst hsecond hle hge
  have hfirst' : first ∈ items := (List.perm_insertionSort _ _).mem_iff.mp hfirst
  have hsecond' : second ∈ items :=
    hperm.mem_iff.mpr ((List.perm_insertionSort _ _).mem_iff.mp hsecond)
  exact hkeys first hfirst' second hsecond' (le_antisymm hle hge)

end ConvexWasm.KeySort
