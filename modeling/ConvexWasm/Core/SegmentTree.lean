import Mathlib

/-!
# Segment trees

The nodes of a tree are kept in one array: the children of node `i` are `2 * i`
and `2 * i + 1`, and the leaves are the last half.  A query walks from the
leaves to the root and combines the nodes that lie between its two ends.  It
combines every leaf of a half-open range once, whatever the number of leaves.
-/

namespace ConvexWasm.SegmentTree

open Finset Function

variable {Value : Type*} (combine : Value → Value → Value)

/-- Writes a node; an index out of bounds fails. -/
def put (tree : Array Value) (index : ℕ) (value : Value) : Option (Array Value) :=
  if index < tree.size then some (tree.setIfInBounds index value) else none

def fill (leafCount : ℕ) (leaves : List (Value × ℕ)) (tree : Array Value) : Option (Array Value) :=
  leaves.foldlM (fun tree leaf => put tree (leafCount + leaf.2) leaf.1) tree

def raise (tree : Array Value) (index : ℕ) : Option (Array Value) := do
  let left ← tree[index * 2]?
  let right ← tree[index * 2 + 1]?
  put tree index (combine left right)

/-- The inner nodes from `count` down to the root. -/
def raiseAll : ℕ → Array Value → Option (Array Value)
  | 0, tree => some tree
  | count + 1, tree => raise combine tree (count + 1) >>= raiseAll count

def build (identity : Value) (leafCount : ℕ) (leaves : List Value) : Option (Array Value) := do
  let tree ← fill leafCount leaves.zipIdx (Array.replicate (leafCount * 2) identity)
  raiseAll combine (leafCount - 1) tree

/-- Takes in a node, when it is one of those that lie at an end of the range. -/
def takeIn (tree : Array Value) (atEnd : Bool) (index : ℕ) (found : Value) : Option Value :=
  if atEnd then tree[index]?.map (combine found) else some found

def query (tree : Array Value) (left right : ℕ) (found : Value) : Option Value :=
  if left < right then do
    let next := if left % 2 = 1 then left + 1 else left
    let last := if right % 2 = 1 then right - 1 else right
    let found ← takeIn combine tree (left % 2 = 1) left found
    let found ← takeIn combine tree (right % 2 = 1) last found
    query tree (next / 2) (last / 2) found
  else some found
termination_by right
decreasing_by
  split_ifs
  · omega
  · omega

section Arrays

variable {combine} {tree next : Array Value} {value : ℕ → Value} {index : ℕ}

/-- The array lists the values of its nodes. -/
def Holds (tree : Array Value) (value : ℕ → Value) : Prop :=
  ∀ index < tree.size, tree[index]? = some (value index)

theorem put_spec (hholds : Holds tree value) (hindex : index < tree.size) (written : Value) :
    ∃ next, put tree index written = some next ∧ next.size = tree.size ∧
      Holds next (update value index written) := by
  refine ⟨_, if_pos hindex, Array.size_setIfInBounds, ?_⟩
  intro other hother
  rw [Array.size_setIfInBounds] at hother
  rw [Array.getElem?_setIfInBounds]
  by_cases heq : index = other
  · subst heq
    rw [if_pos rfl, if_pos hindex, update_self]
  · rw [if_neg heq, update_of_ne (Ne.symm heq), hholds other hother]

/-- The leaves are written in their places; the other nodes stay. -/
theorem fill_spec (leafCount start : ℕ) (leaves : List Value) (hholds : Holds tree value)
    (hsize : leafCount + start + leaves.length ≤ tree.size) :
    ∃ next filled, fill leafCount (leaves.zipIdx start) tree = some next ∧
      next.size = tree.size ∧ Holds next filled ∧
      ∀ index, filled index = if leafCount + start ≤ index then
        leaves.getD (index - (leafCount + start)) (value index) else value index := by
  induction leaves generalizing tree value start with
  | nil => exact ⟨tree, value, rfl, rfl, hholds, by simp⟩
  | cons leaf rest ih =>
    rw [List.length_cons] at hsize
    obtain ⟨written, hwritten, hsame, hmiddle⟩ :=
      put_spec hholds (show leafCount + start < tree.size by omega) leaf
    obtain ⟨next, filled, hnext, hlast, hfinal, hfilled⟩ :=
      ih (start + 1) hmiddle (by omega)
    refine ⟨next, filled, ?_, hlast.trans hsame, hfinal, ?_⟩
    · rw [fill, List.zipIdx_cons, List.foldlM_cons, hwritten]
      exact hnext
    · intro index
      rw [hfilled]
      rcases lt_trichotomy index (leafCount + start) with hlt | heq | hgt
      · rw [if_neg (by omega), if_neg (by omega), update_of_ne (by omega)]
      · subst heq
        simp
      · obtain ⟨offset, rfl⟩ := Nat.exists_eq_add_of_lt hgt
        rw [if_pos (by omega), if_pos (by omega), update_of_ne (by omega),
          show leafCount + start + offset + 1 - (leafCount + start) = offset + 1 by omega,
          show leafCount + start + offset + 1 - (leafCount + (start + 1)) = offset by omega,
          List.getD_cons_succ]

/-- Every inner node from `first` on combines its children. -/
def Combined (combine : Value → Value → Value) (leafCount first : ℕ) (value : ℕ → Value) : Prop :=
  ∀ index, first ≤ index → index < leafCount →
    value index = combine (value (index * 2)) (value (index * 2 + 1))

theorem raiseAll_spec {leafCount : ℕ} (count : ℕ) (hholds : Holds tree value)
    (hsize : tree.size = leafCount * 2) (hcount : count < leafCount)
    (hcombined : Combined combine leafCount (count + 1) value) :
    ∃ next raised, raiseAll combine count tree = some next ∧ next.size = leafCount * 2 ∧
      Holds next raised ∧ Combined combine leafCount 1 raised ∧
      ∀ index, leafCount ≤ index → raised index = value index := by
  induction count generalizing tree value with
  | zero => exact ⟨tree, value, rfl, hsize, hholds, hcombined, fun _ _ => rfl⟩
  | succ count ih =>
    obtain ⟨written, hwritten, hsame, hmiddle⟩ :=
      put_spec hholds (show count + 1 < tree.size by omega)
        (combine (value ((count + 1) * 2)) (value ((count + 1) * 2 + 1)))
    have hraise : raise combine tree (count + 1) = some written := by
      rw [raise, hholds _ (by omega), hholds _ (by omega)]
      exact hwritten
    have hnext : Combined combine leafCount (count + 1)
        (update value (count + 1)
          (combine (value ((count + 1) * 2)) (value ((count + 1) * 2 + 1)))) := by
      intro index hfirst hlast
      rw [update_of_ne (a := index * 2) (by omega),
        update_of_ne (a := index * 2 + 1) (by omega)]
      by_cases heq : index = count + 1
      · rw [heq, update_self]
      · rw [update_of_ne heq, hcombined index (by omega) hlast]
    obtain ⟨next, raised, hrun, hlength, hfinal, hall, hleaves⟩ :=
      ih hmiddle (hsame.trans hsize) (by omega) hnext
    refine ⟨next, raised, ?_, hlength, hfinal, hall, ?_⟩
    · rw [raiseAll, hraise]
      exact hrun
    · intro index hindex
      rw [hleaves index hindex, update_of_ne (by omega)]

/-- A tree over its leaves. -/
theorem build_spec (identity : Value) {leafCount : ℕ} {leaves : List Value} (hpos : 0 < leafCount)
    (hleaves : leaves.length ≤ leafCount) :
    ∃ tree value, build combine identity leafCount leaves = some tree ∧
      tree.size = leafCount * 2 ∧ Holds tree value ∧ Combined combine leafCount 1 value ∧
      ∀ offset, value (leafCount + offset) = leaves.getD offset identity := by
  have hempty : Holds (Array.replicate (leafCount * 2) identity) fun _ => identity := by
    intro index hindex
    rw [Array.size_replicate] at hindex
    rw [Array.getElem?_replicate, if_pos hindex]
  obtain ⟨filled, value, hfill, hsize, hholds, hvalue⟩ :=
    fill_spec leafCount 0 leaves hempty (by rw [Array.size_replicate]; omega)
  rw [Array.size_replicate] at hsize
  have hnone : Combined combine leafCount (leafCount - 1 + 1) value :=
    fun index hfirst hbound => absurd hbound (by omega)
  obtain ⟨tree, raised, hraise, hlast, hfinal, hcombined, hsame⟩ :=
    raiseAll_spec (leafCount - 1) hholds hsize (by omega) hnone
  refine ⟨tree, raised, ?_, hlast, hfinal, hcombined, ?_⟩
  · rw [build, hfill]
    exact hraise
  · intro offset
    rw [hsame _ (by omega), hvalue, if_pos (by omega)]
    simp

end Arrays

section Queries

variable {combine} [Std.Commutative combine] [Std.Associative combine] {tree : Array Value}
  {value : ℕ → Value} {found : Value} {first last : ℕ}

theorem fold_combine (members : Finset ℕ) (added : Value) :
    members.fold combine (combine found added) value =
      combine added (members.fold combine found value) := by
  induction members using Finset.induction with
  | empty => exact Std.Commutative.comm _ _
  | insert member rest hfresh ih =>
    rw [fold_insert hfresh, fold_insert hfresh, ih]
    ac_rfl

theorem fold_first (hlt : first < last) : (Finset.Ico first last).fold combine found value =
    (Finset.Ico (first + 1) last).fold combine (combine found (value first)) value := by
  have hfresh : first ∉ Finset.Ico (first + 1) last := by simp
  rw [← insert_Ico_add_one_left_eq_Ico hlt, fold_insert hfresh, fold_combine]

theorem fold_last (hle : first ≤ last) : (Finset.Ico first (last + 1)).fold combine found value =
    (Finset.Ico first last).fold combine (combine found (value last)) value := by
  have hfresh : last ∉ Finset.Ico first last := by simp
  rw [← insert_Ico_right_eq_Ico_add_one hle, fold_insert hfresh, fold_combine]

/-- A row of nodes combines to what the row above combines to. -/
theorem fold_pairs (hle : first ≤ last) :
    (Finset.Ico (first * 2) (last * 2)).fold combine found value =
      (Finset.Ico first last).fold combine found
        fun index => combine (value (index * 2)) (value (index * 2 + 1)) := by
  induction last, hle using Nat.le_induction generalizing found with
  | base => simp
  | succ last hle ih =>
    rw [Nat.add_mul, fold_last (show first * 2 ≤ last * 2 + 1 by omega),
      fold_last (show first * 2 ≤ last * 2 by omega), ih, fold_last hle]
    congr 1
    ac_rfl

theorem takeIn_left (combine : Value → Value → Value) [Std.Commutative combine]
    [Std.Associative combine] {left right : ℕ} (hholds : Holds tree value) (hlt : left < right)
    (hright : right ≤ tree.size) (found : Value) :
    ∃ found', takeIn combine tree (left % 2 = 1) left found = some found' ∧
      (Finset.Ico left right).fold combine found value =
        (Finset.Ico (if left % 2 = 1 then left + 1 else left) right).fold combine found' value := by
  by_cases hodd : left % 2 = 1
  · refine ⟨combine found (value left), ?_, ?_⟩
    · rw [takeIn, if_pos (decide_eq_true hodd), hholds left (by omega)]
      rfl
    · rw [if_pos hodd, fold_first hlt]
  · exact ⟨found, if_neg (by simpa using hodd), by rw [if_neg hodd]⟩

theorem takeIn_right (combine : Value → Value → Value) [Std.Commutative combine]
    [Std.Associative combine] {left right : ℕ} (hholds : Holds tree value) (hle : left ≤ right)
    (hodd : right % 2 = 1 → left < right) (hright : right ≤ tree.size) (found : Value) :
    ∃ found', takeIn combine tree (right % 2 = 1) (if right % 2 = 1 then right - 1 else right)
        found = some found' ∧
      (Finset.Ico left right).fold combine found value =
        (Finset.Ico left (if right % 2 = 1 then right - 1 else right)).fold combine found'
          value := by
  by_cases hlast : right % 2 = 1
  · obtain ⟨last, rfl⟩ : ∃ last, right = last + 1 := ⟨right - 1, by omega⟩
    refine ⟨combine found (value last), ?_, ?_⟩
    · rw [takeIn, if_pos (decide_eq_true hlast), if_pos hlast, Nat.add_sub_cancel,
        hholds last (by omega)]
      rfl
    · rw [if_pos hlast, Nat.add_sub_cancel, fold_last (Nat.lt_succ_iff.mp (hodd hlast))]
  · exact ⟨found, if_neg (by simpa using hlast), by rw [if_neg hlast]⟩

/-- A query combines every leaf of its range once. -/
theorem query_spec {leafCount : ℕ} (hholds : Holds tree value) (hsize : tree.size = leafCount * 2)
    (hcombined : Combined combine leafCount 1 value) {left right : ℕ} (hleft : 1 ≤ left)
    (hright : right ≤ leafCount * 2) (found : Value) :
    query combine tree left right found =
      some ((Finset.Ico left right).fold combine found value) := by
  induction right using Nat.strong_induction_on generalizing left found with
  | _ right ih =>
    rw [query]
    by_cases hlt : left < right
    · obtain ⟨middle, hfirst, hmiddle⟩ :=
        takeIn_left combine hholds hlt (hsize ▸ hright) found
      let next := if left % 2 = 1 then left + 1 else left
      let last := if right % 2 = 1 then right - 1 else right
      have hnext : next % 2 = 0 ∧ left ≤ next ∧ next ≤ right ∧
          (right % 2 = 1 → next < right) := by
        simp only [next]
        split_ifs <;> omega
      have hlast : last % 2 = 0 ∧ next ≤ last ∧ last ≤ right ∧ 0 < last := by
        simp only [next, last]
        split_ifs <;> omega
      obtain ⟨final, hsecond, hfinal⟩ := takeIn_right combine hholds
        hnext.2.2.1 hnext.2.2.2 (hsize ▸ hright) middle
      have hrow : (Finset.Ico next last).fold combine final value =
          (Finset.Ico (next / 2) (last / 2)).fold combine final value := by
        calc (Finset.Ico next last).fold combine final value
            = (Finset.Ico (next / 2 * 2) (last / 2 * 2)).fold combine final value := by
              congr 2 <;> omega
          _ = (Finset.Ico (next / 2) (last / 2)).fold combine final
                fun index => combine (value (index * 2)) (value (index * 2 + 1)) :=
              fold_pairs (by omega)
          _ = (Finset.Ico (next / 2) (last / 2)).fold combine final value := by
              apply fold_congr
              intro index hindex
              obtain ⟨hlow, hhigh⟩ := Finset.mem_Ico.mp hindex
              exact (hcombined index (by omega) (by omega)).symm
      rw [if_pos hlt]
      rw [hfirst, Option.bind_eq_bind, Option.bind_some, hsecond, Option.bind_some, hmiddle,
        hfinal, hrow]
      exact ih (last / 2) (by omega) (by omega) (by omega) final
    · rw [if_neg hlt, Finset.Ico_eq_empty (by omega), fold_empty]

end Queries

end ConvexWasm.SegmentTree
