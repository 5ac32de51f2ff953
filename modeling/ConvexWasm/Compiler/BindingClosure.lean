import ConvexWasm.Core.KeySort
import ConvexWasm.Core.SegmentTree

/-!
# Binding closure of source ranges

A branch may be erased when every binding that it declares ends in it and is
referred to only from it.  The compiler asks an index of the bindings, sorted
by their starts, for the extreme positions of those that start in a range.
-/

namespace ConvexWasm.Compiler.BindingClosure

open List

abbrev U32 := Fin (2 ^ 32)

structure SourceRange where
  start : U32
  stop : U32
  deriving DecidableEq

/-- A symbol with the spans of its resolved references. -/
structure SymbolSpans where
  binding : SourceRange
  references : List SourceRange
  deriving DecidableEq

structure Binding where
  start : U32
  stop : U32
  coverageStart : U32
  coverageStop : U32
  deriving DecidableEq

def bindingOf (symbol : SymbolSpans) : Binding where
  start := symbol.binding.start
  stop := symbol.binding.stop
  coverageStart :=
    symbol.references.foldl (fun found reference => min found reference.start) symbol.binding.start
  coverageStop :=
    symbol.references.foldl (fun found reference => max found reference.stop) symbol.binding.stop

structure BindingClosureIndex where
  starts : List U32
  leafCount : ℕ
  minimumCoverageStart : Array U32
  maximumCoverageEnd : Array U32
  maximumBindingEnd : Array U32
  deriving DecidableEq

/-- How many elements come before the first one that fails the test, in a list that the
test splits in two. -/
def partitionPoint (test : U32 → Bool) (starts : List U32) : ℕ := (starts.takeWhile test).length

/-- The least power of two that is no less. -/
def nextPowerOfTwo (count : ℕ) : ℕ := 2 ^ Nat.clog 2 count

namespace BindingClosureIndex

/-- An index out of bounds, where the code panics, is `none`. -/
def new (bindings : List Binding) : Option BindingClosureIndex := do
  let bindings := bindings.insertionSort fun left right => left.start ≤ right.start
  let leafCount := max (nextPowerOfTwo bindings.length) 1
  let minimumCoverageStart ← SegmentTree.build min ⊤ leafCount (bindings.map Binding.coverageStart)
  let maximumCoverageEnd ← SegmentTree.build max 0 leafCount (bindings.map Binding.coverageStop)
  let maximumBindingEnd ← SegmentTree.build max 0 leafCount (bindings.map Binding.stop)
  return {
    starts := bindings.map Binding.start
    leafCount := leafCount
    minimumCoverageStart := minimumCoverageStart
    maximumCoverageEnd := maximumCoverageEnd
    maximumBindingEnd := maximumBindingEnd }

/-- The loop of the code reads the three arrays at the same nodes. -/
def rangeIsClosed (index : BindingClosureIndex) (range : SourceRange) : Option Bool := do
  let left := partitionPoint (fun start => decide (start < range.start)) index.starts +
    index.leafCount
  let right := partitionPoint (fun start => decide (start < range.stop)) index.starts +
    index.leafCount
  let minimumCoverageStart ← SegmentTree.query min index.minimumCoverageStart left right ⊤
  let maximumCoverageEnd ← SegmentTree.query max index.maximumCoverageEnd left right 0
  let maximumBindingEnd ← SegmentTree.query max index.maximumBindingEnd left right 0
  return decide (range.start ≤ minimumCoverageStart) && decide (maximumCoverageEnd ≤ range.stop) &&
    decide (maximumBindingEnd ≤ range.stop)

end BindingClosureIndex

/-- The linear scan: what starts in the range ends there and is covered by it. -/
def RangeClosed (bindings : List Binding) (range : SourceRange) : Prop :=
  ∀ binding ∈ bindings, range.start ≤ binding.start → binding.start < range.stop →
    binding.stop ≤ range.stop ∧ range.start ≤ binding.coverageStart ∧
      binding.coverageStop ≤ range.stop

instance (bindings : List Binding) (range : SourceRange) : Decidable (RangeClosed bindings range) :=
  inferInstanceAs (Decidable (∀ binding ∈ bindings, range.start ≤ binding.start →
    binding.start < range.stop → binding.stop ≤ range.stop ∧
      range.start ≤ binding.coverageStart ∧ binding.coverageStop ≤ range.stop))

theorem le_foldl_min (bound value : U32) (references : List SourceRange) :
    bound ≤ references.foldl (fun found reference => min found reference.start) value ↔
      bound ≤ value ∧ ∀ reference ∈ references, bound ≤ reference.start := by
  induction references generalizing value with
  | nil => simp
  | cons reference rest ih => rw [foldl_cons, ih, le_min_iff, forall_mem_cons, and_assoc]

theorem foldl_max_le (bound value : U32) (references : List SourceRange) :
    references.foldl (fun found reference => max found reference.stop) value ≤ bound ↔
      value ≤ bound ∧ ∀ reference ∈ references, reference.stop ≤ bound := by
  induction references generalizing value with
  | nil => simp
  | cons reference rest ih => rw [foldl_cons, ih, max_le_iff, forall_mem_cons, and_assoc]

/-- For the symbols of a source: each one that starts in the range ends there and is
referred to only from there. -/
theorem rangeClosed_bindingOf {symbols : List SymbolSpans} {range : SourceRange} :
    RangeClosed (symbols.map bindingOf) range ↔
      ∀ symbol ∈ symbols, range.start ≤ symbol.binding.start →
        symbol.binding.start < range.stop → symbol.binding.stop ≤ range.stop ∧
          ∀ reference ∈ symbol.references,
            range.start ≤ reference.start ∧ reference.stop ≤ range.stop := by
  rw [RangeClosed, forall_mem_map]
  apply forall₂_congr
  intro symbol _
  apply forall₂_congr
  intro hstart _
  simp only [bindingOf, le_foldl_min, foldl_max_le, forall₂_and]
  tauto

/-- In a sorted list the point of a bound separates what is below it. -/
theorem lt_partitionPoint_iff {starts : List U32} (hsorted : starts.Pairwise (· ≤ ·))
    (bound : U32) {offset : ℕ} {start : U32} (hstart : starts[offset]? = some start) :
    offset < partitionPoint (fun start => decide (start < bound)) starts ↔ start < bound := by
  induction starts generalizing offset with
  | nil => simp at hstart
  | cons head rest ih =>
    rw [pairwise_cons] at hsorted
    rw [partitionPoint, takeWhile_cons]
    by_cases hhead : head < bound
    · rw [if_pos (decide_eq_true hhead), length_cons]
      cases offset with
      | zero =>
        rw [List.getElem?_cons_zero, Option.some.injEq] at hstart
        simp [← hstart, hhead]
      | succ offset =>
        rw [Nat.succ_lt_succ_iff]
        exact ih hsorted.2 hstart
    · have hle : head ≤ start := by
        cases offset with
        | zero =>
          rw [List.getElem?_cons_zero, Option.some.injEq] at hstart
          exact hstart.le
        | succ offset => exact hsorted.1 start (mem_of_getElem? hstart)
      rw [if_neg (by simpa using hhead)]
      exact iff_of_false (Nat.not_lt_zero _) fun hlt => hhead (hle.trans_lt hlt)

theorem partitionPoint_le (test : U32 → Bool) (starts : List U32) :
    partitionPoint test starts ≤ starts.length :=
  ( takeWhile_prefix test).length_le

/-- What a query of a built tree finds among the leaves of a range. -/
theorem query_build (combine : U32 → U32 → U32) [Std.Commutative combine]
    [Std.Associative combine] (identity : U32) (leaves : List U32) (left right : ℕ)
    {leafCount : ℕ} (hpos : 0 < leafCount) (hleaves : leaves.length ≤ leafCount)
    (hright : right ≤ leaves.length) :
    ∃ tree, SegmentTree.build combine identity leafCount leaves = some tree ∧
      SegmentTree.query combine tree (left + leafCount) (right + leafCount) identity =
        some ((Finset.Ico left right).fold combine identity
          fun offset => leaves.getD offset identity) := by
  obtain ⟨tree, value, hbuild, hsize, hholds, hcombined, hvalue⟩ :=
    SegmentTree.build_spec identity hpos hleaves
  refine ⟨tree, hbuild, ?_⟩
  rw [SegmentTree.query_spec hholds hsize hcombined (by omega) (by omega), Option.some.injEq]
  have hshift : (Finset.Ico (left + leafCount) (right + leafCount)) =
      (Finset.Ico left right).map (addRightEmbedding leafCount) :=
    (Finset.map_add_right_Ico left right leafCount).symm
  rw [hshift, Finset.fold_map]
  apply Finset.fold_congr
  intro offset _
  rw [Function.comp_apply, addRightEmbedding_apply, add_comm, hvalue]

section Closure

variable {bindings : List Binding} {range : SourceRange}

/-- The bindings of a list sorted by their starts that start in the range are those between
the two points of its ends. -/
theorem rangeClosed_iff_points
    (hsorted : bindings.Pairwise fun first second => first.start ≤ second.start) :
    RangeClosed bindings range ↔
      ∀ offset ∈ Finset.Ico
          (partitionPoint (fun start => decide (start < range.start)) (bindings.map Binding.start))
          (partitionPoint (fun start => decide (start < range.stop)) (bindings.map Binding.start)),
        ∀ binding ∈ bindings[offset]?, binding.stop ≤ range.stop ∧
          range.start ≤ binding.coverageStart ∧ binding.coverageStop ≤ range.stop := by
  have hstarts : (bindings.map Binding.start).Pairwise (· ≤ ·) := pairwise_map.mpr hsorted
  have hpoints : ∀ (bound : U32) (offset : ℕ) (binding : Binding),
      bindings[offset]? = some binding →
        (offset < partitionPoint (fun start => decide (start < bound))
          (bindings.map Binding.start) ↔ binding.start < bound) := by
    intro bound offset binding hbinding
    apply lt_partitionPoint_iff hstarts bound
    rw [List.getElem?_map, hbinding, Option.map_some]
  constructor
  · intro hclosed offset hoffset binding hbinding
    rw [Finset.mem_Ico] at hoffset
    apply hclosed binding (mem_of_getElem? hbinding)
    · exact not_lt.mp fun hlt =>
        absurd ((hpoints range.start offset binding hbinding).mpr hlt) (not_lt.mpr hoffset.1)
    · exact (hpoints range.stop offset binding hbinding).mp hoffset.2
  · intro hbetween binding hmem hstart hstop
    obtain ⟨offset, hbinding⟩ := mem_iff_getElem?.mp hmem
    apply hbetween offset _ binding hbinding
    rw [Finset.mem_Ico]
    exact ⟨not_lt.mp fun hlt =>
        absurd ((hpoints range.start offset binding hbinding).mp hlt) (not_lt.mpr hstart),
      (hpoints range.stop offset binding hbinding).mpr hstop⟩

/-- The index answers what the linear scan of the bindings answers. -/
theorem rangeIsClosed_eq_scan (bindings : List Binding) (range : SourceRange) :
    ((BindingClosureIndex.new bindings).bind fun index => index.rangeIsClosed range) =
      some (decide (RangeClosed bindings range)) := by
  set sorted := bindings.insertionSort fun left right => left.start ≤ right.start with hsort
  have hsorted : sorted.Pairwise fun first second => first.start ≤ second.start :=
    KeySort.sorted_by_key Binding.start bindings
  have hscan : RangeClosed bindings range ↔ RangeClosed sorted range := by
    have hmem : ∀ binding, binding ∈ sorted ↔ binding ∈ bindings := fun binding =>
      (perm_insertionSort _ bindings).mem_iff
    simp only [RangeClosed, hmem]
  have hpos : 0 < max (nextPowerOfTwo sorted.length) 1 := lt_max_of_lt_right Nat.one_pos
  have hleaves : sorted.length ≤ max (nextPowerOfTwo sorted.length) 1 :=
    le_max_of_le_left (Nat.le_pow_clog Nat.one_lt_two _)
  set left := partitionPoint (fun start => decide (start < range.start)) (sorted.map Binding.start)
  set right := partitionPoint (fun start => decide (start < range.stop)) (sorted.map Binding.start)
  have hright : right ≤ sorted.length := (partitionPoint_le _ _).trans_eq (length_map _)
  have hbuild := fun (combine : U32 → U32 → U32) [Std.Commutative combine]
      [Std.Associative combine] (identity : U32) (field : Binding → U32) =>
    query_build combine identity (sorted.map field) left right hpos (by rwa [length_map])
      (by rwa [length_map])
  obtain ⟨lowest, hlowest, hstart⟩ := hbuild min ⊤ Binding.coverageStart
  obtain ⟨highest, hhighest, hstop⟩ := hbuild max 0 Binding.coverageStop
  obtain ⟨farthest, hfarthest, hend⟩ := hbuild max 0 Binding.stop
  have hnew : BindingClosureIndex.new bindings = some {
      starts := sorted.map Binding.start
      leafCount := max (nextPowerOfTwo sorted.length) 1
      minimumCoverageStart := lowest
      maximumCoverageEnd := highest
      maximumBindingEnd := farthest } := by
    rw [BindingClosureIndex.new, ← hsort, hlowest, hhighest, hfarthest]
    rfl
  have hanswer : BindingClosureIndex.rangeIsClosed {
      starts := sorted.map Binding.start
      leafCount := max (nextPowerOfTwo sorted.length) 1
      minimumCoverageStart := lowest
      maximumCoverageEnd := highest
      maximumBindingEnd := farthest } range = some (
        decide (range.start ≤ (Finset.Ico left right).fold min ⊤ fun offset =>
          (sorted.map Binding.coverageStart).getD offset ⊤) &&
        decide (((Finset.Ico left right).fold max 0 fun offset =>
          (sorted.map Binding.coverageStop).getD offset 0) ≤ range.stop) &&
        decide (((Finset.Ico left right).fold max 0 fun offset =>
          (sorted.map Binding.stop).getD offset 0) ≤ range.stop)) := by
    rw [BindingClosureIndex.rangeIsClosed]
    rw [hstart, hstop, hend]
    rfl
  rw [hnew, Option.bind_some, hanswer, ← Bool.decide_and, ← Bool.decide_and, Option.some.injEq,
    decide_eq_decide, hscan, rangeClosed_iff_points hsorted, Finset.le_fold_min,
    Finset.fold_max_le, Finset.fold_max_le]
  have hlisted : ∀ offset ∈ Finset.Ico left right, ∃ binding, sorted[offset]? = some binding ∧
      ∀ (field : Binding → U32) (identity : U32),
        (sorted.map field).getD offset identity = field binding := by
    intro offset hoffset
    have hlt := (Finset.mem_Ico.mp hoffset).2.trans_le hright
    refine ⟨sorted[offset], List.getElem?_eq_getElem hlt, fun field identity => ?_⟩
    rw [getD_eq_getElem?_getD, List.getElem?_map, List.getElem?_eq_getElem hlt]
    rfl
  constructor
  · rintro ⟨⟨⟨-, hlow⟩, -, hhigh⟩, -, hfar⟩ offset hoffset binding hbinding
    obtain ⟨found, hfound, hfield⟩ := hlisted offset hoffset
    obtain rfl : found = binding := Option.some.inj (hfound.symm.trans hbinding)
    exact ⟨hfield Binding.stop 0 ▸ hfar offset hoffset,
      hfield Binding.coverageStart ⊤ ▸ hlow offset hoffset,
      hfield Binding.coverageStop 0 ▸ hhigh offset hoffset⟩
  · intro hbetween
    refine ⟨⟨⟨le_top, ?_⟩, Fin.zero_le _, ?_⟩, Fin.zero_le _, ?_⟩
    all_goals
      intro offset hoffset
      obtain ⟨found, hfound, hfield⟩ := hlisted offset hoffset
      obtain ⟨hfar, hlow, hhigh⟩ := hbetween offset hoffset found hfound
      rw [hfield]
      assumption

end Closure

end ConvexWasm.Compiler.BindingClosure
