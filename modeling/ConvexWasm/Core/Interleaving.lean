import Mathlib

/-!
# Interleavings of queues

Several producers emit their own items in their own order, and one consumer
sees the items as they come.  Every merge of the queues is a rearrangement of
their concatenation, and a range dealt out round robin is dealt out exactly
once.
-/

namespace ConvexWasm

open List

variable {Item : Type*}

/-- The second argument is an order in which the items of the queues can be
taken from their fronts until every queue is empty. -/
inductive Interleaving : List (List Item) → List Item → Prop where
  | done {queues : List (List Item)} (hempty : ∀ queue ∈ queues, queue = []) :
      Interleaving queues []
  | take {before after : List (List Item)} {item : Item} {rest merged : List Item}
      (hrest : Interleaving (before ++ rest :: after) merged) :
      Interleaving (before ++ (item :: rest) :: after) (item :: merged)

namespace Interleaving

variable {queues : List (List Item)} {merged : List Item}

theorem perm (hmerged : Interleaving queues merged) : merged.Perm queues.flatten := by
  induction hmerged with
  | done hempty =>
    rw [flatten_eq_nil_iff.mpr hempty]
  | @take before after item rest merged _ ih =>
    have hfront : (before ++ (item :: rest) :: after).flatten.Perm
        (item :: (before ++ rest :: after).flatten) := by
      rw [flatten_append, flatten_append, flatten_cons, flatten_cons]
      exact perm_middle
    exact (ih.cons item).trans hfront.symm

/-- An item at the end of a queue may come last. -/
theorem snoc {before after : List (List Item)} {part : List Item} {item : Item}
    (hmerged : Interleaving (before ++ part :: after) merged) :
    Interleaving (before ++ (part ++ [item]) :: after) (merged ++ [item]) := by
  generalize hqueues : before ++ part :: after = queues at hmerged
  induction hmerged generalizing before part after with
  | done hempty =>
    subst hqueues
    obtain rfl := hempty part (mem_append_right before mem_cons_self)
    exact .take (.done hempty)
  | @take front back first rest merged _ ih =>
    rcases append_eq_append_iff.mp hqueues with
      ⟨middle, hfront, hback⟩ | ⟨middle, hbefore, hback⟩
    · -- the queue that grows stands before the one that is taken from, or is it
      cases middle with
      | nil =>
        obtain ⟨rfl, rfl⟩ := List.cons.inj hback
        rw [List.append_nil] at hfront
        subst hfront
        exact .take (ih rfl)
      | cons queue others =>
        obtain ⟨hpart, hafter⟩ := List.cons.inj hback
        subst hpart hafter hfront
        have hrest := ih (show before ++ part :: (others ++ rest :: back) = _ by simp)
        have htake : Interleaving
            ((before ++ (part ++ [item]) :: others) ++ (first :: rest) :: back)
            (first :: (merged ++ [item])) := .take (by simpa using hrest)
        simpa using htake
    · cases middle with
      | nil =>
        obtain ⟨rfl, rfl⟩ := List.cons.inj hback
        rw [List.append_nil] at hbefore
        subst hbefore
        exact .take (ih rfl)
      | cons queue others =>
        obtain ⟨hpart, hafter⟩ := List.cons.inj hback
        subst hpart hafter hbefore
        have hrest := ih (show (front ++ rest :: others) ++ part :: after = _ by simp)
        have htake : Interleaving
            (front ++ (first :: rest) :: (others ++ (part ++ [item]) :: after))
            (first :: (merged ++ [item])) := .take (by simpa using hrest)
        simpa using htake

variable (hmerged : Interleaving queues merged)
include hmerged

/-- A queue with nothing in it may be added. -/
theorem append_nil : Interleaving (queues ++ [[]]) merged := by
  induction hmerged with
  | done hempty =>
    refine .done fun queue hqueue => ?_
    rcases mem_append.mp hqueue with hold | hnew
    · exact hempty queue hold
    · exact mem_singleton.mp hnew
  | @take front back item rest merged _ ih =>
    have htake : Interleaving (front ++ (item :: rest) :: (back ++ [[]])) (item :: merged) :=
      .take (by simpa using ih)
    simpa using htake

/-- A last item in a queue of its own. -/
theorem append_singleton {item : Item} : Interleaving (queues ++ [[item]]) (merged ++ [item]) := by
  have hsnoc : Interleaving (queues ++ [[] ++ [item]]) (merged ++ [item]) :=
    (append_nil hmerged).snoc
  exact hsnoc

theorem set {part : List Item} {item : Item} {position : ℕ} (hpart : queues[position]? = some part)
    : Interleaving (queues.set position (part ++ [item])) (merged ++ [item]) := by
  obtain ⟨hlt, hget⟩ := List.getElem?_eq_some_iff.mp hpart
  have hsplit : queues = queues.take position ++ part :: queues.drop (position + 1) := by
    rw [← hget, getElem_cons_drop, take_append_drop]
  rw [set_eq_take_append_cons_drop, if_pos hlt]
  rw [hsplit] at hmerged
  exact hmerged.snoc

end Interleaving

/-- The numbers below `bound` that `first` reaches in strides of `step`. -/
def strided (first step bound : ℕ) : List ℕ :=
  List.range' first ((bound - first + step - 1) / step) step

section Strided

variable {first step bound : ℕ}

theorem nodup_strided (hstep : 0 < step) : (strided first step bound).Nodup :=
  nodup_range' step hstep

theorem mem_strided (hstep : 0 < step) (hfirst : first < step) {index : ℕ} :
    index ∈ strided first step bound ↔ index < bound ∧ index % step = first := by
  rw [strided, mem_range']
  constructor
  · rintro ⟨stride, hstride, rfl⟩
    have hreach : step * (stride + 1) ≤ bound - first + step - 1 := by
      calc step * (stride + 1) ≤ step * ((bound - first + step - 1) / step) :=
            Nat.mul_le_mul_left step hstride
        _ ≤ bound - first + step - 1 := Nat.mul_div_le _ _
    rw [Nat.mul_add, Nat.mul_one] at hreach
    exact ⟨by omega, by rw [Nat.add_mul_mod_self_left, Nat.mod_eq_of_lt hfirst]⟩
  · rintro ⟨hbound, hmod⟩
    have hsplit := Nat.mod_add_div index step
    rw [hmod] at hsplit
    refine ⟨index / step, ?_, hsplit.symm⟩
    rw [Nat.lt_iff_add_one_le, Nat.le_div_iff_mul_le hstep, Nat.add_mul, Nat.one_mul,
      Nat.mul_comm]
    omega

/-- Dealing the range out to `step` hands puts every number into one hand. -/
theorem flatten_strided_perm (hstep : 0 < step) :
    (((List.range step).map fun first => strided first step bound).flatten).Perm
      (List.range bound) := by
  have hnodup : (((List.range step).map fun first => strided first step bound).flatten).Nodup := by
    rw [nodup_flatten]
    constructor
    · intro hand hhand
      obtain ⟨first, -, rfl⟩ := mem_map.mp hhand
      exact nodup_strided hstep
    · rw [pairwise_map]
      have hrange : (List.range step).Nodup := nodup_range
      apply List.Pairwise.imp_of_mem _ hrange
      intro first second hfirst hsecond hne index hindex hother
      have hone := ((mem_strided hstep (mem_range.mp hfirst)).mp hindex).2
      have htwo := ((mem_strided hstep (mem_range.mp hsecond)).mp hother).2
      exact hne (hone.symm.trans htwo)
  rw [perm_ext_iff_of_nodup hnodup nodup_range]
  intro index
  rw [mem_flatten, mem_range]
  constructor
  · rintro ⟨hand, hhand, hindex⟩
    obtain ⟨first, hfirst, rfl⟩ := mem_map.mp hhand
    exact ((mem_strided hstep (mem_range.mp hfirst)).mp hindex).1
  · intro hbound
    have hfirst : index % step < step := Nat.mod_lt _ hstep
    exact ⟨_, mem_map.mpr ⟨index % step, mem_range.mpr hfirst, rfl⟩,
      (mem_strided hstep hfirst).mpr ⟨hbound, rfl⟩⟩

end Strided

end ConvexWasm
