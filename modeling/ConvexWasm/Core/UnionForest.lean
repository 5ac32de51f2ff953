import Mathlib

/-!
# Forests of merged sets

Each element points to a parent, and the elements that are their own parents
represent the sets.  The path from an element to its root is followed with
fuel; ranks that grow along the path show how much is enough, and that neither
shortening a path nor hanging one root below another closes a cycle.
-/

namespace ConvexWasm.UnionForest

open Function

variable {Element : Type*} [DecidableEq Element]

def follow (parent : Element → Element) : ℕ → Element → Element
  | 0, current => current
  | fuel + 1, current =>
    if parent current = current then current else follow parent fuel (parent current)

/-- The elements on the path, without its end. -/
def trail (parent : Element → Element) : ℕ → Element → List Element
  | 0, _ => []
  | fuel + 1, current =>
    if parent current = current then [] else current :: trail parent fuel (parent current)

/-- Ranks grow from an element to its parent, up to a limit. -/
structure Ranked (parent : Element → Element) (rank : Element → ℕ) (limit : ℕ) : Prop where
  grows : ∀ element, parent element ≠ element → rank element < rank (parent element)
  bounded : ∀ element, rank element ≤ limit

variable {parent : Element → Element} {rank : Element → ℕ} {limit fuel : ℕ}
  {element target : Element}

section

variable (hranked : Ranked parent rank limit)
include hranked

theorem follow_isRoot_of_fuel (hfuel : limit ≤ rank element + fuel) :
    parent (follow parent fuel element) = follow parent fuel element := by
  induction fuel generalizing element with
  | zero =>
    by_contra hparent
    have hgrows := hranked.grows element hparent
    have hbounded := hranked.bounded (parent element)
    omega
  | succ fuel ih =>
    rw [follow]
    split_ifs with hroot
    · exact hroot
    · have hgrows := hranked.grows element hroot
      exact ih (by omega)

/-- A path has at most as many steps as the limit. -/
theorem follow_isRoot : parent (follow parent limit element) = follow parent limit element :=
  follow_isRoot_of_fuel hranked (Nat.le_add_left _ _)

theorem rank_le_follow : rank element ≤ rank (follow parent fuel element) := by
  induction fuel generalizing element with
  | zero => rfl
  | succ fuel ih =>
    rw [follow]
    split_ifs with hroot
    · rfl
    · exact (hranked.grows element hroot).le.trans ih

theorem rank_lt_of_mem_trail (hmem : target ∈ trail parent fuel element) :
    parent target ≠ target ∧ rank target < rank (follow parent fuel element) := by
  induction fuel generalizing element with
  | zero => simp [trail] at hmem
  | succ fuel ih =>
    rw [trail] at hmem
    rw [follow]
    split_ifs at hmem ⊢ with hroot
    · simp at hmem
    · rcases List.mem_cons.mp hmem with rfl | hmem
      · exact ⟨hroot, (hranked.grows target hroot).trans_le (rank_le_follow hranked)⟩
      · exact ih hmem

end

/-- The forest in which an element hangs below another one. -/
def hang (parent : Element → Element) (element target : Element) : Element → Element :=
  update parent element target

theorem hang_isRoot_iff {other : Element} (hinner : parent element ≠ element)
    (hne : target ≠ element) : hang parent element target other = other ↔ parent other = other := by
  by_cases hother : other = element
  · subst hother
    simp [hang, hinner, hne]
  · simp [hang, hother]

variable (hranked : Ranked parent rank limit)
include hranked

/-- An inner element may hang below any element of greater rank. -/
theorem Ranked.hang_inner (hrank : rank element < rank target) :
    Ranked (hang parent element target) rank limit where
  grows := by
    intro other hparent
    by_cases hother : other = element
    · subst hother
      simpa [hang] using hrank
    · rw [hang, update_of_ne hother] at hparent ⊢
      exact hranked.grows other hparent
  bounded := hranked.bounded

/-- Shortening the path to a root keeps the ranks and the roots. -/
theorem Ranked.relink {elements : List Element}
    (hbelow : ∀ element ∈ elements, parent element ≠ element ∧ rank element < rank target) :
    Ranked (elements.foldl (fun parent element => hang parent element target) parent) rank limit ∧
      ∀ other, elements.foldl (fun parent element => hang parent element target) parent other =
        other ↔ parent other = other := by
  induction elements generalizing parent with
  | nil => exact ⟨hranked, fun _ => Iff.rfl⟩
  | cons element rest ih =>
    obtain ⟨hinner, hrank⟩ := hbelow element List.mem_cons_self
    have hne : target ≠ element := fun heq => (heq ▸ hrank).ne rfl
    have hroots : ∀ other, hang parent element target other = other ↔ parent other = other :=
      fun _ => hang_isRoot_iff hinner hne
    have hrest : ∀ later ∈ rest,
        hang parent element target later ≠ later ∧ rank later < rank target := by
      intro later hlater
      obtain ⟨hlaterInner, hlaterRank⟩ := hbelow later (List.mem_cons_of_mem _ hlater)
      exact ⟨fun hroot => hlaterInner ((hroots later).mp hroot), hlaterRank⟩
    obtain ⟨hafter, hsame⟩ := ih (hranked.hang_inner hrank) hrest
    exact ⟨hafter, fun other => (hsame other).trans (hroots other)⟩

/-- One root may hang below another; the other one then ranks above it. -/
theorem Ranked.hang_root (htarget : parent target = target) (hne : target ≠ element) :
    Ranked (hang parent element target)
      (update rank target (max (rank target) (rank element + 1))) (limit + 1) where
  grows := by
    intro other hparent
    have hraised : ∀ other,
        rank other ≤ update rank target (max (rank target) (rank element + 1)) other := by
      intro other
      by_cases hother : other = target
      · subst hother
        simp
      · simp [hother]
    by_cases hother : other = element
    · subst hother
      rw [hang, update_self, update_self, update_of_ne hne.symm]
      exact lt_max_of_lt_right (Nat.lt_succ_self _)
    · rw [hang, update_of_ne hother] at hparent ⊢
      have hinner : other ≠ target := fun heq => hparent (heq ▸ htarget)
      rw [update_of_ne hinner]
      exact (hranked.grows other hparent).trans_le (hraised _)
  bounded := by
    intro other
    by_cases hother : other = target
    · subst hother
      rw [update_self]
      exact max_le ((hranked.bounded other).trans (Nat.le_succ _))
        (Nat.succ_le_succ (hranked.bounded element))
    · rw [update_of_ne hother]
      exact (hranked.bounded other).trans (Nat.le_succ _)

end ConvexWasm.UnionForest
