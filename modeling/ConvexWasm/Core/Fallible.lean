import Mathlib

/-!
# Computations that may fail

Inversion of the `Except` monad: a successful composition is a chain of
successful parts, and a successful pass over a list relates every item to its
result.
-/

namespace ConvexWasm.Fallible

open List

variable {Failure First Second : Type}

variable {first : Except Failure First} {next : First → Except Failure Second} {result : Second}

theorem bind_eq_ok :
    (first >>= next) = .ok result ↔
      ∃ value, first = .ok value ∧ next value = .ok result := by
  cases first with
  | error failure => simp [bind, Except.bind]
  | ok value => simp [bind, Except.bind]

/-- A last step that cannot fail does not decide the outcome. -/
theorem exists_bind_pure_ok {last : First → Second} :
    (∃ result, (first >>= fun value => pure (last value)) = .ok result) ↔
      ∃ value, first = .ok value := by
  constructor
  · rintro ⟨result, hresult⟩
    obtain ⟨value, hvalue, -⟩ := bind_eq_ok.mp hresult
    exact ⟨value, hvalue⟩
  · rintro ⟨value, hvalue⟩
    exact ⟨last value, bind_eq_ok.mpr ⟨value, hvalue, rfl⟩⟩

variable {value : First}

@[simp]
theorem ok_bind : ((.ok value : Except Failure First) >>= next) = next value :=
  rfl

@[simp]
theorem error_bind {failure : Failure} :
    ((.error failure : Except Failure First) >>= next) = .error failure :=
  rfl

theorem toOption_eq_some {result : Except Failure First} :
    result.toOption = some value ↔ result = .ok value := by
  cases result with
  | error failure => simp [Except.toOption]
  | ok found => simp [Except.toOption]

variable {step : First → Except Failure Second}

variable {items : List First} {results : List Second}

theorem mapM_eq_ok_iff :
    items.mapM step = .ok results ↔
      List.Forall₂ (fun item result => step item = .ok result) items results := by
  induction items generalizing results with
  | nil =>
    rw [mapM_nil, List.forall₂_nil_left_iff]
    constructor
    · intro hok
      cases hok
      rfl
    · rintro rfl
      rfl
  | cons item rest ih =>
    rw [mapM_cons, List.forall₂_cons_left_iff]
    constructor
    · intro hok
      obtain ⟨result, hresult, hok⟩ := bind_eq_ok.mp hok
      obtain ⟨later, hlater, hok⟩ := bind_eq_ok.mp hok
      cases hok
      exact ⟨result, later, hresult, ih.mp hlater, rfl⟩
    · rintro ⟨result, later, hresult, hlater, rfl⟩
      refine bind_eq_ok.mpr ⟨result, hresult, ?_⟩
      exact bind_eq_ok.mpr ⟨later, ih.mpr hlater, rfl⟩

theorem exists_result_of_mem (hok : items.mapM step = .ok results) {item : First}
    (hitem : item ∈ items) : ∃ result ∈ results, step item = .ok result := by
  have hall := mapM_eq_ok_iff.mp hok
  clear hok
  induction hall with
  | nil => cases hitem
  | @cons head result rest results hhead _ ih =>
    rcases mem_cons.mp hitem with rfl | hrest
    · exact ⟨result, mem_cons_self, hhead⟩
    · obtain ⟨later, hlater, hstep⟩ := ih hrest
      exact ⟨later, mem_cons_of_mem _ hlater, hstep⟩

theorem exists_item_of_mem (hok : items.mapM step = .ok results) (hresult : result ∈ results) :
    ∃ item ∈ items, step item = .ok result := by
  have hall := mapM_eq_ok_iff.mp hok
  clear hok
  induction hall with
  | nil => cases hresult
  | @cons item head rest results hhead _ ih =>
    rcases mem_cons.mp hresult with rfl | hrest
    · exact ⟨item, mem_cons_self, hhead⟩
    · obtain ⟨later, hlater, hstep⟩ := ih hrest
      exact ⟨later, mem_cons_of_mem _ hlater, hstep⟩

theorem exists_mapM_ok_iff :
    (∃ results, items.mapM step = .ok results) ↔
      ∀ item ∈ items, ∃ result, step item = .ok result := by
  constructor
  · rintro ⟨results, hok⟩ item hitem
    obtain ⟨result, -, hresult⟩ := exists_result_of_mem hok hitem
    exact ⟨result, hresult⟩
  · intro hall
    induction items with
    | nil => exact ⟨[], rfl⟩
    | cons item rest ih =>
      obtain ⟨result, hresult⟩ := hall item mem_cons_self
      obtain ⟨results, hresults⟩ := ih fun later hlater =>
        hall later (mem_cons_of_mem _ hlater)
      rw [mapM_cons, hresult, ok_bind, hresults]
      exact ⟨result :: results, rfl⟩

/-- What each step of a successful fold preserves holds of its result. -/
theorem foldlM_invariant {step : First → Second → Except Failure First}
    (inv : First → Prop) {items : List Second}
    (hstep : ∀ state item next, item ∈ items → inv state →
      step state item = .ok next → inv next) {state result : First} (hstate : inv state)
    (hok : items.foldlM step state = .ok result) : inv result := by
  induction items generalizing state with
  | nil =>
    cases hok
    exact hstate
  | cons item rest ih =>
    obtain ⟨next, hnext, hok⟩ := bind_eq_ok.mp hok
    refine ih (fun state later next hlater => hstep state later next
      (mem_cons_of_mem _ hlater)) ?_ hok
    exact hstep state item next mem_cons_self hstate hnext

end ConvexWasm.Fallible
