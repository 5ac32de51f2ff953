import Mathlib

/-!
# Bounded closure under a partial composition

A list of routes is closed under the composition of two routes by passes over
all pairs.  A composition that is too long is cut, and so is every composition
once the list is full; either makes the result incomplete.  A complete result
lists exactly the generated routes, and whether it is complete depends on the
generated routes alone.
-/

namespace ConvexWasm.BoundedClosure

open List

/-- What two routes compose to. -/
inductive Composition (Route : Type*)
  | apart
  | tooLong
  | composed (route : Route)
  deriving DecidableEq

def Composition.map {Route Route' : Type*} (rename : Route → Route') :
    Composition Route → Composition Route'
  | .apart => .apart
  | .tooLong => .tooLong
  | .composed route => .composed (rename route)

/-- The routes found so far, and the flags of the loops over them: `stopped` is
set by the break out of the two inner loops. -/
structure Saturation (Route : Type*) where
  routes : List Route
  incomplete : Bool
  changed : Bool
  stopped : Bool
  deriving DecidableEq

variable {Route : Type*}

/-- The routes that compositions generate from the given ones. -/
inductive Generated (compose : Route → Route → Composition Route) (given : Route → Prop) :
    Route → Prop
  | given {route : Route} : given route → Generated compose given route
  | composed {first second route : Route} : Generated compose given first →
      Generated compose given second → compose first second = .composed route →
        Generated compose given route

variable {given : Route → Prop}

section Renaming

variable {Route' : Type*} {compose : Route → Route → Composition Route}
  {compose' : Route' → Route' → Composition Route'} {given' : Route' → Prop}
  {rename : Route → Route'}

theorem Composition.map_eq_composed {result : Composition Route} {route : Route'}
    (hmap : result.map rename = .composed route) :
    ∃ origin, result = .composed origin ∧ rename origin = route := by
  cases result with
  | apart => simp [Composition.map] at hmap
  | tooLong => simp [Composition.map] at hmap
  | composed origin => exact ⟨origin, rfl, by simpa [Composition.map] using hmap⟩

/-- A renaming that commutes with the composition carries the generated routes
over. -/
theorem Generated.renamed (hcompose : ∀ first second, compose' (rename first) (rename second) =
      (compose first second).map rename) (hgiven : ∀ route, given route → given' (rename route))
    {route : Route} (hroute : Generated compose given route) :
    Generated compose' given' (rename route) := by
  induction hroute with
  | given hroute => exact Generated.given (hgiven _ hroute)
  | composed _ _ hcomposed hfirst hsecond =>
    apply Generated.composed hfirst hsecond
    rw [hcompose, hcomposed]
    rfl

theorem generated_rename_iff (hcompose : ∀ first second, compose' (rename first) (rename second) =
      (compose first second).map rename)
    (hgiven : ∀ route', given' route' ↔ ∃ route, given route ∧ rename route = route')
    (route' : Route') :
    Generated compose' given' route' ↔
      ∃ route, Generated compose given route ∧ rename route = route' := by
  constructor
  · intro hroute
    induction hroute with
    | given hroute =>
      obtain ⟨route, horigin, rfl⟩ := (hgiven _).mp hroute
      exact ⟨route, Generated.given horigin, rfl⟩
    | composed _ _ hcomposed hfirst hsecond =>
      obtain ⟨first, hfirst, rfl⟩ := hfirst
      obtain ⟨second, hsecond, rfl⟩ := hsecond
      rw [hcompose] at hcomposed
      obtain ⟨route, hroute, rfl⟩ := Composition.map_eq_composed hcomposed
      exact ⟨route, Generated.composed hfirst hsecond hroute, rfl⟩
  · intro hroute
    obtain ⟨route, hroute, rfl⟩ := hroute
    exact hroute.renamed hcompose fun route hroute => (hgiven _).mpr ⟨route, hroute, rfl⟩

end Renaming

variable [DecidableEq Route] (limit : ℕ) (compose : Route → Route → Composition Route)

def composePair (state : Saturation Route) (pair : Route × Route) : Saturation Route :=
  if state.stopped then state
  else
    match compose pair.1 pair.2 with
    | .apart => state
    | .tooLong => { state with incomplete := true }
    | .composed route =>
      if route ∈ state.routes then state
      else if limit ≤ state.routes.length then
        { state with incomplete := true, stopped := true }
      else { state with routes := state.routes ++ [route], changed := true }

/-- One pass composes all pairs of the routes listed when it starts. -/
def pass (state : Saturation Route) : Saturation Route :=
  (state.routes ×ˢ state.routes).foldl (composePair limit compose)
    { state with changed := false, stopped := false }

/-- Passes are made until one changes nothing or the result is incomplete. -/
def saturate : ℕ → Saturation Route → Saturation Route
  | 0, state => state
  | fuel + 1, state =>
    let state := pass limit compose state
    if state.incomplete || !state.changed then state else saturate fuel state

variable {state : Saturation Route}

section Pass

variable {limit compose} {pair : Route × Route}

/-- What one composition can do to the state. -/
theorem composePair_cases (limit : ℕ) (compose : Route → Route → Composition Route)
    (state : Saturation Route) (pair : Route × Route) :
    composePair limit compose state pair = state ∨
      composePair limit compose state pair = { state with incomplete := true } ∨
      composePair limit compose state pair =
        { state with incomplete := true, stopped := true } ∨
      ∃ route, compose pair.1 pair.2 = .composed route ∧ route ∉ state.routes ∧
        state.routes.length < limit ∧ composePair limit compose state pair =
          { state with routes := state.routes ++ [route], changed := true } := by
  unfold composePair
  by_cases hstopped : state.stopped = true
  · exact Or.inl (if_pos hstopped)
  rw [if_neg hstopped]
  cases hcompose : compose pair.1 pair.2 with
  | apart => exact Or.inl rfl
  | tooLong => exact Or.inr (Or.inl rfl)
  | composed route =>
    by_cases hmem : route ∈ state.routes
    · exact Or.inl (if_pos hmem)
    · simp only [if_neg hmem]
      by_cases hfull : limit ≤ state.routes.length
      · exact Or.inr (Or.inr (Or.inl (if_pos hfull)))
      · exact Or.inr (Or.inr (Or.inr ⟨route, rfl, hmem, by omega, if_neg hfull⟩))

/-- Every route of the list was given or generated, no route is listed twice, and
the list is no longer than the limit. -/
structure Listed (limit : ℕ) (compose : Route → Route → Composition Route)
    (given : Route → Prop) (state : Saturation Route) : Prop where
  generated : ∀ route ∈ state.routes, Generated compose given route
  nodup : state.routes.Nodup
  bounded : state.routes.length ≤ limit

theorem Listed.step (hlisted : Listed limit compose given state)
    (hfirst : Generated compose given pair.1) (hsecond : Generated compose given pair.2) :
    Listed limit compose given (composePair limit compose state pair) := by
  obtain hsame | hsame | hsame | ⟨route, hroute, hnew, hroom, hsame⟩ :=
    composePair_cases limit compose state pair
  · rw [hsame]
    exact hlisted
  · rw [hsame]
    exact ⟨hlisted.generated, hlisted.nodup, hlisted.bounded⟩
  · rw [hsame]
    exact ⟨hlisted.generated, hlisted.nodup, hlisted.bounded⟩
  · rw [hsame]
    refine ⟨?_, ?_, ?_⟩
    · intro other hother
      rcases mem_append.mp hother with hold | hadded
      · exact hlisted.generated other hold
      · rw [mem_singleton.mp hadded]
        exact Generated.composed hfirst hsecond hroute
    · exact hlisted.nodup.append (nodup_singleton route)
        (by simpa using hnew)
    · simpa using hroom

theorem composePair_grows (limit : ℕ) (compose : Route → Route → Composition Route)
    (state : Saturation Route) (pair : Route × Route) :
    state.routes <+: (composePair limit compose state pair).routes := by
  obtain hsame | hsame | hsame | ⟨route, -, -, -, hsame⟩ :=
    composePair_cases limit compose state pair <;> rw [hsame]
  · exact prefix_append _ _

theorem composePair_incomplete (hstate : state.incomplete = true) :
    (composePair limit compose state pair).incomplete = true := by
  obtain hsame | hsame | hsame | ⟨route, -, -, -, hsame⟩ :=
    composePair_cases limit compose state pair <;> rw [hsame] <;> try assumption

/-- A run that stays complete has not been stopped. -/
theorem composePair_running (hstate : state.stopped = true → state.incomplete = true)
    (hstopped : (composePair limit compose state pair).stopped = true) :
    (composePair limit compose state pair).incomplete = true := by
  obtain hsame | hsame | hsame | ⟨route, -, -, -, hsame⟩ :=
    composePair_cases limit compose state pair <;> rw [hsame] at hstopped ⊢
  · exact hstate hstopped
  · exact hstate hstopped

/-- A composition that leaves the state complete is in the list afterwards. -/
theorem composePair_covers (hrunning : state.stopped = false)
    (hcomplete : (composePair limit compose state pair).incomplete = false) :
    compose pair.1 pair.2 ≠ .tooLong ∧
      ∀ route, compose pair.1 pair.2 = .composed route →
        route ∈ (composePair limit compose state pair).routes := by
  unfold composePair at hcomplete ⊢
  rw [if_neg (by simp [hrunning])] at hcomplete ⊢
  cases hcompose : compose pair.1 pair.2 with
  | apart => simp
  | tooLong => simp [hcompose] at hcomplete
  | composed route =>
    refine ⟨by simp, fun other hother => ?_⟩
    obtain rfl : route = other := by simpa using hother
    simp only [hcompose] at hcomplete ⊢
    by_cases hmem : route ∈ state.routes
    · simp [hmem]
    · by_cases hfull : limit ≤ state.routes.length
      · simp [hmem, hfull] at hcomplete
      · simp [hmem, hfull]

variable {pairs : List (Route × Route)}

theorem Listed.foldl
    (hpairs : ∀ pair ∈ pairs, Generated compose given pair.1 ∧ Generated compose given pair.2)
    (hlisted : Listed limit compose given state) :
    Listed limit compose given
      (pairs.foldl (composePair limit compose) state) := by
  induction pairs generalizing state with
  | nil => exact hlisted
  | cons pair rest ih =>
    obtain ⟨hfirst, hsecond⟩ := hpairs pair mem_cons_self
    exact ih (fun other hother => hpairs other (mem_cons_of_mem _ hother))
      (hlisted.step hfirst hsecond)

variable (state) in
theorem foldl_incomplete (hstate : state.incomplete = true) :
    (pairs.foldl (composePair limit compose) state).incomplete = true := by
  induction pairs generalizing state with
  | nil => exact hstate
  | cons pair rest ih => exact ih _ (composePair_incomplete hstate)

theorem foldl_grows (pairs : List (Route × Route)) (state : Saturation Route) :
    state.routes <+: (pairs.foldl (composePair limit compose) state).routes := by
  induction pairs generalizing state with
  | nil => exact prefix_rfl
  | cons pair rest ih => exact (composePair_grows limit compose state pair).trans (ih _)

variable (state) in
theorem foldl_covers (hrunning : state.stopped = true → state.incomplete = true)
    (hcomplete : (pairs.foldl (composePair limit compose) state).incomplete = false) :
    ∀ pair ∈ pairs, compose pair.1 pair.2 ≠ .tooLong ∧
      ∀ route, compose pair.1 pair.2 = .composed route →
        route ∈ (pairs.foldl (composePair limit compose) state).routes := by
  induction pairs generalizing state with
  | nil => simp
  | cons head rest ih =>
    have hkept : ∀ after, (rest.foldl (composePair limit compose) after).incomplete = false →
        after.incomplete = false := by
      intro after hafter
      by_contra hincomplete
      rw [Bool.not_eq_false] at hincomplete
      rw [foldl_incomplete _ hincomplete] at hafter
      simp at hafter
    have hafter := hkept _ hcomplete
    have hbefore : state.incomplete = false := by
      by_contra hincomplete
      rw [Bool.not_eq_false] at hincomplete
      rw [composePair_incomplete hincomplete] at hafter
      simp at hafter
    have hstopped : state.stopped = false := by
      by_contra hstopped
      rw [Bool.not_eq_false] at hstopped
      rw [hrunning hstopped] at hbefore
      simp at hbefore
    intro pair hpair
    rcases mem_cons.mp hpair with rfl | hpair
    · obtain ⟨hshort, hcovered⟩ := composePair_covers hstopped hafter
      exact ⟨hshort, fun route hroute => (foldl_grows rest _).subset (hcovered route hroute)⟩
    · exact ih _ (composePair_running hrunning) hcomplete pair hpair

/-- A pass that changes nothing leaves the list as it was. -/
theorem foldl_unchanged
    (hunchanged : (pairs.foldl (composePair limit compose) state).changed = false) :
    (pairs.foldl (composePair limit compose) state).routes = state.routes ∧
      state.changed = false := by
  induction pairs generalizing state with
  | nil => exact ⟨rfl, hunchanged⟩
  | cons pair rest ih =>
    obtain ⟨hroutes, hstep⟩ := ih hunchanged
    obtain hsame | hsame | hsame | ⟨route, -, -, -, hsame⟩ :=
      composePair_cases limit compose state pair
    · exact ⟨hroutes.trans (by rw [hsame]), by rwa [hsame] at hstep⟩
    · exact ⟨hroutes.trans (by rw [hsame]), by rwa [hsame] at hstep⟩
    · exact ⟨hroutes.trans (by rw [hsame]), by rwa [hsame] at hstep⟩
    · rw [hsame] at hstep
      simp at hstep

variable (state) in
theorem foldl_changed (hstate : state.changed = false)
    (hchanged : (pairs.foldl (composePair limit compose) state).changed = true) :
    state.routes.length <
      (pairs.foldl (composePair limit compose) state).routes.length := by
  induction pairs generalizing state with
  | nil => simp [hstate] at hchanged
  | cons pair rest ih =>
    obtain hsame | hsame | hsame | ⟨route, -, -, -, hsame⟩ :=
      composePair_cases limit compose state pair
    · rw [foldl_cons, hsame] at hchanged ⊢
      exact ih state hstate hchanged
    · rw [foldl_cons, hsame] at hchanged ⊢
      exact ih { state with incomplete := true } hstate hchanged
    · rw [foldl_cons, hsame] at hchanged ⊢
      exact ih { state with incomplete := true, stopped := true } hstate hchanged
    · rw [foldl_cons, hsame]
      have hgrows : state.routes ++ [route] <+: (rest.foldl (composePair limit compose)
          { state with routes := state.routes ++ [route], changed := true }).routes :=
        foldl_grows rest { state with routes := state.routes ++ [route], changed := true }
      have hlonger := hgrows.length_le
      simp only [length_append, length_singleton] at hlonger
      omega

end Pass

section Saturate

variable {limit compose}

theorem Listed.pass (hlisted : Listed limit compose given state) :
    Listed limit compose given (pass limit compose state) := by
  apply Listed.foldl
  · intro pair hpair
    obtain ⟨hfirst, hsecond⟩ := mem_product.mp hpair
    exact ⟨hlisted.generated _ hfirst, hlisted.generated _ hsecond⟩
  · exact ⟨hlisted.generated, hlisted.nodup, hlisted.bounded⟩

variable {fuel : ℕ}

theorem Listed.saturate (hlisted : Listed limit compose given state) :
    Listed limit compose given (saturate limit compose fuel state) := by
  induction fuel generalizing state with
  | zero => exact hlisted
  | succ fuel ih =>
    rw [BoundedClosure.saturate]
    split
    · exact hlisted.pass
    · exact ih hlisted.pass

theorem saturate_grows (fuel : ℕ) (state : Saturation Route) :
    state.routes <+: (saturate limit compose fuel state).routes := by
  induction fuel generalizing state with
  | zero => exact prefix_rfl
  | succ fuel ih =>
    have hpass : state.routes <+: (pass limit compose state).routes :=
      foldl_grows _ { state with changed := false, stopped := false }
    rw [saturate]
    split
    · exact hpass
    · exact hpass.trans (ih _)

theorem saturate_incomplete (hstate : state.incomplete = true) :
    (saturate limit compose fuel state).incomplete = true := by
  induction fuel generalizing state with
  | zero => exact hstate
  | succ fuel ih =>
    have hpass : (pass limit compose state).incomplete = true :=
      foldl_incomplete { state with changed := false, stopped := false } hstate
    rw [saturate]
    split
    · exact hpass
    · exact ih hpass

/-- Every two listed routes compose within the list, and none is too long. -/
def Covers (compose : Route → Route → Composition Route) (routes : List Route) : Prop :=
  ∀ first ∈ routes, ∀ second ∈ routes, compose first second ≠ .tooLong ∧
    ∀ route, compose first second = .composed route → route ∈ routes

/-- The loop makes at most one pass for each free place and one more, and what it
then leaves complete covers all compositions. -/
theorem saturate_covers (hlisted : Listed limit compose given state)
    (hfuel : limit < fuel + state.routes.length)
    (hcomplete : (saturate limit compose fuel state).incomplete = false) :
    Covers compose (saturate limit compose fuel state).routes := by
  induction fuel generalizing state with
  | zero =>
    have := hlisted.bounded
    omega
  | succ fuel ih =>
    rw [saturate] at hcomplete ⊢
    by_cases hdone : ((pass limit compose state).incomplete ||
        !(pass limit compose state).changed) = true
    · simp only [hdone, if_true] at hcomplete ⊢
      have hunchanged : (pass limit compose state).changed = false := by
        simpa [hcomplete] using hdone
      have hsame := (foldl_unchanged hunchanged).1
      have hcovers := foldl_covers { state with changed := false, stopped := false }
        (by simp) hcomplete
      intro first hfirst second hsecond
      rw [show (pass limit compose state).routes = state.routes from hsame] at hfirst hsecond
      exact hcovers (first, second) (mem_product.mpr ⟨hfirst, hsecond⟩)
    · simp only [hdone] at hcomplete ⊢
      have hchanged : (pass limit compose state).changed = true := by
        simp only [Bool.or_eq_true, Bool.not_eq_true', not_or, Bool.not_eq_false] at hdone
        exact hdone.2
      have hlonger : state.routes.length < (pass limit compose state).routes.length :=
        foldl_changed { state with changed := false, stopped := false } rfl hchanged
      exact ih hlisted.pass (by omega) hcomplete

/-- A complete result lists exactly the generated routes. -/
theorem mem_saturate_iff (hlisted : Listed limit compose (· ∈ state.routes) state)
    (hfuel : limit < fuel + state.routes.length)
    (hcomplete : (saturate limit compose fuel state).incomplete = false) {route : Route} :
    route ∈ (saturate limit compose fuel state).routes ↔
      Generated compose (· ∈ state.routes) route := by
  have hcovers := saturate_covers hlisted hfuel hcomplete
  constructor
  · exact hlisted.saturate.generated route
  · intro hroute
    induction hroute with
    | given hgiven => exact (saturate_grows fuel state).subset hgiven
    | composed _ _ hcomposed hfirst hsecond =>
      exact (hcovers _ hfirst _ hsecond).2 _ hcomposed

/-- The generated routes fit the limit, and no two of them are too long together. -/
structure Fits (limit : ℕ) (compose : Route → Route → Composition Route)
    (given : Route → Prop) : Prop where
  bounded : ∃ routes : List Route, routes.length ≤ limit ∧
    ∀ route, Generated compose given route → route ∈ routes
  short : ∀ first second, Generated compose given first → Generated compose given second →
    compose first second ≠ .tooLong

omit [DecidableEq Route] in
/-- Renaming the routes keeps what fits. -/
theorem Fits.renamed {Route' : Type*} {compose' : Route' → Route' → Composition Route'}
    {given' : Route' → Prop} {rename : Route → Route'} (hfits : Fits limit compose given)
    (hcompose : ∀ first second, compose' (rename first) (rename second) =
      (compose first second).map rename)
    (hgiven : ∀ route', given' route' ↔ ∃ route, given route ∧ rename route = route') :
    Fits limit compose' given' := by
  have hrenamed := generated_rename_iff hcompose hgiven
  obtain ⟨routes, hlimit, hroutes⟩ := hfits.bounded
  refine ⟨⟨routes.map rename, by simpa using hlimit, ?_⟩, ?_⟩
  · intro route' hroute'
    obtain ⟨route, hroute, rfl⟩ := (hrenamed route').mp hroute'
    exact mem_map_of_mem (hroutes route hroute)
  · intro first' second' hfirst' hsecond'
    obtain ⟨first, hfirst, rfl⟩ := (hrenamed first').mp hfirst'
    obtain ⟨second, hsecond, rfl⟩ := (hrenamed second').mp hsecond'
    have hshort := hfits.short first second hfirst hsecond
    rw [hcompose]
    cases hcomposed : compose first second with
    | apart => simp [Composition.map]
    | tooLong => exact absurd hcomposed hshort
    | composed route => simp [Composition.map]

theorem Fits.composePair (hfits : Fits limit compose given)
    (hlisted : Listed limit compose given state) (hstate : state.incomplete = false)
    {pair : Route × Route} (hfirst : Generated compose given pair.1)
    (hsecond : Generated compose given pair.2) :
    (composePair limit compose state pair).incomplete = false := by
  unfold BoundedClosure.composePair
  split
  · exact hstate
  cases hcompose : compose pair.1 pair.2 with
  | apart => exact hstate
  | tooLong => exact absurd hcompose (hfits.short _ _ hfirst hsecond)
  | composed route =>
    by_cases hmem : route ∈ state.routes
    · simpa [hmem] using hstate
    · obtain ⟨routes, hlimit, hroutes⟩ := hfits.bounded
      have hroute : Generated compose given route :=
        Generated.composed hfirst hsecond hcompose
      have hroom : (state.routes ++ [route]).length ≤ routes.length := by
        apply List.Nodup.length_le_of_subset
        · exact hlisted.nodup.append (nodup_singleton route) (by simpa using hmem)
        · intro other hother
          rcases mem_append.mp hother with hold | hadded
          · exact hroutes other (hlisted.generated other hold)
          · rw [mem_singleton.mp hadded]
            exact hroutes route hroute
      have hfree : ¬limit ≤ state.routes.length := by
        simp only [length_append, length_singleton] at hroom
        omega
      simpa [hmem, hfree] using hstate

theorem Fits.foldl {pairs : List (Route × Route)} (hfits : Fits limit compose given)
    (hpairs : ∀ pair ∈ pairs, Generated compose given pair.1 ∧ Generated compose given pair.2)
    (hlisted : Listed limit compose given state) (hstate : state.incomplete = false) :
    (pairs.foldl (BoundedClosure.composePair limit compose) state).incomplete = false := by
  induction pairs generalizing state with
  | nil => exact hstate
  | cons pair rest ih =>
    obtain ⟨hfirst, hsecond⟩ := hpairs pair mem_cons_self
    exact ih (fun other hother => hpairs other (mem_cons_of_mem _ hother))
      (hlisted.step hfirst hsecond) (hfits.composePair hlisted hstate hfirst hsecond)

theorem Fits.saturate (hfits : Fits limit compose given) {fuel : ℕ}
    (hlisted : Listed limit compose given state) (hstate : state.incomplete = false) :
    (saturate limit compose fuel state).incomplete = false := by
  induction fuel generalizing state with
  | zero => exact hstate
  | succ fuel ih =>
    have hpass : (pass limit compose state).incomplete = false := by
      apply hfits.foldl
      · intro pair hpair
        obtain ⟨hfirst, hsecond⟩ := mem_product.mp hpair
        exact ⟨hlisted.generated _ hfirst, hlisted.generated _ hsecond⟩
      · exact ⟨hlisted.generated, hlisted.nodup, hlisted.bounded⟩
      · exact hstate
    rw [BoundedClosure.saturate]
    split
    · exact hpass
    · exact ih hlisted.pass hpass

/-- Whether the result is complete depends on the generated routes alone. -/
theorem saturate_complete_iff (hlisted : Listed limit compose (· ∈ state.routes) state)
    (hfuel : limit < fuel + state.routes.length) (hstate : state.incomplete = false) :
    (saturate limit compose fuel state).incomplete = false ↔
      Fits limit compose (· ∈ state.routes) := by
  constructor
  · intro hcomplete
    have hmem : ∀ route, route ∈ (BoundedClosure.saturate limit compose fuel state).routes ↔
        Generated compose (· ∈ state.routes) route := fun route =>
      mem_saturate_iff hlisted hfuel hcomplete
    refine ⟨⟨_, hlisted.saturate.bounded, fun route hroute => (hmem route).mpr hroute⟩, ?_⟩
    intro first second hfirst hsecond
    exact (saturate_covers hlisted hfuel hcomplete first ((hmem first).mpr hfirst) second
      ((hmem second).mpr hsecond)).1
  · intro hfits
    exact hfits.saturate hlisted hstate

end Saturate

end ConvexWasm.BoundedClosure
