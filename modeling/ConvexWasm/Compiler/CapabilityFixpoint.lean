import ConvexWasm.Compiler.CapabilityRegions

/-!
# The fixpoint of the capability flow

The worklist ends, and the bindings it owns are the least set over the roots
that the two rules do not lead out of, whatever the order of promotions.
-/

namespace ConvexWasm.Compiler

open Fallible KeyedMap List RequirementFlow

open PromotionInput

variable {input : PromotionInput} {state : Promotion}
  {key : CapabilityBindingKey} {requirement : CapabilityRequirement}

variable {modules : LoadedModules} {reachable : ReachableUnits} {index : ReachableStaticCallIndex}

/-- The worklist between two iterations. -/
structure Promotion.Sound (input : PromotionInput) (state : Promotion) : Prop where
  consistent : state.Consistent input [] [] []
  recorded : state.OwnersRecorded input
  derived : input.rules.Derived state.ownedKeys
  origin : input.rules.UniqueProviders ∨ input.rules.Forward state.ownedKeys

/-- Candidates still to be promoted and counters still to be drained. -/
def Promotion.measure (input : PromotionInput) (state : Promotion) : ℕ :=
  state.load input +
    (input.requirements.keys.filter fun key => decide (key ∉ state.owned.keys)).length

/-- Owning one more candidate makes the measure smaller. -/
theorem Promotion.measure_lt {next : Promotion} (hkey : key ∈ input.requirements.keys)
    (howned : key ∉ state.owned.keys) (hnext : key ∈ next.owned.keys)
    (hsubset : state.ownedKeys ⊆ next.ownedKeys) (hload : next.load input ≤ state.load input) :
    next.measure input < state.measure input := by
  have hsublist : (input.requirements.keys.filter fun key =>
      decide (key ∉ next.owned.keys)) =
      (input.requirements.keys.filter fun key =>
        decide (key ∉ state.owned.keys)).filter fun key =>
          decide (key ∉ next.owned.keys) := by
    rw [filter_filter]
    refine filter_congr fun other _ => ?_
    by_cases hother : other ∈ next.owned.keys
    · simp [hother]
    · have hbefore : other ∉ state.owned.keys := fun hold => hother (hsubset hold)
      simp [hother, hbefore]
  have hlength : (input.requirements.keys.filter fun key =>
      decide (key ∉ next.owned.keys)).length <
      (input.requirements.keys.filter fun key =>
        decide (key ∉ state.owned.keys)).length := by
    rw [hsublist]
    refine length_filter_lt_length_iff_exists.mpr ⟨key, ?_, by simpa using hnext⟩
    exact mem_filter.mpr ⟨hkey, decide_eq_true howned⟩
  rw [Promotion.measure, Promotion.measure]
  omega

theorem region_grants (hwell : input.WellFormed) (hsound : state.Sound input)
    {next : Promotion} {start : CapabilityBindingKey} {found : List CapabilityBindingKey}
    (hprovided : input.rules.HasGrantedProvider state.ownedKeys start)
    (hfound : ∀ key, key ∈ found ↔ input.rules.Region state.ownedKeys start key)
    (hclosed : input.rules.RegionClosed state.ownedKeys start)
    (howned : next.ownedKeys = state.ownedKeys ∪ {key | key ∈ found})
    (hunique : input.rules.UniqueProviders) (hrecorded : next.OwnersRecorded input)
    (hconsistent : next.Consistent input [] [] []) (hload : next.load input ≤ state.load input) :
    next.Sound input ∧ next.measure input < state.measure input := by
  have hset : {key | key ∈ found} =
      {key | input.rules.Region state.ownedKeys start key} := Set.ext hfound
  have hgrants : input.rules.Grants state.ownedKeys next.ownedKeys := by
    rw [howned, hset]
    exact .region hprovided hclosed
  refine ⟨⟨hconsistent, hrecorded, hsound.derived.next hgrants, .inl hunique⟩, ?_⟩
  obtain ⟨hcandidate, hstart⟩ := hclosed.unresolved start .start
  have hnext : start ∈ next.ownedKeys := by
    rw [howned]
    exact .inr ((hfound start).mpr .start)
  exact Promotion.measure_lt ((mem_rules_candidates hwell).mp hcandidate) hstart hnext
    hgrants.subset hload

/-- One attempt at promoting a region: it fails on an ambiguous reference, finds
that no rule applies, or promotes a region that a rule grants. -/
theorem promoteRootedClosedCapabilityRegions_spec
    (hdescribes : input.Describes modules reachable index) (hsound : state.Sound input)
    (hready : ∀ key, key ∉ state.ready) :
    promoteRootedClosedCapabilityRegions modules reachable index input state =
        .error ambiguousReference ∨
      (promoteRootedClosedCapabilityRegions modules reachable index input state =
          .ok none ∧ input.rules.Exhausted state.ownedKeys ∧
          input.rules.Settled state.ownedKeys) ∨
      ∃ next, promoteRootedClosedCapabilityRegions modules reachable index input state =
          .ok (some next) ∧ next.Sound input ∧
          next.measure input < state.measure input := by
  have hwell := hdescribes.wellFormed
  have hunresolved : ∀ key, key ∈ input.unresolved state ↔
      key ∈ input.rules.candidates ∧ key ∉ state.ownedKeys := by
    intro key
    rw [mem_unresolved hsound.consistent hready, mem_rules_candidates hwell]
    rfl
  have hforward : ∀ key ∈ input.rules.candidates,
      (∀ requirement ∈ input.rules.requirements key,
        input.rules.Satisfied state.ownedKeys requirement) → key ∈ state.ownedKeys := by
    intro key hkey hrequirements
    have hkey := (mem_rules_candidates hwell).mp hkey
    rcases hsound.consistent.covered key hkey with
      hpopped | howned | hnow | ⟨remaining, hremaining⟩
    · cases hpopped
    · exact howned
    · exact absurd hnow (hready key)
    · have hcounted := hsound.consistent.counted key _ hremaining
      rw [count_nil, Nat.add_zero] at hcounted
      have hpositive : 0 < input.waitingCount state key := by omega
      obtain ⟨requirement, hrequirement, hwaiting⟩ := countP_pos_iff.mp hpositive
      have hsatisfied := hsound.recorded.satisfies_iff.mpr (hrequirements requirement hrequirement)
      exact absurd (hsound.consistent.waiting_settling key requirement
        (of_decide_eq_true hwaiting) hsatisfied) not_mem_nil
  have hexhausted : (∀ start, input.rules.HasGrantedProvider state.ownedKeys start →
      ¬ input.rules.RegionClosed state.ownedKeys start) →
      input.rules.Exhausted state.ownedKeys := by
    intro hopen next hgrants
    cases hgrants with
    | candidate hcandidate hrequirements =>
      exact Set.insert_subset (hforward _ hcandidate hrequirements) subset_rfl
    | region hprovided hclosed => exact absurd hclosed (hopen _ hprovided)
  rw [promoteRootedClosedCapabilityRegions]
  by_cases hempty : input.unresolved state = []
  · rw [if_pos hempty]
    have hnone : ∀ key ∈ input.rules.candidates, key ∈ state.ownedKeys := by
      intro key hkey
      by_contra howned
      have hmem := (hunresolved key).mpr ⟨hkey, howned⟩
      rw [hempty] at hmem
      cases hmem
    refine .inr (.inl ⟨rfl, hexhausted ?_, ?_⟩)
    · intro start _ hclosed
      obtain ⟨hcandidate, hstart⟩ := hclosed.unresolved start .start
      exact hstart (hnone start hcandidate)
    · exact hsound.origin.imp_right fun horigin => ⟨hnone, horigin⟩
  · rw [if_neg hempty]
    rcases input.parameterByReference_cases with hfail | ⟨parameters, hparameters, _⟩
    · exact .inl (by rw [hfail]; rfl)
    · have hunique := uniqueProviders_of_parameters hwell hparameters
      obtain ⟨roots, hrooted, hroots⟩ := rootedKeys_spec hdescribes hsound.recorded
        fun key hkey => (mem_rules_candidates hwell).mp ((hunresolved key).mp hkey).1
      rw [hparameters, ok_bind, hrooted, ok_bind]
      rcases firstClosedRegion_spec hsound.consistent hready hsound.recorded hwell
        hparameters (fun root hroot => ((hroots root).mp hroot).1) with
        ⟨root, hroot, found, hfound, hnodup, hmem, hclosed⟩ | ⟨hnone, hopen⟩
      · have hkeys : ∀ key ∈ found, key ∈ input.requirements.keys ∧
            key ∉ state.owned.keys := by
          intro key hkey
          obtain ⟨hcandidate, howned⟩ := hclosed.unresolved key ((hmem key).mp hkey)
          exact ⟨(mem_rules_candidates hwell).mp hcandidate, howned⟩
        obtain ⟨next, hnext, hrecorded, howned, hconsistent, hload⟩ :=
          hsound.consistent.promote hwell hsound.recorded hnodup hkeys (by simp)
        have hgrants := region_grants hwell hsound ((hroots root).mp hroot).2 hmem hclosed
          howned hunique hrecorded hconsistent hload
        refine .inr (.inr ⟨next, ?_, hgrants⟩)
        rw [hfound, ok_bind]
        change (input.promoteCapabilityParameters found state >>= _) = _
        rw [hnext]
        rfl
      · rw [hnone]
        refine .inr (.inl ⟨rfl, hexhausted ?_, .inl hunique⟩)
        intro start hprovided hclosed
        refine hopen start ((hroots start).mpr ⟨?_, hprovided⟩) hclosed
        exact (hunresolved start).mpr (hclosed.unresolved start .start)

/-- Popping a ready key leaves it to be promoted. -/
theorem Promotion.Sound.pop (hsound : state.Sound input) :
    Promotion.Consistent input [] [] [key] { state with ready := state.ready.erase key } where
  settling_satisfied := hsound.consistent.settling_satisfied
  counted := hsound.consistent.counted
  counter_candidate := hsound.consistent.counter_candidate
  waiting_counted := hsound.consistent.waiting_counted
  owed_counted := hsound.consistent.owed_counted
  waiting_nodup := hsound.consistent.waiting_nodup
  waiting_settling := hsound.consistent.waiting_settling
  unsatisfied_waiting := hsound.consistent.unsatisfied_waiting
  ready_satisfied other hother := hsound.consistent.ready_satisfied other (mem_of_mem_erase hother)
  ready_drained other hother := hsound.consistent.ready_drained other (mem_of_mem_erase hother)
  ready_nodup := hsound.consistent.ready_nodup.erase key
  covered other hother := by
    by_cases hsame : other = key
    · exact .inl (mem_singleton.mpr hsame)
    · rcases hsound.consistent.covered other hother with hpopped | howned | hready | hwaits
      · cases hpopped
      · exact .inr (.inl howned)
      · exact .inr (.inr (.inl ((mem_erase_of_ne hsame).mpr hready)))
      · exact .inr (.inr (.inr hwaits))

theorem load_pop (hready : key ∈ state.ready) :
    Promotion.load input { state with ready := state.ready.erase key } + 1 =
      state.load input := by
  have hpositive := length_pos_of_mem hready
  simp only [Promotion.load, length_erase_of_mem hready]
  omega

/-- The loop ends: it fails on an ambiguous reference, or it stops where no rule
grants a further key. -/
theorem promotionLoop_spec (hdescribes : input.Describes modules reachable index) (fuel : ℕ) :
    ∀ state : Promotion, state.Sound input → state.measure input < fuel →
      promotionLoop modules reachable index input fuel state = .error ambiguousReference ∨
      ∃ final, promotionLoop modules reachable index input fuel state = .ok final ∧
        final.Sound input ∧ input.rules.Exhausted final.ownedKeys ∧
        input.rules.Settled final.ownedKeys := by
  have hwell := hdescribes.wellFormed
  induction fuel with
  | zero => exact fun state _ hfuel => absurd hfuel (Nat.not_lt_zero _)
  | succ fuel ih =>
    intro state hsound hfuel
    cases hnext : input.nextReady state with
    | some key =>
      have hready : key ∈ state.ready := by
        simpa using List.find?_some hnext
      obtain ⟨hcandidate, hrequirements⟩ := hsound.consistent.ready_satisfied key hready
      let popped : Promotion := { state with ready := state.ready.erase key }
      have hload : popped.load input + 1 = state.load input := load_pop hready
      have hpopped : popped.Consistent input [] [] [key] := hsound.pop
      have hpoppedRecorded : popped.OwnersRecorded input :=
        ⟨hsound.recorded.owner, hsound.recorded.reference⟩
      by_cases howned : key ∈ state.owned.keys
      · have hskip : promotionLoop modules reachable index input (fuel + 1) state =
            promotionLoop modules reachable index input fuel popped := by
          rw [promotionLoop, hnext]
          exact if_pos (KeyedMap.containsKey_iff.mpr howned)
        rw [hskip]
        refine ih popped ⟨?_, hpoppedRecorded, hsound.derived, hsound.origin⟩ ?_
        · refine { hpopped with covered := fun other hother => ?_ }
          rcases hpopped.covered other hother with hsame | hrest
          · rw [mem_singleton] at hsame
            exact .inr (.inl (hsame ▸ howned))
          · exact .inr hrest
        · have hmeasure : popped.measure input + 1 = state.measure input := by
            simp only [Promotion.measure, ← hload, popped]
            omega
          omega
      · obtain ⟨promoted, hpromoted, hrecorded, hkeys, hconsistent, hpromotedLoad⟩ :=
          hpopped.promote hwell hpoppedRecorded (nodup_singleton key)
            (fun other hother => by
              rw [mem_singleton] at hother
              subst hother
              exact ⟨hcandidate, howned⟩)
            (fun other hother => hother)
        have hset : promoted.ownedKeys = insert key state.ownedKeys := by
          rw [hkeys, Set.union_comm]
          exact Set.ext fun other => or_congr mem_singleton Iff.rfl
        have hall : ∀ requirement ∈ input.rules.requirements key,
            input.rules.Satisfied state.ownedKeys requirement :=
          fun requirement hrequirement => hsound.recorded.satisfies_iff.mp
            (hrequirements requirement hrequirement)
        have hrule : key ∈ input.rules.candidates := (mem_rules_candidates hwell).mpr hcandidate
        have hstep : promotionLoop modules reachable index input (fuel + 1) state =
            promotionLoop modules reachable index input fuel promoted := by
          have hcontains : ¬ state.owned.containsKey key = true := fun hcontains =>
            howned (KeyedMap.containsKey_iff.mp hcontains)
          rw [promotionLoop, hnext]
          refine (if_neg hcontains).trans ?_
          rw [hpromoted]
          rfl
        rw [hstep]
        refine ih promoted ⟨hconsistent, hrecorded, ?_, ?_⟩ ?_
        · rw [hset]
          exact hsound.derived.next (.candidate hrule hall)
        · rw [hset]
          exact hsound.origin.imp_right fun hforward => hforward.insert hrule hall
        · have hmeasure : promoted.measure input < state.measure input := by
            refine Promotion.measure_lt hcandidate howned ?_ ?_ ?_
            · change key ∈ promoted.ownedKeys
              rw [hset]
              exact Set.mem_insert _ _
            · rw [hset]
              exact Set.subset_insert _ _
            · omega
          omega
    | none =>
      have hready : ∀ key, key ∉ state.ready := by
        intro key hkey
        have hcandidate := (hsound.consistent.ready_satisfied key hkey).1
        have hnone := List.find?_eq_none.mp hnext key hcandidate
        exact hnone (decide_eq_true hkey)
      rw [promotionLoop, hnext]
      rcases promoteRootedClosedCapabilityRegions_spec hdescribes hsound hready with
        hfail | ⟨hnone, hexhausted, hsettled⟩ | ⟨next, hok, hnextSound, hmeasure⟩
      · exact .inl (by simp [hfail])
      · refine .inr ⟨state, ?_, hsound, hexhausted, hsettled⟩
        simp only [hnone, ok_bind]
        rfl
      · simp only [hok, ok_bind]
        exact ih next hnextSound (by omega)

theorem mem_foldl_insertReferences {reference : CapabilityReferenceKey}
    (owners : List CapabilityOwner) :
    ∀ references : List CapabilityReferenceKey,
      reference ∈ owners.foldl (fun references owner =>
        (insertReferences references owner).1) references ↔
        reference ∈ references ∨ ∃ owner ∈ owners, reference ∈ owner.referenceKeys := by
  induction owners with
  | nil => simp
  | cons owner rest ih =>
    intro references
    rw [foldl_cons, ih, mem_insertReferences.1, or_assoc]
    simp

theorem initialPromotion_recorded : input.initialPromotion.OwnersRecorded input := by
  refine ⟨fun key owner hget => ?_, fun reference => ?_⟩
  · have hroot : input.roots.get? key = some owner := hget
    rw [ownerOf, hroot]
    rfl
  · refine (mem_foldl_insertReferences input.roots.values []).trans ?_
    simp only [not_mem_nil, false_or, mem_values_iff]
    constructor
    · rintro ⟨owner, ⟨key, hget⟩, hmem⟩
      exact ⟨key, owner, hget, hmem⟩
    · rintro ⟨key, owner, hget, hmem⟩
      exact ⟨owner, ⟨key, hget⟩, hmem⟩

theorem mem_pendingRequirements :
    requirement ∈ input.pendingRequirements key ↔
      requirement ∈ input.requirementsOf key ∧
        input.initialPromotion.satisfies requirement = false := by
  rw [pendingRequirements, mem_filter, Bool.not_eq_true']
  rfl

theorem initial_waiting :
    key ∈ input.initialPromotion.waiting requirement ↔
      key ∈ input.requirements.keys ∧ requirement ∈ input.pendingRequirements key := by
  simp [initialPromotion]

theorem initial_remaining {remaining : ℕ} :
    input.initialPromotion.remaining key = some remaining ↔
      key ∈ input.requirements.keys ∧ input.pendingRequirements key ≠ [] ∧
        remaining = (input.pendingRequirements key).length := by
  simp only [initialPromotion]
  by_cases hcounted : key ∈ input.requirements.keys ∧ input.pendingRequirements key ≠ []
  · rw [if_pos hcounted, Option.some.injEq]
    constructor
    · rintro rfl
      exact ⟨hcounted.1, hcounted.2, rfl⟩
    · rintro ⟨_, _, rfl⟩
      rfl
  · rw [if_neg hcounted]
    constructor
    · intro hnone
      cases hnone
    · rintro ⟨hkey, hpending, _⟩
      exact absurd ⟨hkey, hpending⟩ hcounted

theorem initial_ready :
    key ∈ input.initialPromotion.ready ↔
      key ∈ input.requirements.keys ∧ input.pendingRequirements key = [] := by
  simp [initialPromotion]

theorem initialPromotion_consistent : input.initialPromotion.Consistent input [] [] [] where
  settling_satisfied := by simp
  counted key remaining hremaining := by
    obtain ⟨hkey, _, rfl⟩ := initial_remaining.mp hremaining
    rw [count_nil, Nat.add_zero, waitingCount, countP_eq_length_filter, pendingRequirements]
    congr 1
    refine filter_congr fun requirement hrequirement => ?_
    rw [Bool.eq_iff_iff, decide_eq_true_iff, initial_waiting, mem_pendingRequirements,
      Bool.not_eq_true']
    exact ⟨fun hunsatisfied => ⟨hkey, hrequirement, hunsatisfied⟩, fun h => h.2.2⟩
  counter_candidate key hsome := by
    obtain ⟨remaining, hremaining⟩ := Option.isSome_iff_exists.mp hsome
    exact (initial_remaining.mp hremaining).1
  waiting_counted key requirement hwaiting := by
    obtain ⟨hkey, hpending⟩ := initial_waiting.mp hwaiting
    refine ⟨(mem_pendingRequirements.mp hpending).1, ?_⟩
    rw [initial_remaining.mpr ⟨hkey, ne_nil_of_mem hpending, rfl⟩]
    rfl
  owed_counted := by simp
  waiting_nodup requirement := List.Nodup.filter _ input.requirements.keys_nodup
  waiting_settling key requirement hwaiting hsatisfied := by
    have hpending := (initial_waiting.mp hwaiting).2
    have hunsatisfied := (mem_pendingRequirements.mp hpending).2
    rw [hsatisfied] at hunsatisfied
    cases hunsatisfied
  unsatisfied_waiting key hkey requirement hrequirement hunsatisfied :=
    initial_waiting.mpr ⟨hkey, mem_pendingRequirements.mpr ⟨hrequirement, hunsatisfied⟩⟩
  ready_satisfied key hready := by
    obtain ⟨hkey, hpending⟩ := initial_ready.mp hready
    refine ⟨hkey, fun requirement hrequirement => ?_⟩
    by_contra hunsatisfied
    have hmem := mem_pendingRequirements.mpr ⟨hrequirement, Bool.eq_false_iff.mpr hunsatisfied⟩
    rw [hpending] at hmem
    cases hmem
  ready_drained key hready remaining hremaining :=
    (initial_remaining.mp hremaining).2.1 (initial_ready.mp hready).2
  ready_nodup := List.Nodup.filter _ input.requirements.keys_nodup
  covered key hkey := by
    by_cases hpending : input.pendingRequirements key = []
    · exact .inr (.inr (.inl (initial_ready.mpr ⟨hkey, hpending⟩)))
    · obtain ⟨remaining, hremaining⟩ :=
        Nat.exists_eq_succ_of_ne_zero (mt length_eq_zero_iff.mp hpending)
      exact .inr (.inr (.inr ⟨remaining, initial_remaining.mpr ⟨hkey, hpending, hremaining.symm⟩⟩))

theorem initialPromotion_sound : input.initialPromotion.Sound input where
  consistent := initialPromotion_consistent
  recorded := initialPromotion_recorded
  derived := .start rfl
  origin := .inr Rules.forward_roots

theorem initialPromotion_measure : input.initialPromotion.measure input < promotionFuel input := by
  have hcounters : (input.requirements.keys.filter fun key =>
      (input.initialPromotion.remaining key).any fun remaining => decide (0 < remaining)) =
      input.requirements.keys.filter fun key =>
        !decide (input.pendingRequirements key = []) := by
    refine filter_congr fun key hkey => ?_
    rw [Bool.eq_iff_iff, Option.any_eq_true]
    simp only [initial_remaining, decide_eq_true_eq, Bool.not_eq_true', decide_eq_false_iff_not]
    constructor
    · rintro ⟨remaining, ⟨_, hpending, _⟩, _⟩
      exact hpending
    · intro hpending
      exact ⟨_, ⟨hkey, hpending, rfl⟩, length_pos_iff.mpr hpending⟩
  have hload : input.initialPromotion.load input = input.requirements.keys.length := by
    rw [Promotion.load, hcounters, Nat.add_comm]
    exact (length_eq_length_filter_add _).symm
  have hunowned := length_filter_le
    (fun key => decide (key ∉ input.initialPromotion.owned.keys)) input.requirements.keys
  rw [Promotion.measure, hload, promotionFuel]
  omega

/-- What forwarding may do to the candidates: paths stay within those given, and
an insertion adds a key that forwarding can insert. -/
structure ForwardedFrom (modules : LoadedModules) (index : ReachableStaticCallIndex)
    (paths : List (List String)) (before : CapabilityOwners)
    (after : CapabilityOwners × Bool) : Prop where
  keys : ∀ key ∈ before.keys, key ∈ after.1.keys
  within : ∀ path ∈ projectionPaths after.1, path ∈ paths
  inserted : after.2 = true → ∃ key ∈ forwardedKeys modules index paths,
    key ∉ before.keys ∧ key ∈ after.1.keys

variable {paths : List (List String)} {before : CapabilityOwners}
  {owner : CapabilityOwner} {indexed : ResolvedStaticCall}

/-- A forwarded key names a parameter of the caller. -/
theorem forwardedParameterProjectionKey_eq_some {caller : ReachableUnit}
    {call : CallCandidate} {key : CapabilityBindingKey}
    (hok : forwardedParameterProjectionKey modules caller call owner = .ok (some key)) :
    ∃ argumentIndex argument parameter, owner.argumentProjection ≠ [] ∧
      owner.parameterIndex = some argumentIndex ∧
      call.argumentAwaitCounts[argumentIndex]? = some 0 ∧
      call.arguments[argumentIndex]? = some argument ∧
      callerParameterForReference modules caller argument = .ok (some parameter) ∧
      key = ⟨caller.module, parameter.start, owner.argumentProjection⟩ := by
  rw [forwardedParameterProjectionKey] at hok
  by_cases hskip : owner.argumentProjection = [] ∨
      (exactCapabilityArgument call owner).isSome = true
  · rw [if_pos hskip] at hok
    cases hok
  · rw [if_neg hskip] at hok
    have hpath : owner.argumentProjection ≠ [] := fun hpath => hskip (.inl hpath)
    cases hindex : owner.parameterIndex with
    | none =>
      rw [hindex] at hok
      cases hok
    | some argumentIndex =>
      simp only [hindex] at hok
      by_cases hawait : call.argumentAwaitCounts[argumentIndex]? = some 0
      · rw [if_neg (not_not.mpr hawait)] at hok
        cases hargument : call.arguments[argumentIndex]? with
        | none =>
          rw [hargument] at hok
          cases hok
        | some argument =>
          simp only [hargument] at hok
          obtain ⟨found, hfound, hok⟩ := Fallible.bind_eq_ok.mp hok
          cases found with
          | none => cases hok
          | some parameter =>
            cases hok
            exact ⟨argumentIndex, argument, parameter, hpath, rfl, hawait, hargument, hfound, rfl⟩
      · rw [if_pos hawait] at hok
        cases hok

theorem callerParameterForReference_eq_some {caller : ReachableUnit}
    {argument : SourceRange} {parameter : ParameterSummary}
    (hok : callerParameterForReference modules caller argument = .ok (some parameter)) :
    ∃ module source, modules.get? caller.module = some module ∧
      module.units.get? caller.name = some source ∧ parameter ∈ source.parameters ∧
      ∃ reference ∈ parameter.references,
        reference.readOnly = true ∧ reference.range = argument := by
  rw [callerParameterForReference] at hok
  cases hmodule : modules.get? caller.module with
  | none =>
    rw [hmodule] at hok
    cases hok
  | some module =>
    simp only [hmodule] at hok
    cases hsource : module.units.get? caller.name with
    | none =>
      rw [hsource] at hok
      cases hok
    | some source =>
      simp only [hsource, Except.ok.injEq] at hok
      have hreference := List.find?_some hok
      simp only [any_eq_true, Bool.and_eq_true, decide_eq_true_eq] at hreference
      exact ⟨module, source, rfl, hsource, mem_of_find?_eq_some hok, hreference⟩

/-- What a call forwards: nothing, or to the parameter of its caller that it reads. -/
theorem forwardThroughCall_cases {state next : CapabilityOwners × Bool}
    (hok : forwardThroughCall modules owner state indexed = .ok next) :
    next = state ∨ ∃ module source named parameter, indexed.caller.kind ≠ "handler" ∧
      modules.get? indexed.caller.module = some module ∧
      module.units.get? indexed.caller.name = some source ∧ named ∈ source.parameters ∧
      (source.parameters.find? fun parameter =>
        decide (parameter.start = named.start)) = some parameter ∧
      ¬ state.1.containsKey
        ⟨indexed.caller.module, named.start, owner.argumentProjection⟩ = true ∧
      next = (state.1.insert ⟨indexed.caller.module, named.start, owner.argumentProjection⟩
        (forwardedOwner indexed.caller parameter owner), true) := by
  rw [forwardThroughCall] at hok
  by_cases hhandler : indexed.caller.kind = "handler"
  · rw [if_pos hhandler] at hok
    cases hok
    exact .inl rfl
  · rw [if_neg hhandler] at hok
    obtain ⟨found, hfound, hok⟩ := Fallible.bind_eq_ok.mp hok
    cases found with
    | none =>
      cases hok
      exact .inl rfl
    | some key =>
      obtain ⟨_, _, named, _, _, _, _, hnamed, rfl⟩ :=
        forwardedParameterProjectionKey_eq_some hfound
      obtain ⟨module, source, hmodule, hsource, hnamed, _⟩ :=
        callerParameterForReference_eq_some hnamed
      simp only at hok
      by_cases hcontains : state.1.containsKey
          ⟨indexed.caller.module, named.start, owner.argumentProjection⟩ = true
      · rw [if_pos hcontains] at hok
        cases hok
        exact .inl rfl
      · rw [if_neg hcontains] at hok
        simp only [hmodule, hsource] at hok
        cases hparameter : source.parameters.find? fun parameter =>
            decide (parameter.start = named.start) with
        | none =>
          simp only [hparameter] at hok
          cases hok
        | some parameter =>
          simp only [hparameter] at hok
          cases hok
          exact .inr ⟨module, source, named, parameter, hhandler, hmodule, hsource, hnamed,
            hparameter, hcontains, rfl⟩

theorem forwardThroughCall_spec (hindexed : indexed ∈ index.calls)
    (hpath : owner.argumentProjection ∈ paths) {state next : CapabilityOwners × Bool}
    (hstate : ForwardedFrom modules index paths before state)
    (hok : forwardThroughCall modules owner state indexed = .ok next) :
    ForwardedFrom modules index paths before next := by
  obtain rfl | ⟨module, source, named, _, _, hmodule, hsource, hnamed, _, hcontains, rfl⟩ :=
    forwardThroughCall_cases hok
  · exact hstate
  · have hfresh := fun hmem => hcontains (KeyedMap.containsKey_iff.mpr hmem)
    refine ⟨fun key hkey => ?_, fun path hpathMem => ?_, fun _ => ?_⟩
    · exact KeyedMap.mem_keys_insert.mpr (.inr (hstate.keys key hkey))
    · obtain ⟨value, hvalue, rfl⟩ := mem_map.mp hpathMem
      obtain ⟨key, hget⟩ := KeyedMap.mem_values_iff.mp hvalue
      by_cases hkey : key = ⟨indexed.caller.module, named.start, owner.argumentProjection⟩
      · subst hkey
        rw [KeyedMap.get?_insert_self, Option.some.injEq] at hget
        subst hget
        exact hpath
      · rw [KeyedMap.get?_insert_of_ne hkey] at hget
        exact hstate.within _ (mem_map_of_mem (mem_values_of_get? hget))
    · refine ⟨_, ?_, fun hmem => hfresh (hstate.keys _ hmem),
        KeyedMap.mem_keys_insert.mpr (.inl rfl)⟩
      refine mem_flatMap.mpr ⟨indexed, hindexed, ?_⟩
      refine mem_flatMap.mpr ⟨named.start, ?_, ?_⟩
      · simp only [callerParameterStarts, hmodule, hsource]
        exact mem_map_of_mem hnamed
      · exact mem_map_of_mem hpath

theorem forwardPass_spec (hpaths : ∀ path ∈ projectionPaths before, path ∈ paths)
    {next : CapabilityOwners × Bool} (hok : forwardPass modules reachable index before = .ok next) :
    ForwardedFrom modules index paths before next := by
  refine foldlM_invariant (ForwardedFrom modules index paths before) ?_
    ⟨fun _ hkey => hkey, hpaths, ?_⟩ hok
  · intro state owner next howner hstate hok
    have hpath : owner.argumentProjection ∈ paths :=
      hpaths _ (mem_map_of_mem (mem_of_mem_filter howner))
    obtain ⟨target, _, hok⟩ := Fallible.bind_eq_ok.mp hok
    by_cases hexact : index.dispatchIsExact target = true
    · simp only [hexact, Bool.not_true, Bool.false_eq_true, if_false] at hok
      refine foldlM_invariant (ForwardedFrom modules index paths before) ?_ hstate hok
      intro state indexed next hindexed hstate hok
      exact forwardThroughCall_spec (mem_of_mem_filter hindexed) hpath hstate hok
    · simp only [hexact, Bool.not_false, if_true] at hok
      cases hok
      exact hstate
  · intro hinserted
    cases hinserted

/-- Keys that forwarding may still insert. -/
def unforwarded (modules : LoadedModules) (index : ReachableStaticCallIndex)
    (paths : List (List String)) (candidates : CapabilityOwners) : ℕ :=
  ((forwardedKeys modules index paths).filter fun key =>
    decide (key ∉ candidates.keys)).length

/-- Every pass that inserts leaves fewer keys to insert. -/
theorem forwardProjections_isSome (fuel : ℕ) :
    ∀ candidates, (∀ path ∈ projectionPaths candidates, path ∈ paths) →
      unforwarded modules index paths candidates < fuel →
      (forwardProjections modules reachable index fuel candidates).isSome := by
  induction fuel with
  | zero => exact fun _ _ hfuel => absurd hfuel (Nat.not_lt_zero _)
  | succ fuel ih =>
    intro candidates hpaths hfuel
    rw [forwardProjections]
    cases hpass : forwardPass modules reachable index candidates with
    | error message => rfl
    | ok next =>
      obtain ⟨forwarded, inserted⟩ := next
      have hspec := forwardPass_spec hpaths hpass
      cases inserted with
      | false => rfl
      | true =>
        refine ih forwarded hspec.within ?_
        obtain ⟨key, hkey, hbefore, hafter⟩ := hspec.inserted rfl
        have hfewer : unforwarded modules index paths forwarded <
            unforwarded modules index paths candidates := by
          have hsplit : (forwardedKeys modules index paths).filter
              (fun key => decide (key ∉ forwarded.keys)) =
              ((forwardedKeys modules index paths).filter fun key =>
                decide (key ∉ candidates.keys)).filter fun key =>
                  decide (key ∉ forwarded.keys) := by
            rw [filter_filter]
            refine filter_congr fun other _ => ?_
            by_cases hother : other ∈ forwarded.keys
            · simp [hother]
            · have hold : other ∉ candidates.keys := fun hmem =>
                hother (hspec.keys other hmem)
              rw [decide_eq_true hother, decide_eq_true hold]
              rfl
          rw [unforwarded, unforwarded, hsplit]
          refine length_filter_lt_length_iff_exists.mpr ⟨key, ?_, by simpa using hafter⟩
          exact mem_filter.mpr ⟨hkey, decide_eq_true hbefore⟩
        omega

variable {registration : RegistrationSummary} {adapter : Option AppliedRegistrationAdapter}
  {awaited : List CallableKey}

theorem requirementsByParameter_describes {candidates roots : CapabilityOwners}
    {requirements : KeyedMap CapabilityBindingKey (List CapabilityRequirement)}
    (hok : requirementsByParameter modules reachable index candidates roots = .ok requirements) :
    PromotionInput.Describes modules reachable index
      ⟨candidates, roots, requirements⟩ := by
  intro key found hget
  obtain ⟨owner, howner, hkeep⟩ := (filterMapM_get? hok).mp hget
  by_cases hroot : roots.containsKey key = true
  · rw [if_pos hroot] at hkeep
    cases hkeep
  · rw [if_neg hroot] at hkeep
    exact ⟨fun hmem => hroot (KeyedMap.containsKey_iff.mpr hmem), owner, howner, hkeep⟩

section

variable (hok : promotionInput modules reachable index registration adapter = .ok (input, awaited))
include hok

/-- How the input of the worklist comes about when there is a context. -/
theorem promotionInput_eq_ok :
    (registration.contextParameter = none ∧ input = .empty) ∨
      ∃ contextName contextStart root declared,
        registration.contextParameter = some contextName ∧
        registration.contextParameterStart = some contextStart ∧
        reachable.units.find? (fun unit => decide (unit.kind = "handler")) = some root ∧
        declaredCandidates modules reachable = .ok declared ∧
        populateForwardedProjectionCandidates modules reachable index declared =
          .ok input.candidates ∧
        rootOwners modules reachable index input.candidates
          (registrationRootOwner registration root contextName contextStart) adapter =
          .ok (input.roots, awaited) ∧
        requirementsByParameter modules reachable index input.candidates input.roots =
          .ok input.requirements := by
  rw [promotionInput] at hok
  cases hname : registration.contextParameter with
  | none =>
    simp only [hname] at hok
    cases hok
    exact .inl ⟨rfl, rfl⟩
  | some contextName =>
    simp only [hname] at hok
    cases hstart : registration.contextParameterStart with
    | none =>
      simp only [hstart] at hok
      cases hok
    | some contextStart =>
      simp only [hstart] at hok
      cases hroot : reachable.units.find? fun unit => decide (unit.kind = "handler") with
      | none =>
        simp only [hroot] at hok
        cases hok
      | some root =>
        simp only [hroot] at hok
        obtain ⟨declared, hdeclared, hok⟩ := Fallible.bind_eq_ok.mp hok
        obtain ⟨candidates, hcandidates, hok⟩ := Fallible.bind_eq_ok.mp hok
        obtain ⟨⟨roots, owed⟩, hroots, hok⟩ := Fallible.bind_eq_ok.mp hok
        obtain ⟨requirements, hrequirements, hok⟩ := Fallible.bind_eq_ok.mp hok
        cases hok
        exact .inr ⟨contextName, contextStart, root, declared, rfl, rfl, rfl,
          hdeclared, hcandidates, hroots, hrequirements⟩

theorem promotionInput_describes : input.Describes modules reachable index := by
  rcases promotionInput_eq_ok hok with
    ⟨_, rfl⟩ | ⟨_, _, _, _, _, _, _, _, _, _, hrequirements⟩
  · intro key requirements hget
    cases hget
  · exact requirementsByParameter_describes hrequirements

/-- The worklist on a computed input: only an ambiguous reference makes it fail. -/
theorem promotion_result :
    buildCapabilityFlowProof modules reachable index registration adapter =
        .error ambiguousReference ∨
      ∃ (proof : CapabilityFlowProof) (final : Promotion),
        buildCapabilityFlowProof modules reachable index registration adapter =
          .ok proof ∧ proof.candidateParameters = input.candidates ∧
        proof.owned = final.owned ∧ proof.ownedReferences = final.ownedReferences ∧
        proof.registrationKind = registration.kind ∧
        final.Sound input ∧ input.rules.Exhausted final.ownedKeys ∧
        input.rules.Settled final.ownedKeys := by
  rw [buildCapabilityFlowProof, hok, ok_bind]
  rcases promotionLoop_spec (promotionInput_describes hok) (promotionFuel input)
    input.initialPromotion initialPromotion_sound initialPromotion_measure with
    hfail | ⟨final, hfinal, hspec⟩
  · exact .inl (by simp [hfail])
  · refine .inr ⟨_, final, by simp only [hfinal, ok_bind]; rfl, rfl, rfl, rfl, rfl, hspec⟩

end

/-- Bindings promoted to owned are those of exactly dispatched callables that
are called. -/
theorem owned_dispatchIsExact (hdescribes : input.Describes modules reachable index)
    (hsound : state.Sound input) {owner : CapabilityOwner}
    (hget : state.owned.get? key = some owner) (hroot : key ∉ input.roots.keys) :
    ∃ target, capabilityParameterTarget reachable owner = .ok target ∧
      index.dispatchIsExact target = true ∧ index.callsTo target ≠ [] := by
  have hcandidate := (hsound.derived.supported key (mem_keys_of_get? hget) hroot).1
  obtain ⟨requirements, hrequirements⟩ := KeyedMap.mem_keys_iff.mp hcandidate.1
  obtain ⟨_, candidate, hcandidateOwner, hok⟩ := hdescribes key requirements hrequirements
  have hsame : candidate = owner := Option.some.inj
    ((ownerOf_candidate hroot hcandidateOwner).symm.trans (hsound.recorded.owner key owner hget))
  subst hsame
  obtain ⟨target, _, _, htarget, hexact, hcalls, _, _⟩ :=
    capabilityParameterRequirements_eq_some hok
  exact ⟨target, htarget, hexact, hcalls⟩

/-- A handler calls `walk(ctx)`; `walk` and `visit` pass their parameter to each
other. -/
def recursiveModule : ModuleSummary where
  units := ⟨[("run", ⟨"run", none, [], none, none,
      some ⟨"query", ⟨10, 35⟩, some "ctx", some 11, [⟨"ctx", ⟨20, 23⟩, true, false⟩]⟩⟩),
    ("walk", ⟨"walk", some ⟨40, 65⟩,
      [⟨0, "p", 45, [⟨"p", ⟨56, 57⟩, true, false⟩], []⟩], none, none, none⟩),
    ("visit", ⟨"visit", some ⟨70, 95⟩,
      [⟨0, "q", 76, [⟨"q", ⟨85, 86⟩, true, false⟩], []⟩], none, none, none⟩)], by decide⟩
  imports := .empty
  exports := .empty
  calls := []
  references := []
  operations := []
  effects := []
  bindings_unique := by decide

def recursiveModules : LoadedModules := ⟨[("m.ts", recursiveModule)], by decide⟩

def recursiveHandler : ReachableUnit :=
  ⟨"m.ts#run:handler", "m.ts", "run", ⟨10, 35⟩, "handler", []⟩

def recursiveWalk : ReachableUnit :=
  ⟨"m.ts#walk", "m.ts", "walk", ⟨40, 65⟩, "function", []⟩

def recursiveVisit : ReachableUnit :=
  ⟨"m.ts#visit", "m.ts", "visit", ⟨70, 95⟩, "function", []⟩

def recursiveReachable : ReachableUnits where
  units := [recursiveHandler, recursiveWalk, recursiveVisit]
  ids_nodup := by decide

def recursiveIndex : ReachableStaticCallIndex where
  calls := [
    ⟨("m.ts", "walk"), recursiveHandler,
      ⟨"walk", 15, 19, ⟨15, 24⟩, [⟨20, 23⟩], [0], [[]]⟩⟩,
    ⟨("m.ts", "visit"), recursiveWalk,
      ⟨"visit", 50, 55, ⟨50, 58⟩, [⟨56, 57⟩], [0], [[]]⟩⟩,
    ⟨("m.ts", "walk"), recursiveVisit,
      ⟨"walk", 80, 84, ⟨80, 87⟩, [⟨85, 86⟩], [0], [[]]⟩⟩]
  references := [
    ⟨("m.ts", "walk"), recursiveHandler, ⟨"walk", ⟨15, 19⟩, true, false⟩, true⟩,
    ⟨("m.ts", "visit"), recursiveWalk, ⟨"visit", ⟨50, 55⟩, true, false⟩, true⟩,
    ⟨("m.ts", "walk"), recursiveVisit, ⟨"walk", ⟨80, 84⟩, true, false⟩, true⟩]
  inexactReferences := []

def recursiveRegistration : RegistrationSummary :=
  ⟨"query", ⟨10, 35⟩, some "ctx", some 11, [⟨"ctx", ⟨20, 23⟩, true, false⟩]⟩

def recursiveContextOwner : CapabilityOwner :=
  registrationRootOwner recursiveRegistration recursiveHandler "ctx" 11

def recursiveInput : PromotionInput where
  candidates := ⟨[
    (⟨"m.ts", 45, []⟩, parameterOwner recursiveWalk
      ⟨0, "p", 45, [⟨"p", ⟨56, 57⟩, true, false⟩], []⟩),
    (⟨"m.ts", 76, []⟩, parameterOwner recursiveVisit
      ⟨0, "q", 76, [⟨"q", ⟨85, 86⟩, true, false⟩], []⟩)], by decide⟩
  roots := ⟨[(⟨"m.ts", 11, []⟩, recursiveContextOwner)], by decide⟩
  requirements := ⟨[
    (⟨"m.ts", 45, []⟩, [.reference ⟨"m.ts", "m.ts#run:handler", ⟨20, 23⟩⟩,
      .reference ⟨"m.ts", "m.ts#visit", ⟨85, 86⟩⟩]),
    (⟨"m.ts", 76, []⟩, [.reference ⟨"m.ts", "m.ts#walk", ⟨56, 57⟩⟩])], by decide⟩

theorem recursiveInput_eq :
    promotionInput recursiveModules recursiveReachable recursiveIndex
      recursiveRegistration none = .ok (recursiveInput, []) := by
  rfl

end ConvexWasm.Compiler
