import ConvexWasm.Compiler.CapabilityPromotion

/-!
# Closed regions

The search for a region follows unsatisfied requirements to the candidates that
provide them.  It finds the region of its start exactly when that is closed.
-/

namespace ConvexWasm.Compiler

open List PromotionInput

variable {input : PromotionInput} {state : Promotion}
  {key : CapabilityBindingKey} {requirement : CapabilityRequirement}

section Regions

variable {parameters : KeyedMap CapabilityReferenceKey CapabilityBindingKey}
  {start : CapabilityBindingKey} {pending region : List CapabilityBindingKey}

/-- With nothing ready, the unresolved keys are the candidates not owned yet. -/
theorem mem_unresolved (hstate : state.Consistent input [] [] [])
    (hready : ∀ key, key ∉ state.ready) :
    key ∈ input.unresolved state ↔
      key ∈ input.requirements.keys ∧ key ∉ state.owned.keys := by
  have hcontains : (!state.owned.containsKey key) = true ↔ key ∉ state.owned.keys := by
    rw [Bool.not_eq_true', ← KeyedMap.containsKey_iff, Bool.not_eq_true]
  rw [unresolved, mem_filter, Bool.and_eq_true, hcontains]
  constructor
  · rintro ⟨hkey, _, howned⟩
    exact ⟨hkey, howned⟩
  · rintro ⟨hkey, howned⟩
    refine ⟨hkey, ?_, howned⟩
    rcases hstate.covered key hkey with hpopped | hold | hnow | ⟨remaining, hremaining⟩
    · cases hpopped
    · exact absurd hold howned
    · exact absurd hnow (hready key)
    · simp [hremaining]

/-- The search has found the listed keys and still has to visit the pending ones. -/
structure Searching (input : PromotionInput) (state : Promotion)
    (start : CapabilityBindingKey) (pending region : List CapabilityBindingKey) : Prop where
  nodup : region.Nodup
  start_seen : start ∈ region ∨ start ∈ pending
  found : ∀ key, key ∈ region ∨ key ∈ pending →
    input.rules.Region state.ownedKeys start key ∧ key ∈ input.unresolved state
  traced : ∀ key ∈ region, ∀ requirement ∈ input.requirementsOf key,
    state.satisfies requirement = false →
      ∃ next, input.providerOf requirement = some next ∧ (next ∈ region ∨ next ∈ pending)

/-- Requirements of the candidates the search has not listed. -/
def searchWeight (input : PromotionInput) (region : List CapabilityBindingKey) : ℕ :=
  ((input.requirements.keys.filter fun key => decide (key ∉ region)).map
    fun key => (input.requirementsOf key).length).sum

theorem searchWeight_cons (hkey : key ∈ input.requirements.keys) (hregion : key ∉ region) :
    searchWeight input (key :: region) + (input.requirementsOf key).length =
      searchWeight input region := by
  let unlisted := input.requirements.keys.filter fun other => decide (other ∉ region)
  have hmem : key ∈ unlisted := mem_filter.mpr ⟨hkey, decide_eq_true hregion⟩
  have herase : unlisted.erase key =
      input.requirements.keys.filter fun other => decide (other ∉ key :: region) := by
    have hnodup : unlisted.Nodup := List.Nodup.filter _ input.requirements.keys_nodup
    rw [hnodup.erase_eq_filter, filter_filter]
    refine filter_congr fun other _ => ?_
    by_cases hother : other = key
    · simp [hother]
    · simp [hother]
  have hperm := ((perm_cons_erase hmem).map fun other => (input.requirementsOf other).length).sum_eq
  rw [map_cons, sum_cons, herase] at hperm
  rw [Nat.add_comm]
  exact hperm.symm

theorem searchWeight_nil : searchWeight input [] + 2 = input.regionFuel := by
  have hall : (input.requirements.keys.filter fun key => decide (key ∉ [])) =
      input.requirements.keys := by simp
  rw [searchWeight, hall, regionFuel, KeyedMap.keys, KeyedMap.values, map_map, map_map]
  congr 2
  refine map_congr_left fun entry hentry => ?_
  have hget : input.requirements.get? entry.1 = some entry.2 := KeyedMap.get?_eq_some_iff.mpr hentry
  simp [requirementsOf, hget]

variable (hstate : state.Consistent input [] [] []) (hready : ∀ key, key ∉ state.ready)
  (hrecorded : state.OwnersRecorded input) (hwell : input.WellFormed)
  (hparameters : input.parameterByReference = .ok parameters)
include hstate hready hrecorded hwell hparameters

/-- The search finds the region of its start exactly when the region is closed. -/
theorem closedRegion_spec :
    ∀ fuel pending region, Searching input state start pending region →
      pending.length + searchWeight input region < fuel →
      (∃ found, input.closedRegion state parameters fuel pending region =
          .ok (some found) ∧ found.Nodup ∧
          (∀ key, key ∈ found ↔ input.rules.Region state.ownedKeys start key) ∧
          input.rules.RegionClosed state.ownedKeys start) ∨
        (input.closedRegion state parameters fuel pending region = .ok none ∧
          ¬ input.rules.RegionClosed state.ownedKeys start) := by
  have hprovider : ∀ requirement,
      input.providerOf requirement = input.requirementProvider parameters requirement := by
    intro requirement
    simp only [providerOf, hparameters]
  have hsatisfied : ∀ requirement, state.satisfies requirement = false ↔
      ¬ input.rules.Satisfied state.ownedKeys requirement := by
    intro requirement
    rw [← hrecorded.satisfies_iff, Bool.not_eq_true]
  have hunresolved : ∀ key, key ∈ input.unresolved state ↔
      key ∈ input.rules.candidates ∧ key ∉ state.ownedKeys := by
    intro key
    rw [mem_unresolved hstate hready, mem_rules_candidates hwell]
    rfl
  intro fuel
  induction fuel with
  | zero => exact fun pending region _ hfuel => absurd hfuel (Nat.not_lt_zero _)
  | succ fuel ih =>
    intro pending region hsearch hfuel
    cases pending with
    | nil =>
      have hregion : ∀ key, input.rules.Region state.ownedKeys start key →
          key ∈ region := by
        intro key hkey
        induction hkey with
        | start => exact hsearch.start_seen.resolve_right not_mem_nil
        | @provider key next requirement _ hrequirement hunsatisfied hnext ih =>
          obtain ⟨other, hother, hseen⟩ := hsearch.traced key ih requirement
            hrequirement ((hsatisfied requirement).mpr hunsatisfied)
          have hsame : next = other := Option.some.inj (hnext.symm.trans hother)
          exact hsame ▸ hseen.resolve_right not_mem_nil
      refine .inl ⟨region, rfl, hsearch.nodup, fun key =>
        ⟨fun hkey => (hsearch.found key (.inl hkey)).1, hregion key⟩, ?_, ?_⟩
      · exact fun key hkey => (hunresolved key).mp (hsearch.found key (.inl (hregion key hkey))).2
      · intro key hkey requirement hrequirement hunsatisfied
        obtain ⟨next, hnext, _⟩ := hsearch.traced key (hregion key hkey) requirement
          hrequirement ((hsatisfied requirement).mpr hunsatisfied)
        exact ⟨next, hnext⟩
    | cons key pending =>
      rw [length_cons] at hfuel
      by_cases hlisted : key ∈ region
      · rw [closedRegion, if_pos hlisted]
        refine ih pending region ⟨hsearch.nodup, ?_, ?_, ?_⟩ (by omega)
        · rcases hsearch.start_seen with hseen | hseen
          · exact .inl hseen
          · rcases mem_cons.mp hseen with rfl | hseen
            · exact .inl hlisted
            · exact .inr hseen
        · exact fun other hother => hsearch.found other (hother.imp_right (mem_cons_of_mem _))
        · intro other hother requirement hrequirement hunsatisfied
          obtain ⟨next, hnext, hseen⟩ :=
            hsearch.traced other hother requirement hrequirement hunsatisfied
          refine ⟨next, hnext, ?_⟩
          rcases hseen with hseen | hseen
          · exact .inl hseen
          · rcases mem_cons.mp hseen with rfl | hseen
            · exact .inl hlisted
            · exact .inr hseen
      · obtain ⟨hregion, hkeyUnresolved⟩ := hsearch.found key (.inr mem_cons_self)
        have hkey := ((mem_unresolved hstate hready).mp hkeyUnresolved).1
        obtain ⟨requirements, hget⟩ := KeyedMap.mem_keys_iff.mp hkey
        have hrequirementsOf : input.requirementsOf key = requirements := by
          rw [requirementsOf, hget]
          rfl
        let unsatisfied := requirements.filter fun requirement =>
          !state.satisfies requirement
        let providers := unsatisfied.map fun requirement =>
          (input.requirementProvider parameters requirement).filter fun provider =>
            decide (provider ∈ input.unresolved state)
        have hmemUnsatisfied : ∀ requirement, requirement ∈ unsatisfied ↔
            requirement ∈ input.requirementsOf key ∧
              state.satisfies requirement = false := by
          intro requirement
          rw [hrequirementsOf, mem_filter, Bool.not_eq_true']
        rw [closedRegion, if_neg hlisted, hget]
        change (∃ found, (if providers.all Option.isSome = true then
            input.closedRegion state parameters fuel
              (providers.reduceOption.reverse ++ pending) (key :: region)
          else .ok none) = .ok (some found) ∧ _) ∨
          (if providers.all Option.isSome = true then
            input.closedRegion state parameters fuel
              (providers.reduceOption.reverse ++ pending) (key :: region)
          else .ok none) = .ok none ∧ _
        by_cases hall : providers.all Option.isSome = true
        · rw [if_pos hall]
          have hmemProviders : ∀ next, next ∈ providers.reduceOption ↔
              ∃ requirement ∈ unsatisfied,
                input.providerOf requirement = some next ∧
                  next ∈ input.unresolved state := by
            intro next
            rw [reduceOption_mem_iff, mem_map]
            simp [hprovider]
          have hlength : providers.reduceOption.length ≤
              (input.requirementsOf key).length := by
            refine (reduceOption_length_le _).trans ?_
            rw [length_map, hrequirementsOf]
            exact length_filter_le _ _
          have hweight := searchWeight_cons hkey hlisted
          refine ih _ (key :: region) ⟨nodup_cons.mpr ⟨hlisted, hsearch.nodup⟩, ?_, ?_, ?_⟩ ?_
          · rcases hsearch.start_seen with hseen | hseen
            · exact .inl (mem_cons_of_mem _ hseen)
            · rcases mem_cons.mp hseen with rfl | hseen
              · exact .inl mem_cons_self
              · exact .inr (mem_append_right _ hseen)
          · intro other hother
            rcases hother with hother | hother
            · rcases mem_cons.mp hother with rfl | hother
              · exact ⟨hregion, hkeyUnresolved⟩
              · exact hsearch.found other (.inl hother)
            · rcases mem_append.mp hother with hother | hother
              · obtain ⟨requirement, hrequirement, hnext, hmem⟩ :=
                  (hmemProviders other).mp (mem_reverse.mp hother)
                obtain ⟨hrequirement, hunsatisfied⟩ := (hmemUnsatisfied requirement).mp hrequirement
                exact ⟨hregion.provider hrequirement
                  ((hsatisfied requirement).mp hunsatisfied) hnext, hmem⟩
              · exact hsearch.found other (.inr (mem_cons_of_mem _ hother))
          · intro other hother requirement hrequirement hunsatisfied
            rcases mem_cons.mp hother with rfl | hother
            · have hmem := (hmemUnsatisfied requirement).mpr ⟨hrequirement, hunsatisfied⟩
              have hsome := all_eq_true.mp hall _ (mem_map_of_mem hmem)
              obtain ⟨next, hnext⟩ := Option.isSome_iff_exists.mp hsome
              obtain ⟨hnext, hnextUnresolved⟩ := Option.filter_eq_some_iff.mp hnext
              rw [← hprovider] at hnext
              refine ⟨next, hnext, .inr (mem_append_left _ ?_)⟩
              exact mem_reverse.mpr ((hmemProviders next).mpr
                ⟨requirement, hmem, hnext, of_decide_eq_true hnextUnresolved⟩)
            · obtain ⟨next, hnext, hseen⟩ :=
                hsearch.traced other hother requirement hrequirement hunsatisfied
              refine ⟨next, hnext, ?_⟩
              rcases hseen with hseen | hseen
              · exact .inl (mem_cons_of_mem _ hseen)
              · rcases mem_cons.mp hseen with rfl | hseen
                · exact .inl mem_cons_self
                · exact .inr (mem_append_right _ hseen)
          · rw [length_append, length_reverse]
            omega
        · rw [if_neg hall]
          refine .inr ⟨rfl, fun hclosed => hall ?_⟩
          rw [all_eq_true]
          intro provider hmem
          obtain ⟨requirement, hrequirement, rfl⟩ := mem_map.mp hmem
          obtain ⟨hrequirement, hunsatisfied⟩ := (hmemUnsatisfied requirement).mp hrequirement
          have hunsatisfied := (hsatisfied requirement).mp hunsatisfied
          obtain ⟨next, hnext⟩ := hclosed.traced key hregion requirement hrequirement hunsatisfied
          have hnextRegion := hregion.provider hrequirement hunsatisfied hnext
          have hnextUnresolved := (hunresolved next).mpr (hclosed.unresolved next hnextRegion)
          change input.providerOf requirement = some next at hnext
          rw [hprovider] at hnext
          simp [hnext, hnextUnresolved]

theorem firstClosedRegion_spec {roots : List CapabilityBindingKey}
    (hroots : ∀ root ∈ roots, root ∈ input.unresolved state) :
    (∃ root ∈ roots, ∃ found,
      input.firstClosedRegion state parameters roots = .ok (some found) ∧ found.Nodup ∧
        (∀ key, key ∈ found ↔ input.rules.Region state.ownedKeys root key) ∧
        input.rules.RegionClosed state.ownedKeys root) ∨
      (input.firstClosedRegion state parameters roots = .ok none ∧
        ∀ root ∈ roots, ¬ input.rules.RegionClosed state.ownedKeys root) := by
  induction roots with
  | nil => exact .inr ⟨rfl, by simp⟩
  | cons root rest ih =>
    have hsearch : Searching input state root [root] [] :=
      { nodup := nodup_nil
        start_seen := .inr mem_cons_self
        found := by
          rintro key (hkey | hkey)
          · cases hkey
          · rw [mem_singleton] at hkey
            subst hkey
            exact ⟨.start, hroots key mem_cons_self⟩
        traced := by simp }
    have hfuel : [root].length + searchWeight input [] < input.regionFuel := by
      rw [← searchWeight_nil, length_singleton]
      omega
    rcases closedRegion_spec hstate hready hrecorded hwell hparameters _ _ _ hsearch
      hfuel with ⟨found, hfound, hspec⟩ | ⟨hnone, hopen⟩
    · refine .inl ⟨root, mem_cons_self, found, ?_, hspec⟩
      rw [firstClosedRegion, hfound]
      rfl
    · have hstep : input.firstClosedRegion state parameters (root :: rest) =
          input.firstClosedRegion state parameters rest := by
        rw [firstClosedRegion, hnone]
        rfl
      rw [hstep]
      rcases ih fun later hlater => hroots later (mem_cons_of_mem _ hlater) with
        ⟨later, hlater, hspec⟩ | ⟨hrest, hopenRest⟩
      · exact .inl ⟨later, mem_cons_of_mem _ hlater, hspec⟩
      · refine .inr ⟨hrest, fun other hother => ?_⟩
        rcases mem_cons.mp hother with rfl | hother
        · exact hopen
        · exact hopenRest other hother

end Regions

section Callers

variable {modules : LoadedModules} {reachable : ReachableUnits}
  {index : ReachableStaticCallIndex}

variable (hdescribes : input.Describes modules reachable index)
include hdescribes

theorem keyHasOwnedCaller_eq (hkey : key ∈ input.requirements.keys) :
    keyHasOwnedCaller modules reachable index input state key =
      .ok ((input.requirementsOf key).any state.satisfies) := by
  obtain ⟨requirements, hget⟩ := KeyedMap.mem_keys_iff.mp hkey
  obtain ⟨_, owner, howner, hok⟩ := hdescribes key requirements hget
  obtain ⟨target, calls, hparameter, htarget, _, _, hcalls, hdedup⟩ :=
    capabilityParameterRequirements_eq_some hok
  obtain ⟨position, hposition⟩ := Option.isSome_iff_exists.mp hparameter
  have hany : (input.requirementsOf key).any state.satisfies =
      calls.any (capabilityRequirementIsSatisfied state.owned state.ownedReferences) := by
    rw [requirementsOf, hget, hdedup, Bool.eq_iff_iff]
    simp only [Option.getD_some, any_eq_true, mem_dedup]
    rfl
  simp only [keyHasOwnedCaller, howner, capabilityParameterHasOwnedCaller, hposition, htarget]
  rw [hany]
  exact anyM_exactOwned (callRequirements_eq_some hcalls)

/-- The keys from which region searches start. -/
theorem rootedKeys_spec (hrecorded : state.OwnersRecorded input)
    (hunresolved : ∀ key ∈ input.unresolved state, key ∈ input.requirements.keys) :
    ∃ roots, rootedKeys modules reachable index input state = .ok roots ∧
      ∀ root, root ∈ roots ↔ root ∈ input.unresolved state ∧
        input.rules.HasGrantedProvider state.ownedKeys root := by
  let callers := (input.unresolved state).map fun key =>
    (key, (input.requirementsOf key).any state.satisfies)
  have hcallers : ((input.unresolved state).mapM fun key => do
      let rooted ← keyHasOwnedCaller modules reachable index input state key
      return (key, rooted)) = .ok callers := by
    rw [Fallible.mapM_eq_ok_iff, List.forall₂_map_right_iff]
    refine List.forall₂_same.mpr fun key hkey => ?_
    rw [keyHasOwnedCaller_eq hdescribes (hunresolved key hkey)]
    rfl
  refine ⟨(callers.filter Prod.snd).map Prod.fst, ?_, fun root => ?_⟩
  · rw [rootedKeys, hcallers]
    rfl
  · have hany : (input.requirementsOf root).any state.satisfies = true ↔
        input.rules.HasGrantedProvider state.ownedKeys root := by
      rw [any_eq_true]
      simp only [hrecorded.satisfies_iff]
      rfl
    rw [← hany]
    simp [callers]

end Callers

end ConvexWasm.Compiler
