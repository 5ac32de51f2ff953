import ConvexWasm.Compiler.CapabilityAnalysis
import ConvexWasm.Compiler.CapabilityFixpoint
import ConvexWasm.Compiler.ExactDispatch

/-!
# The analysis of owned capabilities fails closed

A parameter that a capability reaches is owned, or one of its calls or one of
the references to its function is diagnosed.  So without a diagnostic every
reference to an owned binding is accounted for, and reads only, apart from the
references inside a specialised effect: those are not looked at.
-/

namespace ConvexWasm.Compiler.CapabilityAnalysis

open Fallible KeyedMap List PromotionInput

variable {graph : GraphInput} {modules : LoadedModules} {reachable : ReachableUnits}
  {index : ReachableStaticCallIndex}

section Callees

/-- Every call of a parsed module has its callee among the references, and no alias is
initialised with a callee. -/
def CalleesReferenced (modules : LoadedModules) : Prop :=
  ∀ module summary, modules.get? module = some summary → ∀ call ∈ summary.calls,
    ∃ reference ∈ summary.references, reference.name = call.callee ∧
      call.range.Contains reference.range ∧
        ∀ unit ∈ summary.units.values, unit.initializedBy reference = false

variable {owners : List CallableOwner}

variable {range : SourceRange} {selected result : Option (ReachableUnit × ℕ)}

theorem selectInnermost_spec {owner : CallableOwner}
    (hselect : selectInnermost range selected owner = .ok result) :
    (result = selected ∨ owner.2.Contains range) ∧
      (selected.isSome ∨ owner.2.Contains range → result.isSome) := by
  unfold selectInnermost at hselect
  split at hselect
  · next houtside =>
      cases hselect
      exact ⟨.inl rfl, fun hsome => hsome.resolve_right houtside⟩
  · next hinside =>
      refine ⟨.inr (not_not.mp hinside), fun _ => ?_⟩
      cases selected with
      | none =>
        cases hselect
        rfl
      | some chosen =>
        simp only at hselect
        split at hselect
        · cases hselect
          rfl
        · split at hselect
          · cases hselect
          · cases hselect
            rfl

theorem foldlM_selectInnermost (hfold : owners.foldlM (selectInnermost range) selected = .ok result)
    :
    (result = selected ∨ ∃ owner ∈ owners, owner.2.Contains range) ∧
      (selected.isSome ∨ (∃ owner ∈ owners, owner.2.Contains range) → result.isSome) := by
  induction owners generalizing selected with
  | nil =>
    cases hfold
    exact ⟨.inl rfl, fun hsome => hsome.resolve_right (by simp)⟩
  | cons owner rest ih =>
    obtain ⟨next, hnext, hrest⟩ := bind_eq_ok.mp hfold
    obtain ⟨hsame, hsome⟩ := selectInnermost_spec hnext
    obtain ⟨hsameRest, hsomeRest⟩ := ih hrest
    simp only [exists_mem_cons_iff]
    constructor
    · rcases hsameRest with rfl | hrest
      · exact hsame.imp_right .inl
      · exact .inr (.inr hrest)
    · rintro (hselected | howner | hrest)
      · exact hsomeRest (.inl (hsome (.inl hselected)))
      · exact hsomeRest (.inl (hsome (.inr howner)))
      · exact hsomeRest (.inr hrest)

/-- A fact has an owner exactly when some callable contains it. -/
theorem innermostCallableOwner_isSome {result : Option ReachableUnit}
    (hinnermost : innermostCallableOwner owners range = .ok result) :
    result.isSome ↔ ∃ owner ∈ owners, owner.2.Contains range := by
  obtain ⟨selected, hfold, hresult⟩ := bind_eq_ok.mp hinnermost
  cases hresult
  obtain ⟨hsame, hsome⟩ := foldlM_selectInnermost hfold
  rw [Option.isSome_map]
  constructor
  · intro hselected
    rcases hsame with rfl | howner
    · cases hselected
    · exact howner
  · exact fun howner => hsome (.inr howner)

/-- The callee of a scanned call is scanned with it. -/
theorem scanModule_callee {moduleKey : String} {scan : ModuleScan} {summary : ModuleSummary}
    {fact : ReachableUnit × CallCandidate} {reference : ReferenceOccurrence}
    (hscan : scanModule modules owners moduleKey = .ok scan) (hfact : fact ∈ scan.calls)
    (hmodule : modules.get? moduleKey = some summary) (hreference : reference ∈ summary.references)
    (hcontains : fact.2.range.Contains reference.range) :
    ∃ caller, (caller, reference) ∈ scan.references ∧ caller.module = moduleKey := by
  unfold scanModule at hscan
  simp only [hmodule] at hscan
  obtain ⟨calls, hcalls, hscan⟩ := bind_eq_ok.mp hscan
  obtain ⟨references, hreferences, hscan⟩ := bind_eq_ok.mp hscan
  cases hscan
  obtain ⟨⟨owner, call⟩, hmem, hsome⟩ := mem_filterMap.mp hfact
  obtain ⟨caller, rfl, rfl⟩ := Option.map_eq_some_iff.mp hsome
  obtain ⟨call', -, hstep⟩ := exists_item_of_mem hcalls hmem
  obtain ⟨owner, howner, heq⟩ := bind_eq_ok.mp hstep
  cases heq
  obtain ⟨callable, hcallable, hinside⟩ := (innermostCallableOwner_isSome howner).mp rfl
  obtain ⟨result, hresult, hstep⟩ := exists_result_of_mem hreferences hreference
  obtain ⟨found, hfound, heq⟩ := bind_eq_ok.mp hstep
  cases heq
  have hisSome : found.isSome := (innermostCallableOwner_isSome hfound).mpr
    ⟨callable, hcallable, hinside.1.trans hcontains.1, hcontains.2.trans hinside.2⟩
  obtain ⟨user, rfl⟩ := Option.isSome_iff_exists.mp hisSome
  obtain ⟨owner, howner, rfl⟩ := innermostCallableOwner_mem hfound
  exact ⟨owner.1, mem_filterMap.mpr ⟨_, hresult, rfl⟩, (mem_ownersOf.mp howner).2⟩

/-- What is called is referred to. -/
theorem referencesTo_ne_nil (hcallees : CalleesReferenced modules)
    (hindex : indexReachableStaticCalls graph modules reachable = .ok index)
    {indexed : ResolvedStaticCall} (hindexed : indexed ∈ index.calls) :
    index.referencesTo indexed.target ≠ [] := by
  obtain ⟨run⟩ := exists_indexRun hindex
  obtain ⟨hfact, htarget⟩ := run.mem_calls.mp hindexed
  obtain ⟨-, -, summary, hmodule, hcall⟩ := run.call_fact hfact
  obtain ⟨reference, hreference, hname, hcontains, hnotAlias⟩ :=
    hcallees _ summary hmodule indexed.call hcall
  obtain ⟨scan, hscan, hfact⟩ := mem_flatMap.mp hfact
  obtain ⟨moduleKey, hmoduleKey, hscanned⟩ := exists_item_of_mem run.scans_eq hscan
  have hkey : indexed.caller.module = moduleKey := by
    obtain ⟨_, _, hcalls, _⟩ := scanModule_eq_ok hscanned
    obtain ⟨-, owner, howner, heq⟩ := hcalls _ hfact
    have howned := (mem_ownersOf.mp howner).2
    rwa [heq] at howned
  subst hkey
  obtain ⟨caller, hcaller, hcallerModule⟩ :=
    scanModule_callee hscanned hfact hmodule hreference hcontains
  have hinitialized : ((callerUnit modules caller).any fun unit =>
      unit.initializedBy reference) = false := by
    rw [Option.any_eq_false]
    intro unit hunit
    rw [← hcallerModule] at hmodule
    simpa using hnotAlias unit (mem_values_of_callerUnit hmodule hunit)
  have hresolves : resolveStaticSourceTarget graph modules caller.module reference.name =
      .ok (some indexed.target) := by
    rw [hcallerModule, hname, htarget]
  obtain ⟨resolved, hresolved, hreferences⟩ := run.references_eq
  have hmem := (mem_reduceOption_mapM hresolved).mpr
    ⟨(caller, reference), mem_flatMap.mpr ⟨scan, hscan, hcaller⟩,
      resolveReference_of_target hinitialized hresolves⟩
  rw [← hreferences] at hmem
  exact ne_nil_of_mem (mem_filter.mpr ⟨hmem, decide_eq_true rfl⟩)

end Callees

variable {proof : CapabilityFlowProof} {attempted : List CapabilityBindingKey}
  {owner : CapabilityOwner}

section Attempted

variable {Item : Type} {test : Item → Except String Bool}

theorem anyM_eq_true {items : List Item} (hany : items.anyM test = .ok true) :
    ∃ item ∈ items, test item = .ok true := by
  induction items with
  | nil => cases hany
  | cons item rest ih =>
    obtain ⟨found, hfound, hrest⟩ := bind_eq_ok.mp hany
    cases found with
    | true => exact ⟨item, mem_cons_self, hfound⟩
    | false =>
      obtain ⟨later, hlater, htest⟩ := ih hrest
      exact ⟨later, mem_cons_of_mem _ hlater, htest⟩

theorem anyM_eq_of_true {items : List Item} {result : Bool} (hany : items.anyM test = .ok result)
    {item : Item} (hitem : item ∈ items) (htest : test item = .ok true) : result = true := by
  induction items with
  | nil => cases hitem
  | cons first rest ih =>
    obtain ⟨found, hfound, hrest⟩ := bind_eq_ok.mp hany
    cases found with
    | true =>
      cases hrest
      rfl
    | false =>
      rcases mem_cons.mp hitem with rfl | hlater
      · rw [hfound] at htest
        cases htest
      · exact ih hrest hlater

variable {key : CapabilityBindingKey}

/-- A parameter is attempted when some call passes an owned capability to it. -/
theorem mem_attemptedParameters
    (hattempted : attemptedParameters modules reachable index proof = .ok attempted) :
    key ∈ attempted ↔ ∃ owner, (key, owner) ∈ proof.candidateParameters.entries ∧
      capabilityParameterHasOwnedCaller modules reachable index proof.candidateParameters
        proof.owned proof.ownedReferences owner = .ok true := by
  obtain ⟨callers, hcallers, hresult⟩ := bind_eq_ok.mp hattempted
  cases hresult
  rw [mem_map]
  constructor
  · rintro ⟨⟨_, flag⟩, hcaller, rfl⟩
    obtain ⟨hmem, hflag⟩ := mem_filter.mp hcaller
    obtain ⟨entry, hentry, hstep⟩ := exists_item_of_mem hcallers hmem
    obtain ⟨found, hfound, heq⟩ := bind_eq_ok.mp hstep
    cases heq
    obtain rfl : flag = true := hflag
    exact ⟨entry.2, hentry, hfound⟩
  · rintro ⟨owner, hentry, howned⟩
    obtain ⟨result, hresult, hstep⟩ := exists_result_of_mem hcallers hentry
    obtain ⟨found, hfound, heq⟩ := bind_eq_ok.mp hstep
    cases heq
    obtain rfl : found = true := Except.ok.inj (hfound.symm.trans howned)
    exact ⟨_, mem_filter.mpr ⟨hresult, rfl⟩, rfl⟩

/-- With every call exact there are requirements, all of them satisfied. -/
theorem callRequirements_of_exact {candidates owned : CapabilityOwners}
    {ownedReferences : List CapabilityReferenceKey} {calls : List ResolvedStaticCall}
    (hexact : ∀ indexed ∈ calls, exactOwnedCapabilityArgument modules candidates owned
      ownedReferences owner indexed = .ok true) :
    ∃ requirements, callRequirements modules candidates owner calls = .ok (some requirements) ∧
      ∀ requirement ∈ requirements,
        capabilityRequirementIsSatisfied owned ownedReferences requirement = true := by
  induction calls with
  | nil => exact ⟨[], rfl, by simp⟩
  | cons indexed rest ih =>
    obtain ⟨requirements, hrest, hsatisfied⟩ := ih fun later hlater =>
      hexact later (mem_cons_of_mem _ hlater)
    obtain ⟨found, hfound, hflag⟩ := bind_eq_ok.mp (hexact indexed mem_cons_self)
    obtain ⟨requirement, hsome, hrequirement⟩ := (Option.any_eq_true _ _).mp (Except.ok.inj hflag)
    subst hsome
    refine ⟨requirement :: requirements, ?_, forall_mem_cons.mpr ⟨hrequirement, hsatisfied⟩⟩
    rw [callRequirements, hfound, ok_bind]
    simp only [hrest, ok_bind]
    rfl

variable {registration : RegistrationSummary} {adapter : Option AppliedRegistrationAdapter}
  {argumentIndex : ℕ}

/-- A parameter whose dispatch is exact and whose calls all pass owned capabilities is
owned. -/
theorem owned_of_exact_calls
    (hproof : buildCapabilityFlowProof modules reachable index registration adapter =
      .ok proof) {target : StaticCallableTarget}
    (hentry : (key, owner) ∈ proof.candidateParameters.entries)
    (hparameter : owner.parameterIndex = some argumentIndex)
    (htarget : capabilityParameterTarget reachable owner = .ok target)
    (hdispatch : index.dispatchIsExact target = true) (hcalled : index.callsTo target ≠ [])
    (hexact : ∀ indexed ∈ index.callsTo target, exactOwnedCapabilityArgument modules
      proof.candidateParameters proof.owned proof.ownedReferences owner indexed = .ok true) :
    key ∈ proof.owned.keys := by
  obtain ⟨⟨input, awaited⟩, hinput, -⟩ := bind_eq_ok.mp hproof
  rcases promotion_result hinput with hfail | ⟨found, final, hfound, hcandidates, howned,
    hreferences, -, hsound, hexhausted, -⟩
  · rw [hfail] at hproof
    cases hproof
  rw [hproof] at hfound
  obtain rfl : proof = found := Except.ok.inj hfound
  by_contra hnotOwned
  rw [howned] at hnotOwned
  have hnotRoot : key ∉ input.roots.keys := fun hroot =>
    hnotOwned (hsound.derived.roots_subset hroot)
  obtain ⟨calls, hcalls, hsatisfied⟩ := callRequirements_of_exact hexact
  have hrequirements : capabilityParameterRequirements modules reachable index
      input.candidates owner = .ok (some calls.dedup) := by
    rw [hcandidates] at hcalls
    rw [capabilityParameterRequirements, hparameter, htarget]
    simp only [ok_bind, hdispatch, Bool.not_true, Bool.false_eq_true, if_false,
      List.isEmpty_iff, hcalled, hcalls]
    rfl
  have hget : input.requirements.get? key = some calls.dedup := by
    rw [hcandidates] at hentry
    rcases promotionInput_eq_ok hinput with
      ⟨-, rfl⟩ | ⟨_, _, _, _, _, _, _, _, _, _, hfilter⟩
    · cases hentry
    · apply (filterMapM_get? hfilter).mpr
      refine ⟨owner, KeyedMap.get?_eq_some_iff.mpr hentry, ?_⟩
      rw [if_neg (by rwa [containsKey_iff])]
      exact hrequirements
  have hcandidate : key ∈ input.rules.candidates := ⟨mem_keys_of_get? hget, hnotRoot⟩
  have hgrants : input.rules.Grants final.ownedKeys (insert key final.ownedKeys) := by
    apply RequirementFlow.Rules.Grants.candidate hcandidate
    intro requirement hrequirement
    apply hsound.recorded.satisfies_iff.mp
    have hmem : requirement ∈ calls := by
      have hlisted : requirement ∈ input.requirementsOf key := hrequirement
      rw [requirementsOf, hget] at hlisted
      exact mem_dedup.mp hlisted
    have hheld := hsatisfied requirement hmem
    rwa [howned, hreferences] at hheld
  exact hnotOwned (hexhausted _ hgrants (Set.mem_insert _ _))

theorem eq_none_of_reduceOption {Item Result : Type}
    {step : Item → Except String (Option Result)} {items : List Item}
    {results : List (Option Result)} (hok : items.mapM step = .ok results)
    (hempty : results.reduceOption = []) : ∀ item ∈ items, step item = .ok none := by
  intro item hitem
  obtain ⟨result, hresult, hstep⟩ := exists_result_of_mem hok hitem
  cases result with
  | none => exact hstep
  | some found =>
    have hfound := reduceOption_mem_iff.mpr hresult
    rw [hempty] at hfound
    cases hfound

variable {target : ReachableUnit}

/-- A call that is not diagnosed passes an owned capability. -/
theorem exact_of_not_mixed {indexed : ResolvedStaticCall}
    (hmixed : diagnoseMixedCall modules proof owner target argumentIndex indexed = .ok none) :
    exactOwnedCapabilityArgument modules proof.candidateParameters proof.owned
      proof.ownedReferences owner indexed = .ok true := by
  obtain ⟨exact, hexact, hmixed⟩ := bind_eq_ok.mp hmixed
  cases exact with
  | true => exact hexact
  | false =>
    obtain ⟨diagnostic, -, hsome⟩ := bind_eq_ok.mp hmixed
    cases hsome

theorem diagnosticAt_ne_none {code message file : String} {start : ℕ}
    {construct : Option String} {dependencyChain : List String} :
    some <$> diagnosticAt modules code message file start construct dependencyChain ≠
      .ok none := by
  rw [diagnosticAt]
  split <;> simp [Functor.map, Except.map]

/-- A reference that is not diagnosed is the callee of a direct call. -/
theorem direct_of_not_diagnosed {indexed : ResolvedStaticReference}
    (hreference : diagnoseReference modules target indexed = .ok none) :
    indexed.reference.write = false ∧ indexed.directCall = true := by
  unfold diagnoseReference at hreference
  split at hreference
  · exact absurd hreference diagnosticAt_ne_none
  · next hwrite =>
      split at hreference
      · next hdirect => exact ⟨Bool.eq_false_iff.mpr hwrite, hdirect⟩
      · exact absurd hreference diagnosticAt_ne_none

/-- A parameter that a capability reaches is owned unless something is diagnosed. -/
theorem owned_of_attempted (hcallees : CalleesReferenced modules)
    (hindex : indexReachableStaticCalls graph modules reachable = .ok index)
    (hproof : buildCapabilityFlowProof modules reachable index registration adapter =
      .ok proof) (hattempted : attemptedParameters modules reachable index proof = .ok attempted)
    (hkey : key ∈ attempted)
    (hrejected : diagnoseRejectedCapabilityParameters modules reachable index proof
      attempted = .ok []) : key ∈ proof.owned.keys := by
  obtain ⟨owner, hentry, hcaller⟩ := (mem_attemptedParameters hattempted).mp hkey
  obtain ⟨diagnostics, hdiagnostics, hflatten⟩ := bind_eq_ok.mp hrejected
  obtain ⟨found, hfound, hparameter⟩ := exists_result_of_mem hdiagnostics hentry
  obtain rfl : found = [] := flatten_eq_nil_iff.mp (Except.ok.inj hflatten) found hfound
  by_contra hnotOwned
  have hunowned : ¬ (proof.owned.containsKey key = true ∨ key ∉ attempted) := by
    rw [containsKey_iff]
    simp [hnotOwned, hkey]
  rw [diagnoseRejectedParameter, if_neg hunowned] at hparameter
  cases hargument : owner.parameterIndex with
  | none => simp [hargument] at hparameter
  | some argumentIndex =>
    cases htarget : reachable.get? owner.unitId with
    | none => simp [hargument, htarget] at hparameter
    | some target =>
      simp only [hargument, htarget] at hparameter
      obtain ⟨calls, hcalls, hparameter⟩ := bind_eq_ok.mp hparameter
      obtain ⟨references, hreferences, hparameter⟩ := bind_eq_ok.mp hparameter
      obtain ⟨inexact, hinexact, hparameter⟩ := bind_eq_ok.mp hparameter
      have hempty := Except.ok.inj hparameter
      rw [append_eq_nil_iff, append_eq_nil_iff] at hempty
      obtain ⟨⟨hcallsEmpty, hreferencesEmpty⟩, rfl⟩ := hempty
      have hexact : ∀ indexed ∈ index.callsTo (target.module, target.name),
          exactOwnedCapabilityArgument modules proof.candidateParameters proof.owned
            proof.ownedReferences owner indexed = .ok true := fun indexed hindexed =>
        exact_of_not_mixed (eq_none_of_reduceOption hcalls hcallsEmpty indexed hindexed)
      have hkeyTarget : capabilityParameterTarget reachable owner =
          .ok (target.module, target.name) := by
        rw [capabilityParameterTarget, htarget]
      have hcalled : index.callsTo (target.module, target.name) ≠ [] := by
        simp only [capabilityParameterHasOwnedCaller, hargument, hkeyTarget] at hcaller
        obtain ⟨indexed, hindexed, -⟩ := anyM_eq_true hcaller
        exact ne_nil_of_mem hindexed
      have hdispatch : index.dispatchIsExact (target.module, target.name) = true := by
        apply dispatchIsExact_iff.mpr
        refine ⟨length_eq_zero_iff.mp (mapM_eq_ok_iff.mp hinexact).length_eq, ?_, ?_⟩
        · obtain ⟨indexed, hindexed⟩ := exists_mem_of_ne_nil _ hcalled
          obtain ⟨hmem, htargetEq⟩ := mem_callsTo.mp hindexed
          rw [← htargetEq]
          exact referencesTo_ne_nil hcallees hindex hmem
        · intro indexed hindexed
          exact direct_of_not_diagnosed
            (eq_none_of_reduceOption hreferences hreferencesEmpty indexed hindexed)
      exact hnotOwned (owned_of_exact_calls hproof hentry hargument hkeyTarget hdispatch
        hcalled hexact)

end Attempted

section References

variable (graph : GraphInput) (modules : LoadedModules) (reachable : ReachableUnits)
variable (index : ReachableStaticCallIndex) (proof : CapabilityFlowProof)
variable (authorities : EffectAuthorities)

/-- The reference lies inside an effect that has authority of its own. -/
def InsideSpecializedEffect (owner : CapabilityOwner) (reference : ReferenceOccurrence) : Prop :=
  ∃ effects, specializedEffects graph reachable proof authorities = .ok effects ∧
    ∃ effect ∈ effects, effect.module = owner.module ∧ effect.unitId = owner.unitId ∧
      effect.range.Contains reference.range

/-- What accounts for a reference to an owned binding. -/
inductive Accounted (analysis : OwnedCapabilityAnalysis) (owner : CapabilityOwner)
    (reference : ReferenceOccurrence) : Prop
  | specialized : InsideSpecializedEffect graph reachable proof authorities owner reference →
      Accounted analysis owner reference
  | dependencyCall {call : AppliedDependencyAdapterCall} :
      call ∈ authorities.callsFor owner.module owner.unitId →
      call.effect.Contains reference.range → call.identity ∈ analysis.admittedOperations →
      Accounted analysis owner reference
  | operation {summary : ModuleSummary} {operation : OperationCandidate} :
      modules.get? owner.module = some summary → operation ∈ summary.operations →
      effectContains operation reference.range = true →
      ⟨owner.module, operation.range⟩ ∈ analysis.admittedOperations →
      Accounted analysis owner reference
  /-- The reference is an argument of one static call, whose parameter is owned. -/
  | forwarded {summary : ModuleSummary} {unit : ReachableUnit} {forwarded : ForwardedCall}
      {keys : List CapabilityBindingKey} :
      modules.get? owner.module = some summary → reachable.get? owner.unitId = some unit →
      forwardedCalls summary unit reference = [forwarded] →
      resolveForwardedCapabilityKeys modules reachable index proof unit forwarded = .ok keys →
      keys ≠ [] → (∀ key ∈ keys, key ∈ proof.owned.keys) →
      Accounted analysis owner reference

/-- A parameter that some call passes an owned reference to is owned. -/
def PassedOnlyToOwned : Prop :=
  ∀ entry ∈ proof.candidateParameters.entries, ∀ indexed ∈ index.calls,
    capabilityParameterTarget reachable entry.2 = .ok indexed.target →
      ∀ argument, exactCapabilityArgument indexed.call entry.2 = some argument →
        ⟨indexed.caller.module, indexed.caller.id, argument⟩ ∈ proof.ownedReferences →
          entry.1 ∈ proof.owned.keys

/-- Every reference to an owned binding is a read that is accounted for, and no owned
capability is passed to a parameter that is not owned. -/
def FailsClosed (analysis : OwnedCapabilityAnalysis) : Prop :=
  (∀ owner ∈ proof.owned.values, ∀ reference ∈ owner.references,
    reference.readOnly = true ∧
      Accounted graph modules reachable index proof authorities analysis owner reference) ∧
    PassedOnlyToOwned reachable index proof

variable {graph modules reachable index proof authorities}
variable {specialized : List SpecializedEffect}
variable {summary : ModuleSummary} {unit : ReachableUnit}
variable {reference : ReferenceOccurrence} {outcome : ReferenceOutcome}

theorem forwardedCalls_readOnly (hne : forwardedCalls summary unit reference ≠ []) :
    reference.readOnly = true := by
  by_contra hnot
  exact hne (by rw [forwardedCalls, if_neg hnot])

/-- A reference is forwarded to an attempted parameter or diagnosed. -/
theorem forward_cases
    (hok : analyzeReference.forward modules reachable index proof attempted owner summary unit
      reference = .ok outcome) :
    (∃ forwarded keys, forwardedCalls summary unit reference = [forwarded] ∧
      resolveForwardedCapabilityKeys modules reachable index proof unit forwarded = .ok keys ∧
      ∃ key ∈ keys, key ∈ attempted) ∨ ∃ diagnostic, outcome = .diagnosed diagnostic := by
  obtain ⟨keys, hkeys, hok⟩ := bind_eq_ok.mp hok
  split at hok
  · next hany =>
      obtain ⟨key, hkey, hattempted⟩ := any_eq_true.mp hany
      rw [soleForwardedKeys.eq_def] at hkeys
      split at hkeys
      · next forwarded hforwarded =>
          exact .inl ⟨forwarded, keys, hforwarded, hkeys, key, hkey, of_decide_eq_true hattempted⟩
      · cases hkeys
        cases hkey
  · obtain ⟨diagnostic, -, hok⟩ := bind_eq_ok.mp hok
    cases hok
    exact .inr ⟨diagnostic, rfl⟩

/-- The ways in which the analysis passes a reference, in the order it tries them. -/
theorem analyzeReference_cases
    (hok : analyzeReference graph modules reachable index proof authorities specialized
      attempted owner summary unit reference = .ok outcome) :
    (∃ effect ∈ specialized, effect.module = owner.module ∧ effect.unitId = owner.unitId ∧
        effect.range.Contains reference.range) ∨
      reference.readOnly = true ∧ (
        (∃ call, representedDependencyCalls authorities owner reference = [call] ∧
          outcome = .admitted call.identity) ∨
        (∃ operation, representedOperations summary unit reference = [operation] ∧
          outcome = .admitted ⟨owner.module, operation.range⟩) ∨
        ∃ forwarded keys, forwardedCalls summary unit reference = [forwarded] ∧
          resolveForwardedCapabilityKeys modules reachable index proof unit forwarded =
            .ok keys ∧ ∃ key ∈ keys, key ∈ attempted) ∨
      ∃ diagnostic, outcome = .diagnosed diagnostic := by
  have hforward : analyzeReference.forward modules reachable index proof attempted owner
      summary unit reference = .ok outcome → reference.readOnly = true ∧ (
        ∃ forwarded keys, forwardedCalls summary unit reference = [forwarded] ∧
          resolveForwardedCapabilityKeys modules reachable index proof unit forwarded =
            .ok keys ∧ ∃ key ∈ keys, key ∈ attempted) ∨
      ∃ diagnostic, outcome = .diagnosed diagnostic := by
    intro hok
    apply (forward_cases hok).imp_left
    rintro ⟨forwarded, keys, hforwarded, hrest⟩
    have hne : forwardedCalls summary unit reference ≠ [] := by
      rw [hforwarded]
      exact cons_ne_nil _ _
    exact ⟨forwardedCalls_readOnly hne, forwarded, keys, hforwarded, hrest⟩
  unfold analyzeReference at hok
  split at hok
  · next hspecialized =>
      obtain ⟨effect, heffect, hinside⟩ := any_eq_true.mp hspecialized
      exact .inl ⟨effect, heffect, of_decide_eq_true hinside⟩
  right
  split at hok
  · next call hread hcalls =>
      cases hok
      exact .inl ⟨hread, .inl ⟨call, hcalls, rfl⟩⟩
  split at hok
  · next operation hread hoperations =>
      split at hok
      · cases hok
        exact .inl ⟨hread, .inr (.inl ⟨operation, hoperations, rfl⟩)⟩
      · exact (hforward hok).imp_left fun h => ⟨h.1, .inr (.inr h.2)⟩
  · exact (hforward hok).imp_left fun h => ⟨h.1, .inr (.inr h.2)⟩

/-- Whether a capability reaches a parameter depends on its place only. -/
theorem hasOwnedCaller_congr {other : CapabilityOwner} (hunit : owner.unitId = other.unitId)
    (hindex : owner.parameterIndex = other.parameterIndex)
    (hpath : owner.argumentProjection = other.argumentProjection) :
    capabilityParameterHasOwnedCaller modules reachable index proof.candidateParameters
        proof.owned proof.ownedReferences owner =
      capabilityParameterHasOwnedCaller modules reachable index proof.candidateParameters
        proof.owned proof.ownedReferences other := by
  have hargument : ∀ indexed, exactOwnedCapabilityArgument modules proof.candidateParameters
      proof.owned proof.ownedReferences owner indexed =
        exactOwnedCapabilityArgument modules proof.candidateParameters proof.owned
          proof.ownedReferences other indexed := by
    intro indexed
    have hsame : exactCapabilityArgument indexed.call owner =
        exactCapabilityArgument indexed.call other := by
      rw [exactCapabilityArgument, exactCapabilityArgument, hindex, hpath]
    have hforwarded : forwardedParameterProjectionKey modules indexed.caller indexed.call owner =
        forwardedParameterProjectionKey modules indexed.caller indexed.call other := by
      rw [forwardedParameterProjectionKey, forwardedParameterProjectionKey, hsame, hindex, hpath]
    rw [exactOwnedCapabilityArgument, exactOwnedCapabilityArgument, exactCapabilityRequirement,
      exactCapabilityRequirement, hsame, hforwarded]
  rw [capabilityParameterHasOwnedCaller, capabilityParameterHasOwnedCaller, hindex,
    capabilityParameterTarget, capabilityParameterTarget, hunit, funext hargument]

variable {forwarded : ForwardedCall} {keys : List CapabilityBindingKey}

/-- The parameters that one argument is passed to share their place. -/
theorem resolveForwarded_entries
    (hkeys : resolveForwardedCapabilityKeys modules reachable index proof unit forwarded =
      .ok keys) :
    ∃ unitId, ∀ key ∈ keys, ∃ owner, (key, owner) ∈ proof.candidateParameters.entries ∧
      owner.unitId = unitId ∧ owner.parameterIndex = some forwarded.argumentIndex ∧
        owner.argumentProjection = forwarded.argumentProjection := by
  have hnone : keys = [] → ∃ unitId, ∀ key ∈ keys, ∃ owner,
      (key, owner) ∈ proof.candidateParameters.entries ∧
        owner.unitId = unitId ∧ owner.parameterIndex = some forwarded.argumentIndex ∧
          owner.argumentProjection = forwarded.argumentProjection := by
    rintro rfl
    exact ⟨"", by simp⟩
  unfold resolveForwardedCapabilityKeys at hkeys
  split at hkeys
  · exact hnone (Except.ok.inj hkeys).symm
  split at hkeys
  · cases hkeys
  split at hkeys
  · exact hnone (Except.ok.inj hkeys).symm
  split at hkeys
  · exact hnone (Except.ok.inj hkeys).symm
  split at hkeys
  · exact hnone (Except.ok.inj hkeys).symm
  next reachableTarget _ =>
  cases hkeys
  refine ⟨reachableTarget.id, ?_⟩
  intro key hkey
  obtain ⟨entry, hentry, rfl⟩ := mem_map.mp hkey
  obtain ⟨hmem, hplace⟩ := mem_filter.mp hentry
  obtain ⟨-, hunit, hposition, hpath⟩ := of_decide_eq_true hplace
  exact ⟨entry.2, hmem, hunit, hposition, hpath⟩

/-- With one of the parameters attempted all of them are. -/
theorem resolveForwarded_attempted
    (hattempted : attemptedParameters modules reachable index proof = .ok attempted)
    (hkeys : resolveForwardedCapabilityKeys modules reachable index proof unit forwarded =
      .ok keys) {key : CapabilityBindingKey} (hkey : key ∈ keys) (hmem : key ∈ attempted) :
    ∀ other ∈ keys, other ∈ attempted := by
  intro other hother
  obtain ⟨unitId, hentries⟩ := resolveForwarded_entries hkeys
  obtain ⟨first, hfirst, hfirstUnit, hfirstIndex, hfirstPath⟩ := hentries key hkey
  obtain ⟨second, hsecond, hsecondUnit, hsecondIndex, hsecondPath⟩ := hentries other hother
  obtain ⟨owner, howner, hcaller⟩ := (mem_attemptedParameters hattempted).mp hmem
  obtain rfl : first = owner := Option.some.inj ((KeyedMap.get?_eq_some_iff.mpr hfirst).symm.trans
    (KeyedMap.get?_eq_some_iff.mpr howner))
  apply (mem_attemptedParameters hattempted).mpr
  refine ⟨second, hsecond, ?_⟩
  rw [← hcaller]
  exact hasOwnedCaller_congr (hsecondUnit.trans hfirstUnit.symm)
    (hsecondIndex.trans hfirstIndex.symm) (hsecondPath.trans hfirstPath.symm)

end References

section Closing

variable {authorities : EffectAuthorities} {analysis : OwnedCapabilityAnalysis}

/-- The parts of an analysis that adds no diagnostic. -/
structure Analyzed (graph : GraphInput) (modules : LoadedModules) (reachable : ReachableUnits)
    (index : ReachableStaticCallIndex) (proof : CapabilityFlowProof)
    (authorities : EffectAuthorities) (analysis : OwnedCapabilityAnalysis) where
  specialized : List SpecializedEffect
  attempted : List CapabilityBindingKey
  outcomes : List (List ReferenceOutcome)
  specialized_eq : specializedEffects graph reachable proof authorities = .ok specialized
  attempted_eq : attemptedParameters modules reachable index proof = .ok attempted
  outcomes_eq : proof.owned.values.mapM (analyzeOwner graph modules reachable index proof
    authorities specialized attempted) = .ok outcomes
  rejected_eq : diagnoseRejectedCapabilityParameters modules reachable index proof attempted =
    .ok []
  admitted : ∀ identity, .admitted identity ∈ outcomes.flatten →
    identity ∈ analysis.admittedOperations
  represented : ∀ diagnostic, .diagnosed diagnostic ∉ outcomes.flatten

theorem analyzed_of_ok
    (hok : analyzeOwnedCapabilities graph modules reachable index proof authorities =
      .ok (analysis, [])) :
    proof.owned.entries = [] ∨
      Nonempty (Analyzed graph modules reachable index proof authorities analysis) := by
  unfold analyzeOwnedCapabilities at hok
  split at hok
  · next hempty => exact .inl (List.isEmpty_iff.mp hempty)
  obtain ⟨planned, -, hok⟩ := bind_eq_ok.mp hok
  obtain ⟨specialized, hspecialized, hok⟩ := bind_eq_ok.mp hok
  obtain ⟨attempted, hattempted, hok⟩ := bind_eq_ok.mp hok
  obtain ⟨outcomes, houtcomes, hok⟩ := bind_eq_ok.mp hok
  obtain ⟨rejected, hrejected, hok⟩ := bind_eq_ok.mp hok
  obtain ⟨dependencies, -, hok⟩ := bind_eq_ok.mp hok
  obtain ⟨hanalysis, hdiagnostics⟩ := Prod.mk.inj (Except.ok.inj hok)
  rw [append_eq_nil_iff, append_eq_nil_iff] at hdiagnostics
  obtain ⟨⟨hunrepresented, rfl⟩, -⟩ := hdiagnostics
  refine .inr ⟨⟨specialized, attempted, outcomes, hspecialized, hattempted, houtcomes,
    hrejected, ?_, ?_⟩⟩
  · intro identity hidentity
    rw [← hanalysis]
    exact mem_append_right _ (mem_filterMap.mpr ⟨_, hidentity, rfl⟩)
  · intro diagnostic hdiagnostic
    have hmem : diagnostic ∈ ([] : List Diagnostic) := by
      rw [← hunrepresented]
      exact mem_filterMap.mpr ⟨_, hdiagnostic, rfl⟩
    cases hmem

/-- Each reference of an owned binding was passed in one of the ways. -/
theorem Analyzed.accounted
    (analyzed : Analyzed graph modules reachable index proof authorities analysis)
    (howned : ∀ key ∈ analyzed.attempted, key ∈ proof.owned.keys)
    {owner : CapabilityOwner} (howner : owner ∈ proof.owned.values)
    {reference : ReferenceOccurrence} (hreference : reference ∈ owner.references) :
    InsideSpecializedEffect graph reachable proof authorities owner reference ∨
      reference.readOnly = true ∧
        Accounted graph modules reachable index proof authorities analysis owner reference := by
  obtain ⟨results, hresults, hanalyze⟩ := exists_result_of_mem analyzed.outcomes_eq howner
  unfold analyzeOwner at hanalyze
  split at hanalyze
  · cases hanalyze
  next unit hunit =>
  split at hanalyze
  · cases hanalyze
  next summary hsummary =>
  obtain ⟨outcome, houtcome, hcase⟩ := exists_result_of_mem hanalyze hreference
  have hlisted : outcome ∈ analyzed.outcomes.flatten :=
    mem_flatten.mpr ⟨results, hresults, houtcome⟩
  rcases analyzeReference_cases hcase with ⟨effect, heffect, hinside⟩ |
    ⟨hread, hcases⟩ | ⟨diagnostic, rfl⟩
  · exact .inl ⟨analyzed.specialized, analyzed.specialized_eq, effect, heffect, hinside⟩
  · refine .inr ⟨hread, ?_⟩
    rcases hcases with ⟨call, hcalls, rfl⟩ | ⟨operation, hoperations, rfl⟩ |
      ⟨forwarded, keys, hforwarded, hkeys, key, hkey, hattempted⟩
    · have hcall : call ∈ representedDependencyCalls authorities owner reference := by
        rw [hcalls]
        exact mem_cons_self
      obtain ⟨hmem, hinside⟩ := mem_filter.mp hcall
      exact .dependencyCall hmem (of_decide_eq_true (Bool.and_eq_true_iff.mp hinside).1)
        (analyzed.admitted _ hlisted)
    · have hoperation : operation ∈ representedOperations summary unit reference := by
        rw [hoperations]
        exact mem_cons_self
      obtain ⟨hmem, hinside⟩ := mem_filter.mp hoperation
      simp only [Bool.and_eq_true] at hinside
      exact .operation hsummary hmem hinside.1.1.2 (analyzed.admitted _ hlisted)
    · have hall := resolveForwarded_attempted analyzed.attempted_eq hkeys hkey hattempted
      exact .forwarded hsummary hunit hforwarded hkeys (ne_nil_of_mem hkey)
        fun other hother => howned other (hall other hother)
  · exact absurd hlisted (analyzed.represented diagnostic)

/-- An exact owned argument makes the parameter an attempted one. -/
theorem attempted_of_exact_argument {attempted : List CapabilityBindingKey}
    (hattempted : attemptedParameters modules reachable index proof = .ok attempted)
    {entry : CapabilityBindingKey × CapabilityOwner}
    (hentry : entry ∈ proof.candidateParameters.entries) {indexed : ResolvedStaticCall}
    (hindexed : indexed ∈ index.calls)
    (htarget : capabilityParameterTarget reachable entry.2 = .ok indexed.target)
    {argument : SourceRange}
    (hargument : exactCapabilityArgument indexed.call entry.2 = some argument)
    (howned : ⟨indexed.caller.module, indexed.caller.id, argument⟩ ∈ proof.ownedReferences) :
    entry.1 ∈ attempted := by
  obtain ⟨callers, hcallers, -⟩ := bind_eq_ok.mp hattempted
  obtain ⟨_, -, hstep⟩ := exists_result_of_mem hcallers hentry
  obtain ⟨found, hfound, -⟩ := bind_eq_ok.mp hstep
  have hexact : exactOwnedCapabilityArgument modules proof.candidateParameters proof.owned
      proof.ownedReferences entry.2 indexed = .ok true := by
    rw [exactOwnedCapabilityArgument, exactCapabilityRequirement, hargument]
    exact congrArg Except.ok (decide_eq_true howned)
  apply (mem_attemptedParameters hattempted).mpr
  refine ⟨entry.2, hentry, ?_⟩
  cases hposition : entry.2.parameterIndex with
  | none => simp [exactCapabilityArgument, hposition] at hargument
  | some position =>
    have hany := hfound
    simp only [capabilityParameterHasOwnedCaller, hposition, htarget] at hany
    rw [hfound, anyM_eq_of_true hany (mem_callsTo.mpr ⟨hindexed, rfl⟩) hexact]

/-- Nothing owned means no owned reference. -/
theorem ownedReferences_of_none {registration : RegistrationSummary}
    {adapter : Option AppliedRegistrationAdapter}
    (hproof : buildCapabilityFlowProof modules reachable index registration adapter =
      .ok proof) (hnone : proof.owned.entries = []) {reference : CapabilityReferenceKey} :
    reference ∉ proof.ownedReferences := by
  obtain ⟨⟨input, awaited⟩, hinput, -⟩ := bind_eq_ok.mp hproof
  rcases promotion_result hinput with hfail | ⟨found, final, hfound, -, howned, hreferences, -,
    hsound, -⟩
  · rw [hfail] at hproof
    cases hproof
  rw [hproof] at hfound
  obtain rfl : proof = found := Except.ok.inj hfound
  rw [hreferences]
  intro hreference
  obtain ⟨key, owner, hget, -⟩ := (hsound.recorded.reference reference).mp hreference
  rw [← howned, KeyedMap.get?_eq_some_iff, hnone] at hget
  cases hget

end Closing

section Sample

open ControlPlans

/-- The handler `(ctx) => { ctx.db.insert("log", ctx); load(ctx); }` or, when `write` is
set, one that assigns to `ctx` among the arguments of the effect. -/
def logRegistration (write : Bool) : RegistrationSummary :=
  ⟨"mutation", ⟨10, 90⟩, some "ctx", some 11, [⟨"ctx", ⟨20, 23⟩, true, false⟩,
    ⟨"ctx", ⟨40, 43⟩, !write, write⟩, ⟨"ctx", ⟨65, 68⟩, true, false⟩]⟩

def logModule (write : Bool) : ModuleSummary where
  units := ⟨[("run", ⟨"run", none, [], none, none, some (logRegistration write)⟩),
    ("load", ⟨"load", some ⟨100, 140⟩,
      [⟨0, "c", 105, [⟨"c", ⟨115, 116⟩, true, false⟩], []⟩], none, none, none⟩)], by
        cases write <;> decide⟩
  imports := .empty
  exports := .empty
  calls := [⟨"load", 60, 64, ⟨60, 69⟩, [⟨65, 68⟩], [0], [[]]⟩]
  references := [⟨"load", ⟨60, 64⟩, true, false⟩]
  operations := [⟨"db.get", ⟨115, 130⟩, some 115, some 123, some "c.db.get"⟩]
  effects := [⟨"c.db.get", ⟨115, 123⟩⟩]
  bindings_unique := by cases write <;> decide

def logModules (write : Bool) : LoadedModules := ⟨[("m.ts", logModule write)], by simp⟩

def logGraph : GraphInput := ⟨.blockingFiber, .empty⟩

def logReachable : ReachableUnits where
  units := [⟨"m.ts#load", "m.ts", "load", ⟨100, 140⟩, "function", ["m.ts#load"]⟩,
    ⟨"m.ts#run:handler", "m.ts", "run", ⟨10, 90⟩, "handler", ["m.ts#run"]⟩]
  ids_nodup := by decide

def anchorAt (start stop : ℕ) : SourceAnchor := ⟨"m.ts", "", start, stop, ""⟩

/-- The plan of `ctx.db.insert(..)`, which covers its arguments. -/
def insertPlan : CallableEffectPlan where
  callable := ⟨"m.ts", "m.ts#run:handler"⟩
  callableSource := anchorAt 10 90
  provenance := {
    targetCallable := ⟨"m.ts", "m.ts#run:handler"⟩
    targetCallableSource := anchorAt 10 90
    targetEffect := anchorAt 20 50
    targetCallee := anchorAt 20 33
    capabilityReference := anchorAt 20 23
    capabilityBinding := anchorAt 11 14
    capabilityName := "ctx"
    callerCallsite := none }

def logAuthorities : EffectAuthorities where
  plans := [insertPlan]
  closesGuestEffectSite _ := false
  legacySpecializations := []
  authorizedQueryValues := []
  representedQueryConstructions := []
  dependencyAdapterCalls := []

theorem logModules_callees (write : Bool) : CalleesReferenced (logModules write) := by
  intro module summary hget call hcall
  have hentry : (module, summary) ∈ [("m.ts", logModule write)] :=
    KeyedMap.get?_eq_some_iff.mp hget
  obtain ⟨rfl, rfl⟩ := Prod.mk.inj (mem_singleton.mp hentry)
  obtain rfl := mem_singleton.mp hcall
  refine ⟨_, mem_cons_self, rfl, ⟨by decide, by decide⟩, ?_⟩
  intro unit hunit
  rcases mem_pair.mp hunit with rfl | rfl
  · rfl
  · rfl

def logIndex : ReachableStaticCallIndex where
  calls := [⟨("m.ts", "load"), ⟨"m.ts#run:handler", "m.ts", "run", ⟨10, 90⟩, "handler",
    ["m.ts#run"]⟩, ⟨"load", 60, 64, ⟨60, 69⟩, [⟨65, 68⟩], [0], [[]]⟩⟩]
  references := [⟨("m.ts", "load"), ⟨"m.ts#run:handler", "m.ts", "run", ⟨10, 90⟩, "handler",
    ["m.ts#run"]⟩, ⟨"load", ⟨60, 64⟩, true, false⟩, true⟩]
  inexactReferences := []

theorem logIndex_eq (write : Bool) :
    indexReachableStaticCalls logGraph (logModules write) logReachable = .ok logIndex := by
  cases write <;> rfl

end Sample

end ConvexWasm.Compiler.CapabilityAnalysis
