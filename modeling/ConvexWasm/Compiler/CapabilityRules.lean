import ConvexWasm.Core.RequirementFlow
import ConvexWasm.Compiler.CapabilityFlow

/-!
# The rules of the capability flow

The requirements of the candidates form a requirement flow: an owned binding
provides its own projection and its read-only references, and an unsatisfied
requirement is traced to the candidate that reads it.
-/

namespace ConvexWasm.Compiler

open List RequirementFlow

namespace PromotionInput

variable (input : PromotionInput)

/-- The owner a key has once it is owned. -/
def ownerOf (key : CapabilityBindingKey) : Option CapabilityOwner :=
  input.roots.get? key <|> input.candidates.get? key

def requirementsOf (key : CapabilityBindingKey) : List CapabilityRequirement :=
  (input.requirements.get? key).getD []

def providerOf (requirement : CapabilityRequirement) : Option CapabilityBindingKey :=
  match input.parameterByReference with
  | .error _ => none
  | .ok parameters => input.requirementProvider parameters requirement

/-- What an owner satisfies under its key. -/
def Provides (key : CapabilityBindingKey) (requirement : CapabilityRequirement) : Prop :=
  ∃ owner, input.ownerOf key = some owner ∧
    (requirement = .parameterProjection key ∨
      ∃ reference ∈ owner.referenceKeys, requirement = .reference reference)

variable {input} {key : CapabilityBindingKey} {requirement : CapabilityRequirement}

theorem ownerOf_candidate {owner : CapabilityOwner}
    (hroot : key ∉ input.roots.keys) (howner : input.candidates.get? key = some owner) :
    input.ownerOf key = some owner := by
  rw [ownerOf, KeyedMap.get?_eq_none_iff.mpr hroot, howner]
  rfl

theorem mem_candidateReferences {reference : CapabilityReferenceKey} :
    (reference, key) ∈ input.candidateReferences ↔
      ∃ owner, input.candidates.get? key = some owner ∧
        reference ∈ owner.referenceKeys := by
  simp only [candidateReferences, mem_flatMap, mem_map, Prod.mk.injEq, KeyedMap.get?_eq_some_iff]
  constructor
  · rintro ⟨⟨_, owner⟩, hentry, found, hfound, rfl, rfl⟩
    exact ⟨owner, hentry, hfound⟩
  · rintro ⟨owner, hentry, hreference⟩
    exact ⟨(key, owner), hentry, reference, hreference, rfl, rfl⟩

/-- The message of a reference that two candidates claim. -/
def ambiguousReference : String :=
  "capability reference belongs to multiple candidate parameters"

variable {parameters : KeyedMap CapabilityReferenceKey CapabilityBindingKey}

theorem recordReference_cases {entry : CapabilityReferenceKey × CapabilityBindingKey} :
    recordReference parameters entry = .error ambiguousReference ∨
      ∃ next, recordReference parameters entry = .ok next ∧
        ∀ reference key, next.get? reference = some key ↔
          parameters.get? reference = some key ∨ (reference, key) = entry := by
  obtain ⟨recorded, claimed⟩ := entry
  cases hget : parameters.get? recorded with
  | none =>
    refine .inr ⟨parameters.insert recorded claimed, by simp only [recordReference, hget],
      fun reference key => ?_⟩
    by_cases heq : reference = recorded
    · subst heq
      rw [KeyedMap.get?_insert_self, hget]
      simp [eq_comm]
    · rw [KeyedMap.get?_insert_of_ne heq]
      simp [heq]
  | some existing =>
    by_cases hsame : existing = claimed
    · refine .inr ⟨parameters, by simp [recordReference, hget, hsame],
        fun reference key => ?_⟩
      constructor
      · exact .inl
      · rintro (hkept | heq)
        · exact hkept
        · cases heq
          rw [hget, hsame]
    · left
      simp only [recordReference, hget, hsame, if_false]
      rfl

theorem foldlM_recordReference (entries : List (CapabilityReferenceKey × CapabilityBindingKey)) :
    ∀ parameters, entries.foldlM recordReference parameters = .error ambiguousReference ∨
      ∃ next, entries.foldlM recordReference parameters = .ok next ∧
        ∀ reference key, next.get? reference = some key ↔
          parameters.get? reference = some key ∨ (reference, key) ∈ entries := by
  induction entries with
  | nil => exact fun parameters => .inr ⟨parameters, rfl, by simp⟩
  | cons entry rest ih =>
    intro parameters
    rw [foldlM_cons]
    have hentry : recordReference parameters entry = .error ambiguousReference ∨
        ∃ next, recordReference parameters entry = .ok next ∧
          ∀ reference key, next.get? reference = some key ↔
            parameters.get? reference = some key ∨ (reference, key) = entry :=
      recordReference_cases
    rcases hentry with hfail | ⟨next, hnext, hget⟩
    · exact .inl (by rw [hfail]; rfl)
    · rw [hnext]
      rcases ih next with hfail | ⟨last, hlast, hgetLast⟩
      · exact .inl hfail
      · refine .inr ⟨last, hlast, fun reference key => ?_⟩
        rw [hgetLast, hget, mem_cons, or_assoc]

/-- The table of references exists unless two candidates claim one. -/
theorem parameterByReference_cases :
    input.parameterByReference = .error ambiguousReference ∨
      ∃ parameters, input.parameterByReference = .ok parameters ∧
        ∀ reference key, parameters.get? reference = some key ↔
          (reference, key) ∈ input.candidateReferences := by
  rcases foldlM_recordReference input.candidateReferences .empty with
    hfail | ⟨parameters, hok, hget⟩
  · exact .inl hfail
  · refine .inr ⟨parameters, hok, fun reference key => ?_⟩
    rw [hget]
    simp [KeyedMap.get?, KeyedMap.empty]

theorem provides_of_providerOf (hprovider : input.providerOf requirement = some key)
    (hroot : key ∉ input.roots.keys) : input.Provides key requirement := by
  rcases input.parameterByReference_cases with hfail | ⟨parameters, hok, hget⟩
  · simp [providerOf, hfail] at hprovider
  · simp only [providerOf, hok] at hprovider
    cases requirement with
    | reference reference =>
      obtain ⟨owner, howner, hreference⟩ :=
        mem_candidateReferences.mp ((hget reference key).mp hprovider)
      exact ⟨owner, ownerOf_candidate hroot howner, .inr ⟨reference, hreference, rfl⟩⟩
    | parameterProjection projected =>
      by_cases hcontains : input.candidates.containsKey projected = true
      · have heq : projected = key := by
          simpa [requirementProvider, hcontains] using hprovider
        subst heq
        obtain ⟨owner, howner⟩ := KeyedMap.mem_keys_iff.mp (KeyedMap.containsKey_iff.mp hcontains)
        exact ⟨owner, ownerOf_candidate hroot howner, .inl rfl⟩
      · simp [requirementProvider, hcontains] at hprovider

variable (input)

/-- The requirement flow the worklist derives from. -/
def rules : Rules CapabilityBindingKey CapabilityRequirement where
  roots := {key | key ∈ input.roots.keys}
  candidates := {key | key ∈ input.requirements.keys ∧ key ∉ input.roots.keys}
  requirements key := {requirement | requirement ∈ input.requirementsOf key}
  provides key := {requirement | input.Provides key requirement}
  provider := input.providerOf
  provider_provides _ _ hprovider hcandidate := provides_of_providerOf hprovider hcandidate.2

/-- Requirements are kept for candidates that are not roots. -/
structure WellFormed : Prop where
  not_root : ∀ key ∈ input.requirements.keys, key ∉ input.roots.keys
  candidate : ∀ key ∈ input.requirements.keys, key ∈ input.candidates.keys
  nodup : ∀ key, (input.requirementsOf key).Nodup

variable {input}

theorem mem_rules_candidates (hwell : input.WellFormed) :
    key ∈ input.rules.candidates ↔ key ∈ input.requirements.keys :=
  ⟨And.left, fun hkey => ⟨hkey, hwell.not_root key hkey⟩⟩

theorem uniqueProviders_of_parameters (hwell : input.WellFormed)
    (hok : input.parameterByReference = .ok parameters) : input.rules.UniqueProviders := by
  rintro key ⟨hkey, hroot⟩ requirement ⟨owner, howner, hprovides⟩
  obtain ⟨candidate, hcandidate⟩ := KeyedMap.mem_keys_iff.mp (hwell.candidate key hkey)
  rw [ownerOf_candidate hroot hcandidate] at howner
  have howner : candidate = owner := Option.some.inj howner
  subst howner
  change input.providerOf requirement = some key
  simp only [providerOf, hok]
  rcases input.parameterByReference_cases with hfail | ⟨table, htable, hget⟩
  · rw [hfail] at hok
    cases hok
  · rw [hok] at htable
    cases htable
    rcases hprovides with rfl | ⟨reference, hreference, rfl⟩
    · have hcontains : input.candidates.containsKey key = true :=
        KeyedMap.containsKey_iff.mpr (hwell.candidate key hkey)
      simp [requirementProvider, hcontains]
    · exact (hget reference key).mpr
        (mem_candidateReferences.mpr ⟨candidate, hcandidate, hreference⟩)

end PromotionInput

open PromotionInput

variable {input : PromotionInput} {key : CapabilityBindingKey}

section Callers

variable {modules : LoadedModules} {reachable : ReachableUnits}
  {index : ReachableStaticCallIndex} {candidates owned : CapabilityOwners}
  {ownedReferences : List CapabilityReferenceKey} {owner : CapabilityOwner}

variable {calls : List ResolvedStaticCall} {requirements : List CapabilityRequirement}

theorem callRequirements_eq_some
    (hok : callRequirements modules candidates owner calls = .ok (some requirements)) :
    List.Forall₂ (fun indexed requirement =>
      exactCapabilityRequirement modules indexed.caller indexed.call owner candidates =
        .ok (some requirement)) calls requirements := by
  induction calls generalizing requirements with
  | nil =>
    cases hok
    exact .nil
  | cons indexed rest ih =>
    obtain ⟨first, hfirst, hok⟩ := Fallible.bind_eq_ok.mp hok
    cases first with
    | none => cases hok
    | some requirement =>
      obtain ⟨later, hlater, hok⟩ := Fallible.bind_eq_ok.mp hok
      cases later with
      | none => cases hok
      | some later =>
        cases hok
        exact .cons hfirst (ih hlater)

/-- What it takes for a binding to have requirements. -/
theorem capabilityParameterRequirements_eq_some
    (hok : capabilityParameterRequirements modules reachable index candidates owner =
      .ok (some requirements)) :
    ∃ target calls, owner.parameterIndex.isSome ∧
      capabilityParameterTarget reachable owner = .ok target ∧
      index.dispatchIsExact target = true ∧ index.callsTo target ≠ [] ∧
      callRequirements modules candidates owner (index.callsTo target) =
        .ok (some calls) ∧ requirements = calls.dedup := by
  rw [capabilityParameterRequirements] at hok
  cases hparameter : owner.parameterIndex with
  | none => simp [hparameter] at hok
  | some position =>
    simp only [hparameter] at hok
    obtain ⟨target, htarget, hok⟩ := Fallible.bind_eq_ok.mp hok
    by_cases hexact : index.dispatchIsExact target = true
    · simp only [hexact, Bool.not_true, Bool.false_eq_true, if_false] at hok
      by_cases hcalls : index.callsTo target = []
      · simp [hcalls] at hok
        cases hok
      · rw [if_neg (by simpa using hcalls)] at hok
        obtain ⟨calls, hrequirements, hok⟩ := Fallible.bind_eq_ok.mp hok
        cases calls with
        | none => cases hok
        | some calls =>
          cases hok
          exact ⟨target, calls, rfl, htarget, hexact, hcalls, hrequirements, rfl⟩
    · simp only [hexact, Bool.not_false, if_true] at hok
      cases hok

theorem anyM_exactOwned (hrequirements : List.Forall₂ (fun indexed requirement =>
      exactCapabilityRequirement modules indexed.caller indexed.call owner candidates =
        .ok (some requirement)) calls requirements) :
    calls.anyM (exactOwnedCapabilityArgument modules candidates owned ownedReferences
      owner) =
      .ok (requirements.any
        (capabilityRequirementIsSatisfied owned ownedReferences)) := by
  induction hrequirements with
  | nil => rfl
  | @cons indexed requirement rest later hfirst _ ih =>
    have hexact : exactOwnedCapabilityArgument modules candidates owned ownedReferences
        owner indexed =
        .ok (capabilityRequirementIsSatisfied owned ownedReferences requirement) := by
      rw [exactOwnedCapabilityArgument, hfirst]
      rfl
    rw [anyM_cons, hexact, any_cons]
    cases hsatisfied : capabilityRequirementIsSatisfied owned ownedReferences requirement with
    | false => exact ih
    | true => rfl

variable (modules reachable index)

/-- The kept requirements are those of the candidates that are not roots. -/
def PromotionInput.Describes (input : PromotionInput) : Prop :=
  ∀ key requirements, input.requirements.get? key = some requirements →
    key ∉ input.roots.keys ∧ ∃ owner, input.candidates.get? key = some owner ∧
      capabilityParameterRequirements modules reachable index input.candidates owner =
        .ok (some requirements)

variable {modules reachable index}

theorem PromotionInput.Describes.wellFormed
    (hdescribes : input.Describes modules reachable index) : input.WellFormed where
  not_root key hkey := by
    obtain ⟨requirements, hget⟩ := KeyedMap.mem_keys_iff.mp hkey
    exact (hdescribes key requirements hget).1
  candidate key hkey := by
    obtain ⟨requirements, hget⟩ := KeyedMap.mem_keys_iff.mp hkey
    obtain ⟨_, owner, howner, _⟩ := hdescribes key requirements hget
    exact KeyedMap.mem_keys_of_get? howner
  nodup key := by
    rw [requirementsOf]
    cases hget : input.requirements.get? key with
    | none => exact nodup_nil
    | some requirements =>
      obtain ⟨_, owner, _, hok⟩ := hdescribes key requirements hget
      obtain ⟨_, calls, _, _, _, _, _, rfl⟩ := capabilityParameterRequirements_eq_some hok
      exact calls.nodup_dedup

end Callers

end ConvexWasm.Compiler
