import ConvexWasm.ShardPlanner.WellFormed

/-!
# Plans do not depend on the order of the units

Planning looks units up by their code identities and sorts everything else by
identities, so it makes no difference where a unit stands in a request.  The
lists inside a unit are accepted in their sorted order only.
-/

namespace ConvexWasm.ShardPlanner

open Fallible List

section Descriptions

variable {value description description' result : String} {values normalized : List String}
  {allowEmpty : Bool} {index index' : ℕ} {number checked : ℤ} {unit normalizedUnit : LogicalUnit}

/-- What is accepted does not depend on the description in the messages. -/
theorem requireSha256_description (hok : requireSha256 value description = .ok result) :
    requireSha256 value description' = .ok result := by
  unfold requireSha256 at hok ⊢
  split
  · rename_i hdigest
    rwa [if_pos hdigest] at hok
  · rename_i hdigest
    rw [if_neg hdigest] at hok
    cases hok

theorem requireSha256s_description
    (hok : requireSha256s description index values = .ok normalized) :
    requireSha256s description' index' values = .ok normalized := by
  induction values generalizing index index' normalized with
  | nil => exact hok
  | cons member rest ih =>
    rw [requireSha256s] at hok ⊢
    obtain ⟨head, hhead, htail⟩ := bind_eq_ok.mp hok
    obtain ⟨later, hlater, hlast⟩ := bind_eq_ok.mp htail
    rw [requireSha256_description hhead, ok_bind, ih hlater, ok_bind]
    exact hlast

theorem requireCanonicalSha256Set_description
    (hok : requireCanonicalSha256Set values description allowEmpty = .ok normalized) :
    requireCanonicalSha256Set values description' allowEmpty = .ok normalized := by
  unfold requireCanonicalSha256Set at hok ⊢
  split
  · rename_i hempty
    rw [if_pos hempty] at hok
    cases hok
  · rename_i hempty
    rw [if_neg hempty] at hok
    obtain ⟨found, hfound, hchecked⟩ := bind_eq_ok.mp hok
    rw [requireSha256s_description hfound, ok_bind]
    split
    · rename_i hchain
      rwa [if_pos hchain] at hchecked
    · rename_i hchain
      rw [if_neg hchain] at hchecked
      cases hchecked

theorem requireNonNegativeSafeInteger_description
    (hok : requireNonNegativeSafeInteger number description = .ok checked) :
    requireNonNegativeSafeInteger number description' = .ok checked := by
  unfold requireNonNegativeSafeInteger at hok ⊢
  split
  · rename_i hsafe
    rwa [if_pos hsafe] at hok
  · rename_i hsafe
    rw [if_neg hsafe] at hok
    cases hok

theorem normalizeLogicalUnitMaterial_description
    (hok : normalizeLogicalUnitMaterial unit description = .ok normalizedUnit) :
    normalizeLogicalUnitMaterial unit description' = .ok normalizedUnit := by
  unfold normalizeLogicalUnitMaterial at hok ⊢
  split
  · rename_i hkind
    rw [if_pos hkind] at hok
    cases hok
  · rename_i hkind
    rw [if_neg hkind] at hok
    obtain ⟨binding, hbinding, hok⟩ := bind_eq_ok.mp hok
    obtain ⟨code, hcode, hok⟩ := bind_eq_ok.mp hok
    obtain ⟨dependencies, hdependencies, hok⟩ := bind_eq_ok.mp hok
    obtain ⟨occurrences, hoccurrences, hok⟩ := bind_eq_ok.mp hok
    obtain ⟨weight, hweight, hok⟩ := bind_eq_ok.mp hok
    obtain ⟨sha256, hsha256, hok⟩ := bind_eq_ok.mp hok
    rw [requireSha256_description hbinding, ok_bind, requireSha256_description hcode, ok_bind,
      requireCanonicalSha256Set_description hdependencies, ok_bind,
      requireCanonicalSha256Set_description hoccurrences, ok_bind,
      requireNonNegativeSafeInteger_description hweight, ok_bind,
      requireSha256_description hsha256, ok_bind]
    exact hok

theorem normalizeAuthenticatedLogicalUnit_index {fingerprint : Payload → String}
    {authenticated result : AuthenticatedLogicalUnit}
    (hok : normalizeAuthenticatedLogicalUnit fingerprint authenticated index = .ok result) :
    normalizeAuthenticatedLogicalUnit fingerprint authenticated index' = .ok result := by
  unfold normalizeAuthenticatedLogicalUnit at hok ⊢
  dsimp only at hok ⊢
  obtain ⟨normalized, hnormalized, hok⟩ := bind_eq_ok.mp hok
  obtain ⟨identity, hidentity, hok⟩ := bind_eq_ok.mp hok
  rw [normalizeLogicalUnitMaterial_description hnormalized, ok_bind,
    requireSha256_description hidentity, ok_bind]
  split
  · rename_i hforged
    rw [if_pos hforged] at hok
    cases hok
  · rename_i hforged
    rwa [if_neg hforged] at hok

end Descriptions

section Admission

variable {fingerprint : Payload → String} {units units' admitted rest : List AuthenticatedLogicalUnit}
  {index : ℕ}

theorem Admissible.accepted (hadmissible : Admissible fingerprint (admitted ++ rest)) :
    admitLogicalUnits fingerprint index admitted rest = .ok (admitted ++ rest) := by
  induction rest generalizing index admitted with
  | nil => rw [admitLogicalUnits, List.append_nil]
  | cons unit rest ih =>
    obtain ⟨position, hnormalized⟩ := hadmissible.normalized unit
      (mem_append_right _ mem_cons_self)
    have hcompatible : ∀ variant ∈ admitted, Compatible variant unit := fun variant hvariant =>
      (pairwise_append.mp hadmissible.compatible).2.2 variant hvariant unit
        mem_cons_self
    have hcodes : ¬ admitted.any (·.codeIdentitySha256 = unit.codeIdentitySha256) = true := by
      rw [any_eq_true]
      rintro ⟨variant, hvariant, heq⟩
      exact (hcompatible variant hvariant).codeIdentity (of_decide_eq_true heq)
    have hlogical : ¬ admitted.any (·.logicalUnitSha256 = unit.logicalUnitSha256) = true := by
      rw [any_eq_true]
      rintro ⟨variant, hvariant, heq⟩
      exact (hcompatible variant hvariant).logicalUnit (of_decide_eq_true heq)
    have hvariants : ¬ (admitted.any fun variant =>
        variant.bindingIdentitySha256 = unit.bindingIdentitySha256 &&
          variant.occurrences.any (· ∈ unit.occurrences)) = true := by
      rw [any_eq_true]
      rintro ⟨variant, hvariant, heq⟩
      rw [Bool.and_eq_true, any_eq_true] at heq
      obtain ⟨hbinding, occurrence, hfirst, hsecond⟩ := heq
      exact (hcompatible variant hvariant).occurrences (of_decide_eq_true hbinding) occurrence
        hfirst (of_decide_eq_true hsecond)
    rw [admitLogicalUnits, normalizeAuthenticatedLogicalUnit_index hnormalized, ok_bind,
      if_neg hcodes, if_neg hlogical, if_neg hvariants]
    rw [append_cons admitted unit rest] at hadmissible ⊢
    exact ih hadmissible

theorem Admissible.perm (hadmissible : Admissible fingerprint units) (hperm : units.Perm units') :
    Admissible fingerprint units' where
  normalized unit hunit := hadmissible.normalized unit (hperm.mem_iff.mpr hunit)
  compatible := (hperm.pairwise_iff fun hcompatible => hcompatible.symm).mp hadmissible.compatible

theorem requireKnownDependencies_perm (hperm : units.Perm units') :
    requireKnownDependencies units = .ok () ↔ requireKnownDependencies units' = .ok () := by
  simp only [requireKnownDependencies_eq_ok, hperm.mem_iff]

theorem Admitted.unitByCodeIdentity_perm (hadmitted : Admitted units) (hadmitted' : Admitted units')
    (hperm : units.Perm units') : unitByCodeIdentity units = unitByCodeIdentity units' := by
  funext code
  cases hfound : unitByCodeIdentity units code with
  | some unit =>
    obtain ⟨hunit, rfl⟩ := unitByCodeIdentity_mem hfound
    exact (hadmitted'.unitByCodeIdentity_eq (hperm.mem_iff.mp hunit)).symm
  | none =>
    cases hfound' : unitByCodeIdentity units' code with
    | none => rfl
    | some unit =>
      obtain ⟨hunit, rfl⟩ := unitByCodeIdentity_mem hfound'
      rw [hadmitted.unitByCodeIdentity_eq (hperm.mem_iff.mpr hunit)] at hfound
      cases hfound

end Admission

section Planning

variable {fingerprint : Payload → String} {units units' : List AuthenticatedLogicalUnit}
  {policy : Policy} {request request' : PlanningRequest} {plan : Plan}

theorem planUnits_perm (hlookup : unitByCodeIdentity units = unitByCodeIdentity units')
    (hperm : units.Perm units') :
    planUnits fingerprint units policy = planUnits fingerprint units' policy := by
  have hdependencies : dependenciesOf units = dependenciesOf units' := by
    funext code
    rw [dependenciesOf, dependenciesOf, hlookup]
  have hclasses : stronglyConnectedComponents units = stronglyConnectedComponents units' := by
    rw [stronglyConnectedComponents, stronglyConnectedComponents, hdependencies,
      sortStrings_eq_of_perm (hperm.map _)]
  have hmembers : membersOf units = membersOf units' := by
    funext codes
    rw [membersOf, membersOf, hlookup]
  have hbinding : bindingUnit units = bindingUnit units' := by
    funext unit
    rw [bindingUnit, bindingUnit, hlookup]
  have hbuild : buildComponent fingerprint units = buildComponent fingerprint units' := by
    funext codes
    rw [buildComponent, buildComponent, hmembers, hbinding]
  have hconnect : connect units = connect units' := by
    funext components
    rw [connect, connect, hdependencies]
  have hcomponents : buildComponents fingerprint units policy =
      buildComponents fingerprint units' policy := by
    rw [buildComponents, buildComponents, hclasses, hbuild, hconnect]
  rw [planUnits, planUnits, hcomponents]

/-- What it takes for a request to be accepted. -/
theorem planConvexWasmPhysicalShards_ok_iff :
    planConvexWasmPhysicalShards fingerprint request = .ok plan ↔
      request.kind = convexWasmPhysicalShardPlanningRequestKind ∧
        Admissible fingerprint request.logicalUnits ∧
        requireKnownDependencies request.logicalUnits = .ok () ∧
        ∃ policy, normalizePolicy fingerprint request.policy = .ok policy ∧
          planUnits fingerprint request.logicalUnits policy = .ok plan := by
  unfold planConvexWasmPhysicalShards
  constructor
  · intro hok
    split at hok
    · cases hok
    · rename_i hkind
      obtain ⟨policy, hpolicy, hunits⟩ := bind_eq_ok.mp hok
      obtain ⟨units, hadmit, hknown⟩ := bind_eq_ok.mp hunits
      obtain ⟨_, hchecked, hplan⟩ := bind_eq_ok.mp hknown
      obtain ⟨rfl, hadmissible⟩ := admitLogicalUnits_eq_ok hadmit ⟨nofun, List.Pairwise.nil⟩
      exact ⟨not_not.mp hkind, hadmissible, hchecked, policy, hpolicy, hplan⟩
  · rintro ⟨hkind, hadmissible, hknown, policy, hpolicy, hplan⟩
    have hadmit := @Admissible.accepted fingerprint [] request.logicalUnits 0 hadmissible
    rw [if_neg (not_not.mpr hkind), hpolicy, ok_bind, hadmit, ok_bind, nil_append, hknown,
      ok_bind, hplan]

theorem planConvexWasmPhysicalShards_perm (hkind : request'.kind = request.kind)
    (hpolicy : request'.policy = request.policy)
    (hperm : request.logicalUnits.Perm request'.logicalUnits)
    (hok : planConvexWasmPhysicalShards fingerprint request = .ok plan) :
    planConvexWasmPhysicalShards fingerprint request' = .ok plan := by
  obtain ⟨hrequest, hadmissible, hknown, policy, hnormalized, hplan⟩ :=
    planConvexWasmPhysicalShards_ok_iff.mp hok
  have hadmissible' := hadmissible.perm hperm
  have hknown' := (requireKnownDependencies_perm hperm).mp hknown
  have hlookup := (hadmissible.toAdmitted hknown).unitByCodeIdentity_perm
    (hadmissible'.toAdmitted hknown') hperm
  apply planConvexWasmPhysicalShards_ok_iff.mpr
  refine ⟨hkind.trans hrequest, hadmissible', hknown', policy, hpolicy ▸ hnormalized, ?_⟩
  rw [← planUnits_perm hlookup hperm]
  exact hplan

/-- The same unit with its lists in another order. -/
structure Shuffled (unit unit' : AuthenticatedLogicalUnit) : Prop where
  bindingIdentitySha256 : unit'.bindingIdentitySha256 = unit.bindingIdentitySha256
  codeIdentitySha256 : unit'.codeIdentitySha256 = unit.codeIdentitySha256
  dependencies : unit.dependencies.Perm unit'.dependencies
  kind : unit'.kind = unit.kind
  occurrences : unit.occurrences.Perm unit'.occurrences
  picObject : unit'.picObject = unit.picObject
  shareable : unit'.shareable = unit.shareable

theorem eq_of_isChain_of_perm {values values' : List String} (hchain : values.IsChain (· < ·))
    (hchain' : values'.IsChain (· < ·)) (hperm : values.Perm values') : values = values' :=
  List.Perm.eq_of_pairwise (fun _ _ _ _ hlt hgt => absurd hgt hlt.asymm)
    (isChain_iff_pairwise.mp hchain) (isChain_iff_pairwise.mp hchain') hperm

theorem normalizeAuthenticatedLogicalUnit_identity {unit : AuthenticatedLogicalUnit} {index : ℕ}
    (hok : normalizeAuthenticatedLogicalUnit fingerprint unit index = .ok unit) :
    unit.logicalUnitSha256 = fingerprint (.logicalUnit unit.toLogicalUnit) := by
  obtain ⟨normalized, hnormalized, hok⟩ := bind_eq_ok.mp hok
  obtain ⟨identity, hidentity, hok⟩ := bind_eq_ok.mp hok
  obtain ⟨rfl, _⟩ := normalizeLogicalUnitMaterial_eq_ok hnormalized
  rw [requireSha256_eq_ok hidentity] at hok
  split at hok
  · cases hok
  · rename_i hidentityEq
    exact not_not.mp hidentityEq

/-- Only the sorted lists are accepted. -/
theorem Shuffled.eq {unit unit' : AuthenticatedLogicalUnit} (hshuffled : Shuffled unit unit')
    {index index' : ℕ} (hok : normalizeAuthenticatedLogicalUnit fingerprint unit index = .ok unit)
    (hok' : normalizeAuthenticatedLogicalUnit fingerprint unit' index' = .ok unit') :
    unit = unit' := by
  have hcanonical := (normalizeAuthenticatedLogicalUnit_eq_ok hok).2
  have hcanonical' := (normalizeAuthenticatedLogicalUnit_eq_ok hok').2
  have hdependencies := eq_of_isChain_of_perm hcanonical.dependencies hcanonical'.dependencies
    hshuffled.dependencies
  have hoccurrences := eq_of_isChain_of_perm hcanonical.occurrences hcanonical'.occurrences
    hshuffled.occurrences
  have hmaterial : unit.toLogicalUnit = unit'.toLogicalUnit := by
    apply LogicalUnit.ext
    · exact hshuffled.bindingIdentitySha256.symm
    · exact hshuffled.codeIdentitySha256.symm
    · exact hdependencies
    · exact hshuffled.kind.symm
    · exact hoccurrences
    · exact hshuffled.picObject.symm
    · exact hshuffled.shareable.symm
  calc unit = ⟨unit.toLogicalUnit, unit.logicalUnitSha256⟩ := rfl
    _ = ⟨unit'.toLogicalUnit, unit'.logicalUnitSha256⟩ := by
      rw [normalizeAuthenticatedLogicalUnit_identity hok,
        normalizeAuthenticatedLogicalUnit_identity hok', hmaterial]
    _ = unit' := rfl

theorem eq_of_forall₂_shuffled (hshuffled : List.Forall₂ Shuffled units units')
    (hok : ∀ unit ∈ units, ∃ index,
      normalizeAuthenticatedLogicalUnit fingerprint unit index = .ok unit)
    (hok' : ∀ unit ∈ units', ∃ index,
      normalizeAuthenticatedLogicalUnit fingerprint unit index = .ok unit) : units = units' := by
  induction hshuffled with
  | nil => rfl
  | cons hhead _ ih =>
    obtain ⟨index, hunit⟩ := hok _ mem_cons_self
    obtain ⟨index', hunit'⟩ := hok' _ mem_cons_self
    rw [hhead.eq hunit hunit', ih (fun unit hmem => hok unit (mem_cons_of_mem _ hmem))
      fun unit hmem => hok' unit (mem_cons_of_mem _ hmem)]

/-- The order of the units makes no difference, and the lists inside the units
are accepted in one order only. -/
theorem plan_order_independent (fingerprint : Payload → String) (request request' : PlanningRequest)
    (hkind : request'.kind = request.kind) (hpolicy : request'.policy = request.policy)
    (units : List AuthenticatedLogicalUnit) (hperm : request.logicalUnits.Perm units)
    (hshuffled : List.Forall₂ Shuffled units request'.logicalUnits) :
    (request'.logicalUnits = units → ∀ plan,
      planConvexWasmPhysicalShards fingerprint request = .ok plan ↔
        planConvexWasmPhysicalShards fingerprint request' = .ok plan) ∧
    ∀ plan plan', planConvexWasmPhysicalShards fingerprint request = .ok plan →
      planConvexWasmPhysicalShards fingerprint request' = .ok plan' →
        request'.logicalUnits = units ∧ plan' = plan := by
  have hsame : request'.logicalUnits = units → ∀ plan,
      planConvexWasmPhysicalShards fingerprint request = .ok plan ↔
        planConvexWasmPhysicalShards fingerprint request' = .ok plan := by
    intro heq plan
    rw [← heq] at hperm
    exact ⟨planConvexWasmPhysicalShards_perm hkind hpolicy hperm,
      planConvexWasmPhysicalShards_perm hkind.symm hpolicy.symm hperm.symm⟩
  refine ⟨hsame, fun plan plan' hok hok' => ?_⟩
  have hadmissible := (planConvexWasmPhysicalShards_ok_iff.mp hok).2.1.perm hperm
  have hadmissible' := (planConvexWasmPhysicalShards_ok_iff.mp hok').2.1
  have heq : request'.logicalUnits = units :=
    (eq_of_forall₂_shuffled hshuffled hadmissible.normalized hadmissible'.normalized).symm
  have hboth := (hsame heq plan).mp hok
  exact ⟨heq, Except.ok.inj (hok'.symm.trans hboth)⟩

theorem plan_order_independent_of_sample :
    {plan | planConvexWasmPhysicalShards sampleFingerprint (sampleRequest sampleUnits) =
        .ok plan} =
      {plan | planConvexWasmPhysicalShards sampleFingerprint (sampleRequest sampleUnits.reverse) =
        .ok plan} :=
  Set.ext <| (plan_order_independent sampleFingerprint (sampleRequest sampleUnits)
    (sampleRequest sampleUnits.reverse) rfl rfl sampleUnits.reverse
    (reverse_perm sampleUnits).symm (List.forall₂_same.mpr fun _ _ =>
      ⟨rfl, rfl, .refl _, rfl, .refl _, rfl, rfl⟩)).1 rfl

/-- The sample with the occurrences of each unit in the other order. -/
def shuffledUnits : List AuthenticatedLogicalUnit :=
  sampleUnits.map fun unit => { unit with occurrences := unit.occurrences.reverse }

theorem shuffledUnits_shuffled : List.Forall₂ Shuffled sampleUnits shuffledUnits := by
  apply List.forall₂_map_right_iff.mpr
  apply List.forall₂_same.mpr
  intro unit _
  exact ⟨rfl, rfl, .refl _, rfl, (reverse_perm _).symm, rfl, rfl⟩

/-- A request is accepted, and the one with shuffled occurrences is not. -/
theorem plan_depends_on_inner_order :
    ¬ ∀ fingerprint (request request' : PlanningRequest), request'.kind = request.kind →
      request'.policy = request.policy →
      List.Forall₂ Shuffled request.logicalUnits request'.logicalUnits →
      (∀ plan, planConvexWasmPhysicalShards fingerprint request ≠ .ok plan) ∧
          (∀ plan, planConvexWasmPhysicalShards fingerprint request' ≠ .ok plan) ∨
        ∃ plan, planConvexWasmPhysicalShards fingerprint request = .ok plan ∧
          planConvexWasmPhysicalShards fingerprint request' = .ok plan := by
  intro hall
  have haccepted : (planConvexWasmPhysicalShards sampleFingerprint
      (sampleRequest sampleUnits)).toOption.isSome = true := by
    decide +kernel
  have hrejected : (planConvexWasmPhysicalShards sampleFingerprint
      (sampleRequest shuffledUnits)).toOption = none := by
    decide +kernel
  obtain ⟨plan, hplan⟩ := Option.isSome_iff_exists.mp haccepted
  rcases hall sampleFingerprint (sampleRequest sampleUnits) (sampleRequest shuffledUnits) rfl rfl
    shuffledUnits_shuffled with ⟨hnone, _⟩ | ⟨other, _, hother⟩
  · exact hnone plan (toOption_eq_some.mp hplan)
  · rw [toOption_eq_some.mpr hother] at hrejected
    cases hrejected

end Planning

end ConvexWasm.ShardPlanner
