import ConvexWasm.Core.Fallible
import ConvexWasm.ShardPlanner.Components

/-!
# What an admitted request has

Validation changes nothing: the units that are admitted are those of the
request, with canonical sets, safe weights, distinct code identities, known
dependencies, and no two units of one binding in one cohort.
-/

namespace ConvexWasm.ShardPlanner

open Fallible List

variable {description : String} {index : ℕ}

section Checks

variable {value : String} {values normalized : List String} {allowEmpty : Bool}
  {number checked left right : ℤ}

theorem requireSha256_eq_ok {result : String} (hok : requireSha256 value description = .ok result) :
    result = value := by
  unfold requireSha256 at hok
  split at hok
  · cases hok
    rfl
  · cases hok

theorem requireSha256s_eq_ok (hok : requireSha256s description index values = .ok normalized) :
    normalized = values := by
  induction values generalizing index normalized with
  | nil =>
    cases hok
    rfl
  | cons member rest ih =>
    obtain ⟨head, hhead, hok⟩ := bind_eq_ok.mp hok
    obtain ⟨later, hlater, hok⟩ := bind_eq_ok.mp hok
    cases hok
    rw [requireSha256_eq_ok hhead, ih hlater]

theorem requireCanonicalSha256Set_eq_ok
    (hok : requireCanonicalSha256Set values description allowEmpty = .ok normalized) :
    normalized = values ∧ values.IsChain (· < ·) ∧ (allowEmpty = false → values ≠ []) := by
  unfold requireCanonicalSha256Set at hok
  split at hok
  · cases hok
  · rename_i hempty
    obtain ⟨found, hfound, hchecked⟩ := bind_eq_ok.mp hok
    rw [requireSha256s_eq_ok hfound] at hchecked
    split at hchecked
    · rename_i hchain
      cases hchecked
      exact ⟨rfl, hchain, fun hallow hnil => hempty ⟨hallow, hnil⟩⟩
    · cases hchecked

theorem requireNonNegativeSafeInteger_eq_ok
    (hok : requireNonNegativeSafeInteger number description = .ok checked) :
    checked = number ∧ 0 ≤ number := by
  unfold requireNonNegativeSafeInteger at hok
  split at hok
  · rename_i hsafe
    cases hok
    exact ⟨rfl, hsafe.2⟩
  · cases hok

theorem requirePositiveSafeInteger_eq_ok
    (hok : requirePositiveSafeInteger number description = .ok checked) :
    checked = number ∧ 0 < number ∧ number ≤ maxSafeInteger := by
  unfold requirePositiveSafeInteger at hok
  split at hok
  · rename_i hsafe
    cases hok
    exact ⟨rfl, hsafe.2, hsafe.1⟩
  · cases hok

theorem addSafeIntegers_eq_ok (hok : addSafeIntegers left right description = .ok checked) :
    checked = left + right := by
  unfold addSafeIntegers at hok
  split at hok
  · cases hok
  · cases hok
    rfl

theorem addSafeIntegers_of_le (hle : left + right ≤ maxSafeInteger) :
    addSafeIntegers left right description = .ok (left + right) := by
  unfold addSafeIntegers
  rw [if_neg (by omega)]

end Checks

variable {fingerprint : Payload → String}

section Units

variable {unit normalized : LogicalUnit} {authenticated result : AuthenticatedLogicalUnit}

/-- The parts of a unit that planning relies on. -/
structure Canonical (unit : LogicalUnit) : Prop where
  dependencies : unit.dependencies.IsChain (· < ·)
  occurrences : unit.occurrences.IsChain (· < ·)
  occurrences_nonempty : unit.occurrences ≠ []
  byteWeight : 0 ≤ unit.picObject.byteWeight

theorem normalizeLogicalUnitMaterial_eq_ok
    (hok : normalizeLogicalUnitMaterial unit description = .ok normalized) :
    normalized = unit ∧ Canonical unit := by
  unfold normalizeLogicalUnitMaterial at hok
  split at hok
  · cases hok
  · obtain ⟨binding, hbinding, hok⟩ := bind_eq_ok.mp hok
    obtain ⟨code, hcode, hok⟩ := bind_eq_ok.mp hok
    obtain ⟨dependencies, hdependencies, hok⟩ := bind_eq_ok.mp hok
    obtain ⟨occurrences, hoccurrences, hok⟩ := bind_eq_ok.mp hok
    obtain ⟨weight, hweight, hok⟩ := bind_eq_ok.mp hok
    obtain ⟨sha256, hsha256, hok⟩ := bind_eq_ok.mp hok
    obtain ⟨hdependenciesEq, hdependenciesChain, _⟩ := requireCanonicalSha256Set_eq_ok hdependencies
    obtain ⟨hoccurrencesEq, hoccurrencesChain, hnonempty⟩ :=
      requireCanonicalSha256Set_eq_ok hoccurrences
    obtain ⟨hweightEq, hnonneg⟩ := requireNonNegativeSafeInteger_eq_ok hweight
    cases hok
    rw [requireSha256_eq_ok hbinding, requireSha256_eq_ok hcode, requireSha256_eq_ok hsha256,
      hdependenciesEq, hoccurrencesEq, hweightEq]
    exact ⟨rfl, hdependenciesChain, hoccurrencesChain, hnonempty rfl, hnonneg⟩

theorem normalizeAuthenticatedLogicalUnit_eq_ok
    (hok : normalizeAuthenticatedLogicalUnit fingerprint authenticated index = .ok result) :
    result = authenticated ∧ Canonical authenticated.toLogicalUnit := by
  obtain ⟨normalized, hnormalized, hok⟩ := bind_eq_ok.mp hok
  obtain ⟨identity, hidentity, hok⟩ := bind_eq_ok.mp hok
  obtain ⟨rfl, hcanonical⟩ := normalizeLogicalUnitMaterial_eq_ok hnormalized
  split at hok
  · cases hok
  · cases hok
    rw [requireSha256_eq_ok hidentity]
    exact ⟨rfl, hcanonical⟩

end Units

section Requests

variable {units admitted rawUnits result : List AuthenticatedLogicalUnit}
  {unit : AuthenticatedLogicalUnit} {code : String}

/-- Two units may be admitted together. -/
structure Compatible (first second : AuthenticatedLogicalUnit) : Prop where
  codeIdentity : first.codeIdentitySha256 ≠ second.codeIdentitySha256
  logicalUnit : first.logicalUnitSha256 ≠ second.logicalUnitSha256
  occurrences : first.bindingIdentitySha256 = second.bindingIdentitySha256 →
    ∀ occurrence ∈ first.occurrences, occurrence ∉ second.occurrences

theorem Compatible.symm {first second : AuthenticatedLogicalUnit}
    (hcompatible : Compatible first second) : Compatible second first where
  codeIdentity := hcompatible.codeIdentity.symm
  logicalUnit := hcompatible.logicalUnit.symm
  occurrences hbinding occurrence hsecond hfirst :=
    hcompatible.occurrences hbinding.symm occurrence hfirst hsecond

/-- What the loop over the units accepts: all of them, as they are. -/
structure Admissible (fingerprint : Payload → String) (units : List AuthenticatedLogicalUnit) :
    Prop where
  normalized : ∀ unit ∈ units, ∃ index,
    normalizeAuthenticatedLogicalUnit fingerprint unit index = .ok unit
  compatible : units.Pairwise Compatible

theorem admitLogicalUnits_eq_ok
    (hok : admitLogicalUnits fingerprint index admitted rawUnits = .ok result)
    (hadmitted : Admissible fingerprint admitted) :
    result = admitted ++ rawUnits ∧ Admissible fingerprint (admitted ++ rawUnits) := by
  induction rawUnits generalizing index admitted with
  | nil =>
    cases hok
    rw [List.append_nil]
    exact ⟨rfl, hadmitted⟩
  | cons rawUnit rest ih =>
    obtain ⟨unit, hunit, hchecked⟩ := bind_eq_ok.mp hok
    obtain ⟨rfl, _⟩ := normalizeAuthenticatedLogicalUnit_eq_ok hunit
    split at hchecked
    · cases hchecked
    · rename_i hcode
      split at hchecked
      · cases hchecked
      · rename_i hlogical
        split at hchecked
        · cases hchecked
        · rename_i hvariants
          have hcompatible : ∀ variant ∈ admitted, Compatible variant unit := by
            intro variant hvariant
            constructor
            · intro heq
              exact hcode (any_eq_true.mpr ⟨variant, hvariant, decide_eq_true heq⟩)
            · intro heq
              exact hlogical (any_eq_true.mpr ⟨variant, hvariant, decide_eq_true heq⟩)
            · intro hbinding occurrence hfirst hsecond
              apply hvariants
              refine any_eq_true.mpr ⟨variant, hvariant, ?_⟩
              rw [Bool.and_eq_true]
              exact ⟨decide_eq_true hbinding,
                any_eq_true.mpr ⟨occurrence, hfirst, decide_eq_true hsecond⟩⟩
          have hlater : Admissible fingerprint (admitted ++ [unit]) :=
            { normalized := fun other hother => by
                rcases mem_append.mp hother with hother | hother
                · exact hadmitted.normalized other hother
                · cases mem_singleton.mp hother
                  exact ⟨index, hunit⟩
              compatible := pairwise_append.mpr
                ⟨hadmitted.compatible, pairwise_singleton _ _, fun first hfirst second hsecond =>
                  mem_singleton.mp hsecond ▸ hcompatible first hfirst⟩ }
          obtain ⟨hresult, hadmissible⟩ := ih hchecked hlater
          rw [append_assoc] at hresult hadmissible
          exact ⟨hresult, hadmissible⟩

/-- The units that planning starts from. -/
structure Admitted (units : List AuthenticatedLogicalUnit) : Prop where
  canonical : ∀ unit ∈ units, Canonical unit.toLogicalUnit
  compatible : units.Pairwise Compatible
  known : ∀ unit ∈ units, ∀ dependency ∈ unit.dependencies,
    ∃ other ∈ units, other.codeIdentitySha256 = dependency

theorem forM_eq_ok {Item : Type} {items : List Item} {check : Item → Except String Unit} :
    items.forM check = .ok () ↔ ∀ item ∈ items, check item = .ok () := by
  induction items with
  | nil => simp [pure, Except.pure]
  | cons item rest ih =>
    change (check item >>= fun _ => rest.forM check) = _ ↔ _
    rw [bind_eq_ok]
    constructor
    · rintro ⟨_, hitem, hrest⟩ other hother
      rcases mem_cons.mp hother with rfl | hother
      · exact hitem
      · exact ih.mp hrest other hother
    · intro hall
      exact ⟨(), hall item mem_cons_self,
        ih.mpr fun other hother => hall other (mem_cons_of_mem _ hother)⟩

theorem requireKnownDependencies_eq_ok :
    requireKnownDependencies units = .ok () ↔ ∀ unit ∈ units, ∀ dependency ∈ unit.dependencies,
      ∃ other ∈ units, other.codeIdentitySha256 = dependency := by
  rw [requireKnownDependencies, forM_eq_ok]
  apply forall₂_congr
  intro unit _
  rw [forM_eq_ok]
  apply forall₂_congr
  intro dependency _
  by_cases hknown : units.any (·.codeIdentitySha256 = dependency) = true
  · rw [if_pos hknown]
    simpa using hknown
  · simpa [fail] using hknown

theorem Admissible.toAdmitted (hadmissible : Admissible fingerprint units)
    (hknown : requireKnownDependencies units = .ok ()) : Admitted units where
  canonical unit hunit := by
    obtain ⟨index, hnormalized⟩ := hadmissible.normalized unit hunit
    exact (normalizeAuthenticatedLogicalUnit_eq_ok hnormalized).2
  compatible := hadmissible.compatible
  known := requireKnownDependencies_eq_ok.mp hknown

theorem unitByCodeIdentity_mem (hfound : unitByCodeIdentity units code = some unit) :
    unit ∈ units ∧ unit.codeIdentitySha256 = code := by
  have hcode := List.find?_some hfound
  exact ⟨mem_of_find?_eq_some hfound, of_decide_eq_true hcode⟩

theorem Admitted.codes_nodup (hadmitted : Admitted units) :
    (units.map (·.codeIdentitySha256)).Nodup := by
  apply pairwise_map.mpr
  exact hadmitted.compatible.imp fun hcompatible => hcompatible.codeIdentity

/-- A code identity finds its unit. -/
theorem Admitted.unitByCodeIdentity_eq (hadmitted : Admitted units) (hunit : unit ∈ units) :
    unitByCodeIdentity units unit.codeIdentitySha256 = some unit := by
  have hcodes := hadmitted.codes_nodup
  cases hfound : unitByCodeIdentity units unit.codeIdentitySha256 with
  | none =>
    have hnone := List.find?_eq_none.mp hfound unit hunit
    exact absurd (decide_eq_true rfl) hnone
  | some found =>
    obtain ⟨hmem, hcode⟩ := unitByCodeIdentity_mem hfound
    exact congrArg some (inj_on_of_nodup_map hcodes hmem hunit hcode)

theorem Admitted.dependenciesOf_eq (hadmitted : Admitted units) (hunit : unit ∈ units) :
    dependenciesOf units unit.codeIdentitySha256 = unit.dependencies := by
  rw [dependenciesOf, hadmitted.unitByCodeIdentity_eq hunit]

end Requests

end ConvexWasm.ShardPlanner
