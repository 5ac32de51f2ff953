import ConvexWasm.Core.TransitionSystem

/-!
# Requirement flow

Keys are granted from a set of roots.  A candidate is granted when granted keys
provide all it requires.  A region of candidates is granted at once when it is
everything the unsatisfied requirements of one of them lead to and a granted
key already provides something to that one.

The second rule is not monotone: what a set still lacks depends on what it
holds.  Still every exhausted run from the roots ends in the same set.
-/

namespace ConvexWasm.RequirementFlow

open Set TransitionSystem

variable {Key Requirement : Type*}

structure Rules (Key Requirement : Type*) where
  roots : Set Key
  candidates : Set Key
  requirements : Key → Set Requirement
  provides : Key → Set Requirement
  /-- The key an unsatisfied requirement is traced to. -/
  provider : Requirement → Option Key
  provider_provides : ∀ requirement key, provider requirement = some key →
    key ∈ candidates → requirement ∈ provides key

namespace Rules

variable (rules : Rules Key Requirement)

def Satisfied (granted : Set Key) (requirement : Requirement) : Prop :=
  ∃ key ∈ granted, requirement ∈ rules.provides key

/-- What the unsatisfied requirements of a key lead to. -/
inductive Region (granted : Set Key) (start : Key) : Key → Prop
  | start : Region granted start start
  | provider {key next : Key} {requirement : Requirement} :
      Region granted start key → requirement ∈ rules.requirements key →
      ¬ rules.Satisfied granted requirement →
      rules.provider requirement = some next → Region granted start next

/-- The region of a key holds nothing but candidates not granted yet, and each
of its unsatisfied requirements is traced to a key. -/
structure RegionClosed (granted : Set Key) (start : Key) : Prop where
  unresolved : ∀ key, rules.Region granted start key → key ∈ rules.candidates ∧ key ∉ granted
  traced : ∀ key, rules.Region granted start key →
    ∀ requirement ∈ rules.requirements key,
      ¬ rules.Satisfied granted requirement →
      ∃ next, rules.provider requirement = some next

/-- A granted key provides something to the candidate. -/
def HasGrantedProvider (granted : Set Key) (key : Key) : Prop :=
  ∃ requirement ∈ rules.requirements key, rules.Satisfied granted requirement

/-- One application of a rule. -/
inductive Grants (granted : Set Key) : Set Key → Prop
  | candidate {key : Key} : key ∈ rules.candidates →
      (∀ requirement ∈ rules.requirements key, rules.Satisfied granted requirement) →
      Grants granted (insert key granted)
  | region {start : Key} : rules.HasGrantedProvider granted start →
      rules.RegionClosed granted start →
      Grants granted (granted ∪ {key | rules.Region granted start key})

/-- The sets some order of rule applications reaches from the roots. -/
def Derived : Set Key → Prop := Reachable (fun granted => granted = rules.roots) rules.Grants

/-- No rule grants a further key. -/
def Exhausted (granted : Set Key) : Prop := ∀ next, rules.Grants granted next → next ⊆ granted

/-- No rule leads out of the set from what the set holds. -/
def RuleClosed (closed : Set Key) : Prop :=
  ∀ granted, rules.roots ⊆ granted → granted ⊆ closed →
    ∀ next, rules.Grants granted next → next ⊆ closed

/-- Every granted key is a root or has all it requires. -/
def Supported (granted : Set Key) : Prop :=
  ∀ key ∈ granted, key ∉ rules.roots → key ∈ rules.candidates ∧
    ∀ requirement ∈ rules.requirements key, rules.Satisfied granted requirement

/-- Tracing finds whatever candidate provides a requirement. -/
def UniqueProviders : Prop :=
  ∀ key ∈ rules.candidates, ∀ requirement ∈ rules.provides key,
    rules.provider requirement = some key

/-- The set needs no region to be granted. -/
def Forward (granted : Set Key) : Prop :=
  ∀ closed, rules.roots ⊆ closed →
    (∀ key ∈ rules.candidates,
      (∀ requirement ∈ rules.requirements key, rules.Satisfied closed requirement) → key ∈ closed) →
    granted ⊆ closed

variable {rules} {granted closed : Set Key}

theorem Satisfied.mono (hsubset : granted ⊆ closed) {requirement : Requirement}
    (hsatisfied : rules.Satisfied granted requirement) : rules.Satisfied closed requirement := by
  obtain ⟨key, hkey, hprovides⟩ := hsatisfied
  exact ⟨key, hsubset hkey, hprovides⟩

/-- A larger set lacks less, so its regions are smaller. -/
theorem Region.anti (hsubset : granted ⊆ closed) {start key : Key}
    (hregion : rules.Region closed start key) : rules.Region granted start key := by
  induction hregion with
  | start => exact .start
  | provider _ hrequirement hunsatisfied hprovider ih =>
    exact ih.provider hrequirement (fun hsatisfied =>
      hunsatisfied (hsatisfied.mono hsubset)) hprovider

/-- In a closed region every requirement is satisfied or provided by the region. -/
theorem RegionClosed.satisfied {start key : Key} (hclosed : rules.RegionClosed granted start)
    (hregion : rules.Region granted start key) {requirement : Requirement}
    (hrequirement : requirement ∈ rules.requirements key) :
    rules.Satisfied (granted ∪ {key | rules.Region granted start key}) requirement := by
  by_cases hsatisfied : rules.Satisfied granted requirement
  · exact hsatisfied.mono subset_union_left
  · obtain ⟨next, hprovider⟩ := hclosed.traced key hregion requirement hrequirement hsatisfied
    have hnext : rules.Region granted start next :=
      hregion.provider hrequirement hsatisfied hprovider
    exact ⟨next, .inr hnext, rules.provider_provides requirement next hprovider
      (hclosed.unresolved next hnext).1⟩

theorem Grants.subset {next : Set Key} (hgrants : rules.Grants granted next) : granted ⊆ next := by
  cases hgrants with
  | candidate => exact subset_insert _ _
  | region => exact subset_union_left

theorem Grants.supported {next : Set Key} (hsupported : rules.Supported granted)
    (hgrants : rules.Grants granted next) : rules.Supported next := by
  have hkept : ∀ key ∈ granted, key ∉ rules.roots → key ∈ rules.candidates ∧
      ∀ requirement ∈ rules.requirements key, rules.Satisfied next requirement := by
    intro key hkey hroot
    obtain ⟨hcandidate, hrequirements⟩ := hsupported key hkey hroot
    exact ⟨hcandidate, fun requirement hrequirement =>
      (hrequirements requirement hrequirement).mono hgrants.subset⟩
  cases hgrants with
  | @candidate granting hcandidate hrequirements =>
    intro key hkey hroot
    rcases Set.mem_insert_iff.mp hkey with rfl | hkey
    · exact ⟨hcandidate, fun requirement hrequirement =>
        (hrequirements requirement hrequirement).mono (subset_insert _ _)⟩
    · exact hkept key hkey hroot
  | @region start hrooted hclosed =>
    intro key hkey hroot
    rcases hkey with hkey | hregion
    · exact hkept key hkey hroot
    · exact ⟨(hclosed.unresolved key hregion).1, fun requirement hrequirement =>
        hclosed.satisfied hregion hrequirement⟩

section

variable (hderived : rules.Derived granted)
include hderived

theorem Derived.supported : rules.Supported granted := by
  refine Reachable.invariant ?_ (fun _ _ hsupported hgrants =>
    hgrants.supported hsupported) hderived
  rintro granted rfl key hkey hroot
  exact absurd hkey hroot

theorem Derived.roots_subset : rules.roots ⊆ granted := by
  refine Reachable.invariant ?_ (fun _ _ hroots hgrants =>
    hroots.trans hgrants.subset) hderived
  rintro granted rfl
  exact subset_rfl

/-- Every order of rule applications stays inside a closed set. -/
theorem Derived.subset_of_ruleClosed (hroots : rules.roots ⊆ closed)
    (hclosed : rules.RuleClosed closed) : granted ⊆ closed := by
  let inside : Set Key → Prop := fun granted =>
    rules.roots ⊆ granted ∧ granted ⊆ closed
  have hinside : inside granted := by
    refine Reachable.invariant ?_ ?_ hderived
    · rintro granted rfl
      exact ⟨subset_rfl, hroots⟩
    · rintro granted next ⟨hrootsGranted, hsubset⟩ hgrants
      exact ⟨hrootsGranted.trans hgrants.subset, hclosed granted hrootsGranted hsubset next hgrants⟩
  exact hinside.2

end

section Confluence

variable (hsupported : rules.Supported closed)

include hsupported

/-- A supported set that holds the start of a region holds the region. -/
theorem region_subset_of_start (hunique : rules.UniqueProviders)
    (hrootsGranted : rules.roots ⊆ granted) {start key : Key}
    (hclosed : rules.RegionClosed granted start) (hstart : start ∈ closed)
    (hregion : rules.Region granted start key) : key ∈ closed := by
  induction hregion with
  | start => exact hstart
  | @provider key next requirement hkey hrequirement hunsatisfied hprovider ih =>
    have hroot : key ∉ rules.roots := fun hroot =>
      (hclosed.unresolved key hkey).2 (hrootsGranted hroot)
    obtain ⟨source, hsource, hprovides⟩ := (hsupported key ih hroot).2 requirement hrequirement
    have hsourceRoot : source ∉ rules.roots := fun hsourceRoot =>
      hunsatisfied ⟨source, hrootsGranted hsourceRoot, hprovides⟩
    have hsourceProvider : rules.provider requirement = some source :=
      hunique source (hsupported source hsource hsourceRoot).1 requirement hprovides
    have heq : next = source := Option.some.inj (hprovider.symm.trans hsourceProvider)
    exact heq ▸ hsource

omit hsupported in
/-- A region closed for a smaller set is closed for a larger one that does not
hold its start. -/
theorem regionClosed_of_subset (hsubset : granted ⊆ closed) {start : Key}
    (hclosed : rules.RegionClosed granted start) (hstart : start ∉ closed) :
    rules.RegionClosed closed start where
  unresolved := by
    intro key hregion
    refine ⟨(hclosed.unresolved key (hregion.anti hsubset)).1, ?_⟩
    cases hregion with
    | start => exact hstart
    | @provider before _ requirement hbefore hrequirement hunsatisfied hprovider =>
      intro hkey
      have hnext : rules.Region granted start key :=
        (hbefore.provider hrequirement hunsatisfied hprovider).anti hsubset
      exact hunsatisfied ⟨key, hkey, rules.provider_provides requirement key
        hprovider (hclosed.unresolved key hnext).1⟩
  traced := fun key hregion requirement hrequirement hunsatisfied =>
    hclosed.traced key (hregion.anti hsubset) requirement hrequirement
      fun hsatisfied => hunsatisfied (hsatisfied.mono hsubset)

/-- A supported set that no rule extends is closed under the rules applied to
any smaller set. -/
theorem ruleClosed_of_exhausted (hexhausted : rules.Exhausted closed)
    (hproviders : rules.UniqueProviders ∨ rules.candidates ⊆ closed) : rules.RuleClosed closed := by
  intro granted hrootsGranted hsubset next hgrants
  cases hgrants with
  | @candidate key hcandidate hrequirements =>
    have hgranted : insert key closed ⊆ closed :=
      hexhausted _ (.candidate hcandidate fun requirement hrequirement =>
        (hrequirements requirement hrequirement).mono hsubset)
    exact insert_subset (hgranted (mem_insert _ _)) hsubset
  | @region start hprovided hclosed =>
    refine union_subset hsubset fun key hregion => ?_
    rcases hproviders with hunique | hall
    · have hstart : start ∈ closed := by
        by_contra hstart
        obtain ⟨requirement, hrequirement, hsatisfied⟩ := hprovided
        have hgrants : rules.Grants closed
            (closed ∪ {key | rules.Region closed start key}) :=
          .region ⟨requirement, hrequirement, hsatisfied.mono hsubset⟩
            (regionClosed_of_subset hsubset hclosed hstart)
        exact hstart (hexhausted _ hgrants (.inr .start))
      exact region_subset_of_start hsupported hunique hrootsGranted hclosed hstart hregion
    · exact hall (hclosed.unresolved key hregion).1

end Confluence

/-- How a run that is exhausted may have reached its result. -/
def Settled (rules : Rules Key Requirement) (granted : Set Key) : Prop :=
  rules.UniqueProviders ∨ rules.candidates ⊆ granted ∧ rules.Forward granted

section

variable (hderived : rules.Derived granted) (hexhausted : rules.Exhausted granted)
  (hsettled : rules.Settled granted)
include hderived hexhausted hsettled

/-- The result of an exhausted run is the least closed set over the roots. -/
theorem isLeast_of_exhausted :
    IsLeast {closed | rules.roots ⊆ closed ∧ rules.RuleClosed closed} granted := by
  have hproviders : rules.UniqueProviders ∨ rules.candidates ⊆ granted :=
    hsettled.imp_right And.left
  refine ⟨⟨hderived.roots_subset, ?_⟩, ?_⟩
  · exact ruleClosed_of_exhausted hderived.supported hexhausted hproviders
  · rintro closed ⟨hroots, hclosed⟩
    exact hderived.subset_of_ruleClosed hroots hclosed

/-- Any two exhausted runs end in the same set. -/
theorem eq_of_exhausted {other : Set Key} (hother : rules.Derived other)
    (hotherExhausted : rules.Exhausted other) : other = granted := by
  have hleast := isLeast_of_exhausted hderived hexhausted hsettled
  apply Set.Subset.antisymm
  · exact hother.subset_of_ruleClosed hleast.1.1 hleast.1.2
  · rcases hsettled with hunique | ⟨_, hforward⟩
    · have hclosed := ruleClosed_of_exhausted hother.supported hotherExhausted (.inl hunique)
      exact hleast.2 ⟨hother.roots_subset, hclosed⟩
    · refine hforward other hother.roots_subset fun key hkey hrequirements => ?_
      exact hotherExhausted _ (.candidate hkey hrequirements) (mem_insert _ _)

end

theorem forward_roots : rules.Forward rules.roots := fun _ hroots _ => hroots

theorem Forward.insert (hforward : rules.Forward granted) {key : Key}
    (hcandidate : key ∈ rules.candidates)
    (hrequirements : ∀ requirement ∈ rules.requirements key, rules.Satisfied granted requirement) :
    rules.Forward (insert key granted) := by
  intro closed hroots hclosed
  have hgranted : granted ⊆ closed := hforward closed hroots hclosed
  have hkey : key ∈ closed := hclosed key hcandidate fun requirement hrequirement =>
    (hrequirements requirement hrequirement).mono hgranted
  exact insert_subset hkey hgranted

end Rules

end ConvexWasm.RequirementFlow
