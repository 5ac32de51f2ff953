import ConvexWasm.ShardPlanner.PlacementRefinement

/-!
# Placements of twin components

Two lists of components that correspond one to one, with the same bindings,
weights, occurrences and dependencies, are placed alike, whatever their material
identities are: a decision looks at bindings and at cycles only.
-/

namespace ConvexWasm.ShardPlanner

open Fallible Function List Relation TopologicalOrder

variable {pairs : List (Component × Component)} {pair : Component × Component} {policy : Policy}

section Twins

/-- Corresponding components of two requests. -/
structure Twins (pairs : List (Component × Component)) : Prop where
  binding : ∀ pair ∈ pairs, pair.1.componentBindingSha256 = pair.2.componentBindingSha256
  weight : ∀ pair ∈ pairs, pair.1.picObjectByteWeight = pair.2.picObjectByteWeight
  occurrences : ∀ pair ∈ pairs, pair.1.occurrenceCohortSha256s = pair.2.occurrenceCohortSha256s
  eligible : ∀ pair ∈ pairs, pair.1.sharedEligible = pair.2.sharedEligible
  edges : ∀ pair ∈ pairs, ∀ other ∈ pairs,
    other.1.componentSha256 ∈ pair.1.dependencyComponentSha256s ↔
      other.2.componentSha256 ∈ pair.2.dependencyComponentSha256s
  closed : Closed (pairs.map Prod.fst)
  closed' : Closed (pairs.map Prod.snd)
  members : ∀ pair ∈ pairs, pair.1.bindingIdentitySha256s = pair.2.bindingIdentitySha256s

/-- Corresponding bins: they hold corresponding components in the same order. -/
structure TwinBins (pairs : List (Component × Component)) (bin bin' : Bin) : Prop where
  members : ∃ members : List (Component × Component), (∀ member ∈ members, member ∈ pairs) ∧
    bin.componentSha256s = members.map (·.1.componentSha256) ∧
    bin'.componentSha256s = members.map (·.2.componentSha256)
  occurrences : bin.occurrenceCohortSha256s = bin'.occurrenceCohortSha256s
  weight : bin.picObjectByteWeight = bin'.picObjectByteWeight
  oversize : bin.oversize = bin'.oversize

variable {other : Component × Component} {bin bin' : Bin}

variable (htwins : Twins pairs)
include htwins

theorem Twins.distinct :
    (pairs.map (·.1.componentSha256)).Nodup ∧ (pairs.map (·.2.componentSha256)).Nodup := by
  have hfirst := htwins.closed.distinct
  have hsecond := htwins.closed'.distinct
  rw [List.map_map] at hfirst hsecond
  exact ⟨hfirst, hsecond⟩

/-- The material identities name the same pairs on both sides. -/
theorem Twins.sha256_iff (hpair : pair ∈ pairs) (hother : other ∈ pairs) :
    pair.1.componentSha256 = other.1.componentSha256 ↔
      pair.2.componentSha256 = other.2.componentSha256 := by
  constructor
  · intro heq
    rw [inj_on_of_nodup_map htwins.distinct.1 hpair hother heq]
  · intro heq
    rw [inj_on_of_nodup_map htwins.distinct.2 hpair hother heq]

section

variable (hbins : TwinBins pairs bin bin')
include hbins

theorem TwinBins.mem_iff (hpair : pair ∈ pairs) :
    pair.1.componentSha256 ∈ bin.componentSha256s ↔
      pair.2.componentSha256 ∈ bin'.componentSha256s := by
  obtain ⟨members, hmembers, hfirst, hsecond⟩ := hbins.members
  rw [hfirst, hsecond, mem_map, mem_map]
  apply exists_congr fun member => and_congr_right fun hmember => ?_
  exact htwins.sha256_iff (hmembers member hmember) hpair

/-- Corresponding bins have the same members' bindings. -/
theorem TwinBins.binMembershipKey_eq :
    binMembershipKey (pairs.map Prod.fst) bin = binMembershipKey (pairs.map Prod.snd) bin' := by
  obtain ⟨members, hmembers, hfirst, hsecond⟩ := hbins.members
  rw [binMembershipKey, binMembershipKey, hfirst, hsecond, filterMap_map, filterMap_map]
  congr 1
  apply filterMap_congr
  intro member hmember
  have hmem := hmembers member hmember
  have hfoundFirst := find?_key_eq htwins.closed.distinct (mem_map_of_mem hmem)
  have hfoundSecond := find?_key_eq htwins.closed'.distinct (mem_map_of_mem hmem)
  rw [comp_apply, comp_apply, hfoundFirst, hfoundSecond, Option.map_some,
    Option.map_some, htwins.binding member hmem]

theorem TwinBins.fits_eq (hpair : pair ∈ pairs) :
    fits policy pair.1 bin = fits policy pair.2 bin' := by
  rw [fits, fits, htwins.weight pair hpair, htwins.occurrences pair hpair, hbins.weight,
    hbins.occurrences]

theorem TwinBins.extended (hpair : pair ∈ pairs) :
    TwinBins pairs (extendedBin bin pair.1) (extendedBin bin' pair.2) := { hbins with
  members := by
    obtain ⟨members, hmembers, hfirst, hsecond⟩ := hbins.members
    refine ⟨members ++ [pair], fun member hmember => ?_, ?_, ?_⟩
    · rcases mem_append.mp hmember with hmember | hmember
      · exact hmembers member hmember
      · rw [mem_singleton.mp hmember]
        exact hpair
    · rw [map_append, ← hfirst]
      rfl
    · rw [map_append, ← hsecond]
      rfl
  weight := congrArg₂ (· + ·) hbins.weight (htwins.weight pair hpair) }

end

theorem TwinBins.singleton (hpair : pair ∈ pairs) (oversize : Bool) :
    TwinBins pairs (singletonBin pair.1 oversize) (singletonBin pair.2 oversize) where
  members := ⟨[pair], fun _ hmember => mem_singleton.mp hmember ▸ hpair, rfl, rfl⟩
  occurrences := htwins.occurrences pair hpair
  weight := htwins.weight pair hpair
  oversize := rfl

end Twins

/-- The pairs of the components that are shared and satisfy a condition. -/
def sharedPairs (pairs : List (Component × Component)) (chosen : Component → Bool) :
    List (Component × Component) :=
  pairs.filter fun pair => pair.1.sharedEligible && chosen pair.1

def oversizePairs (pairs : List (Component × Component)) (policy : Policy) :
    List (Component × Component) :=
  sortBy (·.1.componentBindingSha256) (sharedPairs pairs fun component =>
    decide (policy.targetShardWeight < component.picObjectByteWeight))

def normalPairs (pairs : List (Component × Component)) (policy : Policy) :
    List (Component × Component) :=
  sortBy (fun pair => toLex (OrderDual.toDual pair.1.picObjectByteWeight,
      pair.1.componentBindingSha256))
    (sharedPairs pairs fun component =>
      decide (component.picObjectByteWeight ≤ policy.targetShardWeight))

theorem sharedPairs_snd (htwins : Twins pairs) {chosen : Component → Bool}
    (hchosen : ∀ pair ∈ pairs, chosen pair.1 = chosen pair.2) :
    (sharedPairs pairs chosen).map Prod.snd =
      (pairs.map Prod.snd).filter fun component => component.sharedEligible && chosen component := by
  rw [sharedPairs, filter_map]
  congr 1
  apply filter_congr
  intro pair hpair
  rw [comp_apply, htwins.eligible pair hpair, hchosen pair hpair]

theorem oversizePairs_fst : (oversizePairs pairs policy).map Prod.fst =
    oversizeComponents (pairs.map Prod.fst) policy := by
  rw [oversizePairs, oversizeComponents, filter_map]
  symm
  apply @sortBy_map _ String
  intro pair _
  rfl

theorem oversizePairs_snd (htwins : Twins pairs) : (oversizePairs pairs policy).map Prod.snd =
    oversizeComponents (pairs.map Prod.snd) policy := by
  rw [oversizePairs, oversizeComponents, ← sharedPairs_snd htwins fun pair hpair => by
    rw [htwins.weight pair hpair]]
  symm
  apply @sortBy_map _ String
  intro pair hpair
  exact (htwins.binding pair (mem_of_mem_filter hpair)).symm

theorem normalPairs_fst : (normalPairs pairs policy).map Prod.fst =
    normalComponents (pairs.map Prod.fst) policy := by
  rw [normalPairs, normalComponents, filter_map]
  symm
  apply @sortBy_map _ (ℤᵒᵈ ×ₗ String)
  intro pair _
  rfl

theorem normalPairs_snd (htwins : Twins pairs) : (normalPairs pairs policy).map Prod.snd =
    normalComponents (pairs.map Prod.snd) policy := by
  rw [normalPairs, normalComponents, ← sharedPairs_snd htwins fun pair hpair => by
    rw [htwins.weight pair hpair]]
  symm
  apply @sortBy_map _ (ℤᵒᵈ ×ₗ String)
  intro pair hpair
  have hmem := mem_of_mem_filter hpair
  rw [htwins.binding pair hmem, htwins.weight pair hmem]

variable {label : String → Option String} {source target : String}

/-- A pair depends on another. -/
def PairEdge (pairs : List (Component × Component)) (pair other : Component × Component) : Prop :=
  pair ∈ pairs ∧ other ∈ pairs ∧ other.1.componentSha256 ∈ pair.1.dependencyComponentSha256s

/-- The label of one of the components of a pair. -/
def pairLabel (pairs : List (Component × Component)) (side : Component × Component → Component)
    (label : String → Option String) (pair : Component × Component) : Option String :=
  if pair ∈ pairs then label (side pair).componentSha256 else none

/-- The labels of one side, which has the dependencies of the pairs. -/
theorem labelled_side {side : Component × Component → Component}
    (hclosed : Closed (pairs.map side)) (hedges : ∀ pair ∈ pairs, ∀ other ∈ pairs,
      other.1.componentSha256 ∈ pair.1.dependencyComponentSha256s ↔
        (side other).componentSha256 ∈ (side pair).dependencyComponentSha256s) :
    Contraction.Labelled (PairEdge pairs) (pairLabel pairs side label) source target ↔
      Contraction.Labelled (ComponentEdge (pairs.map side)) label source target := by
  apply and_congr_right
  intro _
  constructor
  · rintro ⟨pair, other, ⟨hpair, hother, hedge⟩, hsource, htarget⟩
    rw [pairLabel, if_pos hpair] at hsource
    rw [pairLabel, if_pos hother] at htarget
    rw [hedges pair hpair other hother] at hedge
    exact ⟨_, _, ⟨side pair, mem_map_of_mem hpair, rfl, hedge⟩, hsource, htarget⟩
  · rintro ⟨_, second, ⟨component, hcomponent, rfl, hedge⟩, hsource, htarget⟩
    obtain ⟨pair, hpair, rfl⟩ := mem_map.mp hcomponent
    have hknown := hclosed.known _ hcomponent second hedge
    rw [List.map_map] at hknown
    obtain ⟨other, hother, rfl⟩ := mem_map.mp hknown
    refine ⟨pair, other, ⟨hpair, hother, (hedges pair hpair other hother).mpr hedge⟩, ?_, ?_⟩
    · rw [pairLabel, if_pos hpair]
      exact hsource
    · rw [pairLabel, if_pos hother]
      exact htarget

theorem pairLabel_map {side : Component × Component → Component} {change : String → String} :
    (pairLabel pairs side fun sha256 => (label sha256).map change) =
      fun pair => (pairLabel pairs side label pair).map change := by
  funext pair
  unfold pairLabel
  split
  · rfl
  · rfl

variable {placed : List (Component × Component)} {quotient quotient' : Quotient}
  {bins : List (Bin × Bin)} {entry : Bin × Bin} {index : ℕ} {tried : List (ℕ × (Bin × Bin))}

/-- Two placements that have put the same pairs into corresponding bins. -/
structure Parallel (pairs placed : List (Component × Component)) (quotient quotient' : Quotient)
    (bins : List (Bin × Bin)) : Prop where
  first : Placed (pairs.map Prod.fst) quotient (bins.map Prod.fst)
  second : Placed (pairs.map Prod.snd) quotient' (bins.map Prod.snd)
  members : ((bins.map Prod.fst).flatMap (·.componentSha256s)).Perm
    (placed.map (·.1.componentSha256))
  members' : ((bins.map Prod.snd).flatMap (·.componentSha256s)).Perm
    (placed.map (·.2.componentSha256))
  twins : ∀ entry ∈ bins, TwinBins pairs entry.1 entry.2

section

variable (hparallel : Parallel pairs placed quotient quotient' bins) (htwins : Twins pairs)
include hparallel htwins

theorem Parallel.fresh (hpair : pair ∈ pairs)
    (hfresh : pair.1.componentSha256 ∉ placed.map (·.1.componentSha256)) :
    pair.1.componentSha256 ∉ (bins.map Prod.fst).flatMap (·.componentSha256s) ∧
      pair.2.componentSha256 ∉ (bins.map Prod.snd).flatMap (·.componentSha256s) := by
  have hfirst : pair.1.componentSha256 ∉ (bins.map Prod.fst).flatMap (·.componentSha256s) :=
    fun hmem => hfresh (hparallel.members.mem_iff.mp hmem)
  refine ⟨hfirst, fun hmem => hfirst ?_⟩
  rw [flatMap_map, mem_flatMap] at hmem ⊢
  obtain ⟨entry, hentry, hmember⟩ := hmem
  exact ⟨entry, hentry, ((hparallel.twins entry hentry).mem_iff htwins hpair).mpr hmember⟩

/-- The bins have the same pairs. -/
theorem Parallel.sameClasses :
    Contraction.SameClasses (pairLabel pairs Prod.fst quotient.binByComponentSha256)
      (pairLabel pairs Prod.snd quotient'.binByComponentSha256) := by
  have hknown : ∀ pair ∈ pairs, ∃ name,
      quotient.binByComponentSha256 pair.1.componentSha256 = some name := fun pair hpair =>
    (hparallel.first.represents.known _).mpr (mem_map_of_mem (mem_map_of_mem hpair))
  have hknown' : ∀ pair ∈ pairs, ∃ name,
      quotient'.binByComponentSha256 pair.2.componentSha256 = some name := fun pair hpair =>
    (hparallel.second.represents.known _).mpr (mem_map_of_mem (mem_map_of_mem hpair))
  have hclass : ∀ pair ∈ pairs, ∀ other ∈ pairs,
      quotient.binByComponentSha256 pair.1.componentSha256 =
          quotient.binByComponentSha256 other.1.componentSha256 ↔
        quotient'.binByComponentSha256 pair.2.componentSha256 =
          quotient'.binByComponentSha256 other.2.componentSha256 := by
    intro pair hpair other hother
    rw [hparallel.first.quotientIsContraction.classes _
        (mem_map_of_mem (mem_map_of_mem hpair)),
      hparallel.second.quotientIsContraction.classes _
        (mem_map_of_mem (mem_map_of_mem hpair)), htwins.sha256_iff hpair hother]
    apply or_congr_right
    simp only [mem_map, exists_exists_and_eq_and]
    apply exists_congr fun entry => and_congr_right fun hentry => ?_
    rw [(hparallel.twins entry hentry).mem_iff htwins hpair,
      (hparallel.twins entry hentry).mem_iff htwins hother]
  constructor
  · intro pair
    by_cases hpair : pair ∈ pairs
    · simp only [pairLabel, if_pos hpair]
      exact ⟨fun _ => hknown' pair hpair, fun _ => hknown pair hpair⟩
    · simp [pairLabel, hpair]
  · intro pair other name hname
    by_cases hpair : pair ∈ pairs
    · rw [pairLabel, if_pos hpair] at hname
      obtain ⟨name', hname'⟩ := hknown' pair hpair
      by_cases hother : other ∈ pairs
      · simp only [pairLabel, if_pos hpair, if_pos hother]
        rw [← hname, eq_comm]
        exact hclass pair hpair other hother
      · simp [pairLabel, hpair, hother, hname']
    · simp [pairLabel, hpair] at hname

/-- A bin may take a component in one placement exactly when the other may. -/
theorem Parallel.attempt (htarget : policy.targetShardWeight ≤ maxSafeInteger)
    (hpair : pair ∈ pairs) (hfresh : pair.1.componentSha256 ∉ placed.map (·.1.componentSha256))
    (hfound : bins[index]? = some entry) (hfits : fits policy pair.1 entry.1 = true) :
    ∃ name name' allowed,
      Attempt (pairs.map Prod.fst) pair.1 quotient (bins.map Prod.fst) index entry.1 name allowed ∧
      Attempt (pairs.map Prod.snd) pair.2 quotient' (bins.map Prod.snd) index entry.2 name'
        allowed := by
  obtain ⟨hfreshFirst, hfreshSecond⟩ := hparallel.fresh htwins hpair hfresh
  have hentry := hparallel.twins entry (mem_of_getElem? hfound)
  have hfits' : fits policy pair.2 entry.2 = true := hentry.fits_eq htwins hpair ▸ hfits
  obtain ⟨name, allowed, hattempt⟩ := hparallel.first.attempt htarget
    (mem_map_of_mem hpair) hfreshFirst (by rw [List.getElem?_map, hfound]; rfl) hfits
  obtain ⟨name', allowed', hattempt'⟩ := hparallel.second.attempt htarget
    (mem_map_of_mem hpair) hfreshSecond (by rw [List.getElem?_map, hfound]; rfl) hfits'
  obtain ⟨_, _, hmember, _, _⟩ := hparallel.first.exists_name
    (mem_map_of_mem (mem_of_getElem? hfound))
  obtain ⟨members, hmembers, hfirst, hsecond⟩ := hentry.members
  rw [hfirst] at hmember
  obtain ⟨held, hheld, _⟩ := mem_map.mp hmember
  have hheldName : quotient.binByComponentSha256 held.1.componentSha256 = some name :=
    (hattempt.names _).mp (hfirst ▸ mem_map_of_mem hheld)
  have hheldName' : quotient'.binByComponentSha256 held.2.componentSha256 = some name' :=
    (hattempt'.names _).mp (hsecond ▸ mem_map_of_mem hheld)
  have hheldPair := hmembers held hheld
  have htargetLabel : pairLabel pairs Prod.fst quotient.binByComponentSha256 held = some name := by
    rw [pairLabel, if_pos hheldPair, hheldName]
  have htargetLabel' : pairLabel pairs Prod.snd quotient'.binByComponentSha256 held =
      some name' := by
    rw [pairLabel, if_pos hheldPair, hheldName']
  have hsourceLabel : pairLabel pairs Prod.fst quotient.binByComponentSha256 pair =
      some pair.1.componentSha256 := by
    rw [pairLabel, if_pos hpair, hattempt.waiting]
  have hsourceLabel' : pairLabel pairs Prod.snd quotient'.binByComponentSha256 pair =
      some pair.2.componentSha256 := by
    rw [pairLabel, if_pos hpair, hattempt'.waiting]
  have hclasses := (hparallel.sameClasses htwins).collapse htargetLabel htargetLabel'
    hsourceLabel hsourceLabel'
  rw [← pairLabel_map, ← pairLabel_map] at hclasses
  have hsame : allowed = allowed' := by
    rw [Bool.eq_iff_iff, hattempt.allowed_iff, hattempt'.allowed_iff]
    have hfst := funext fun source => funext fun target => propext
      (@labelled_side pairs (fun sha256 => (quotient.binByComponentSha256 sha256).map
        (Contraction.collapse name pair.1.componentSha256)) source target Prod.fst htwins.closed
          fun _ _ _ _ => Iff.rfl)
    have hsnd := funext fun source => funext fun target => propext
      (@labelled_side pairs (fun sha256 => (quotient'.binByComponentSha256 sha256).map
        (Contraction.collapse name' pair.2.componentSha256)) source target Prod.snd htwins.closed'
          htwins.edges)
    rw [← hfst, ← hsnd]
    exact hclasses.acyclic_iff
  subst hsame
  exact ⟨name, name', allowed, hattempt, hattempt'⟩

end

/-- The candidates of two placements with their indexes, in the order in which
they are tried. -/
def pairCandidates (pairs : List (Component × Component)) (policy : Policy)
    (pair : Component × Component) (bins : List (Bin × Bin)) : List (ℕ × (Bin × Bin)) :=
  sortBy (fun candidate => toLex (candidate.2.1.picObjectByteWeight,
      binMembershipKey (pairs.map Prod.fst) candidate.2.1))
    ((bins.zipIdx.map fun entry => (entry.2, entry.1)).filter fun candidate =>
      fits policy pair.1 candidate.2.1)

theorem zipIdx_map_side (side : Bin × Bin → Bin) :
    ((bins.map side).zipIdx.map fun entry => (entry.2, entry.1)) =
      (bins.zipIdx.map fun entry => (entry.2, entry.1)).map fun candidate =>
        (candidate.1, side candidate.2) := by
  rw [zipIdx_map, List.map_map, List.map_map]
  rfl

theorem mem_zipIdx_swap {candidate : ℕ × (Bin × Bin)} :
    candidate ∈ (bins.zipIdx.map fun entry => (entry.2, entry.1)) ↔
      bins[candidate.1]? = some candidate.2 := by
  rw [mem_map]
  constructor
  · rintro ⟨⟨found, position⟩, hmem, rfl⟩
    exact mem_zipIdx_iff_getElem?.mp hmem
  · exact fun hfound => ⟨(candidate.2, candidate.1), mem_zipIdx_iff_getElem?.mpr hfound, rfl⟩

theorem mem_pairCandidates {candidate : ℕ × (Bin × Bin)} :
    candidate ∈ pairCandidates pairs policy pair bins ↔
      bins[candidate.1]? = some candidate.2 ∧ fits policy pair.1 candidate.2.1 = true := by
  rw [pairCandidates, mem_sortBy, mem_filter, mem_zipIdx_swap]

theorem candidates_fst : candidates (pairs.map Prod.fst) policy pair.1 (bins.map Prod.fst) =
    (pairCandidates pairs policy pair bins).map fun candidate =>
      (candidate.1, candidate.2.1) := by
  rw [candidates, pairCandidates, zipIdx_map_side, filter_map]
  apply @sortBy_map _ (ℤ ×ₗ List String)
  intro candidate _
  rfl

theorem candidates_snd (htwins : Twins pairs) (hpair : pair ∈ pairs)
    (hbins : ∀ entry ∈ bins, TwinBins pairs entry.1 entry.2) :
    candidates (pairs.map Prod.snd) policy pair.2 (bins.map Prod.snd) =
      (pairCandidates pairs policy pair bins).map fun candidate =>
        (candidate.1, candidate.2.2) := by
  have htwin : ∀ candidate ∈ (bins.zipIdx.map fun entry => (entry.2, entry.1)),
      TwinBins pairs candidate.2.1 candidate.2.2 := fun candidate hcandidate =>
    hbins candidate.2 (mem_of_getElem? (mem_zipIdx_swap.mp hcandidate))
  have hfilter : (bins.zipIdx.map fun entry => (entry.2, entry.1)).filter
        ((fun candidate => fits policy pair.2 candidate.2) ∘
          fun candidate => (candidate.1, candidate.2.2)) =
      (bins.zipIdx.map fun entry => (entry.2, entry.1)).filter fun candidate =>
        fits policy pair.1 candidate.2.1 := by
    apply filter_congr
    intro candidate hcandidate
    exact ((htwin candidate hcandidate).fits_eq htwins hpair).symm
  rw [candidates, pairCandidates, zipIdx_map_side, filter_map, hfilter]
  apply @sortBy_map _ (ℤ ×ₗ List String)
  intro candidate hcandidate
  have hentry := htwin candidate (mem_of_mem_filter hcandidate)
  rw [hentry.weight, hentry.binMembershipKey_eq htwins]

/-- Two states with the same pairs in corresponding bins. -/
def Alike (pairs placed : List (Component × Component)) (state state' : Quotient × List Bin) :
    Prop :=
  ∃ bins : List (Bin × Bin), state.2 = bins.map Prod.fst ∧ state'.2 = bins.map Prod.snd ∧
    Parallel pairs placed state.1 state'.1 bins

section

variable (hparallel : Parallel pairs placed quotient quotient' bins) (htwins : Twins pairs)
include hparallel htwins

theorem Parallel.set (hpair : pair ∈ pairs) (hfound : bins[index]? = some entry)
    {merged merged' : Quotient} (hfirst : Placed (pairs.map Prod.fst) merged
      ((bins.map Prod.fst).set index (extendedBin entry.1 pair.1)))
    (hsecond : Placed (pairs.map Prod.snd) merged'
      ((bins.map Prod.snd).set index (extendedBin entry.2 pair.2))) :
    Alike pairs (placed ++ [pair])
      (merged, (bins.map Prod.fst).set index (extendedBin entry.1 pair.1))
      (merged', (bins.map Prod.snd).set index (extendedBin entry.2 pair.2)) := by
  have hmapFst := map_set (f := Prod.fst) (l := bins) (i := index)
    (a := (extendedBin entry.1 pair.1, extendedBin entry.2 pair.2))
  have hmapSnd := map_set (f := Prod.snd) (l := bins) (i := index)
    (a := (extendedBin entry.1 pair.1, extendedBin entry.2 pair.2))
  refine ⟨bins.set index (extendedBin entry.1 pair.1, extendedBin entry.2 pair.2),
    hmapFst.symm, hmapSnd.symm, ?_, ?_, ?_, ?_, fun other hother => ?_⟩
  · rw [hmapFst]
    exact hfirst
  · rw [hmapSnd]
    exact hsecond
  · have hfoundFst : (bins.map Prod.fst)[index]? = some entry.1 := by
      rw [List.getElem?_map, hfound, Option.map_some]
    rw [hmapFst, map_append]
    exact (flatMap_set_perm hfoundFst rfl).trans (hparallel.members.append_right _)
  · have hfoundSnd : (bins.map Prod.snd)[index]? = some entry.2 := by
      rw [List.getElem?_map, hfound, Option.map_some]
    rw [hmapSnd, map_append]
    exact (flatMap_set_perm hfoundSnd rfl).trans (hparallel.members'.append_right _)
  · rcases mem_or_eq_of_mem_set hother with hother | rfl
    · exact hparallel.twins other hother
    · exact (hparallel.twins entry (mem_of_getElem? hfound)).extended htwins hpair

theorem Parallel.tryCandidates (htarget : policy.targetShardWeight ≤ maxSafeInteger)
    (hpair : pair ∈ pairs) (hfresh : pair.1.componentSha256 ∉ placed.map (·.1.componentSha256))
    (htried : ∀ candidate ∈ tried, bins[candidate.1]? = some candidate.2 ∧
      fits policy pair.1 candidate.2.1 = true) :
    ∃ result result',
      ShardPlanner.tryCandidates pair.1 quotient (bins.map Prod.fst)
        (tried.map fun candidate => (candidate.1, candidate.2.1)) = .ok result ∧
      ShardPlanner.tryCandidates pair.2 quotient' (bins.map Prod.snd)
        (tried.map fun candidate => (candidate.1, candidate.2.2)) = .ok result' ∧
      Option.Rel (Alike pairs (placed ++ [pair])) result result' := by
  induction tried with
  | nil => exact ⟨none, none, rfl, rfl, .none⟩
  | cons candidate rest ih =>
    obtain ⟨index, entry⟩ := candidate
    obtain ⟨hfound, hfits⟩ := htried (index, entry) mem_cons_self
    obtain ⟨name, name', allowed, hattempt, hattempt'⟩ :=
      hparallel.attempt htwins htarget hpair hfresh hfound hfits
    rw [map_cons, map_cons, ShardPlanner.tryCandidates, ShardPlanner.tryCandidates,
      hattempt.target, hattempt.source, hattempt'.target, hattempt'.source, ok_bind, ok_bind,
      ok_bind, ok_bind, mergeQuotientBins, mergeQuotientBins, hattempt.canMerge,
      hattempt'.canMerge, ok_bind, ok_bind]
    cases hallowed : allowed with
    | false =>
      exact ih fun candidate hcandidate =>
        htried candidate (mem_cons_of_mem _ hcandidate)
    | true =>
      have hnext := hparallel.set htwins hpair hfound (hattempt.next hallowed)
        (hattempt'.next hallowed)
      refine ⟨_, _, ?_, ?_, .some hnext⟩
      · change (extendBin entry.1 pair.1 >>= fun extended => _) = _
        rw [hattempt.extend]
        rfl
      · change (extendBin entry.2 pair.2 >>= fun extended => _) = _
        rw [hattempt'.extend]
        rfl

/-- A pair gets bins of its own. -/
theorem Parallel.append (hpair : pair ∈ pairs)
    (hfresh : pair.1.componentSha256 ∉ placed.map (·.1.componentSha256)) (oversize : Bool) :
    Parallel pairs (placed ++ [pair]) quotient quotient'
      (bins ++ [(singletonBin pair.1 oversize, singletonBin pair.2 oversize)]) := by
  obtain ⟨hfreshFirst, hfreshSecond⟩ := hparallel.fresh htwins hpair hfresh
  constructor
  · rw [map_append]
    exact hparallel.first.append (mem_map_of_mem (mem_map_of_mem hpair)) hfreshFirst oversize
  · rw [map_append]
    exact hparallel.second.append (mem_map_of_mem (mem_map_of_mem hpair)) hfreshSecond oversize
  · rw [map_append, flatMap_append, map_append]
    exact hparallel.members.append_right _
  · rw [map_append, flatMap_append, map_append]
    exact hparallel.members'.append_right _
  · intro entry hentry
    rcases mem_append.mp hentry with hentry | hentry
    · exact hparallel.twins entry hentry
    · rw [mem_singleton.mp hentry]
      exact TwinBins.singleton htwins hpair oversize

end

theorem Alike.place {state state' : Quotient × List Bin}
    (halike : Alike pairs placed state state') (htwins : Twins pairs)
    (htarget : policy.targetShardWeight ≤ maxSafeInteger) (hpair : pair ∈ pairs)
    (hfresh : pair.1.componentSha256 ∉ placed.map (·.1.componentSha256)) :
    ∃ next next', placeComponent (pairs.map Prod.fst) policy state pair.1 = .ok next ∧
      placeComponent (pairs.map Prod.snd) policy state' pair.2 = .ok next' ∧
      Alike pairs (placed ++ [pair]) next next' := by
  obtain ⟨bins, hbins, hbins', hparallel⟩ := halike
  obtain ⟨result, result', hresult, hresult', hrel⟩ :=
    hparallel.tryCandidates htwins htarget hpair hfresh
      fun candidate (hcandidate : candidate ∈ pairCandidates pairs policy pair bins) =>
        mem_pairCandidates.mp hcandidate
  rw [placeComponent, placeComponent, hbins, hbins', candidates_fst,
    candidates_snd htwins hpair hparallel.twins, hresult, hresult', ok_bind, ok_bind]
  cases hrel with
  | some hnext => exact ⟨_, _, rfl, rfl, hnext⟩
  | none =>
    refine ⟨_, _, rfl, rfl, _, ?_, ?_, hparallel.append htwins hpair hfresh false⟩
    · rw [map_append]
      rfl
    · rw [map_append]
      rfl

theorem Alike.foldlM {state state' : Quotient × List Bin} {waiting : List (Component × Component)}
    (halike : Alike pairs placed state state') (htwins : Twins pairs)
    (htarget : policy.targetShardWeight ≤ maxSafeInteger) (hwaiting : ∀ pair ∈ waiting, pair ∈ pairs)
    (hdistinct : ((placed ++ waiting).map (·.1.componentSha256)).Nodup) :
    ∃ last last',
      (waiting.map Prod.fst).foldlM (placeComponent (pairs.map Prod.fst) policy) state = .ok last ∧
      (waiting.map Prod.snd).foldlM (placeComponent (pairs.map Prod.snd) policy) state' =
        .ok last' ∧ Alike pairs (placed ++ waiting) last last' := by
  induction waiting generalizing placed state state' with
  | nil =>
    rw [List.append_nil]
    exact ⟨state, state', rfl, rfl, halike⟩
  | cons pair rest ih =>
    have hfresh : pair.1.componentSha256 ∉ placed.map (·.1.componentSha256) := by
      rw [map_append, nodup_append] at hdistinct
      exact fun hmem => hdistinct.2.2 _ hmem _ mem_cons_self rfl
    obtain ⟨next, next', hnext, hnext', halikeNext⟩ :=
      halike.place htwins htarget (hwaiting pair mem_cons_self) hfresh
    rw [append_cons] at hdistinct ⊢
    rw [map_cons, map_cons, foldlM_cons, foldlM_cons, hnext, hnext', ok_bind, ok_bind]
    exact ih halikeNext (fun other hother => hwaiting other (mem_cons_of_mem _ hother)) hdistinct

theorem oversizePairs_append_normalPairs_perm :
    (oversizePairs pairs policy ++ normalPairs pairs policy).Perm
      (pairs.filter fun pair => pair.1.sharedEligible) := by
  have hnormal : sharedPairs pairs (fun component =>
      decide (component.picObjectByteWeight ≤ policy.targetShardWeight)) =
        (pairs.filter fun pair => pair.1.sharedEligible).filter fun pair =>
          !decide (policy.targetShardWeight < pair.1.picObjectByteWeight) := by
    rw [sharedPairs, filter_filter]
    apply filter_congr
    intro pair _
    rw [Bool.and_comm, ← decide_not]
    simp
  have hoversize : sharedPairs pairs (fun component =>
      decide (policy.targetShardWeight < component.picObjectByteWeight)) =
        (pairs.filter fun pair => pair.1.sharedEligible).filter fun pair =>
          decide (policy.targetShardWeight < pair.1.picObjectByteWeight) := by
    rw [sharedPairs, filter_filter]
    apply filter_congr
    intro pair _
    rw [Bool.and_comm]
  apply (sortBy_perm.append sortBy_perm).trans
  rw [hnormal, hoversize]
  exact filter_append_perm _ _

/-- The placements start alike, with the oversize components in bins of their own. -/
theorem Alike.start (htwins : Twins pairs) (hacyclic : Acyclic (ComponentEdge (pairs.map Prod.fst)))
    (hacyclic' : Acyclic (ComponentEdge (pairs.map Prod.snd))) :
    ∃ quotient quotient',
      createPhysicalShardQuotient (pairs.map Prod.fst) = .ok quotient ∧
      createPhysicalShardQuotient (pairs.map Prod.snd) = .ok quotient' ∧
      Alike pairs (oversizePairs pairs policy)
        (quotient, (oversizeComponents (pairs.map Prod.fst) policy).map fun component =>
          singletonBin component true)
        (quotient', (oversizeComponents (pairs.map Prod.snd) policy).map fun component =>
          singletonBin component true) := by
  obtain ⟨quotient, hquotient, hagree⟩ :=
    @Agree.startPlacing (pairs.map Prod.fst) policy htwins.closed hacyclic
  obtain ⟨quotient', hquotient', hagree'⟩ :=
    @Agree.startPlacing (pairs.map Prod.snd) policy htwins.closed' hacyclic'
  have hfst : (oversizeComponents (pairs.map Prod.fst) policy).map (singletonBin · true) =
      ((oversizePairs pairs policy).map fun pair =>
        (singletonBin pair.1 true, singletonBin pair.2 true)).map Prod.fst := by
    rw [← oversizePairs_fst, List.map_map, List.map_map]
    rfl
  have hsnd : (oversizeComponents (pairs.map Prod.snd) policy).map (singletonBin · true) =
      ((oversizePairs pairs policy).map fun pair =>
        (singletonBin pair.1 true, singletonBin pair.2 true)).map Prod.snd := by
    rw [← oversizePairs_snd htwins, List.map_map, List.map_map]
    rfl
  have hcodes : (oversizePairs pairs policy).map (·.1.componentSha256) =
      (oversizeComponents (pairs.map Prod.fst) policy).map (·.componentSha256) := by
    rw [← oversizePairs_fst, List.map_map]
    rfl
  have hcodes' : (oversizePairs pairs policy).map (·.2.componentSha256) =
      (oversizeComponents (pairs.map Prod.snd) policy).map (·.componentSha256) := by
    rw [← oversizePairs_snd htwins, List.map_map]
    rfl
  refine ⟨quotient, quotient', hquotient, hquotient', _, hfst, hsnd, ?_, ?_, ?_, ?_, ?_⟩
  · rw [← hfst]
    exact hagree.sound
  · rw [← hsnd]
    exact hagree'.sound
  · rw [← hfst, hcodes]
    exact hagree.members
  · rw [← hsnd, hcodes']
    exact hagree'.members
  · intro entry hentry
    obtain ⟨pair, hpair, rfl⟩ := mem_map.mp hentry
    exact TwinBins.singleton htwins (mem_of_mem_filter (mem_sortBy.mp hpair)) true

/-- Twin components are placed into corresponding bins. -/
theorem placeSharedComponents_twins (htwins : Twins pairs)
    (hacyclic : Acyclic (ComponentEdge (pairs.map Prod.fst)))
    (hacyclic' : Acyclic (ComponentEdge (pairs.map Prod.snd)))
    (htarget : policy.targetShardWeight ≤ maxSafeInteger) :
    ∃ bins : List (Bin × Bin),
      placeSharedComponents (pairs.map Prod.fst) policy = .ok (bins.map Prod.fst) ∧
      placeSharedComponents (pairs.map Prod.snd) policy = .ok (bins.map Prod.snd) ∧
      ∀ entry ∈ bins, TwinBins pairs entry.1 entry.2 := by
  obtain ⟨quotient, quotient', hquotient, hquotient', hstart⟩ :=
    @Alike.start pairs policy htwins hacyclic hacyclic'
  have hperm := @oversizePairs_append_normalPairs_perm pairs policy
  have hmem : ∀ pair ∈ normalPairs pairs policy, pair ∈ pairs := fun pair hpair =>
    mem_of_mem_filter (mem_sortBy.mp hpair)
  have hdistinct : ((oversizePairs pairs policy ++ normalPairs pairs policy).map
      (·.1.componentSha256)).Nodup :=
    (hperm.map _).nodup_iff.mpr (htwins.distinct.1.sublist (filter_sublist.map _))
  obtain ⟨last, last', hlast, hlast', bins, hbins, hbins', hparallel⟩ :=
    hstart.foldlM htwins htarget hmem hdistinct
  have hshared := hparallel.members.trans (hperm.map (·.1.componentSha256))
  have hshared' := hparallel.members'.trans (hperm.map (·.2.componentSha256))
  have heligible : pairs.filter (fun pair => pair.1.sharedEligible) =
      pairs.filter fun pair => pair.2.sharedEligible :=
    filter_congr fun pair hpair => htwins.eligible pair hpair
  have hvalid := hparallel.first.validate htwins.closed (by
    rw [filter_map, List.map_map]
    exact hshared)
  have hvalid' := hparallel.second.validate htwins.closed' (by
    rw [filter_map, List.map_map]
    rw [heligible] at hshared'
    exact hshared')
  rw [normalPairs_fst] at hlast
  rw [normalPairs_snd htwins] at hlast'
  refine ⟨bins, ?_, ?_, hparallel.twins⟩
  · rw [placeSharedComponents, hquotient, ok_bind, hlast, ok_bind, hbins, hvalid]
    rfl
  · rw [placeSharedComponents, hquotient', ok_bind, hlast', ok_bind, hbins', hvalid']
    rfl

end ConvexWasm.ShardPlanner
