import ConvexWasm.Compiler.CensusIndependence

/-!
# The final census

At the end of a batch every result is recorded.  Replacing the ordinals of
arrival by positions in the order of the keys leaves nothing of the order of
arrival: the final census is read off the diagnostics of each result.
-/

namespace ConvexWasm.Compiler.DiagnosticCensus

open Fallible List

section Lists

theorem map_range_zipIdx {Value : Type} {count : ℕ} {slot : ℕ → Value} :
    ((List.range count).map slot).zipIdx = (List.range count).map fun index => (slot index, index) := by
  apply ext_getElem
  · simp
  · intro position hzip hmap
    simp

theorem forM_eq_ok {Item : Type} {items : List Item} {check : Item → Except ErrorChain PUnit}
    (hcheck : ∀ item ∈ items, check item = .ok ⟨⟩) : items.forM check = .ok ⟨⟩ := by
  induction items with
  | nil => rfl
  | cons item later ih =>
    show (check item >>= fun _ => later.forM check) = _
    rw [hcheck item mem_cons_self]
    exact ih fun other hother => hcheck other (mem_cons_of_mem _ hother)

theorem mapM_eq_map {First Second : Type} {items : List First}
    {step : First → Except ErrorChain Second} {result : First → Second}
    (hstep : ∀ item ∈ items, step item = .ok (result item)) :
    items.mapM step = .ok (items.map result) := by
  rw [mapM_eq_ok_iff, List.forall₂_map_right_iff, List.forall₂_same]
  exact hstep

/-- Sorting what an injective renumbering makes of a sorted set. -/
theorem insertionSort_map_sort {members : Finset ℕ} {renumber : ℕ → ℕ}
    (hinjective : Set.InjOn renumber members) :
    (members.sort.map renumber).insertionSort (· ≤ ·) = (members.image renumber).sort := by
  have hnodup : (members.sort.map renumber).Nodup := by
    apply (Finset.sort_nodup members _).map_on
    intro first hfirst second hsecond heq
    exact hinjective ((Finset.mem_sort _).mp hfirst) ((Finset.mem_sort _).mp hsecond) heq
  have hperm : (members.sort.map renumber).Perm (members.image renumber).sort := by
    rw [perm_ext_iff_of_nodup hnodup (Finset.sort_nodup _ _)]
    intro index
    simp
  exact ((perm_insertionSort _ _).trans hperm).eq_of_pairwise'
    (pairwise_insertionSort _ _) (Finset.pairwise_sort _ _)

variable {Entry : Type} {slotOf : Entry → ℕ} {valueOf : Entry → Option ℕ}

variable {items : List Entry} {table : List (Option ℕ)}

theorem getElem?_foldl_set_of_notMem {slot : ℕ} (hslot : ∀ item ∈ items, slotOf item ≠ slot) :
    (items.foldl (fun table item => table.set (slotOf item) (valueOf item)) table)[slot]? =
      table[slot]? := by
  induction items generalizing table with
  | nil => rfl
  | cons item later ih =>
    rw [foldl_cons, ih fun other hother => hslot other (mem_cons_of_mem _ hother),
      List.getElem?_set_ne (hslot item mem_cons_self)]

/-- Filling slots that are all different leaves every value in its slot. -/
theorem getElem?_foldl_set (hnodup : (items.map slotOf).Nodup)
    (hslots : ∀ item ∈ items, slotOf item < table.length) {item : Entry} (hitem : item ∈ items) :
    (items.foldl (fun table item => table.set (slotOf item) (valueOf item)) table)[slotOf item]? =
      some (valueOf item) := by
  induction items generalizing table with
  | nil => cases hitem
  | cons first later ih =>
    obtain ⟨hfirst, hnodup⟩ := nodup_cons.mp hnodup
    rw [foldl_cons]
    cases mem_cons.mp hitem with
    | inl heq =>
      subst heq
      rw [getElem?_foldl_set_of_notMem, List.getElem?_set_self (hslots item mem_cons_self)]
      exact fun other hother heq => hfirst (mem_map.mpr ⟨other, hother, heq⟩)
    | inr hlater =>
      refine ih hnodup (fun other hother => ?_) hlater
      rw [length_set]
      exact hslots other (mem_cons_of_mem _ hother)

theorem length_foldl_set :
    (items.foldl (fun table item => table.set (slotOf item) (valueOf item)) table).length =
      table.length := by
  induction items generalizing table with
  | nil => rfl
  | cons item later ih => rw [foldl_cons, ih, length_set]

end Lists

/-- The final index of every ordinal, filled in entry by entry. -/
def DiagnosticCensusAccumulator.finalIndexes (census : DiagnosticCensusAccumulator) :
    List (Option ℕ) :=
  census.orderedEntries.zipIdx.foldl
    (fun table item => table.set item.1.2.ordinal (some item.2))
    (List.replicate census.entries.entries.length none)

/-- The table of the final indexes plays no part in describing the entries. -/
theorem foldlM_finalizeEntry (diagnosticCensusId : DiagnosticCensusKey → Except ErrorChain String)
    (items : List ((DiagnosticCensusKey × ProvisionalDiagnosticCensusEntry) × ℕ))
    (finalized : FinalizedEntries) :
    items.foldlM (finalizeEntry diagnosticCensusId) finalized =
      ((items.map fun item => (item.1.1, item.1.2.counts)).foldlM
        (describeEntry diagnosticCensusId) finalized.described).map fun described =>
          ⟨items.foldl (fun table item => table.set item.1.2.ordinal (some item.2))
            finalized.finalIndexByOrdinal, described⟩ := by
  induction items generalizing finalized with
  | nil => rfl
  | cons item later ih =>
    rw [foldlM_cons, map_cons, foldlM_cons, finalizeEntry]
    cases hdescribe : describeEntry diagnosticCensusId finalized.described
        (item.1.1, item.1.2.counts) with
    | error error => rfl
    | ok described => exact ih _

section Final

variable (diagnosticsOf : ℕ → List DiagnosticCensusKey) (count : ℕ)

/-- All diagnostics of the batch, in order. -/
def censusKeys : List DiagnosticCensusKey :=
  ((List.range count).flatMap diagnosticsOf).toFinset.sort

def censusCounts (key : DiagnosticCensusKey) : DiagnosticCensusCounts where
  occurrenceCount := occurrences diagnosticsOf (List.range count) key
  exportCount := exportsWith diagnosticsOf (List.range count) key

/-- The census of the diagnostics, whatever the order of the results. -/
def censusOf (diagnosticCensusId : DiagnosticCensusKey → Except ErrorChain String)
    (capture : Bool) : Except ErrorChain FinalizedDiagnosticCensus := do
  let keys := censusKeys diagnosticsOf count
  let described ← (keys.map fun key => (key, censusCounts diagnosticsOf count key)).foldlM
    (describeEntry diagnosticCensusId) ([], [])
  return {
    entries := described.2
    membership := if capture then
      some ((List.range count).map (membersAmong diagnosticsOf keys)) else none
    telemetry := {
      occurrenceCount := ((List.range count).flatMap diagnosticsOf).length
      distinctCount := keys.length
      maxDiagnosticsPerExport :=
        ((List.range count).map fun index => (diagnosticsOf index).length).foldl max 0
      membershipReferenceCount :=
        ((List.range count).map fun index => (diagnosticsOf index).toFinset.card).sum } }

variable {diagnosticsOf count} {capture : Bool} {seen other : List ℕ}
  {census : DiagnosticCensusAccumulator}

theorem censusKeys_nodup : (censusKeys diagnosticsOf count).Nodup :=
  Finset.sort_nodup _ _

theorem Describes.of_perm (hperm : seen.Perm other)
    (hdescribes : Describes diagnosticsOf count capture seen census) :
    Describes diagnosticsOf count capture other census where
  tallies := by
    have hoccurrences : occurrences diagnosticsOf other = occurrences diagnosticsOf seen := by
      funext key
      exact (hperm.flatMap_right diagnosticsOf).symm.count_eq key
    have hexports : exportsWith diagnosticsOf other = exportsWith diagnosticsOf seen := by
      funext key
      exact hperm.symm.countP_eq _
    rw [hoccurrences, hexports]
    exact hdescribes.tallies
  mem_keys := by simpa only [hperm.mem_iff] using hdescribes.mem_keys
  recorded := by simpa only [hperm.mem_iff] using hdescribes.recorded
  membership := by simpa only [hperm.mem_iff] using hdescribes.membership
  occurrence_count := by
    rw [hdescribes.occurrence_count, (hperm.flatMap_right diagnosticsOf).length_eq]
  max_diagnostics := by
    rw [hdescribes.max_diagnostics]
    exact (hperm.map _).foldl_eq' (fun _ _ _ _ _ => by omega) 0
  reference_count := by
    rw [hdescribes.reference_count, (hperm.map _).sum_eq]

/-- Every result of the batch is recorded. -/
abbrev Complete (diagnosticsOf : ℕ → List DiagnosticCensusKey) (count : ℕ) (capture : Bool)
    (census : DiagnosticCensusAccumulator) : Prop :=
  Describes diagnosticsOf count capture (List.range count) census

namespace Complete

variable (hcomplete : Complete diagnosticsOf count capture census)
include hcomplete

variable {key : DiagnosticCensusKey}

theorem mem_censusKeys_iff : key ∈ censusKeys diagnosticsOf count ↔ key ∈ census.keysByOrdinal := by
  rw [censusKeys, Finset.mem_sort, mem_toFinset, mem_flatMap, hcomplete.mem_keys]

/-- The entries, read in order, are the keys with their ordinals and counts. -/
theorem orderedEntries_eq : census.orderedEntries = (censusKeys diagnosticsOf count).map fun key =>
    (key, ⟨census.keysByOrdinal.idxOf key, censusCounts diagnosticsOf count key⟩) := by
  have hperm := perm_insertionSort
    (fun entry other : DiagnosticCensusKey × ProvisionalDiagnosticCensusEntry =>
      entry.1 ≤ other.1) census.entries.entries
  have hkeys : census.orderedEntries.map Prod.fst = censusKeys diagnosticsOf count := by
    have hlisted : (census.orderedEntries.map Prod.fst).Perm (censusKeys diagnosticsOf count) := by
      have hfirst := (hperm.map Prod.fst).trans hcomplete.tallies.keys_perm
      refine hfirst.trans ?_
      rw [perm_ext_iff_of_nodup hcomplete.tallies.keys_nodup censusKeys_nodup]
      exact fun _ => hcomplete.mem_censusKeys_iff.symm
    have hsorted : (census.orderedEntries.map Prod.fst).Pairwise (· ≤ ·) := by
      rw [pairwise_map]
      exact pairwise_insertionSort _ _
    exact hlisted.eq_of_pairwise' hsorted (Finset.pairwise_sort _ _)
  rw [← hkeys, map_map]
  refine (map_id _).symm.trans (map_congr_left fun entry hentry => ?_)
  have hmem : (entry.1, entry.2) ∈ census.entries.entries := hperm.mem_iff.mp hentry
  have hget := KeyedMap.get?_eq_some_iff.mpr hmem
  have hlisted := hcomplete.tallies.listed entry.1
    (hcomplete.tallies.mem_keys_iff.mp (KeyedMap.mem_keys_of_get? hget))
  exact Prod.ext rfl (Option.some.inj (hget.symm.trans hlisted))

theorem length_entries : census.entries.entries.length = (censusKeys diagnosticsOf count).length := by
  have hlength := congrArg List.length hcomplete.orderedEntries_eq
  rwa [DiagnosticCensusAccumulator.orderedEntries, length_insertionSort,
    length_map] at hlength

theorem telemetry_eq : census.telemetry = {
    occurrenceCount := ((List.range count).flatMap diagnosticsOf).length
    distinctCount := (censusKeys diagnosticsOf count).length
    maxDiagnosticsPerExport :=
      ((List.range count).map fun index => (diagnosticsOf index).length).foldl max 0
    membershipReferenceCount :=
      ((List.range count).map fun index => (diagnosticsOf index).toFinset.card).sum } := by
  rw [DiagnosticCensusAccumulator.telemetry, hcomplete.occurrence_count,
    hcomplete.max_diagnostics, hcomplete.reference_count, hcomplete.length_entries]

theorem finalIndexes_eq : census.finalIndexes =
    (censusKeys diagnosticsOf count).zipIdx.foldl
      (fun table item => table.set (census.keysByOrdinal.idxOf item.1) (some item.2))
      (List.replicate census.keysByOrdinal.length none) := by
  rw [DiagnosticCensusAccumulator.finalIndexes, hcomplete.orderedEntries_eq, zipIdx_map,
    foldl_map, hcomplete.tallies.length_entries]
  rfl

theorem finalIndexes_idxOf (hkey : key ∈ censusKeys diagnosticsOf count) :
    census.finalIndexes[census.keysByOrdinal.idxOf key]? =
      some (some ((censusKeys diagnosticsOf count).idxOf key)) := by
  have hitem : (key, (censusKeys diagnosticsOf count).idxOf key) ∈
      (censusKeys diagnosticsOf count).zipIdx := by
    rw [mem_zipIdx_iff_getElem?]
    exact List.getElem?_idxOf hkey
  have hlisted : ∀ item ∈ (censusKeys diagnosticsOf count).zipIdx,
      item.1 ∈ census.keysByOrdinal := fun item hmem =>
    hcomplete.mem_censusKeys_iff.mp (fst_mem_of_mem_zipIdx hmem)
  have hnodup : ((censusKeys diagnosticsOf count).zipIdx.map fun item =>
      census.keysByOrdinal.idxOf item.1).Nodup := by
    have hmap : ((censusKeys diagnosticsOf count).zipIdx.map fun item =>
        census.keysByOrdinal.idxOf item.1) =
        (censusKeys diagnosticsOf count).map census.keysByOrdinal.idxOf := by
      conv_rhs => rw [← zipIdx_map_fst 0 (censusKeys diagnosticsOf count), map_map]
      rfl
    rw [hmap]
    apply censusKeys_nodup.map_on
    intro first hfirst second _ heq
    exact (idxOf_inj (hcomplete.mem_censusKeys_iff.mp hfirst)).mp heq
  rw [hcomplete.finalIndexes_eq]
  refine getElem?_foldl_set hnodup (fun item hmem => ?_) hitem
  rw [length_replicate]
  exact idxOf_lt_length_of_mem (hlisted item hmem)

theorem finalIndexes_isSome : census.finalIndexes.all Option.isSome = true := by
  rw [all_eq_true]
  intro index hindex
  obtain ⟨ordinal, hordinal, rfl⟩ := mem_iff_getElem.mp hindex
  have hbound : ordinal < census.keysByOrdinal.length := by
    rwa [hcomplete.finalIndexes_eq, length_foldl_set, length_replicate] at hordinal
  have hkey : census.keysByOrdinal.get ⟨ordinal, hbound⟩ ∈ censusKeys diagnosticsOf count :=
    hcomplete.mem_censusKeys_iff.mpr (getElem_mem hbound)
  have hfinal := hcomplete.finalIndexes_idxOf hkey
  have hidx : census.keysByOrdinal.idxOf (census.keysByOrdinal.get ⟨ordinal, hbound⟩) = ordinal :=
    List.Nodup.idxOf_getElem hcomplete.tallies.keys_nodup ordinal hbound
  rw [hidx, List.getElem?_eq_getElem hordinal] at hfinal
  rw [Option.some.inj hfinal]
  rfl

/-- The membership of a result, renumbered and sorted, lists the positions of
its diagnostics among all. -/
theorem finalizeMembership_eq {index : ℕ} (hindex : index < count) :
    finalizeMembership census.finalIndexes
        (some (membersAmong diagnosticsOf census.keysByOrdinal index), index) =
      .ok (membersAmong diagnosticsOf (censusKeys diagnosticsOf count) index) := by
  have hall : ∀ key ∈ diagnosticsOf index, key ∈ censusKeys diagnosticsOf count := by
    intro key hkey
    rw [hcomplete.mem_censusKeys_iff, hcomplete.mem_keys]
    exact ⟨index, mem_range.mpr hindex, hkey⟩
  let renumber (ordinal : ℕ) : ℕ := (census.finalIndexes[ordinal]?.join).getD 0
  have hrenumber : ∀ key ∈ diagnosticsOf index,
      renumber (census.keysByOrdinal.idxOf key) = (censusKeys diagnosticsOf count).idxOf key := by
    intro key hkey
    simp [renumber, hcomplete.finalIndexes_idxOf (hall key hkey)]
  have hlookup : ∀ ordinal ∈ membersAmong diagnosticsOf census.keysByOrdinal index,
      ErrorChain.context census.finalIndexes[ordinal]?.join
        s!"diagnostic census membership result {index} has an invalid provisional ordinal" =
      .ok (renumber ordinal) := by
    intro ordinal hordinal
    rw [membersAmong, Finset.mem_sort, Finset.mem_image] at hordinal
    obtain ⟨key, hkey, rfl⟩ := hordinal
    rw [mem_toFinset] at hkey
    rw [hrenumber key hkey, hcomplete.finalIndexes_idxOf (hall key hkey)]
    rfl
  have himage : ((diagnosticsOf index).toFinset.image census.keysByOrdinal.idxOf).image renumber =
      (diagnosticsOf index).toFinset.image (censusKeys diagnosticsOf count).idxOf := by
    rw [Finset.image_image]
    exact Finset.image_congr fun key hkey => hrenumber key (mem_toFinset.mp hkey)
  have hinjective : Set.InjOn renumber
      ((diagnosticsOf index).toFinset.image census.keysByOrdinal.idxOf) := by
    intro first hfirst second hsecond heq
    obtain ⟨key, hkey, rfl⟩ := Finset.mem_image.mp hfirst
    obtain ⟨other, hother, rfl⟩ := Finset.mem_image.mp hsecond
    rw [mem_toFinset] at hkey hother
    rw [hrenumber key hkey, hrenumber other hother] at heq
    rw [(idxOf_inj (hall key hkey)).mp heq]
  have hsorted : ((membersAmong diagnosticsOf census.keysByOrdinal index).map renumber).insertionSort
      (· ≤ ·) = membersAmong diagnosticsOf (censusKeys diagnosticsOf count) index := by
    rw [membersAmong, insertionSort_map_sort hinjective, himage, membersAmong]
  have hchain : (membersAmong diagnosticsOf (censusKeys diagnosticsOf count) index).IsChain
      (· < ·) := (Finset.sortedLT_sort _).isChain
  refine Fallible.bind_eq_ok.mpr ⟨_, rfl, ?_⟩
  refine Fallible.bind_eq_ok.mpr ⟨_, mapM_eq_map hlookup, ?_⟩
  rw [hsorted]
  exact Fallible.bind_eq_ok.mpr ⟨(), if_pos (decide_eq_true hchain), rfl⟩

theorem finalize_eq (diagnosticCensusId : DiagnosticCensusKey → Except ErrorChain String) :
    census.finalize diagnosticCensusId =
      censusOf diagnosticsOf count diagnosticCensusId capture := by
  have hrecorded : ∀ item ∈ census.recordedResults.zipIdx, ErrorChain.ensure item.1
      s!"diagnostic census omitted result index {item.2}" = .ok () := by
    intro item hitem
    rw [hcomplete.recorded, map_range_zipIdx, mem_map] at hitem
    obtain ⟨index, hindex, rfl⟩ := hitem
    simp only [ErrorChain.ensure, decide_eq_true hindex, if_true]
  have hitems : census.orderedEntries.zipIdx.map (fun item => (item.1.1, item.1.2.counts)) =
      (censusKeys diagnosticsOf count).map fun key => (key, censusCounts diagnosticsOf count key) := by
    rw [hcomplete.orderedEntries_eq, zipIdx_map, map_map]
    conv_rhs => rw [← zipIdx_map_fst 0 (censusKeys diagnosticsOf count), map_map]
    rfl
  have hmembership : (census.membershipByResultIndex.mapM fun byResultIndex =>
      byResultIndex.zipIdx.mapM (finalizeMembership census.finalIndexes)) =
      .ok (if capture then some ((List.range count).map
        (membersAmong diagnosticsOf (censusKeys diagnosticsOf count))) else none) := by
    rw [hcomplete.membership]
    cases capture with
    | false => rfl
    | true =>
      have hall : ((List.range count).map fun index => (if index ∈ List.range count then
          some (membersAmong diagnosticsOf census.keysByOrdinal index) else none, index)).mapM
            (finalizeMembership census.finalIndexes) =
          .ok ((List.range count).map
            (membersAmong diagnosticsOf (censusKeys diagnosticsOf count))) := by
        rw [mapM_eq_ok_iff, List.forall₂_map_left_iff, List.forall₂_map_right_iff,
          List.forall₂_same]
        intro index hindex
        rw [if_pos hindex]
        exact hcomplete.finalizeMembership_eq (mem_range.mp hindex)
      show (some <$> (List.zipIdx _).mapM _) = _
      rw [map_range_zipIdx, hall]
      rfl
  rw [DiagnosticCensusAccumulator.finalize, forM_eq_ok, ok_bind, foldlM_finalizeEntry,
    hitems, censusOf]
  swap
  · exact hrecorded
  cases hdescribed : ((censusKeys diagnosticsOf count).map fun key =>
      (key, censusCounts diagnosticsOf count key)).foldlM
        (describeEntry diagnosticCensusId) ([], []) with
  | error error => rfl
  | ok described =>
    show (ErrorChain.ensure (census.finalIndexes.all Option.isSome) _ >>= fun _ =>
      (census.membershipByResultIndex.mapM fun byResultIndex =>
        byResultIndex.zipIdx.mapM (finalizeMembership census.finalIndexes)) >>= _) = _
    rw [ErrorChain.ensure, if_pos hcomplete.finalIndexes_isSome, ok_bind, hmembership,
      ok_bind, hcomplete.telemetry_eq]
    rfl

end Complete

end Final

end ConvexWasm.Compiler.DiagnosticCensus
