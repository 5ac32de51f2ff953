import ConvexWasm.EntryGrouping.CandidateOrder
import ConvexWasm.EntryGrouping.PlanGuarantees

/-!
# Entry groups do not depend on the order of a request

The merge loop reads the modules of a group as a set, so runs on two listings
of the same request stay the same up to the order of the modules inside the
groups, and the plans are equal.
-/

namespace ConvexWasm.EntryGrouping

open Fallible JsText List UnionForest

variable {costs costs' : KeyedMap String ℕ} {policy : Policy}
  {normalized normalized' : List NormalizedEntry} {groups groups' : List Group}

section Merging

variable {group group' left right left' right' : Group} {state state' : MergeState} {index : ℕ}

/-- What is left of a group when the order of its modules is forgotten. -/
def Group.unordered (group : Group) : ℕ × List ℕ × Multiset String × ℕ × ℕ :=
  (group.parent, group.members, group.dependencies, group.cost, group.minimumMemberCost)

theorem Group.unordered_eq_iff : group.unordered = group'.unordered ↔
    group.parent = group'.parent ∧ group.members = group'.members ∧
      group.dependencies.Perm group'.dependencies ∧ group.cost = group'.cost ∧
        group.minimumMemberCost = group'.minimumMemberCost := by
  simp [Group.unordered]

/-- The same groups, up to the order of their modules. -/
def SameGroups (groups groups' : List Group) : Prop :=
  ∀ index : ℕ, groups[index]?.map Group.unordered = groups'[index]?.map Group.unordered

section

variable (hsame : SameGroups groups groups')
include hsame

theorem SameGroups.exists_group (hgroup : groups[index]? = some group) :
    ∃ group', groups'[index]? = some group' ∧ group.unordered = group'.unordered := by
  have hmap := hsame index
  rw [hgroup, Option.map_some] at hmap
  obtain ⟨group', hgroup', heq⟩ := Option.map_eq_some_iff.mp hmap.symm
  exact ⟨group', hgroup', heq.symm⟩

theorem SameGroups.parentOf : parentOf groups = parentOf groups' := by
  funext index
  have hparent := congrArg (Option.map Prod.fst) (hsame index)
  rw [Option.map_map, Option.map_map] at hparent
  exact congrArg (fun parent : Option ℕ => parent.getD index) hparent

theorem SameGroups.modify (index target : ℕ) :
    SameGroups (groups.modify index (·.withParent target))
      (groups'.modify index (·.withParent target)) := by
  intro other
  by_cases hother : index = other
  · have hread := congrArg (Option.map fun data : ℕ × List ℕ × Multiset String × ℕ × ℕ =>
      (target, data.2)) (hsame other)
    simpa [hother, Option.map_map, Function.comp_def, Group.unordered, Group.withParent]
      using hread
  · simpa [hother] using hsame other

theorem SameGroups.set (hgroup : group.unordered = group'.unordered) (index : ℕ) :
    SameGroups (groups.set index group) (groups'.set index group') := by
  intro other
  have hother := hsame other
  rw [List.getElem?_set, List.getElem?_set]
  by_cases hindex : index = other
  · subst hindex
    have hlength : groups.length ≤ index ↔ groups'.length ≤ index := by
      rw [← List.getElem?_eq_none_iff, ← List.getElem?_eq_none_iff,
        ← Option.map_eq_none_iff (f := Group.unordered), hother, Option.map_eq_none_iff]
    by_cases hbound : index < groups.length
    · have hbound' : index < groups'.length := by omega
      simp [hbound, hbound', hgroup]
    · have hbound' : ¬index < groups'.length := by omega
      simp [hbound, hbound']
  · rw [if_neg hindex, if_neg hindex]
    exact hother

end

/-- States of the merge loop that differ in the order of modules only. -/
structure SameState (state state' : MergeState) : Prop where
  groups : SameGroups state.groups state'.groups
  attempted : state.attemptedMerges = state'.attemptedMerges
  accepted : state.acceptedMerges = state'.acceptedMerges

theorem SameState.root (hsame : SameState state state') (index : ℕ) :
    (root state index).1 = (root state' index).1 ∧
      SameState (root state index).2 (root state' index).2 := by
  unfold EntryGrouping.root
  rw [hsame.groups.parentOf, hsame.accepted]
  refine ⟨rfl, ?_, hsame.attempted, rfl⟩
  have hfold : ∀ (indices : List ℕ) (target : ℕ) (groups groups' : List Group),
      SameGroups groups groups' →
        SameGroups (indices.foldl (fun groups index => groups.modify index (·.withParent target))
            groups)
          (indices.foldl (fun groups index => groups.modify index (·.withParent target))
            groups') := by
    intro indices target
    induction indices with
    | nil => exact fun _ _ hgroups => hgroups
    | cons index rest ih => exact fun _ _ hgroups => ih _ _ (hgroups.modify index target)
  exact hfold _ _ _ _ hsame.groups

theorem totalCost_unordered (hcosts : costOf costs = costOf costs') {ids ids' : List String}
    (hperm : ids.Perm ids') : totalCost costs ids = totalCost costs' ids' := by
  rw [totalCost, totalCost, hcosts, (hperm.map _).sum_eq]

theorem additionalIds_perm {larger larger' ids ids' : List String}
    (hlarger : larger.Perm larger') (hids : ids.Perm ids') :
    (additionalIds larger ids).Perm (additionalIds larger' ids') := by
  unfold additionalIds
  simp only [hlarger.mem_iff]
  exact hids.filter _

theorem sharedIds_perm {larger larger' ids ids' : List String}
    (hlarger : larger.Perm larger') (hids : ids.Perm ids') :
    (sharedIds larger ids).Perm (sharedIds larger' ids') := by
  unfold sharedIds
  simp only [hlarger.mem_iff]
  exact hids.filter _

theorem compareModules_unordered (hcosts : costOf costs = costOf costs')
    {larger larger' ids ids' : List String} (hlarger : larger.Perm larger')
    (hids : ids.Perm ids') {comparison : Comparison}
    (hcompare : ids.foldlM (compareModule costs larger) (0, 0, 0) = .ok comparison) :
    ids'.foldlM (compareModule costs' larger') (0, 0, 0) = .ok comparison := by
  rw [compareModules_eq_ok] at hcompare ⊢
  rwa [← totalCost_unordered hcosts (sharedIds_perm hlarger hids),
    ← totalCost_unordered hcosts (additionalIds_perm hlarger hids),
    ← (additionalIds_perm hlarger hids).length_eq]

theorem attempt_unordered (hcosts : costOf costs = costOf costs')
    (hleft : left.unordered = left'.unordered) (hright : right.unordered = right'.unordered)
    {found : Attempt} (hattempt : attempt costs left right = .ok found) :
    attempt costs' left' right' = .ok found := by
  obtain ⟨-, hleftMembers, hleftIds, hleftCost, hleftMinimum⟩ := Group.unordered_eq_iff.mp hleft
  obtain ⟨-, hrightMembers, hrightIds, hrightCost, hrightMinimum⟩ :=
    Group.unordered_eq_iff.mp hright
  unfold attempt at hattempt ⊢
  rw [← hleftIds.length_eq, ← hrightIds.length_eq, ← hleftMembers, ← hrightMembers,
    ← hleftMinimum, ← hrightMinimum]
  obtain ⟨comparison, hcompare, hattempt⟩ := bind_eq_ok.mp hattempt
  obtain ⟨unionCost, hunion, hattempt⟩ := bind_eq_ok.mp hattempt
  rw [bind_eq_ok]
  refine ⟨comparison, ?_, ?_⟩
  · split_ifs at hcompare ⊢ with hsize
    · exact compareModules_unordered hcosts hrightIds hleftIds hcompare
    · exact compareModules_unordered hcosts hleftIds hrightIds hcompare
  · rw [bind_eq_ok]
    refine ⟨unionCost, ?_, ?_⟩
    · split_ifs at hunion ⊢ with hsize
      · rwa [← hrightCost]
      · rwa [← hleftCost]
    · split_ifs at hattempt ⊢ with hsize
      · rwa [← hrightIds.length_eq]
      · rwa [← hleftIds.length_eq]

theorem SameState.mergeInto (hsame : SameState state state')
    (hleft : left.unordered = left'.unordered) (hright : right.unordered = right'.unordered)
    (retainedIndex removedIndex unionCost minimumMemberCost : ℕ) :
    SameState (mergeInto state retainedIndex removedIndex left right unionCost minimumMemberCost)
      (mergeInto state' retainedIndex removedIndex left' right' unionCost minimumMemberCost) := by
  obtain ⟨hleftParent, hleftMembers, hleftIds, -, -⟩ := Group.unordered_eq_iff.mp hleft
  obtain ⟨-, hrightMembers, hrightIds, hrightCost, hrightMinimum⟩ :=
    Group.unordered_eq_iff.mp hright
  refine ⟨?_, hsame.attempted, congrArg (· + 1) hsame.accepted⟩
  apply SameGroups.set
  · apply hsame.groups.set
    rw [Group.unordered_eq_iff]
    refine ⟨hleftParent, ?_, ?_, rfl, rfl⟩
    · rw [mergedGroup, mergedGroup, hleftMembers, hrightMembers]
    · exact hleftIds.append (additionalIds_perm hleftIds hrightIds)
  · rw [Group.unordered_eq_iff]
    exact ⟨rfl, rfl, List.Perm.refl _, hrightCost, hrightMinimum⟩

variable (hcosts : costOf costs = costOf costs') (hsame : SameState state state')
include hcosts hsame

/-- One turn of the merge loop. -/
theorem SameState.mergePair {pair : ScoredPair} {next : MergeState}
    (hstep : mergePair costs policy state pair = .ok next) :
    ∃ next', EntryGrouping.mergePair costs' policy state' pair = .ok next' ∧
      SameState next next' := by
  unfold EntryGrouping.mergePair at hstep ⊢
  dsimp only at hstep ⊢
  obtain ⟨hleftIndex, hfirst⟩ := hsame.root pair.left
  obtain ⟨hrightIndex, hsecond⟩ := hfirst.root pair.right
  rw [← hleftIndex, ← hrightIndex]
  generalize EntryGrouping.root (EntryGrouping.root state pair.left).2 pair.right = found at *
  generalize EntryGrouping.root (EntryGrouping.root state' pair.left).2 pair.right = found' at *
  obtain ⟨rightIndex, found⟩ := found
  obtain ⟨rightIndex', found'⟩ := found'
  split_ifs at hstep ⊢ with hroots
  · obtain rfl := Except.ok.inj hstep
    exact ⟨_, rfl, hsecond⟩
  · have hattempted : SameState { found with attemptedMerges := found.attemptedMerges + 1 }
        { found' with attemptedMerges := found'.attemptedMerges + 1 } :=
      ⟨hsecond.groups, congrArg (· + 1) hsecond.attempted, hsecond.accepted⟩
    split at hstep
    · next left right hleft hright =>
        obtain ⟨left', hleft', hleftSame⟩ := hsecond.groups.exists_group hleft
        obtain ⟨right', hright', hrightSame⟩ := hsecond.groups.exists_group hright
        obtain ⟨compared, hattempt, hstep⟩ := bind_eq_ok.mp hstep
        rw [hleft', hright']
        dsimp only
        rw [attempt_unordered hcosts hleftSame hrightSame hattempt, ok_bind,
          ← (Group.unordered_eq_iff.mp hleftSame).2.1,
          ← (Group.unordered_eq_iff.mp hrightSame).2.1]
        split_ifs at hstep ⊢ with haccepted hsize
        · obtain rfl := Except.ok.inj hstep
          exact ⟨_, rfl, hattempted.mergeInto hleftSame hrightSame _ _ _ _⟩
        · obtain rfl := Except.ok.inj hstep
          exact ⟨_, rfl, hattempted.mergeInto hrightSame hleftSame _ _ _ _⟩
        · obtain rfl := Except.ok.inj hstep
          exact ⟨_, rfl, hattempted⟩
    · simp at hstep

/-- A whole run of the merge loop. -/
theorem SameState.merge {pairs : List ScoredPair} {merged : MergeState}
    (hmerge : pairs.foldlM (EntryGrouping.mergePair costs policy) state = .ok merged) :
    ∃ merged', pairs.foldlM (EntryGrouping.mergePair costs' policy) state' = .ok merged' ∧
      SameState merged merged' := by
  induction pairs generalizing state state' with
  | nil =>
    obtain rfl := Except.ok.inj hmerge
    exact ⟨state', rfl, hsame⟩
  | cons pair rest ih =>
    obtain ⟨next, hstep, hmerge⟩ := bind_eq_ok.mp hmerge
    obtain ⟨next', hstep', hnext⟩ := hsame.mergePair hcosts hstep
    rw [foldlM_cons, hstep', ok_bind]
    exact ih hnext hmerge

end Merging

variable {bucket : ℕ → ℕ} {fingerprint : Policy → List (List String) → String} {plan : EntryGroups}

section

variable (hsame : normalized.map (·.unordered) = normalized'.map (·.unordered))
include hsame

theorem initialGroups_unordered :
    SameState ⟨initialGroups normalized, 0, 0⟩ ⟨initialGroups normalized', 0, 0⟩ := by
  refine ⟨?_, rfl, rfl⟩
  intro index
  rw [getElem?_initialGroups, getElem?_initialGroups, Option.map_map, Option.map_map]
  apply getElem?_map_unordered _ _ hsame
  intro entry entry' hentry
  obtain ⟨-, hids, hcost⟩ := NormalizedEntry.unordered_eq_iff.mp hentry
  exact Group.unordered_eq_iff.mpr ⟨rfl, rfl, hids, hcost, hcost⟩

theorem entryPathAt_unordered : entryPathAt normalized = entryPathAt normalized' := by
  funext index
  have hpath := getElem?_map_unordered (·.entryPath)
    (fun entry entry' hentry => (NormalizedEntry.unordered_eq_iff.mp hentry).1) hsame index
  rw [entryPathAt, entryPathAt, hpath]

theorem groupResult_unordered {group group' : Group} (hgroup : group.unordered = group'.unordered) :
    groupResult normalized group = groupResult normalized' group' := by
  obtain ⟨-, hmembers, hids, hcost, hminimum⟩ := Group.unordered_eq_iff.mp hgroup
  rw [groupResult, groupResult, entryPathAt_unordered hsame, hmembers, hids.length_eq, hcost,
    hminimum]

/-- The results are read from the same roots in the same order. -/
theorem resultGroups_unordered (hgroups : SameGroups groups groups') :
    resultGroups normalized groups = resultGroups normalized' groups' := by
  have hroots : (rootGroups groups).map Group.unordered = (rootGroups groups').map
      Group.unordered := by
    have hindexed : groups.zipIdx.map (fun group => (group.1.unordered, group.2)) =
        groups'.zipIdx.map fun group => (group.1.unordered, group.2) := by
      apply ext_getElem?
      intro index
      have happly := congrArg (Option.map fun data => (data, 0 + index)) (hgroups index)
      rw [Option.map_map, Option.map_map] at happly
      rw [List.getElem?_map, List.getElem?_map, List.getElem?_zipIdx, List.getElem?_zipIdx,
        Option.map_map, Option.map_map]
      exact happly
    have hread : ∀ groups : List Group, (rootGroups groups).map Group.unordered =
        ((groups.zipIdx.map fun group => (group.1.unordered, group.2)).filter
          fun data => decide (data.1.1 = data.2)).map Prod.fst := by
      intro groups
      rw [rootGroups, filter_map, map_map, map_map]
      rfl
    rw [hread, hindexed, ← hread]
  have hresults : (rootGroups groups).map (groupResult normalized) =
      (rootGroups groups').map (groupResult normalized') := by
    apply ext_getElem?
    intro index
    have hroot := congrArg (·[index]?) hroots
    simp only [List.getElem?_map] at hroot ⊢
    cases hgroup : (rootGroups groups)[index]? with
    | none =>
      rw [hgroup, Option.map_none] at hroot
      rw [Option.map_eq_none_iff.mp hroot.symm]
      rfl
    | some group =>
      rw [hgroup, Option.map_some] at hroot
      obtain ⟨group', hgroup', heq⟩ := Option.map_eq_some_iff.mp hroot.symm
      rw [hgroup', Option.map_some, Option.map_some, groupResult_unordered hsame heq.symm]
  rw [resultGroups, resultGroups, hresults]

end

theorem planNormalized_unordered (hcosts : costOf costs = costOf costs')
    (hsame : normalized.map (·.unordered) = normalized'.map (·.unordered))
    (hplan : planNormalized bucket fingerprint policy costs normalized = .ok plan) :
    planNormalized bucket fingerprint policy costs' normalized' = .ok plan := by
  unfold planNormalized at hplan ⊢
  obtain ⟨scored, hscored, hplan⟩ := bind_eq_ok.mp hplan
  obtain ⟨merged, hmerged, hplan⟩ := bind_eq_ok.mp hplan
  obtain ⟨total, htotal, hplan⟩ := bind_eq_ok.mp hplan
  obtain rfl := Except.ok.inj hplan
  obtain ⟨merged', hmerged', hstate⟩ := (initialGroups_unordered hsame).merge hcosts hmerged
  have hresults := resultGroups_unordered hsame hstate.groups
  have hmemberships : normalized.map (·.dependencies.length) =
      normalized'.map (·.dependencies.length) := by
    apply ext_getElem?
    intro index
    rw [List.getElem?_map, List.getElem?_map]
    exact getElem?_map_unordered (·.dependencies.length)
      (fun entry entry' hentry => (NormalizedEntry.unordered_eq_iff.mp hentry).2.1.length_eq)
      hsame index
  rw [scoredPairs_unordered hsame hcosts bucket hscored, ok_bind, hmerged', ok_bind, ← hresults]
  dsimp only
  rw [htotal, ok_bind, ← hstate.attempted, ← hstate.accepted, ← hmemberships,
    ← (candidatePairs_unordered bucket hsame).length_eq]
  rfl

variable {request request' : Request}

/-- What is left of an entry when the order of its modules is forgotten. -/
def EntryClosure.unordered (entry : EntryClosure) : String × Multiset String :=
  (entry.entryPath, entry.dependencies)

/-- The same request with its modules, its entries and the modules of each entry in
another order. -/
structure Reordered (request request' : Request) : Prop where
  modules : request.modules.Perm request'.modules
  entries : (request.entries.map (·.unordered)).Perm (request'.entries.map (·.unordered))
  inflation : request.maximumCostInflation = request'.maximumCostInflation
  units : request.maximumLogicalUnits = request'.maximumLogicalUnits

theorem get?_perm (hperm : costs.entries.Perm costs'.entries) (id : String) :
    costs.get? id = costs'.get? id := by
  apply Option.ext
  intro cost
  rw [KeyedMap.get?_eq_some_iff, KeyedMap.get?_eq_some_iff, hperm.mem_iff]

theorem Reordered.exists_entry (hreordered : Reordered request request') {entry' : EntryClosure}
    (hentry : entry' ∈ request'.entries) :
    ∃ entry ∈ request.entries, entry.entryPath = entry'.entryPath ∧
      entry.dependencies.Perm entry'.dependencies := by
  have hmem : entry'.unordered ∈ request.entries.map (·.unordered) :=
    hreordered.entries.mem_iff.mpr (mem_map_of_mem hentry)
  obtain ⟨entry, hlisted, heq⟩ := mem_map.mp hmem
  obtain ⟨hpath, hids⟩ := Prod.mk.inj heq
  exact ⟨entry, hlisted, hpath, Multiset.coe_eq_coe.mp hids⟩

theorem costOf_perm (hperm : costs.entries.Perm costs'.entries) : costOf costs = costOf costs' := by
  funext id
  rw [costOf, costOf, get?_perm hperm]

theorem AcceptedEntry.unordered (hperm : costs.entries.Perm costs'.entries)
    {maximumLogicalUnits : ℤ} {entry entry' : EntryClosure}
    (haccepted : AcceptedEntry costs maximumLogicalUnits entry)
    (hpath : entry.entryPath = entry'.entryPath)
    (hids : entry.dependencies.Perm entry'.dependencies) :
    AcceptedEntry costs' maximumLogicalUnits entry' where
  named := hpath ▸ haccepted.named
  nonempty := fun hnil => haccepted.nonempty (perm_nil.mp (hnil ▸ hids))
  known := fun id hid =>
    (hperm.map Prod.fst).mem_iff.mp (haccepted.known id (hids.mem_iff.mpr hid))
  nodup := hids.nodup_iff.mp haccepted.nodup
  safe := totalCost_unordered (costOf_perm hperm) hids ▸ haccepted.safe
  fits := hids.length_eq ▸ haccepted.fits

/-- The same request is accepted, with the same costs. -/
theorem Reordered.accepted (hreordered : Reordered request request')
    (hrequest : AcceptedRequest request costs) :
    ∃ costs', AcceptedRequest request' costs' ∧ costs.entries.Perm costs'.entries := by
  have hcosts : costs.entries.Perm (request'.modules.map costEntry) :=
    hrequest.costs_eq ▸ hreordered.modules.map costEntry
  have hnodup : ((request'.modules.map costEntry).map Prod.fst).Nodup :=
    (hcosts.map Prod.fst).nodup_iff.mp costs.keys_nodup
  have hpaths : (request.entries.map (·.entryPath)).Perm (request'.entries.map (·.entryPath)) := by
    have hfirst := hreordered.entries.map Prod.fst
    rwa [map_map, map_map] at hfirst
  refine ⟨⟨_, hnodup⟩, ?_, hcosts⟩
  exact
    { modules_nonempty := fun hnil => hrequest.modules_nonempty
        (perm_nil.mp (hnil ▸ hreordered.modules))
      entries_nonempty := fun hnil => hrequest.entries_nonempty
        (map_eq_nil_iff.mp (perm_nil.mp (hnil ▸ hreordered.entries)))
      inflation := hreordered.inflation ▸ hrequest.inflation
      units_safe := hreordered.units ▸ hrequest.units_safe
      units := hreordered.units ▸ hrequest.units
      modules := fun module hmodule =>
        hrequest.modules module (hreordered.modules.mem_iff.mpr hmodule)
      costs_eq := rfl
      entries := by
        intro entry' hentry'
        obtain ⟨entry, hentry, hpath, hids⟩ := hreordered.exists_entry hentry'
        exact hreordered.units ▸ (hrequest.entries entry hentry).unordered hcosts hpath hids
      paths_nodup := hpaths.nodup_iff.mp hrequest.paths_nodup }

/-- The sorted entries are the same up to the order of their modules. -/
theorem Reordered.sortedEntries (hreordered : Reordered request request')
    (hrequest : AcceptedRequest request costs) (hcosts : costOf costs = costOf costs') :
    (sortedEntries costs request.entries).map (·.unordered) =
      (EntryGrouping.sortedEntries costs' request'.entries).map (·.unordered) := by
  have hread : ∀ (costs : KeyedMap String ℕ) (entries : List EntryClosure),
      (EntryGrouping.sortedEntries costs entries).map (·.unordered) =
        ((entries.map (·.unordered)).map fun data =>
          (data.1, data.2, (data.2.map (costOf costs)).sum)).insertionSort
            fun first second => utf16 first.1 ≤ utf16 second.1 := by
    intro costs entries
    have hmap : (entries.map (normalizedEntry costs)).map (·.unordered) =
        (entries.map (·.unordered)).map fun data =>
          (data.1, data.2, (data.2.map (costOf costs)).sum) := by
      rw [map_map, map_map]
      rfl
    rw [EntryGrouping.sortedEntries, ← hmap]
    exact map_insertionSort _ _ _ _ fun _ _ _ _ => Iff.rfl
  rw [hread, hread, ← hcosts]
  apply KeySort.insertionSort_eq_of_perm (fun data : String × Multiset String × ℕ => utf16 data.1)
    (hreordered.entries.map _)
  intro first hfirst second hsecond heq
  have hnodup : (((request.entries.map (·.unordered)).map fun data =>
      (data.1, data.2, (data.2.map (costOf costs)).sum)).map Prod.fst).Nodup := by
    rw [map_map, map_map]
    exact hrequest.paths_nodup
  exact inj_on_of_nodup_map hnodup hfirst hsecond (utf16_injective heq)

/-- Every listing of an accepted request has the same plan. -/
theorem entryGroups_order_independent (stringify : String → String) (bucket : ℕ → ℕ)
    (fingerprint : Policy → List (List String) → String) (request request' : Request)
    (plan : EntryGroups) (hreordered : Reordered request request')
    (hplan : planConvexWasmEntryGroups stringify bucket fingerprint request = .ok plan) :
    planConvexWasmEntryGroups stringify bucket fingerprint request' = .ok plan := by
  unfold planConvexWasmEntryGroups at hplan ⊢
  obtain ⟨⟨costs, normalized⟩, hnormalize, hplan⟩ := bind_eq_ok.mp hplan
  obtain ⟨hrequest, rfl⟩ := normalizeRequest_eq_ok.mp hnormalize
  obtain ⟨costs', hrequest', hperm⟩ := hreordered.accepted hrequest
  have hcosts := costOf_perm hperm
  rw [bind_eq_ok]
  refine ⟨(costs', EntryGrouping.sortedEntries costs' request'.entries),
    normalizeRequest_eq_ok.mpr ⟨hrequest', rfl⟩, ?_⟩
  rw [← hreordered.inflation, ← hreordered.units]
  exact planNormalized_unordered hcosts (hreordered.sortedEntries hrequest hcosts) hplan

/-- The sample with everything in another order. -/
def reorderedSample : Request where
  modules := [⟨"c.js", 4096⟩, ⟨"b.js", 8192⟩, ⟨"a.js", 4096⟩]
  entries := [⟨"second", ["b.js"]⟩, ⟨"first", ["b.js", "a.js"]⟩, ⟨"late", ["c.js"]⟩]
  maximumCostInflation := 3 / 2
  maximumLogicalUnits := 8

theorem entryGroups_order_independent_sample :
    planConvexWasmEntryGroups id (Nat.clog 2) (fun _ _ => "") reorderedSample = .ok samplePlan :=
  entryGroups_order_independent id (Nat.clog 2) (fun _ _ => "") sampleRequest reorderedSample
    samplePlan ⟨by decide, by decide, rfl, rfl⟩ (by decide +kernel)

end ConvexWasm.EntryGrouping
