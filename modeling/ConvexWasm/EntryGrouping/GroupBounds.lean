import ConvexWasm.EntryGrouping.Admission

/-!
# The bounds of entry groups

Every group covers exactly the modules of its members, costs what they cost
together, and keeps the bounds of the policy; the members of all groups are
the entries.  Merging preserves this, whatever pairs are tried.
-/

namespace ConvexWasm.EntryGrouping

open DoubleRounding Fallible Function GuardedAccumulation JsText List UnionForest

variable {costs : KeyedMap String ℕ} {ids : List String}

variable {larger : List String} {comparison : Comparison}

/-- What a module adds to a comparison. -/
def moduleEffect (costs : KeyedMap String ℕ) (larger : List String) (id : String) : Comparison :=
  if id ∈ larger then (costOf costs id, 0, 0) else (0, costOf costs id, 1)

theorem compareModule_guarded (costs : KeyedMap String ℕ) (larger : List String) :
    Guarded (compareModule costs larger) (fun _ => True) (moduleEffect costs larger)
      fun comparison => comparison.1 ≤ maxSafeInteger ∧ comparison.2.1 ≤ maxSafeInteger where
  bound_of_add := fun total extra hbound =>
    ⟨(Nat.le_add_right _ _).trans hbound.1, (Nat.le_add_right _ _).trans hbound.2⟩
  sound := by
    intro total id total' hok
    unfold compareModule moduleEffect at *
    split_ifs at hok ⊢ with hshared
    · cases hadd : addCost total.1 (costOf costs id) with
      | error failure => simp [hadd, Except.map] at hok
      | ok shared =>
        obtain ⟨rfl, hsafe⟩ := addCost_eq_ok.mp hadd
        rw [hadd] at hok
        obtain rfl := Except.ok.inj hok
        exact ⟨trivial, rfl, fun hbound => ⟨hsafe, hbound.2⟩⟩
    · cases hadd : addCost total.2.1 (costOf costs id) with
      | error failure => simp [hadd, Except.map] at hok
      | ok additional =>
        obtain ⟨rfl, hsafe⟩ := addCost_eq_ok.mp hadd
        rw [hadd] at hok
        obtain rfl := Except.ok.inj hok
        exact ⟨trivial, rfl, fun hbound => ⟨hbound.1, hsafe⟩⟩
  complete := by
    intro total id _ hbound
    unfold compareModule moduleEffect at *
    split_ifs at hbound ⊢ with hshared
    · rw [addCost_eq_ok.mpr ⟨rfl, hbound.1⟩]
      rfl
    · rw [addCost_eq_ok.mpr ⟨rfl, hbound.2⟩]
      rfl

def sharedIds (larger ids : List String) : List String := ids.filter fun id => decide (id ∈ larger)

def additionalIds (larger ids : List String) : List String :=
  ids.filter fun id => decide (id ∉ larger)

theorem sum_moduleEffect (costs : KeyedMap String ℕ) (larger ids : List String) :
    (ids.map (moduleEffect costs larger)).sum =
      (totalCost costs (sharedIds larger ids), totalCost costs (additionalIds larger ids),
        (additionalIds larger ids).length) := by
  induction ids with
  | nil => rfl
  | cons id rest ih =>
    rw [map_cons, sum_cons, ih]
    by_cases hshared : id ∈ larger
    · simp [moduleEffect, sharedIds, additionalIds, hshared, totalCost]
    · simp [moduleEffect, sharedIds, additionalIds, hshared, totalCost, Nat.add_comm]

/-- The loop over the smaller group separates its modules by the larger one. -/
theorem compareModules_eq_ok :
    ids.foldlM (compareModule costs larger) (0, 0, 0) = .ok comparison ↔
      comparison = (totalCost costs (sharedIds larger ids),
        totalCost costs (additionalIds larger ids), (additionalIds larger ids).length) ∧
        totalCost costs (sharedIds larger ids) ≤ maxSafeInteger ∧
          totalCost costs (additionalIds larger ids) ≤ maxSafeInteger := by
  have hzero : ∀ total : Comparison, (0, 0, 0) + total = total := fun total => zero_add total
  constructor
  · intro hok
    obtain ⟨-, htotal, hbound⟩ := (compareModule_guarded costs larger).foldlM_sound hok
    rw [hzero, sum_moduleEffect] at htotal
    subst htotal
    exact ⟨rfl, hbound ⟨Nat.zero_le _, Nat.zero_le _⟩⟩
  · intro h
    obtain ⟨rfl, hbound⟩ := h
    have hok : ids.foldlM (compareModule costs larger) (0, 0, 0) =
        .ok ((0, 0, 0) + (ids.map (moduleEffect costs larger)).sum) :=
      (compareModule_guarded costs larger).foldlM_complete (fun _ _ => trivial)
        (by rw [hzero, sum_moduleEffect]; exact hbound)
    rwa [hzero, sum_moduleEffect] at hok

variable {left right : Group}

/-- The modules of the first list, then those that only the second one has. -/
def unionIds (ids others : List String) : List String := ids ++ additionalIds ids others

variable {others : List String}

theorem mem_unionIds {id : String} : id ∈ unionIds ids others ↔ id ∈ ids ∨ id ∈ others := by
  by_cases hmem : id ∈ ids <;> simp [unionIds, additionalIds, hmem]

theorem unionIds_nodup (hids : ids.Nodup) (hothers : others.Nodup) :
    (unionIds ids others).Nodup := by
  rw [unionIds, nodup_append]
  refine ⟨hids, hothers.filter _, ?_⟩
  intro id hid other hother heq
  exact (of_decide_eq_true (mem_filter.mp hother).2) (heq ▸ hid)

theorem unionIds_comm (hids : ids.Nodup) (hothers : others.Nodup) :
    (unionIds ids others).Perm (unionIds others ids) :=
  (perm_ext_iff_of_nodup (unionIds_nodup hids hothers) (unionIds_nodup hothers hids)).mpr
    fun _ => by rw [mem_unionIds, mem_unionIds, or_comm]

theorem totalCost_perm (hperm : ids.Perm others) : totalCost costs ids = totalCost costs others :=
  (hperm.map _).sum_eq

theorem totalCost_append (ids others : List String) :
    totalCost costs (ids ++ others) = totalCost costs ids + totalCost costs others := by
  simp [totalCost]

/-- The groups are compared by their union, whichever of them is the larger one. -/
theorem attempt_spec {found : Attempt} (hattempt : attempt costs left right = .ok found)
    (hleft : left.dependencies.Nodup) (hright : right.dependencies.Nodup)
    (hleftCost : left.cost = totalCost costs left.dependencies)
    (hrightCost : right.cost = totalCost costs right.dependencies) :
    found.unionCost = totalCost costs (unionIds left.dependencies right.dependencies) ∧
      found.minimumMemberCost = min left.minimumMemberCost right.minimumMemberCost ∧
      found.logicalUnits = (unionIds left.dependencies right.dependencies).length +
        left.members.length + right.members.length := by
  obtain ⟨comparison, hcompare, hattempt⟩ := bind_eq_ok.mp hattempt
  obtain ⟨rfl, -⟩ := compareModules_eq_ok.mp hcompare
  obtain ⟨unionCost, hunion, hattempt⟩ := bind_eq_ok.mp hattempt
  obtain ⟨rfl, -⟩ := addCost_eq_ok.mp hunion
  obtain rfl := Except.ok.inj hattempt
  have hcomm := unionIds_comm hleft hright
  split_ifs with hsize
  · rw [hrightCost, totalCost_perm hcomm, hcomm.length_eq]
    exact ⟨(totalCost_append _ _).symm, rfl, by simp [unionIds]⟩
  · rw [hleftCost]
    exact ⟨(totalCost_append _ _).symm, rfl, by simp [unionIds]⟩

variable {policy : Policy} {normalized : List NormalizedEntry}

/-- A group covers the modules of its members, and keeps the bounds. -/
structure Covers (costs : KeyedMap String ℕ) (policy : Policy) (normalized : List NormalizedEntry)
    (group : Group) : Prop where
  nonempty : group.members ≠ []
  nodup : group.dependencies.Nodup
  modules : ∀ id, id ∈ group.dependencies ↔
    ∃ index ∈ group.members, id ∈ dependenciesAt normalized index
  cost : group.cost = totalCost costs group.dependencies
  minimum : ∀ index ∈ group.members, ∀ entry, normalized[index]? = some entry →
    group.minimumMemberCost ≤ entry.cost
  positive : 0 < group.minimumMemberCost
  inflation : quotient group.cost group.minimumMemberCost ≤ policy.maximumCostInflation
  units : (group.dependencies.length : ℤ) + group.members.length ≤ policy.maximumLogicalUnits

/-- The parent does not matter. -/
theorem Covers.withParent {group : Group} (hcovers : Covers costs policy normalized group)
    (parent : ℕ) : Covers costs policy normalized (group.withParent parent) where
  nonempty := hcovers.nonempty
  nodup := hcovers.nodup
  modules := hcovers.modules
  cost := hcovers.cost
  minimum := hcovers.minimum
  positive := hcovers.positive
  inflation := hcovers.inflation
  units := hcovers.units

/-- An accepted merge covers the members of both groups. -/
theorem Covers.merge {retained removed : Group} {unionCost minimumMemberCost logicalUnits : ℕ}
    (hretained : Covers costs policy normalized retained)
    (hremoved : Covers costs policy normalized removed)
    (hcost : unionCost = totalCost costs (unionIds retained.dependencies removed.dependencies))
    (hminimum : minimumMemberCost = min retained.minimumMemberCost removed.minimumMemberCost)
    (hlogical : logicalUnits = (unionIds retained.dependencies removed.dependencies).length +
      retained.members.length + removed.members.length)
    (hinflation : quotient unionCost minimumMemberCost ≤ policy.maximumCostInflation)
    (hunits : (logicalUnits : ℤ) ≤ policy.maximumLogicalUnits) :
    Covers costs policy normalized (mergedGroup retained removed unionCost minimumMemberCost) where
  nonempty := by simp [mergedGroup, hretained.nonempty]
  nodup := unionIds_nodup hretained.nodup hremoved.nodup
  modules := by
    intro id
    have hunion : id ∈ (mergedGroup retained removed unionCost minimumMemberCost).dependencies ↔
        id ∈ retained.dependencies ∨ id ∈ removed.dependencies := mem_unionIds
    rw [hunion, hretained.modules, hremoved.modules]
    simp [mergedGroup, or_and_right, exists_or]
  cost := hcost
  minimum := by
    intro index hindex entry hentry
    rw [mergedGroup, hminimum]
    rcases mem_append.mp hindex with hold | hnew
    · exact (min_le_left _ _).trans (hretained.minimum index hold entry hentry)
    · exact (min_le_right _ _).trans (hremoved.minimum index hnew entry hentry)
  positive := by
    rw [mergedGroup, hminimum]
    exact lt_min hretained.positive hremoved.positive
  inflation := hinflation
  units := by
    rw [hlogical] at hunits
    simp only [mergedGroup, length_append]
    simp only [unionIds, additionalIds, length_append] at hunits
    omega

/-- Whichever group is retained, it covers the members of both. -/
theorem Covers.attempt {left right : Group} {found : Attempt}
    (hleft : Covers costs policy normalized left) (hright : Covers costs policy normalized right)
    (hattempt : EntryGrouping.attempt costs left right = .ok found)
    (haccepted : found.isAccepted policy = true) :
    Covers costs policy normalized (mergedGroup left right found.unionCost
        found.minimumMemberCost) ∧
      Covers costs policy normalized (mergedGroup right left found.unionCost
        found.minimumMemberCost) := by
  obtain ⟨hcost, hminimum, hlogical⟩ :=
    attempt_spec hattempt hleft.nodup hright.nodup hleft.cost hright.cost
  simp only [Attempt.isAccepted, Bool.not_eq_true', Bool.or_eq_false_iff, decide_eq_false_iff_not,
    not_lt] at haccepted
  obtain ⟨⟨-, hinflation⟩, hunits⟩ := haccepted
  have hcomm := unionIds_comm hleft.nodup hright.nodup
  refine ⟨hleft.merge hright hcost hminimum hlogical hinflation hunits,
    hright.merge hleft (hcost.trans (totalCost_perm hcomm)) (hminimum.trans (min_comm _ _)) ?_
      hinflation hunits⟩
  rw [hlogical, hcomm.length_eq]
  omega

variable {groups groups' : List Group} {index target : ℕ} {group : Group}

theorem parentOf_of_getElem? (hgroup : groups[index]? = some group) :
    parentOf groups index = group.parent := by
  rw [parentOf, hgroup]
  rfl

theorem parentOf_modify (hinner : parentOf groups index ≠ index) :
    parentOf (groups.modify index (·.withParent target)) =
      hang (parentOf groups) index target := by
  funext other
  rw [parentOf, List.getElem?_modify, hang]
  by_cases hother : index = other
  · subst hother
    cases hgroup : groups[index]? with
    | none => simp [parentOf, hgroup] at hinner
    | some group => simp [Group.withParent]
  · rw [update_of_ne (Ne.symm hother)]
    simp [hother, parentOf]

theorem data_modify : (groups.modify index (·.withParent target)).map (·.withParent 0) =
    groups.map (·.withParent 0) := by
  apply ext_getElem?
  intro other
  rw [List.getElem?_map, List.getElem?_map, List.getElem?_modify]
  by_cases hother : index = other
  · cases hgroup : groups[other]? <;> simp [hother, Group.withParent]
  · simp [hother]

/-- Relinking changes nothing but the parents. -/
theorem relinked_spec {indices : List ℕ}
    (hbelow : ∀ index ∈ indices, parentOf groups index ≠ index ∧ target ≠ index) :
    parentOf (indices.foldl (fun groups index => groups.modify index (·.withParent target))
        groups) = indices.foldl (fun parent index => hang parent index target) (parentOf groups) ∧
      (indices.foldl (fun groups index => groups.modify index (·.withParent target))
        groups).map (·.withParent 0) = groups.map (·.withParent 0) := by
  induction indices generalizing groups with
  | nil => exact ⟨rfl, rfl⟩
  | cons index rest ih =>
    obtain ⟨hinner, hne⟩ := hbelow index mem_cons_self
    have hhang : parentOf (groups.modify index (·.withParent target)) = _ := parentOf_modify hinner
    have hrest : ∀ later ∈ rest,
        parentOf (groups.modify index (·.withParent target)) later ≠ later ∧ target ≠ later := by
      intro later hlater
      obtain ⟨hlaterInner, hlaterNe⟩ := hbelow later (mem_cons_of_mem _ hlater)
      refine ⟨?_, hlaterNe⟩
      rw [hhang]
      exact fun hroot => hlaterInner ((hang_isRoot_iff hinner hne).mp hroot)
    obtain ⟨hparents, hdata⟩ := ih hrest
    rw [foldl_cons, foldl_cons, ← hhang]
    exact ⟨hparents, hdata.trans data_modify⟩

section

variable (hdata : groups'.map (·.withParent 0) = groups.map (·.withParent 0))
include hdata

/-- Groups with the same data but for the parents. -/
theorem exists_of_data (hgroup : groups'[index]? = some group) :
    ∃ before, groups[index]? = some before ∧ group = before.withParent group.parent := by
  have hsame := congrArg (·[index]?) hdata
  simp only [List.getElem?_map, hgroup, Option.map_some] at hsame
  obtain ⟨before, hbefore, heq⟩ := Option.map_eq_some_iff.mp hsame.symm
  refine ⟨before, hbefore, ?_⟩
  simp only [Group.withParent, Group.mk.injEq] at heq ⊢
  simp [heq]

theorem flatMap_members_of_data : groups'.flatMap (·.members) = groups.flatMap (·.members) := by
  have hmembers : ∀ groups : List Group,
      groups.flatMap (·.members) = (groups.map (·.withParent 0)).flatMap (·.members) := by
    intro groups
    rw [flatMap_map]
    rfl
  rw [hmembers, hdata, ← hmembers]

end

/-- Replacing a group exchanges its members. -/
theorem flatMap_set_perm (hgroup : groups[index]? = some group) (replacement : Group) :
    (replacement.members ++ groups.flatMap (·.members)).Perm
      (group.members ++ (groups.set index replacement).flatMap (·.members)) := by
  induction groups generalizing index with
  | nil => simp at hgroup
  | cons head rest ih =>
    cases index with
    | zero =>
      obtain rfl : head = group := by simpa using hgroup
      simpa using perm_append_comm_assoc _ _ _
    | succ index =>
      have hrest : rest[index]? = some group := by simpa using hgroup
      exact (perm_append_comm_assoc _ _ _).trans
        (((ih hrest).append_left head.members).trans (perm_append_comm_assoc _ _ _))

section States

variable {state : MergeState}

/-- The invariant of the merge loop. -/
structure Partitioned (costs : KeyedMap String ℕ) (policy : Policy)
    (normalized : List NormalizedEntry) (state : MergeState) : Prop where
  ranked : ∃ rank, Ranked (parentOf state.groups) rank state.acceptedMerges
  roots : ∀ (index : ℕ) (group : Group), state.groups[index]? = some group →
    group.parent = index → Covers costs policy normalized group
  merged : ∀ (index : ℕ) (group : Group), state.groups[index]? = some group →
    group.parent ≠ index → group.members = []
  members : (state.groups.flatMap (·.members)).Perm (List.range normalized.length)

/-- Looking for a root finds one and keeps the others. -/
theorem Partitioned.findRoot (hstate : Partitioned costs policy normalized state) (index : ℕ) :
    Partitioned costs policy normalized (root state index).2 ∧
      parentOf (root state index).2.groups (root state index).1 = (root state index).1 ∧
      ∀ other, parentOf (root state index).2.groups other = other ↔
        parentOf state.groups other = other := by
  obtain ⟨rank, hranked⟩ := hstate.ranked
  have hbelow : ∀ inner ∈ trail (parentOf state.groups) state.acceptedMerges index,
      parentOf state.groups inner ≠ inner ∧
        rank inner < rank (follow (parentOf state.groups) state.acceptedMerges index) :=
    fun inner hinner => rank_lt_of_mem_trail hranked hinner
  have hne : ∀ inner ∈ trail (parentOf state.groups) state.acceptedMerges index,
      parentOf state.groups inner ≠ inner ∧
        follow (parentOf state.groups) state.acceptedMerges index ≠ inner :=
    fun inner hinner => ⟨(hbelow inner hinner).1, fun heq => (heq ▸ (hbelow inner hinner).2).ne rfl⟩
  obtain ⟨hparents, hdata⟩ := relinked_spec hne
  obtain ⟨hranks, hroots⟩ := hranked.relink hbelow
  rw [← hparents] at hranks hroots
  have hstill : ∀ (other : ℕ) (group before : Group),
      (root state index).2.groups[other]? = some group →
      state.groups[other]? = some before → (group.parent = other ↔ before.parent = other) := by
    intro other group before hgroup hbefore
    rw [← parentOf_of_getElem? hgroup, ← parentOf_of_getElem? hbefore]
    exact hroots other
  refine ⟨⟨⟨rank, hranks⟩, ?_, ?_, ?_⟩, (hroots _).mpr (follow_isRoot hranked), hroots⟩
  · intro other group hgroup hparent
    obtain ⟨before, hbefore, heq⟩ := exists_of_data hdata hgroup
    rw [heq]
    exact (hstate.roots other before hbefore
      ((hstill other group before hgroup hbefore).mp hparent)).withParent _
  · intro other group hgroup hparent
    obtain ⟨before, hbefore, heq⟩ := exists_of_data hdata hgroup
    rw [heq]
    exact hstate.merged other before hbefore
      fun hroot => hparent ((hstill other group before hgroup hbefore).mpr hroot)
  · have hmembers := hstate.members
    rwa [← flatMap_members_of_data hdata] at hmembers

variable {retainedIndex removedIndex : ℕ} {retained removed : Group}
  {unionCost minimumMemberCost : ℕ}

theorem parentOf_mergeInto (hretained : state.groups[retainedIndex]? = some retained)
    (hremoved : state.groups[removedIndex]? = some removed) :
    parentOf (mergeInto state retainedIndex removedIndex retained removed unionCost
        minimumMemberCost).groups = hang (parentOf state.groups) removedIndex retainedIndex := by
  obtain ⟨hretainedBound, -⟩ := List.getElem?_eq_some_iff.mp hretained
  obtain ⟨hremovedBound, -⟩ := List.getElem?_eq_some_iff.mp hremoved
  funext other
  rw [parentOf, mergeInto, hang, List.getElem?_set, length_set]
  by_cases hother : removedIndex = other
  · subst hother
    simp [hremovedBound, removedGroup]
  · rw [if_neg hother, update_of_ne (Ne.symm hother), List.getElem?_set]
    by_cases hkept : retainedIndex = other
    · subst hkept
      rw [parentOf_of_getElem? hretained]
      simp [hretainedBound, mergedGroup]
    · rw [if_neg hkept, parentOf]

variable (hstate : Partitioned costs policy normalized state)
include hstate

/-- Merging two roots keeps the invariant when the merged group is covered. -/
theorem Partitioned.mergeInto (hretained : state.groups[retainedIndex]? = some retained)
    (hremoved : state.groups[removedIndex]? = some removed) (hne : retainedIndex ≠ removedIndex)
    (hroot : retained.parent = retainedIndex) (hcovers : Covers costs policy normalized
      (mergedGroup retained removed unionCost minimumMemberCost)) :
    Partitioned costs policy normalized (EntryGrouping.mergeInto state retainedIndex removedIndex
      retained removed unionCost minimumMemberCost) := by
  obtain ⟨rank, hranked⟩ := hstate.ranked
  have hparents : parentOf (EntryGrouping.mergeInto state retainedIndex removedIndex retained
      removed unionCost minimumMemberCost).groups = _ :=
    parentOf_mergeInto hretained hremoved
  have hparent : parentOf state.groups retainedIndex = retainedIndex :=
    (parentOf_of_getElem? hretained).trans hroot
  have hafter : ∀ (index : ℕ) (group : Group), (EntryGrouping.mergeInto state retainedIndex
      removedIndex retained removed unionCost minimumMemberCost).groups[index]? = some group →
      (index = removedIndex ∧ group = removedGroup removed retainedIndex) ∨
        (index = retainedIndex ∧ group = mergedGroup retained removed unionCost
          minimumMemberCost) ∨ state.groups[index]? = some group := by
    intro index group hgroup
    rw [EntryGrouping.mergeInto, List.getElem?_set] at hgroup
    split_ifs at hgroup with hremovedIndex hbound
    · exact .inl ⟨hremovedIndex.symm, (Option.some.inj hgroup).symm⟩
    · rw [List.getElem?_set] at hgroup
      split_ifs at hgroup with hretainedIndex hbound
      · exact .inr (.inl ⟨hretainedIndex.symm, (Option.some.inj hgroup).symm⟩)
      · exact .inr (.inr hgroup)
  refine ⟨⟨_, hparents ▸ hranked.hang_root hparent hne⟩, ?_, ?_, ?_⟩
  · intro index group hgroup hindex
    rcases hafter index group hgroup with ⟨rfl, rfl⟩ | ⟨rfl, rfl⟩ | hold
    · exact absurd hindex hne
    · exact hcovers
    · exact hstate.roots index group hold hindex
  · intro index group hgroup hindex
    rcases hafter index group hgroup with ⟨rfl, rfl⟩ | ⟨rfl, rfl⟩ | hold
    · rfl
    · exact absurd hroot hindex
    · exact hstate.merged index group hold hindex
  · have hfirst := flatMap_set_perm hretained
      (mergedGroup retained removed unionCost minimumMemberCost)
    have hremoved' : (state.groups.set retainedIndex
        (mergedGroup retained removed unionCost minimumMemberCost))[removedIndex]? =
          some removed := by
      rw [List.getElem?_set_ne hne, hremoved]
    have hsecond := flatMap_set_perm hremoved' (removedGroup removed retainedIndex)
    have hboth := hfirst.trans (hsecond.append_left retained.members)
    have hmerged : (mergedGroup retained removed unionCost minimumMemberCost).members =
        retained.members ++ removed.members := rfl
    rw [hmerged, ← append_assoc] at hboth
    exact ((perm_append_left_iff _).mp hboth).symm.trans hstate.members

/-- One turn of the merge loop keeps the invariant. -/
theorem Partitioned.mergePair {pair : ScoredPair} {next : MergeState}
    (hstep : EntryGrouping.mergePair costs policy state pair = .ok next) :
    Partitioned costs policy normalized next := by
  unfold EntryGrouping.mergePair at hstep
  dsimp only at hstep
  obtain ⟨hfirst, hleft, -⟩ := hstate.findRoot pair.left
  obtain ⟨hsecond, hright, hsame⟩ := hfirst.findRoot pair.right
  rw [← hsame] at hleft
  generalize root (root state pair.left).2 pair.right = found at hstep hleft hright hsecond
  obtain ⟨rightIndex, found⟩ := found
  split at hstep
  · obtain rfl := Except.ok.inj hstep
    exact hsecond
  next hne =>
  have hattempted : Partitioned costs policy normalized
      { found with attemptedMerges := found.attemptedMerges + 1 } :=
    ⟨hsecond.ranked, hsecond.roots, hsecond.merged, hsecond.members⟩
  split at hstep
  · next left right hleftGroup hrightGroup =>
      obtain ⟨compared, hattempt, hstep⟩ := bind_eq_ok.mp hstep
      have hleftRoot := (parentOf_of_getElem? hleftGroup).symm.trans hleft
      have hrightRoot := (parentOf_of_getElem? hrightGroup).symm.trans hright
      split at hstep
      · next haccepted =>
          obtain ⟨hleftCovers, hrightCovers⟩ := (hattempted.roots _ _ hleftGroup hleftRoot).attempt
            (hattempted.roots _ _ hrightGroup hrightRoot) hattempt haccepted
          split at hstep
          · obtain rfl := Except.ok.inj hstep
            exact hattempted.mergeInto hleftGroup hrightGroup hne hleftRoot hleftCovers
          · obtain rfl := Except.ok.inj hstep
            exact hattempted.mergeInto hrightGroup hleftGroup (Ne.symm hne) hrightRoot hrightCovers
      · obtain rfl := Except.ok.inj hstep
        exact hattempted
  · simp at hstep

/-- Every run of the merge loop keeps the invariant. -/
theorem Partitioned.merge {pairs : List ScoredPair} {merged : MergeState}
    (hmerge : pairs.foldlM (EntryGrouping.mergePair costs policy) state = .ok merged) :
    Partitioned costs policy normalized merged :=
  foldlM_invariant (Partitioned costs policy normalized)
    (fun _ _ _ _ hstate hstep => hstate.mergePair hstep) hstate hmerge

end States

end ConvexWasm.EntryGrouping
