import ConvexWasm.EntryGrouping.GroupBounds

/-!
# What a plan of entry groups guarantees

The groups of a plan partition the entries of the request.  Their costs, their
numbers of modules and the inflation of their members are stated here on the
request alone, with the closures of the entries as finite sets.
-/

namespace ConvexWasm.EntryGrouping

open DoubleRounding Fallible JsText List UnionForest

section Meaning

variable (request : Request)

def moduleCost (id : String) : ℕ :=
  ((request.modules.find? fun module => decide (module.id = id)).map (·.cost.toNat)).getD 0

def costOfModules (ids : Finset String) : ℕ := ∑ id ∈ ids, moduleCost request id

/-- The modules that the entries of the paths need together. -/
def closureOf (paths : List String) : Finset String :=
  ((request.entries.filter fun entry => decide (entry.entryPath ∈ paths)).flatMap
    (·.dependencies)).toFinset

/-- The cost of an entry that is alone in its group. -/
def entryCost (entry : EntryClosure) : ℕ := costOfModules request entry.dependencies.toFinset

end Meaning

variable {request : Request} {costs : KeyedMap String ℕ} {policy : Policy}
  {normalized : List NormalizedEntry}

section Start

variable {entry : NormalizedEntry}

/-- What holds of each normalized entry of an accepted request. -/
structure Normalized (costs : KeyedMap String ℕ) (policy : Policy) (entry : NormalizedEntry) :
    Prop where
  nodup : entry.dependencies.Nodup
  cost : entry.cost = totalCost costs entry.dependencies
  positive : 0 < entry.cost
  units : (entry.dependencies.length : ℤ) + 1 ≤ policy.maximumLogicalUnits

def policyOf (request : Request) : Policy :=
  ⟨request.maximumCostInflation, request.maximumLogicalUnits⟩

theorem normalized_of_mem (hrequest : AcceptedRequest request costs)
    (hmem : entry ∈ sortedEntries costs request.entries) :
    Normalized costs (policyOf request) entry := by
  obtain ⟨closure, hclosure, rfl⟩ := mem_map.mp ((sortedEntries_perm _ _).mem_iff.mp hmem)
  have haccepted := hrequest.entries closure hclosure
  refine ⟨haccepted.nodup, rfl, ?_, haccepted.fits⟩
  obtain ⟨id, hid⟩ := exists_mem_of_ne_nil _ haccepted.nonempty
  have hpositive := costOf_pos hrequest (haccepted.known id hid)
  exact hpositive.trans_le (single_le_sum (fun _ _ => Nat.zero_le _) _ (mem_map_of_mem hid))

theorem quotient_self {cost : ℕ} (hpositive : 0 < cost) : quotient cost cost = 1 := by
  rw [quotient, div_self (by exact_mod_cast hpositive.ne'), toDouble_one]

theorem getElem?_initialGroups (index : ℕ) : (initialGroups normalized)[index]? =
    normalized[index]?.map fun entry =>
      { parent := index
        members := [index]
        dependencies := entry.dependencies
        cost := entry.cost
        minimumMemberCost := entry.cost } := by
  rw [initialGroups, List.getElem?_map, List.getElem?_zipIdx, Option.map_map, Nat.zero_add]
  rfl

/-- Before any merge each entry is a group of its own. -/
theorem partitioned_initial (hinflation : 1 ≤ policy.maximumCostInflation)
    (hnormalized : ∀ entry ∈ normalized, Normalized costs policy entry) :
    Partitioned costs policy normalized ⟨initialGroups normalized, 0, 0⟩ where
  ranked := by
    refine ⟨fun _ => 0, ⟨?_, fun _ => le_rfl⟩⟩
    intro index hinner
    exfalso
    apply hinner
    rw [parentOf, getElem?_initialGroups]
    cases normalized[index]? <;> rfl
  roots := by
    intro index group hgroup _
    rw [getElem?_initialGroups] at hgroup
    obtain ⟨entry, hentry, rfl⟩ := Option.map_eq_some_iff.mp hgroup
    obtain ⟨hnodup, hcost, hpositive, hunits⟩ := hnormalized entry (mem_of_getElem? hentry)
    exact
      { nonempty := by simp
        nodup := hnodup
        modules := by simp [dependenciesAt, hentry]
        cost := hcost
        minimum := by
          intro member hmember other hother
          obtain rfl := mem_singleton.mp hmember
          rw [hentry] at hother
          exact (congrArg (·.cost) (Option.some.inj hother)).le
        positive := hpositive
        inflation := (quotient_self hpositive).trans_le hinflation
        units := by simpa using hunits }
  merged := by
    intro index group hgroup hparent
    rw [getElem?_initialGroups] at hgroup
    obtain ⟨entry, hentry, rfl⟩ := Option.map_eq_some_iff.mp hgroup
    exact absurd rfl hparent
  members := by
    have hmembers : (initialGroups normalized).flatMap (·.members) =
        List.range normalized.length := by
      rw [initialGroups, flatMap_map]
      change normalized.zipIdx.flatMap (fun entry => [entry.2]) = _
      rw [← map_eq_flatMap, range_eq_range']
      exact zipIdx_map_snd 0 normalized
    exact hmembers ▸ List.Perm.refl _

end Start

variable {group : Group} {state : MergeState}

section Result

variable {groups : List Group}

theorem flatMap_filter_of_nil {Item Value : Type} {keep : Item → Bool} {values : Item → List Value}
    {items : List Item} (hnil : ∀ item ∈ items, keep item = false → values item = []) :
    (items.filter keep).flatMap values = items.flatMap values := by
  induction items with
  | nil => rfl
  | cons item rest ih =>
    have hrest := ih fun later hlater => hnil later (mem_cons_of_mem _ hlater)
    by_cases hkeep : keep item = true
    · rw [filter_cons_of_pos hkeep, flatMap_cons, flatMap_cons, hrest]
    · rw [filter_cons_of_neg hkeep, flatMap_cons, hrest,
        hnil item mem_cons_self (by simpa using hkeep), nil_append]

theorem mem_rootGroups : group ∈ rootGroups groups ↔
    ∃ index : ℕ, groups[index]? = some group ∧ group.parent = index := by
  simp only [rootGroups, mem_map, mem_filter, decide_eq_true_eq, Prod.exists,
    mem_zipIdx_iff_getElem?]
  constructor
  · intro h
    obtain ⟨_, index, ⟨hgroup, hparent⟩, rfl⟩ := h
    exact ⟨index, hgroup, hparent⟩
  · intro h
    obtain ⟨index, hgroup, hparent⟩ := h
    exact ⟨group, index, ⟨hgroup, hparent⟩, rfl⟩

/-- The root groups have all members. -/
theorem Partitioned.rootMembers (hstate : Partitioned costs policy normalized state) :
    ((rootGroups state.groups).flatMap (·.members)).Perm (List.range normalized.length) := by
  have hroots : (rootGroups state.groups).flatMap (·.members) =
      state.groups.flatMap (·.members) := by
    rw [rootGroups, flatMap_map, flatMap_filter_of_nil]
    · conv_rhs => rw [← zipIdx_map_fst 0 state.groups, flatMap_map]
    · intro entry hentry hparent
      exact hstate.merged entry.2 entry.1 (mem_zipIdx_iff_getElem?.mp hentry)
        (of_decide_eq_false hparent)
  exact hroots ▸ hstate.members

theorem map_range_eq {Value : Type} {value : ℕ → Value} {valueOf : NormalizedEntry → Value}
    (hvalue : ∀ index entry, normalized[index]? = some entry → value index = valueOf entry) :
    (List.range normalized.length).map value = normalized.map valueOf := by
  apply ext_getElem?
  intro index
  rw [List.getElem?_map, List.getElem?_map]
  by_cases hindex : index < normalized.length
  · have hentry := List.getElem?_eq_getElem hindex
    rw [List.getElem?_range hindex, hentry, Option.map_some, Option.map_some, hvalue _ _ hentry]
  · rw [List.getElem?_eq_none (by simpa using hindex),
      List.getElem?_eq_none (by simpa using hindex)]
    rfl

theorem resultGroups_perm : (resultGroups normalized groups).Perm
    ((rootGroups groups).map (groupResult normalized)) :=
  perm_insertionSort _ _

/-- The entries of the groups are the entries of the plan, each once. -/
theorem Partitioned.entries (hstate : Partitioned costs policy normalized state) :
    ((resultGroups normalized state.groups).flatMap (·.entries)).Perm
      (normalized.map (·.entryPath)) := by
  have hresults : ((resultGroups normalized state.groups).flatMap (·.entries)).Perm
      ((rootGroups state.groups).flatMap fun group => (groupResult normalized group).entries) := by
    have hperm : (resultGroups normalized state.groups).Perm _ := resultGroups_perm
    rw [← flatMap_map (groupResult normalized) (·.entries)]
    exact hperm.flatMap_right _
  have hsorted : ((rootGroups state.groups).flatMap
      fun group => (groupResult normalized group).entries).Perm
      ((rootGroups state.groups).flatMap fun group => group.members.map (entryPathAt normalized)) :=
    List.Perm.flatMap_left _ fun _ _ => perm_insertionSort _ _
  have hmembers : ((rootGroups state.groups).flatMap
      fun group => group.members.map (entryPathAt normalized)).Perm
      (normalized.map (·.entryPath)) := by
    rw [← map_flatMap]
    have hpaths : (List.range normalized.length).map (entryPathAt normalized) =
        normalized.map (·.entryPath) :=
      map_range_eq fun index entry hentry => by rw [entryPathAt, hentry]; rfl
    exact hpaths ▸ hstate.rootMembers.map (entryPathAt normalized)
  exact hresults.trans (hsorted.trans hmembers)

/-- What is known of a root group once the merges are done. -/
theorem Partitioned.rootGroup (hstate : Partitioned costs policy normalized state)
    (hgroup : group ∈ rootGroups state.groups) :
    Covers costs policy normalized group ∧
      ∀ index ∈ group.members, ∃ entry, normalized[index]? = some entry := by
  obtain ⟨index, hfound, hparent⟩ := mem_rootGroups.mp hgroup
  refine ⟨hstate.roots index group hfound hparent, ?_⟩
  intro member hmember
  have hrange := hstate.rootMembers.mem_iff.mp (mem_flatMap.mpr ⟨group, hgroup, hmember⟩)
  exact ⟨_, List.getElem?_eq_getElem (mem_range.mp hrange)⟩

theorem totalCost_le_of_subset {ids others : List String} (hnodup : ids.Nodup)
    (hsubset : ids ⊆ others) : totalCost costs ids ≤ totalCost costs others := by
  obtain ⟨kept, hperm, hsublist⟩ := subperm_of_subset hnodup hsubset
  rw [← totalCost_perm hperm]
  exact (hsublist.map _).sum_le_sum fun _ _ => Nat.zero_le _

theorem sum_map_flatMap {Item Value : Type} (items : List Item) (values : Item → List Value)
    (cost : Value → ℕ) : ((items.flatMap values).map cost).sum =
      (items.map fun item => ((values item).map cost).sum).sum := by
  induction items with
  | nil => rfl
  | cons item rest ih =>
    rw [flatMap_cons, map_append, sum_append, ih, map_cons, sum_cons]

/-- A group does not cost more than its members alone. -/
theorem Covers.cost_le (hcovers : Covers costs policy normalized group) :
    group.cost ≤
      (group.members.map fun index => totalCost costs (dependenciesAt normalized index)).sum := by
  calc group.cost = totalCost costs group.dependencies := hcovers.cost
    _ ≤ totalCost costs (group.members.flatMap (dependenciesAt normalized)) :=
        totalCost_le_of_subset hcovers.nodup fun id hid =>
          mem_flatMap.mpr ((hcovers.modules id).mp hid)
    _ = _ := sum_map_flatMap _ _ _

/-- The groups together do not cost more than the entries alone. -/
theorem Partitioned.cost_le (hstate : Partitioned costs policy normalized state) :
    ((resultGroups normalized state.groups).map (·.cost)).sum ≤
      (normalized.map fun entry => totalCost costs entry.dependencies).sum := by
  have hmembers := (hstate.rootMembers.map fun index =>
    totalCost costs (dependenciesAt normalized index)).sum_eq
  have hentries : (List.range normalized.length).map
      (fun index => totalCost costs (dependenciesAt normalized index)) =
        normalized.map fun entry => totalCost costs entry.dependencies :=
    map_range_eq fun index entry hentry => by rw [dependenciesAt, hentry]; rfl
  calc ((resultGroups normalized state.groups).map (·.cost)).sum
      = ((rootGroups state.groups).map (·.cost)).sum := by
        rw [(resultGroups_perm.map _).sum_eq, map_map]
        rfl
    _ ≤ ((rootGroups state.groups).map fun group => (group.members.map fun index =>
          totalCost costs (dependenciesAt normalized index)).sum).sum :=
        sum_le_sum fun group hgroup => (hstate.rootGroup hgroup).1.cost_le
    _ = (((rootGroups state.groups).flatMap (·.members)).map fun index =>
          totalCost costs (dependenciesAt normalized index)).sum :=
        (sum_map_flatMap _ _ _).symm
    _ = (normalized.map fun entry => totalCost costs entry.dependencies).sum := by
        rw [hmembers, hentries]

end Result

section Request

variable {entry : EntryClosure}

section

variable (hrequest : AcceptedRequest request costs)
include hrequest

theorem costOf_eq (id : String) : costOf costs id = moduleCost request id := by
  rw [costOf, KeyedMap.get?, hrequest.costs_eq, List.find?_map, Option.map_map]
  rfl

theorem costOfModules_eq {ids : List String} (hnodup : ids.Nodup) :
    costOfModules request ids.toFinset = totalCost costs ids := by
  rw [costOfModules, sum_toFinset _ hnodup, totalCost]
  congr 2
  funext id
  exact (costOf_eq hrequest id).symm

/-- An accepted entry is in a group exactly when one of its members is the entry. -/
theorem mem_entries_iff (hentry : entry ∈ request.entries)
    (hmembers : ∀ index ∈ group.members, ∃ found : NormalizedEntry,
      (sortedEntries costs request.entries)[index]? = some found) :
    entry.entryPath ∈ (groupResult (sortedEntries costs request.entries) group).entries ↔
      ∃ index ∈ group.members,
        (sortedEntries costs request.entries)[index]? = some (normalizedEntry costs entry) := by
  have hlisted : entry.entryPath ∈ (groupResult (sortedEntries costs request.entries)
      group).entries ↔ ∃ index ∈ group.members,
        entryPathAt (sortedEntries costs request.entries) index = entry.entryPath := by
    rw [groupResult, (perm_insertionSort _ _).mem_iff, mem_map]
  rw [hlisted]
  constructor
  · intro h
    obtain ⟨index, hindex, hpath⟩ := h
    obtain ⟨found, hfound⟩ := hmembers index hindex
    obtain ⟨other, hother, rfl⟩ := mem_map.mp
      ((sortedEntries_perm _ _).mem_iff.mp (mem_of_getElem? hfound))
    rw [entryPathAt, hfound] at hpath
    have hsame : other = entry := inj_on_of_nodup_map hrequest.paths_nodup hother hentry hpath
    exact ⟨index, hindex, hsame ▸ hfound⟩
  · intro h
    obtain ⟨index, hindex, hfound⟩ := h
    exact ⟨index, hindex, by rw [entryPathAt, hfound]; rfl⟩

/-- The modules of a group are those of the entries that it has. -/
theorem closureOf_eq (hcovers : Covers costs policy (sortedEntries costs request.entries) group)
    (hmembers : ∀ index ∈ group.members, ∃ found : NormalizedEntry,
      (sortedEntries costs request.entries)[index]? = some found) :
    closureOf request (groupResult (sortedEntries costs request.entries) group).entries =
      group.dependencies.toFinset := by
  ext id
  rw [closureOf, mem_toFinset, mem_toFinset, mem_flatMap, hcovers.modules]
  simp only [mem_filter, decide_eq_true_eq]
  constructor
  · intro h
    obtain ⟨entry, ⟨hentry, hpath⟩, hid⟩ := h
    obtain ⟨index, hindex, hfound⟩ := (mem_entries_iff hrequest hentry hmembers).mp hpath
    exact ⟨index, hindex, by rw [dependenciesAt, hfound]; exact hid⟩
  · intro h
    obtain ⟨index, hindex, hid⟩ := h
    obtain ⟨found, hfound⟩ := hmembers index hindex
    obtain ⟨entry, hentry, rfl⟩ := mem_map.mp
      ((sortedEntries_perm _ _).mem_iff.mp (mem_of_getElem? hfound))
    rw [dependenciesAt, hfound] at hid
    exact ⟨entry, ⟨hentry, (mem_entries_iff hrequest hentry hmembers).mpr
      ⟨index, hindex, hfound⟩⟩, hid⟩

end

theorem quotient_anti {cost least memberCost : ℕ} (hcost : 0 < cost) (hleast : 0 < least)
    (hle : least ≤ memberCost) : quotient cost memberCost ≤ quotient cost least := by
  have hcost' : (0 : ℚ) < cost := by exact_mod_cast hcost
  have hleast' : (0 : ℚ) < least := by exact_mod_cast hleast
  have hle' : (least : ℚ) ≤ memberCost := by exact_mod_cast hle
  exact toDouble_mono (div_pos hcost' (hleast'.trans_le hle'))
    (div_le_div_of_nonneg_left hcost'.le hleast' hle')

/-- No member of a group is inflated beyond the policy. -/
theorem inflation_le (hrequest : AcceptedRequest request costs)
    (hcovers : Covers costs policy (sortedEntries costs request.entries) group)
    (hentry : entry ∈ request.entries) {index : ℕ} (hindex : index ∈ group.members)
    (hfound : (sortedEntries costs request.entries)[index]? = some (normalizedEntry costs entry)) :
    quotient group.cost (entryCost request entry) ≤ policy.maximumCostInflation := by
  have haccepted := hrequest.entries entry hentry
  have hcost : entryCost request entry = totalCost costs entry.dependencies :=
    costOfModules_eq hrequest haccepted.nodup
  have hsubset : entry.dependencies ⊆ group.dependencies := by
    intro id hid
    exact (hcovers.modules id).mpr ⟨index, hindex, by rw [dependenciesAt, hfound]; exact hid⟩
  have hleast : group.minimumMemberCost ≤ totalCost costs entry.dependencies :=
    hcovers.minimum index hindex _ hfound
  have hpositive : 0 < group.cost := by
    rw [hcovers.cost]
    exact hcovers.positive.trans_le (hleast.trans (totalCost_le_of_subset haccepted.nodup hsubset))
  rw [hcost]
  exact (quotient_anti hpositive hcovers.positive hleast).trans hcovers.inflation

end Request

section Guarantees

variable (stringify : String → String) (bucket : ℕ → ℕ)
  (fingerprint : Policy → List (List String) → String)

/-- The groups of a plan have all entries once.  Each group costs what the union of
its members' modules costs, keeps the bounds on inflation and logical units, and all
groups together cost no more than the entries alone. -/
theorem entryGroups_guarantees (request : Request) (plan : EntryGroups)
    (hplan : planConvexWasmEntryGroups stringify bucket fingerprint request = .ok plan) :
    (request.entries.map (·.entryPath)).Nodup ∧
      plan.entryGroups = plan.groups.map (·.entries) ∧
      plan.entryGroups.flatten.Perm (request.entries.map (·.entryPath)) ∧
      (∀ group ∈ plan.groups,
        group.cost = costOfModules request (closureOf request group.entries) ∧
        group.dependencyCount = (closureOf request group.entries).card ∧
        (∀ entry ∈ request.entries, entry.entryPath ∈ group.entries →
          quotient group.cost (entryCost request entry) ≤ request.maximumCostInflation) ∧
        ((closureOf request group.entries).card : ℤ) + group.entries.length ≤
          request.maximumLogicalUnits) ∧
      plan.modeledInventoryCost = (plan.groups.map (·.cost)).sum ∧
      plan.modeledInventoryCost ≤ (request.entries.map (entryCost request)).sum := by
  obtain ⟨⟨costs, normalized⟩, hnormalize, hplan⟩ := bind_eq_ok.mp hplan
  obtain ⟨hrequest, rfl⟩ := normalizeRequest_eq_ok.mp hnormalize
  obtain ⟨scored, -, hplan⟩ := bind_eq_ok.mp hplan
  obtain ⟨merged, hmerged, hplan⟩ := bind_eq_ok.mp hplan
  obtain ⟨total, htotal, hplan⟩ := bind_eq_ok.mp hplan
  obtain rfl := Except.ok.inj hplan
  obtain ⟨rfl, -⟩ := (addCosts_eq_ok fun group : GroupResult => group.cost).mp htotal
  have hstate : Partitioned costs (policyOf request) (sortedEntries costs request.entries) merged :=
    (partitioned_initial hrequest.inflation
      fun entry hentry => normalized_of_mem hrequest hentry).merge hmerged
  refine ⟨hrequest.paths_nodup, rfl, ?_, ?_, rfl, ?_⟩
  · exact hstate.entries.trans (sortedEntries_paths_perm _ _)
  · intro result hresult
    obtain ⟨group, hgroup, rfl⟩ := mem_map.mp (resultGroups_perm.mem_iff.mp hresult)
    obtain ⟨hcovers, hmembers⟩ := hstate.rootGroup hgroup
    rw [closureOf_eq hrequest hcovers hmembers, toFinset_card_of_nodup hcovers.nodup,
      costOfModules_eq hrequest hcovers.nodup]
    refine ⟨hcovers.cost, rfl, ?_, ?_⟩
    · intro entry hentry hpath
      obtain ⟨index, hindex, hfound⟩ := (mem_entries_iff hrequest hentry hmembers).mp hpath
      exact inflation_le hrequest hcovers hentry hindex hfound
    · have hlength : (groupResult (sortedEntries costs request.entries) group).entries.length =
          group.members.length := by
        rw [groupResult, length_insertionSort, length_map]
      rw [hlength]
      exact hcovers.units
  · calc ((resultGroups (sortedEntries costs request.entries) merged.groups).map (·.cost)).sum
        ≤ ((sortedEntries costs request.entries).map fun entry =>
            totalCost costs entry.dependencies).sum := hstate.cost_le
      _ = (request.entries.map fun entry => totalCost costs entry.dependencies).sum := by
          rw [((sortedEntries_perm _ _).map _).sum_eq, map_map]
          rfl
      _ = (request.entries.map (entryCost request)).sum := by
          congr 1
          exact map_congr_left fun entry hentry =>
            (costOfModules_eq hrequest (hrequest.entries entry hentry).nodup).symm

end Guarantees

/-- Two entries share most of their modules; a third one shares none. -/
def sampleRequest : Request where
  modules := [⟨"a.js", 4096⟩, ⟨"b.js", 8192⟩, ⟨"c.js", 4096⟩]
  entries := [⟨"late", ["c.js"]⟩, ⟨"first", ["a.js", "b.js"]⟩, ⟨"second", ["b.js"]⟩]
  maximumCostInflation := 3 / 2
  maximumLogicalUnits := 8

def samplePlan : EntryGroups where
  policy := ⟨3 / 2, 8⟩
  entryGroups := [["first", "second"], ["late"]]
  groups := [⟨["first", "second"], 12288, 8192, 3 / 2, 2⟩, ⟨["late"], 4096, 4096, 1, 1⟩]
  modeledInventoryCost := 16384
  diagnostics := ⟨2, 2, 1, 4⟩
  partitionSha256 := ""

theorem entryGroups_guarantees_sample :
    samplePlan.entryGroups.flatten.Perm (sampleRequest.entries.map (·.entryPath)) ∧
      samplePlan.modeledInventoryCost ≤
        (sampleRequest.entries.map (entryCost sampleRequest)).sum := by
  have hplan := entryGroups_guarantees id (Nat.clog 2) (fun _ _ => "") sampleRequest samplePlan
    (by decide +kernel)
  exact ⟨hplan.2.2.1, hplan.2.2.2.2.2⟩

end ConvexWasm.EntryGrouping
