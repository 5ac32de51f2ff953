import ConvexWasm.EntryGrouping.Merging

/-!
# Accepted requests

What the checks of a request establish about its modules and entries, and the
normalized entries that an accepted request has.
-/

namespace ConvexWasm.EntryGrouping

open Fallible JsText KeyedMap List

variable {costs : KeyedMap String ℕ}

variable {counted next : List String × ℕ} {id : String} {seen ids : List String} {total : ℕ}

theorem addDependency_eq_ok : addDependency costs counted id = .ok next ↔
    id ∈ costs.keys ∧ id ∉ counted.1 ∧ counted.2 + costOf costs id ≤ maxSafeInteger ∧
      next = (counted.1 ++ [id], counted.2 + costOf costs id) := by
  unfold addDependency costOf
  cases hget : costs.get? id with
  | none => simp [refuse, mem_keys_iff, hget]
  | some cost =>
    have hknown : id ∈ costs.keys := mem_keys_of_get? hget
    by_cases hseen : id ∈ counted.1
    · simp [hseen, refuse]
    · by_cases hsafe : counted.2 + cost ≤ maxSafeInteger
      · simp [hseen, hknown, addCost, hsafe, Except.map, eq_comm]
      · simp [hseen, addCost, hsafe, Except.map, refuse]

theorem totalCost_cons : totalCost costs (id :: ids) = costOf costs id + totalCost costs ids := by
  simp [totalCost]

/-- The loop over the dependencies keeps them as they are and adds their costs. -/
theorem addDependencies_eq_ok (hseen : seen.Nodup) (htotal : total ≤ maxSafeInteger) :
    ids.foldlM (addDependency costs) (seen, total) = .ok next ↔
      (∀ id ∈ ids, id ∈ costs.keys) ∧ (seen ++ ids).Nodup ∧
        total + totalCost costs ids ≤ maxSafeInteger ∧
          next = (seen ++ ids, total + totalCost costs ids) := by
  induction ids generalizing seen total with
  | nil => simp [pure, Except.pure, totalCost, hseen, htotal, eq_comm]
  | cons id rest ih =>
    rw [foldlM_cons, bind_eq_ok]
    have hshift : seen ++ id :: rest = (seen ++ [id]) ++ rest := by simp
    constructor
    · intro h
      obtain ⟨middle, hstep, hrest⟩ := h
      obtain ⟨hknown, hfresh, hsafe, rfl⟩ := addDependency_eq_ok.mp hstep
      have hnodup : (seen ++ [id]).Nodup := nodup_append.mpr
        ⟨hseen, nodup_singleton id, fun first hfirst second hsecond heq =>
          hfresh (mem_singleton.mp hsecond ▸ heq ▸ hfirst)⟩
      obtain ⟨hall, hlist, hsum, rfl⟩ := (ih hnodup hsafe).mp hrest
      rw [hshift, totalCost_cons, ← Nat.add_assoc]
      exact ⟨forall_mem_cons.mpr ⟨hknown, hall⟩, hlist, hsum, rfl⟩
    · intro h
      rw [hshift, totalCost_cons, ← Nat.add_assoc] at h
      obtain ⟨hall, hlist, hsum, rfl⟩ := h
      obtain ⟨hknown, hall⟩ := forall_mem_cons.mp hall
      have hnodup : (seen ++ [id]).Nodup := (nodup_append.mp hlist).1
      have hfresh : id ∉ seen := fun hmem =>
        (nodup_append.mp hnodup).2.2 id hmem id mem_cons_self rfl
      have hsafe : total + costOf costs id ≤ maxSafeInteger :=
        (Nat.le_add_right _ _).trans hsum
      exact ⟨_, addDependency_eq_ok.mpr ⟨hknown, hfresh, hsafe, rfl⟩,
        (ih hnodup hsafe).mpr ⟨hall, hlist, hsum, rfl⟩⟩

variable {stringify : String → String}

section Entries

variable {maximumLogicalUnits : ℤ} {entry : EntryClosure} {normalized : NormalizedEntry}

structure AcceptedEntry (costs : KeyedMap String ℕ) (maximumLogicalUnits : ℤ)
    (entry : EntryClosure) : Prop where
  named : entry.entryPath ≠ ""
  nonempty : entry.dependencies ≠ []
  known : ∀ id ∈ entry.dependencies, id ∈ costs.keys
  nodup : entry.dependencies.Nodup
  safe : totalCost costs entry.dependencies ≤ maxSafeInteger
  fits : (entry.dependencies.length : ℤ) + 1 ≤ maximumLogicalUnits

def normalizedEntry (costs : KeyedMap String ℕ) (entry : EntryClosure) : NormalizedEntry :=
  ⟨entry.entryPath, entry.dependencies, totalCost costs entry.dependencies⟩

theorem requireName_eq_ok {value description name : String} :
    requireName value description = .ok name ↔ value ≠ "" ∧ name = value := by
  unfold requireName
  split_ifs with hempty
  · simp [refuse, hempty]
  · simp [hempty, eq_comm]

theorem normalizeEntry_eq_ok :
    normalizeEntry stringify costs maximumLogicalUnits entry = .ok normalized ↔
      AcceptedEntry costs maximumLogicalUnits entry ∧ normalized = normalizedEntry costs entry := by
  unfold normalizeEntry
  rw [bind_eq_ok]
  constructor
  · intro h
    obtain ⟨path, hpath, h⟩ := h
    obtain ⟨hnamed, rfl⟩ := requireName_eq_ok.mp hpath
    split_ifs at h with hempty
    · simp [refuse] at h
    · obtain ⟨⟨dependencies, cost⟩, hfold, h⟩ := bind_eq_ok.mp h
      obtain ⟨hknown, hnodup, hsafe, hcounted⟩ :=
        (addDependencies_eq_ok nodup_nil (Nat.zero_le _)).mp hfold
      obtain ⟨rfl, rfl⟩ := Prod.mk.inj hcounted
      rw [nil_append] at hnodup h
      rw [Nat.zero_add] at hsafe h
      dsimp only at h
      split_ifs at h with hlimit
      · simp [refuse] at h
      · obtain rfl := Except.ok.inj h
        exact ⟨⟨hnamed, hempty, hknown, hnodup, hsafe, by omega⟩, rfl⟩
  · intro h
    obtain ⟨hentry, rfl⟩ := h
    refine ⟨entry.entryPath, requireName_eq_ok.mpr ⟨hentry.named, rfl⟩, ?_⟩
    rw [if_neg hentry.nonempty, bind_eq_ok]
    refine ⟨(entry.dependencies, totalCost costs entry.dependencies),
      (addDependencies_eq_ok nodup_nil (Nat.zero_le _)).mpr ⟨hentry.known, hentry.nodup,
        by simpa using hentry.safe, by simp⟩, ?_⟩
    have hfits := hentry.fits
    dsimp only
    rw [if_neg (by omega)]
    rfl

theorem map_eq_ok {Failure First Second : Type} {first : Except Failure First}
    {convert : First → Second} {result : Second} :
    first.map convert = .ok result ↔ ∃ value, first = .ok value ∧ convert value = result := by
  cases first <;> simp [Except.map]

/-- A pass whose steps are described by a test and a value. -/
theorem mapM_eq_ok_map_iff {Item Result : Type} {step : Item → Except String Result}
    {passes : Item → Prop} {value : Item → Result}
    (hstep : ∀ item result, step item = .ok result ↔ passes item ∧ result = value item)
    {items : List Item} {results : List Result} :
    items.mapM step = .ok results ↔
      (∀ item ∈ items, passes item) ∧ results = items.map value := by
  simp only [mapM_eq_ok_iff, hstep]
  induction items generalizing results with
  | nil => simp
  | cons item rest ih =>
    rw [List.forall₂_cons_left_iff]
    simp only [ih, forall_mem_cons, map_cons]
    constructor
    · intro h
      obtain ⟨_, _, ⟨hitem, rfl⟩, ⟨hrest, rfl⟩, rfl⟩ := h
      exact ⟨⟨hitem, hrest⟩, rfl⟩
    · intro h
      obtain ⟨⟨hitem, hrest⟩, rfl⟩ := h
      exact ⟨_, _, ⟨hitem, rfl⟩, ⟨hrest, rfl⟩, rfl⟩

theorem normalizeEntries_eq_ok {entries : List EntryClosure} {results : List NormalizedEntry} :
    entries.mapM (normalizeEntry stringify costs maximumLogicalUnits) = .ok results ↔
      (∀ entry ∈ entries, AcceptedEntry costs maximumLogicalUnits entry) ∧
        results = entries.map (normalizedEntry costs) :=
  mapM_eq_ok_map_iff fun _ _ => normalizeEntry_eq_ok

end Entries

variable {costs' : KeyedMap String ℕ} {modules : List ModuleCost} {module : ModuleCost}

structure AcceptedModule (module : ModuleCost) : Prop where
  named : module.id ≠ ""
  positive : 0 < module.cost
  safe : module.cost ≤ maxSafeInteger

def costEntry (module : ModuleCost) : String × ℕ := (module.id, module.cost.toNat)

theorem recordCost_eq_ok : recordCost costs module = .ok costs' ↔
    AcceptedModule module ∧ module.id ∉ costs.keys ∧
      costs'.entries = costs.entries ++ [costEntry module] := by
  unfold recordCost
  rw [bind_eq_ok]
  constructor
  · intro h
    obtain ⟨id, hid, h⟩ := h
    obtain ⟨hnamed, rfl⟩ := requireName_eq_ok.mp hid
    split_ifs at h with hrejected
    · simp [refuse] at h
    · obtain rfl := Except.ok.inj h
      rw [containsKey_iff, isSafeInteger, decide_eq_false_iff_not] at hrejected
      push Not at hrejected
      obtain ⟨hfresh, hsafe, hpositive⟩ := hrejected
      exact ⟨⟨hnamed, hpositive, by omega⟩, hfresh, insert_entries_of_fresh hfresh⟩
  · intro h
    obtain ⟨⟨hnamed, hpositive, hsafe⟩, hfresh, hentries⟩ := h
    refine ⟨module.id, requireName_eq_ok.mpr ⟨hnamed, rfl⟩, ?_⟩
    rw [if_neg]
    · have hsame : costs.insert module.id module.cost.toNat = costs' :=
        ext_entries ((insert_entries_of_fresh hfresh).trans hentries.symm)
      rw [hsame]
      rfl
    · rw [containsKey_iff, isSafeInteger, decide_eq_false_iff_not]
      push Not
      exact ⟨hfresh, by omega, hpositive⟩

/-- The costs are those of the listed modules. -/
theorem recordCosts_eq_ok : modules.foldlM recordCost costs = .ok costs' ↔
    (∀ module ∈ modules, AcceptedModule module) ∧
      costs'.entries = costs.entries ++ modules.map costEntry := by
  induction modules generalizing costs with
  | nil =>
    cases costs
    cases costs'
    simp [pure, Except.pure, eq_comm]
  | cons module rest ih =>
    rw [foldlM_cons, bind_eq_ok, map_cons, forall_mem_cons]
    constructor
    · intro h
      obtain ⟨middle, hstep, hrest⟩ := h
      obtain ⟨hmodule, -, hentries⟩ := recordCost_eq_ok.mp hstep
      obtain ⟨hall, hlast⟩ := ih.mp hrest
      exact ⟨⟨hmodule, hall⟩, by rw [hlast, hentries, append_assoc]; rfl⟩
    · intro h
      obtain ⟨⟨hmodule, hall⟩, hentries⟩ := h
      have hkeys := costs'.keys_nodup
      rw [hentries, append_cons, map_append] at hkeys
      have hfirst := (nodup_append.mp hkeys).1
      have hfresh : module.id ∉ costs.keys := by
        rw [map_append] at hfirst
        exact fun hmem => (nodup_append.mp hfirst).2.2 _ hmem _ (by simp [costEntry]) rfl
      exact ⟨⟨costs.entries ++ [costEntry module], hfirst⟩,
        recordCost_eq_ok.mpr ⟨hmodule, hfresh, rfl⟩,
        ih.mpr ⟨hall, by rw [hentries, append_cons]⟩⟩

section Requests

variable {request : Request} {normalized : List NormalizedEntry}

/-- The checks that a request passes. -/
structure AcceptedRequest (request : Request) (costs : KeyedMap String ℕ) : Prop where
  modules_nonempty : request.modules ≠ []
  entries_nonempty : request.entries ≠ []
  inflation : 1 ≤ request.maximumCostInflation
  units_safe : isSafeInteger request.maximumLogicalUnits = true
  units : 2 ≤ request.maximumLogicalUnits
  modules : ∀ module ∈ request.modules, AcceptedModule module
  costs_eq : costs.entries = request.modules.map costEntry
  entries : ∀ entry ∈ request.entries, AcceptedEntry costs request.maximumLogicalUnits entry
  paths_nodup : (request.entries.map (·.entryPath)).Nodup

def sortedEntries (costs : KeyedMap String ℕ) (entries : List EntryClosure) :
    List NormalizedEntry :=
  (entries.map (normalizedEntry costs)).insertionSort fun left right =>
    compareStringsLe left.entryPath right.entryPath

theorem sortedEntries_perm (costs : KeyedMap String ℕ) (entries : List EntryClosure) :
    (sortedEntries costs entries).Perm (entries.map (normalizedEntry costs)) :=
  perm_insertionSort _ _

theorem sortedEntries_paths_perm (costs : KeyedMap String ℕ) (entries : List EntryClosure) :
    ((sortedEntries costs entries).map (·.entryPath)).Perm (entries.map (·.entryPath)) := by
  have hperm := (sortedEntries_perm costs entries).map (·.entryPath)
  rwa [map_map] at hperm

theorem normalizeRequest_eq_ok : normalizeRequest stringify request = .ok (costs, normalized) ↔
    AcceptedRequest request costs ∧ normalized = sortedEntries costs request.entries := by
  unfold normalizeRequest
  constructor
  · intro h
    split_ifs at h with hempty hinflation hunits
    · simp [refuse] at h
    · simp [refuse] at h
    · simp [refuse] at h
    · obtain ⟨recorded, hcosts, h⟩ := bind_eq_ok.mp h
      obtain ⟨results, hresults, h⟩ := bind_eq_ok.mp h
      dsimp only at h
      split_ifs at h with hpaths
      · obtain ⟨rfl, rfl⟩ := Prod.mk.inj (Except.ok.inj h)
        obtain ⟨hentries, rfl⟩ := normalizeEntries_eq_ok.mp hresults
        obtain ⟨hmodules, hlisted⟩ := recordCosts_eq_ok.mp hcosts
        push Not at hempty hinflation hunits
        rw [ne_eq, Bool.not_eq_false] at hunits
        exact ⟨⟨hempty.1, hempty.2, hinflation, hunits.1, hunits.2, hmodules, hlisted, hentries,
          (sortedEntries_paths_perm _ _).nodup_iff.mp hpaths⟩, rfl⟩
      · simp [refuse] at h
  · intro h
    obtain ⟨hrequest, rfl⟩ := h
    rw [if_neg (by simp [hrequest.modules_nonempty, hrequest.entries_nonempty]),
      if_neg (not_lt.mpr hrequest.inflation),
      if_neg (not_or.mpr ⟨by simp [hrequest.units_safe], not_lt.mpr hrequest.units⟩), bind_eq_ok]
    refine ⟨costs, recordCosts_eq_ok.mpr ⟨hrequest.modules, hrequest.costs_eq⟩, ?_⟩
    rw [bind_eq_ok]
    refine ⟨_, normalizeEntries_eq_ok.mpr ⟨hrequest.entries, rfl⟩, ?_⟩
    have hpaths := (sortedEntries_paths_perm costs request.entries).nodup_iff.mpr
      hrequest.paths_nodup
    exact if_pos hpaths

/-- Modules that pass the checks have positive costs. -/
theorem costOf_pos (hrequest : AcceptedRequest request costs) {id : String}
    (hknown : id ∈ costs.keys) : 0 < costOf costs id := by
  obtain ⟨cost, hget⟩ := KeyedMap.mem_keys_iff.mp hknown
  have hmem := KeyedMap.get?_eq_some_iff.mp hget
  rw [hrequest.costs_eq] at hmem
  obtain ⟨module, hmodule, heq⟩ := mem_map.mp hmem
  obtain ⟨-, rfl⟩ := Prod.mk.inj heq
  have hpositive := (hrequest.modules module hmodule).positive
  rw [costOf, hget]
  simpa using hpositive

end Requests

end ConvexWasm.EntryGrouping
