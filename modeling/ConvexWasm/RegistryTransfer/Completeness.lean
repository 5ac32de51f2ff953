import ConvexWasm.RegistryTransfer.Transferred

/-!
# Completeness of transfer plans

A plan covers every artifact once, by a copied file or by a hard link, and its
hard links lead to the same contents, exactly when a path that shares its
contents with another path has no other contents.  The code rejects a path
that is linked to two sources, but not a path that is copied for one digest
and linked or copied for another.
-/

namespace ConvexWasm.RegistryTransfer

open Fallible KeyedMap List

def reachableArtifacts (preflight : Preflight) : List PlacedArtifact :=
  preflight.generationReferences.flatMap referenceArtifacts

/-- What a transfer plan is for. -/
structure Complete (preflight : Preflight) (retained : List CatalogEntry)
    (plan : TransferPlan) : Prop where
  placed : ∀ placed ∈ reachableArtifacts preflight,
    Xor (placed.path ∈ plan.paths) (∃ link ∈ plan.hardlinks, link.target = placed.path)
  linked : ∀ link ∈ plan.hardlinks, link.source ∈ plan.paths ∧
    (∃ source ∈ reachableArtifacts preflight, source.path = link.source) ∧
    (∃ target ∈ reachableArtifacts preflight, target.path = link.target) ∧
    ∀ source ∈ reachableArtifacts preflight, source.path = link.source →
      ∀ target ∈ reachableArtifacts preflight, target.path = link.target →
        source.identity = target.identity
  directories : ∀ path ∈ plan.paths, ∀ before, before ≠ [] → before <+: path → before ∈ plan.paths
  ordered : plan.paths.Pairwise fun earlier later => ¬later <+: earlier
  catalog : ∀ entry, entry ∈ plan.sourceCatalog.entries ↔ entry ∈ retained ∨
    entry ∈ preflight.catalogEntries ∧
      ∃ reference ∈ preflight.generationReferences, entryKey entry = referenceKey reference
  sorted : plan.sourceCatalog.entries.Pairwise fun previous entry =>
    sourceCatalogEntryKey previous < sourceCatalogEntryKey entry

/-- A path that shares its contents with another path has no other contents. -/
def SharedAlone (artifacts : List PlacedArtifact) : Prop :=
  ∀ first ∈ artifacts, ∀ second ∈ artifacts, ∀ other ∈ artifacts,
    first.path = second.path → first.identity = other.identity → first.path ≠ other.path →
      second.identity = first.identity

variable {state : TransferState}

section Contents

variable {seen : List PlacedArtifact} {placed : PlacedArtifact}

variable (htransferred : Transferred seen state)
include htransferred

/-- Each artifact has a canonical path, which is that of an artifact with its identity. -/
theorem Transferred.canonical (hplaced : placed ∈ seen) :
    ∃ canonical, state.artifactPayloads.get? placed.identity = some canonical ∧
      ∃ first ∈ seen, first.identity = placed.identity ∧ first.path = canonical.path := by
  obtain ⟨canonical, hcanonical⟩ := htransferred.known placed hplaced
  exact ⟨canonical, hcanonical, htransferred.payload _ _ hcanonical⟩

/-- Every artifact is copied or linked; it is not both when paths share alone. -/
theorem Transferred.placedOnce (halone : SharedAlone seen) (hplaced : placed ∈ seen) :
    Xor (placed.path ∈ state.paths)
      (∃ source, state.hardlinksByTarget.get? placed.path = some source) := by
  obtain ⟨canonical, hcanonical, first, hfirst, hidentity, hpath⟩ := htransferred.canonical hplaced
  by_cases hsame : canonical.path = placed.path
  · refine .inl ⟨(htransferred.copied placed).mpr ⟨_, _, hcanonical, hsame⟩, ?_⟩
    intro h
    obtain ⟨source, hsource⟩ := h
    obtain ⟨linked, hlinked, found, hfound, hlinkedPath, hfoundPath, hne⟩ :=
      htransferred.link _ _ hsource
    obtain ⟨origin, horigin, horiginIdentity, horiginPath⟩ := htransferred.payload _ _ hfound
    have hequal := halone linked hlinked placed hplaced origin horigin hlinkedPath
      horiginIdentity.symm (fun heq => hne (by rw [← hfoundPath, ← horiginPath, ← heq, hlinkedPath]))
    rw [← hequal, hcanonical] at hfound
    exact hne (by rw [← hfoundPath, ← Option.some.inj hfound, hsame])
  · refine .inr ⟨⟨_, htransferred.linked placed hplaced canonical hcanonical hsame⟩, ?_⟩
    intro hcopied
    obtain ⟨identity, other, hother, hotherPath⟩ := (htransferred.copied placed).mp hcopied
    obtain ⟨origin, horigin, rfl, horiginPath⟩ := htransferred.payload _ _ hother
    have hequal := halone placed hplaced origin horigin first hfirst
      (hotherPath.symm.trans horiginPath.symm) hidentity.symm
      (fun heq => hsame (by rw [← hpath, ← heq]))
    rw [hequal, hcanonical] at hother
    exact hsame (by rw [Option.some.inj hother, hotherPath])

/-- A hard link leads to a copied file; both have the same contents when paths share
alone. -/
theorem Transferred.linkedContents {target source : RegistryPath}
    (hlink : state.hardlinksByTarget.get? target = some source) :
    source ∈ state.paths ∧ (∃ origin ∈ seen, origin.path = source) ∧
      (∃ linked ∈ seen, linked.path = target) ∧
      (SharedAlone seen → ∀ origin ∈ seen, origin.path = source → ∀ linked ∈ seen,
        linked.path = target → origin.identity = linked.identity) := by
  obtain ⟨placed, hplaced, canonical, hcanonical, rfl, rfl, hne⟩ := htransferred.link _ _ hlink
  obtain ⟨first, hfirst, hidentity, hpath⟩ := htransferred.payload _ _ hcanonical
  refine ⟨hpath ▸ (htransferred.copied first).mpr ⟨_, _, hcanonical, hpath.symm⟩,
    ⟨first, hfirst, hpath⟩, ⟨placed, hplaced, rfl⟩, ?_⟩
  intro halone origin horigin horiginPath linked hlinked hlinkedPath
  have hdiffers : first.path ≠ placed.path := hpath ▸ hne
  have hsource := halone first hfirst origin horigin placed hplaced
    (hpath.trans horiginPath.symm) hidentity hdiffers
  have htarget := halone placed hplaced linked hlinked first hfirst hlinkedPath.symm
    hidentity.symm hdiffers.symm
  rw [hsource, htarget, hidentity]

/-- Where links lead to the same contents, paths share alone. -/
theorem Transferred.sharedAlone
    (hlinks : ∀ target source, state.hardlinksByTarget.get? target = some source →
      ∀ origin ∈ seen, origin.path = source → ∀ linked ∈ seen, linked.path = target →
        origin.identity = linked.identity) : SharedAlone seen := by
  intro first hfirst second hsecond other hother hpath hidentity hne
  obtain ⟨canonical, hcanonical, origin, horigin, horiginIdentity, horiginPath⟩ :=
    htransferred.canonical hfirst
  by_cases hsame : canonical.path = first.path
  · have hlink := htransferred.linked other hother canonical (hidentity ▸ hcanonical)
      (fun heq => hne (hsame.symm.trans heq))
    have hequal := hlinks _ _ hlink second hsecond (hpath.symm.trans hsame.symm) other hother rfl
    rw [hequal, hidentity]
  · have hlink := htransferred.linked first hfirst canonical hcanonical hsame
    have hequal := hlinks _ _ hlink origin horigin horiginPath second hsecond hpath.symm
    rw [← hequal, horiginIdentity]

end Contents

section Maps

variable {Key Item : Type} [DecidableEq Key]

variable {keyOf : Item → Key} {items : List Item}

/-- A loop that records each item under a new key. -/
theorem foldlM_record {record : KeyedMap Key Item → Item → Except String (KeyedMap Key Item)}
    (hrecord : ∀ map item next, record map item = .ok next →
      keyOf item ∉ map.keys ∧ next = map.insert (keyOf item) item) {map result : KeyedMap Key Item}
    (hfold : items.foldlM record map = .ok result) :
    result.entries = map.entries ++ items.map fun item => (keyOf item, item) := by
  induction items generalizing map with
  | nil =>
    obtain rfl := Except.ok.inj hfold
    simp
  | cons item rest ih =>
    obtain ⟨next, hnext, hfold⟩ := bind_eq_ok.mp hfold
    obtain ⟨hfresh, rfl⟩ := hrecord _ _ _ hnext
    rw [ih hfold, insert_entries_of_fresh hfresh, map_cons, append_assoc]
    rfl

theorem recordReference_spec {references next : KeyedMap GenerationKey GenerationReference}
    {reference : GenerationReference} (hok : recordReference references reference = .ok next) :
    referenceKey reference ∉ references.keys ∧
      next = references.insert (referenceKey reference) reference := by
  obtain ⟨_, -, hok⟩ := bind_eq_ok.mp hok
  obtain ⟨_, -, hok⟩ := bind_eq_ok.mp hok
  split_ifs at hok with hlisted
  rw [containsKey_iff] at hlisted
  exact ⟨hlisted, (Except.ok.inj hok).symm⟩

theorem recordEntry_spec {entries next : KeyedMap GenerationKey CatalogEntry}
    {entry : CatalogEntry} (hok : recordEntry entries entry = .ok next) :
    entryKey entry ∉ entries.keys ∧ next = entries.insert (entryKey entry) entry := by
  obtain ⟨_, -, hok⟩ := bind_eq_ok.mp hok
  obtain ⟨_, -, hok⟩ := bind_eq_ok.mp hok
  obtain ⟨_, -, hok⟩ := bind_eq_ok.mp hok
  split_ifs at hok with hlisted
  rw [containsKey_iff] at hlisted
  exact ⟨hlisted, (Except.ok.inj hok).symm⟩

/-- Items with different keys are all kept by insertion. -/
theorem mem_values_foldl_insert
    (hkeys : ∀ first ∈ items, ∀ second ∈ items, keyOf first = keyOf second → first = second)
    {item : Item} :
    item ∈ (items.foldl (fun map item => map.insert (keyOf item) item) KeyedMap.empty).values ↔
      item ∈ items := by
  have hget : ∀ key found,
      (items.foldl (fun map item => map.insert (keyOf item) item) KeyedMap.empty).get? key =
        some found ↔ found ∈ items ∧ keyOf found = key := by
    induction items using List.reverseRecOn with
    | nil => simp [KeyedMap.get?_empty]
    | append_singleton earlier last ih =>
      have hearlier := ih fun first hfirst second hsecond =>
        hkeys first (mem_append_left _ hfirst) second (mem_append_left _ hsecond)
      intro key found
      rw [foldl_append, foldl_cons, foldl_nil, mem_append, mem_singleton]
      by_cases hkey : key = keyOf last
      · subst hkey
        rw [KeyedMap.get?_insert_self]
        constructor
        · intro heq
          obtain rfl := Option.some.inj heq
          exact ⟨.inr rfl, rfl⟩
        · intro h
          obtain ⟨hmem, heq⟩ := h
          rw [hkeys found (mem_append.mpr (hmem.imp_right mem_singleton.mpr)) last (by simp) heq]
      · rw [KeyedMap.get?_insert_of_ne hkey, hearlier]
        constructor
        · exact fun h => ⟨.inl h.1, h.2⟩
        · intro h
          obtain ⟨hmem | rfl, heq⟩ := h
          · exact ⟨hmem, heq⟩
          · exact absurd heq.symm hkey
  rw [mem_values_iff]
  simp only [hget]
  exact ⟨fun h => h.elim fun _ hfound => hfound.1, fun hmem => ⟨_, hmem, rfl⟩⟩

end Maps

variable {fingerprint : CatalogKind → List CatalogEntry → String}

variable {catalog : SourceCatalog}

/-- Validated entries have different keys. -/
theorem validated_keys {validated : SourceCatalog}
    (hok : validateRuntimeRegistrySourceCatalog fingerprint catalog = .ok validated) :
    ∀ first ∈ catalog.entries, ∀ second ∈ catalog.entries,
      sourceCatalogEntryKey first = sourceCatalogEntryKey second → first = second := by
  obtain ⟨-, -, hchain⟩ := validateCatalog_spec hok
  have hpairwise : catalog.entries.Pairwise fun previous entry =>
      follows catalog.kind previous entry = true := by
    have htrans : IsTrans CatalogEntry fun previous entry =>
        follows catalog.kind previous entry = true := by
      constructor
      intro first second third hfirst hsecond
      cases hkind : catalog.kind with
      | v1 =>
        rw [hkind] at hfirst hsecond
        exact decide_eq_true ((of_decide_eq_true hfirst).trans (of_decide_eq_true hsecond))
      | v2 =>
        rw [hkind] at hfirst hsecond
        exact decide_eq_true ((of_decide_eq_true hfirst).trans (of_decide_eq_true hsecond))
    exact isChain_iff_pairwise.mp hchain
  have hne : ∀ first second, follows catalog.kind first second = true →
      sourceCatalogEntryKey first ≠ sourceCatalogEntryKey second := by
    intro first second hfollows heq
    cases hkind : catalog.kind with
    | v1 =>
      rw [hkind] at hfollows
      exact (of_decide_eq_true hfollows).ne (List.cons.inj heq).1
    | v2 =>
      rw [hkind] at hfollows
      exact (of_decide_eq_true hfollows).ne heq
  have hnodup : (catalog.entries.map sourceCatalogEntryKey).Nodup :=
    pairwise_map.mpr (hpairwise.imp fun hfollows => hne _ _ hfollows)
  exact fun first hfirst second hsecond => inj_on_of_nodup_map hnodup hfirst hsecond

section Plans

variable {Collation : Type} [LinearOrder Collation] {operations : PathOperations}
  {collate : String → Collation} {preflight : Preflight}
  {retainedSourceCatalog : Option SourceCatalog} {plan : TransferPlan}

def retainedEntries (retainedSourceCatalog : Option SourceCatalog) : List CatalogEntry :=
  (retainedSourceCatalog.map (·.entries)).getD []

variable {retained : List CatalogEntry}

theorem validateRetained_spec
    (hok : validateRetained fingerprint retainedSourceCatalog = .ok retained) :
    retained = retainedEntries retainedSourceCatalog ∧
      ∀ first ∈ retained, ∀ second ∈ retained,
        sourceCatalogEntryKey first = sourceCatalogEntryKey second → first = second := by
  cases retainedSourceCatalog with
  | none =>
    obtain rfl := Except.ok.inj hok
    exact ⟨rfl, by simp⟩
  | some catalog =>
    rw [validateRetained] at hok
    cases hvalidated : validateRuntimeRegistrySourceCatalog fingerprint catalog with
    | error failure =>
      rw [hvalidated] at hok
      simp [Except.map] at hok
    | ok validated =>
      rw [hvalidated] at hok
      obtain rfl := Except.ok.inj hok
      dsimp only
      rw [(validateCatalog_spec hvalidated).1]
      exact ⟨rfl, validated_keys hvalidated⟩

/-- What an accepted derivation has computed. -/
structure Derived (operations : PathOperations) (collate : String → Collation)
    (preflight : Preflight) (retained : List CatalogEntry) (plan : TransferPlan)
    (catalogEntriesByKey : KeyedMap GenerationKey CatalogEntry) (state : TransferState) : Prop where
  entries : catalogEntriesByKey.entries =
    preflight.catalogEntries.map fun entry => (entryKey entry, entry)
  agrees : ∀ entry ∈ retained, ∀ found,
    catalogEntriesByKey.get? (entryKey entry) = some found → found = entry
  described : ∀ reference ∈ preflight.generationReferences,
    ∃ entry, catalogEntriesByKey.get? (referenceKey reference) = some entry
  run : preflight.generationReferences.foldlM
    (transferReference operations preflight.registryPath) initialTransfer = .ok state
  retained_keys : ∀ first ∈ retained, ∀ second ∈ retained,
    sourceCatalogEntryKey first = sourceCatalogEntryKey second → first = second
  links : ∀ link, link ∈ plan.hardlinks ↔
    state.hardlinksByTarget.get? link.target = some link.source
  paths : plan.paths = state.paths.insertionSort fun left right =>
    transferPathKey collate left ≤ transferPathKey collate right
  catalog : plan.sourceCatalog.entries.Perm (outputCatalogEntries retained catalogEntriesByKey
    preflight.generationReferences).values
  sorted : plan.sourceCatalog.entries.Pairwise fun previous entry =>
    sourceCatalogEntryKey previous < sourceCatalogEntryKey entry

theorem derived_of_plan (hplan : deriveRuntimeRegistryTransferPlan operations fingerprint collate
    preflight retainedSourceCatalog = .ok plan) :
    ∃ catalogEntriesByKey state, Derived operations collate preflight
      (retainedEntries retainedSourceCatalog) plan catalogEntriesByKey state := by
  unfold deriveRuntimeRegistryTransferPlan at hplan
  split_ifs at hplan
  obtain ⟨referencesByKey, hreferences, hplan⟩ := bind_eq_ok.mp hplan
  obtain ⟨catalogEntriesByKey, hentries, hplan⟩ := bind_eq_ok.mp hplan
  obtain ⟨retained, hretained, hplan⟩ := bind_eq_ok.mp hplan
  split_ifs at hplan with hconflict
  dsimp only at hplan
  split_ifs at hplan with hdescribed
  obtain ⟨state, hstate, hplan⟩ := bind_eq_ok.mp hplan
  obtain ⟨sourceCatalog, hcatalog, hplan⟩ := bind_eq_ok.mp hplan
  obtain rfl := Except.ok.inj hplan
  have hvalues : referencesByKey.values = preflight.generationReferences := by
    rw [KeyedMap.values, foldlM_record (fun _ _ _ => recordReference_spec) hreferences]
    simp [KeyedMap.empty, Function.comp_def]
  have hlisted : catalogEntriesByKey.entries =
      preflight.catalogEntries.map fun entry => (entryKey entry, entry) := by
    rw [foldlM_record (fun _ _ _ => recordEntry_spec) hentries]
    rfl
  obtain ⟨rfl, hkeys⟩ := validateRetained_spec hretained
  rw [hvalues] at hdescribed hstate hcatalog
  obtain ⟨hperm, hsorted⟩ := createCatalog_spec hcatalog
  refine ⟨catalogEntriesByKey, state, hlisted, ?_, ?_, hstate, hkeys, ?_, rfl, hperm, hsorted⟩
  · intro entry hentry found hfound
    by_contra hne
    exact hconflict (any_eq_true.mpr ⟨entry, hentry, by simpa [hfound] using hne⟩)
  · intro reference hreference
    cases hfound : catalogEntriesByKey.get? (referenceKey reference) with
    | some entry => exact ⟨entry, rfl⟩
    | none => exact absurd (any_eq_true.mpr ⟨reference, hreference, by simp [hfound]⟩) hdescribed
  · intro link
    rw [(perm_insertionSort _ _).mem_iff, mem_map, KeyedMap.get?_eq_some_iff]
    constructor
    · intro h
      obtain ⟨entry, hentry, rfl⟩ := h
      exact hentry
    · exact fun hentry => ⟨_, hentry, rfl⟩

variable {catalogEntriesByKey : KeyedMap GenerationKey CatalogEntry}

section

variable (hderived : Derived operations collate preflight retained plan catalogEntriesByKey state)
include hderived

/-- The local entry of an entry's key is the entry. -/
theorem Derived.get?_iff {key : GenerationKey} {entry : CatalogEntry} :
    catalogEntriesByKey.get? key = some entry ↔
      entry ∈ preflight.catalogEntries ∧ entryKey entry = key := by
  rw [KeyedMap.get?_eq_some_iff, hderived.entries, mem_map]
  constructor
  · intro h
    obtain ⟨found, hfound, heq⟩ := h
    obtain ⟨rfl, rfl⟩ := Prod.mk.inj heq
    exact ⟨hfound, rfl⟩
  · intro h
    obtain ⟨hentry, rfl⟩ := h
    exact ⟨entry, hentry, rfl⟩

/-- The merged catalog has the retained entries and those of the references. -/
theorem Derived.mem_catalog (entry : CatalogEntry) :
    entry ∈ plan.sourceCatalog.entries ↔ entry ∈ retained ∨
      entry ∈ preflight.catalogEntries ∧
        ∃ reference ∈ preflight.generationReferences, entryKey entry = referenceKey reference := by
  have hlocal : ∀ entry, entry ∈ preflight.generationReferences.filterMap (fun reference =>
      catalogEntriesByKey.get? (referenceKey reference)) ↔ entry ∈ preflight.catalogEntries ∧
        ∃ reference ∈ preflight.generationReferences, entryKey entry = referenceKey reference := by
    intro entry
    simp only [mem_filterMap, hderived.get?_iff]
    constructor
    · intro h
      obtain ⟨reference, hreference, hentry, hkey⟩ := h
      exact ⟨hentry, reference, hreference, hkey⟩
    · intro h
      obtain ⟨hentry, reference, hreference, hkey⟩ := h
      exact ⟨reference, hreference, hentry, hkey⟩
  have hsame : ∀ first second : CatalogEntry,
      sourceCatalogEntryKey first = sourceCatalogEntryKey second →
        entryKey first = entryKey second := by
    intro first second heq
    simp only [sourceCatalogEntryKey, List.cons.injEq] at heq
    rw [entryKey, entryKey, heq.2.1, heq.2.2.2.1]
  have hmixed : ∀ first ∈ retained, ∀ second ∈ preflight.catalogEntries,
      sourceCatalogEntryKey first = sourceCatalogEntryKey second → first = second := by
    intro first hfirst second hsecond heq
    exact (hderived.agrees first hfirst second
      (hderived.get?_iff.mpr ⟨hsecond, (hsame _ _ heq).symm⟩)).symm
  have hkeys : ∀ first ∈ retained ++ preflight.generationReferences.filterMap (fun reference =>
        catalogEntriesByKey.get? (referenceKey reference)),
      ∀ second ∈ retained ++ preflight.generationReferences.filterMap (fun reference =>
        catalogEntriesByKey.get? (referenceKey reference)),
        sourceCatalogEntryKey first = sourceCatalogEntryKey second → first = second := by
    intro first hfirst second hsecond heq
    rw [mem_append, hlocal] at hfirst hsecond
    rcases hfirst with hfirst | ⟨hfirst, -⟩
    · rcases hsecond with hsecond | ⟨hsecond, -⟩
      · exact hderived.retained_keys first hfirst second hsecond heq
      · exact hmixed first hfirst second hsecond heq
    · rcases hsecond with hsecond | ⟨hsecond, -⟩
      · exact (hmixed second hsecond first hfirst heq.symm).symm
      · have hget := hderived.get?_iff.mpr ⟨hfirst, rfl⟩
        have hget' := hderived.get?_iff.mpr ⟨hsecond, rfl⟩
        rw [hsame _ _ heq, hget'] at hget
        exact (Option.some.inj hget).symm
  rw [hderived.catalog.mem_iff, outputCatalogEntries, mem_values_foldl_insert hkeys,
    mem_append, hlocal]

end

/-- Directories come before what they contain. -/
theorem sorted_paths_ordered (collate : String → Collation) {paths : List RegistryPath}
    (hnodup : paths.Nodup) :
    (paths.insertionSort fun left right =>
      transferPathKey collate left ≤ transferPathKey collate right).Pairwise
        fun earlier later => ¬later <+: earlier := by
  have hsorted := KeySort.sorted_by_key (transferPathKey collate) paths
  have hdifferent : (paths.insertionSort fun left right =>
      transferPathKey collate left ≤ transferPathKey collate right).Pairwise (· ≠ ·) :=
    (perm_insertionSort _ _).nodup_iff.mpr hnodup
  apply (hsorted.and hdifferent).imp
  intro earlier later h hinner
  obtain ⟨hle, hne⟩ := h
  have hlength : earlier.length ≤ later.length := by
    rcases Prod.Lex.le_iff.mp hle with hlt | ⟨heq, -⟩
    · exact hlt.le
    · exact heq.le
  exact hne (hinner.eq_of_length_le hlength).symm

/-- An accepted plan is complete exactly when the paths that share their contents have
no other contents. -/
theorem transferPlan_complete_iff (operations : PathOperations)
    (fingerprint : CatalogKind → List CatalogEntry → String) (collate : String → Collation)
    (preflight : Preflight) (retainedSourceCatalog : Option SourceCatalog) (plan : TransferPlan)
    (hplan : deriveRuntimeRegistryTransferPlan operations fingerprint collate preflight
      retainedSourceCatalog = .ok plan) :
    Complete preflight (retainedEntries retainedSourceCatalog) plan ↔
      SharedAlone (reachableArtifacts preflight) := by
  obtain ⟨catalogEntriesByKey, state, hderived⟩ := derived_of_plan hplan
  have htransferred := transferred_all hderived.run
  have hpaths : ∀ path, path ∈ plan.paths ↔ path ∈ state.paths := fun path => by
    rw [hderived.paths, (perm_insertionSort _ _).mem_iff]
  constructor
  · intro hcomplete
    apply htransferred.sharedAlone
    intro target source hlink
    exact (hcomplete.linked ⟨source, target⟩ ((hderived.links _).mpr hlink)).2.2.2
  · intro halone
    exact
      { placed := by
          intro placed hplaced
          have honce := htransferred.placedOnce halone hplaced
          have hlinked : (∃ link ∈ plan.hardlinks, link.target = placed.path) ↔
              ∃ source, state.hardlinksByTarget.get? placed.path = some source := by
            constructor
            · intro h
              obtain ⟨link, hlink, heq⟩ := h
              exact ⟨link.source, heq ▸ (hderived.links link).mp hlink⟩
            · intro h
              obtain ⟨source, hsource⟩ := h
              exact ⟨⟨source, placed.path⟩, (hderived.links _).mpr hsource, rfl⟩
          rwa [hpaths, hlinked]
        linked := by
          intro link hlink
          obtain ⟨hcopied, hsource, htarget, hcontents⟩ :=
            htransferred.linkedContents ((hderived.links link).mp hlink)
          exact ⟨(hpaths _).mpr hcopied, hsource, htarget, hcontents halone⟩
        directories := by
          intro path hpath before hne hinner
          exact (hpaths _).mpr (htransferred.listed.closed path ((hpaths _).mp hpath) before hne
            hinner)
        ordered := hderived.paths ▸ sorted_paths_ordered collate htransferred.listed.nodup
        catalog := hderived.mem_catalog
        sorted := hderived.sorted }

end Plans

/-- A registry at `/r`. -/
def sampleOperations : PathOperations where
  isAbsolute := fun path => decide (path.toList.head? = some '/')
  relative := fun _ path => String.ofList (path.toList.drop 3)

def sampleDigest (char : Char) : String := String.ofList (List.replicate 64 char)

def sampleArtifact (kind : ArtifactKind) (cacheKey sha256 : Char) : Artifact where
  stage := "module-graph-role" ++ stageSuffix kind
  cacheKey := sampleDigest cacheKey
  sha256 := sampleDigest sha256
  size := 4
  path := "/r/" ++ pathText ["module-graph-cache", "immutable", "v6", "artifacts",
    "module-graph-role" ++ stageSuffix kind, sampleDigest cacheKey, payloadName kind]

def sampleRole (cacheKey coreSha256 aotSha256 : Char) : RoleArtifacts :=
  ⟨sampleArtifact .coreWasm cacheKey coreSha256, sampleArtifact .aot cacheKey aotSha256⟩

def samplePackage : RegistryPath :=
  ["module-graph-cache", "immutable", "v6", "packages", sampleDigest '0']

def sampleEntry : CatalogEntry :=
  ⟨sampleDigest '1', ⟨sampleDigest '2', 9⟩, sampleDigest '3', sampleDigest '4'⟩

def sampleReference (base shared leaf : RoleArtifacts) : GenerationReference where
  deploymentSha256 := sampleEntry.deploymentSha256
  generation := sampleEntry.generation
  generationSha256 := sampleEntry.generationSha256
  sourcePackageRuntimeContentSha256 := sampleEntry.sourcePackageRuntimeContentSha256
  moduleGraphs := [
    { graphManifestSha256 := sampleDigest '0'
      packagePath := "/r/" ++ pathText samplePackage
      graphManifestPath := "/r/" ++ pathText (samplePackage ++ ["graph-manifest.json"])
      base := base
      shared := [shared]
      leaf := leaf }]

def samplePreflight (base shared leaf : RoleArtifacts) : Preflight where
  registryPath := "/r"
  catalogEntries := [sampleEntry]
  generationReferences := [sampleReference base shared leaf]

def sampleFingerprint : CatalogKind → List CatalogEntry → String := fun _ _ => sampleDigest 'f'

theorem requireSha256_sample {char : Char} (hhex : isHexDigit char = true) (description : String) :
    requireSha256 (sampleDigest char) description = .ok (sampleDigest char) := by
  have hsha256 : isSha256 (sampleDigest char) = true := by
    simp [isSha256, sampleDigest, hhex]
  rw [requireSha256, if_pos hsha256]

/-- The paths of the cache are in the registry. -/
theorem relativeRegistryPath_sample (rest : RegistryPath) (description : String) :
    relativeRegistryPath sampleOperations "/r" ("/r/" ++ pathText ("module-graph-cache" :: rest))
      ("module-graph-cache" :: rest) description = .ok () := by
  have hrelative : sampleOperations.relative "/r"
      ("/r/" ++ pathText ("module-graph-cache" :: rest)) =
        pathText ("module-graph-cache" :: rest) := by
    simp [sampleOperations]
  obtain ⟨later, hfirst⟩ : ∃ later, (pathText ("module-graph-cache" :: rest)).toList =
      'm' :: later := by
    cases rest with
    | nil => exact ⟨_, rfl⟩
    | cons second rest =>
      rw [pathText, String.toList_intercalate]
      exact ⟨_, rfl⟩
  have hne : ∀ other : String, other.toList.head? ≠ some 'm' →
      pathText ("module-graph-cache" :: rest) ≠ other := by
    intro other hother heq
    rw [← heq, hfirst] at hother
    exact hother rfl
  have hempty := hne "" (by simp)
  have hparent := hne ".." (by decide)
  have habsolute : sampleOperations.isAbsolute
      ("/r/" ++ pathText ("module-graph-cache" :: rest)) = true := by
    simp [sampleOperations]
  have hlocal : sampleOperations.isAbsolute (pathText ("module-graph-cache" :: rest)) = false := by
    simp [sampleOperations, hfirst]
  unfold relativeRegistryPath
  rw [hrelative]
  simp [habsolute, hlocal, hempty, hparent, hfirst]

theorem checkArtifact_sample (kind : ArtifactKind) {cacheKey sha256 : Char}
    (hcacheKey : isHexDigit cacheKey = true) (hsha256 : isHexDigit sha256 = true) :
    checkArtifact sampleOperations "/r" ⟨kind, sampleArtifact kind cacheKey sha256⟩ = .ok () := by
  have hstage : isStage (sampleArtifact kind cacheKey sha256).stage = true := by
    change isStage ("module-graph-role" ++ stageSuffix kind) = true
    cases kind <;> decide +kernel
  have hending : (stageSuffix kind).toList.isSuffixOf
      (sampleArtifact kind cacheKey sha256).stage.toList = true := by
    change (stageSuffix kind).toList.isSuffixOf
      ("module-graph-role" ++ stageSuffix kind).toList = true
    cases kind <;> decide +kernel
  have hkey : requireSha256 (sampleArtifact kind cacheKey sha256).cacheKey =
      fun _ => .ok (sampleDigest cacheKey) := funext (requireSha256_sample hcacheKey)
  have hdigest : requireSha256 (sampleArtifact kind cacheKey sha256).sha256 =
      fun _ => .ok (sampleDigest sha256) := funext (requireSha256_sample hsha256)
  have hsize : ¬(maxSafeInteger < (sampleArtifact kind cacheKey sha256).size ∨
      (sampleArtifact kind cacheKey sha256).size ≤ 0) := by
    change ¬(maxSafeInteger < 4 ∨ (4 : ℤ) ≤ 0)
    decide
  unfold checkArtifact
  rw [if_neg (by simp [hstage])]
  simp only [hkey, hdigest, ok_bind]
  rw [if_neg hsize, if_neg (by simp [hending])]
  exact relativeRegistryPath_sample _ _

/-- An artifact that passes its checks. -/
def placeFiles (state : TransferState) (placed : PlacedArtifact) : Except String TransferState :=
  placeArtifact
    { state with paths := addFiles state.paths placed.directory ["COMPLETE", "entry.json"] } placed

/-- A role that passes its checks. -/
def Placeable (role : RoleArtifacts) : Prop := ∀ state,
  transferRole sampleOperations "/r" state role = (placedOf role).foldlM placeFiles state

theorem transferRole_sample {cacheKey coreSha256 aotSha256 : Char}
    (hcacheKey : isHexDigit cacheKey = true) (hcore : isHexDigit coreSha256 = true)
    (haot : isHexDigit aotSha256 = true) :
    Placeable (sampleRole cacheKey coreSha256 aotSha256) := by
  intro state
  have hartifact : ∀ (kind : ArtifactKind) (sha256 : Char) (state : TransferState),
      isHexDigit sha256 = true → transferArtifact sampleOperations "/r" state
        ⟨kind, sampleArtifact kind cacheKey sha256⟩ =
          placeFiles state ⟨kind, sampleArtifact kind cacheKey sha256⟩ := by
    intro kind sha256 state hsha256
    rw [transferArtifact, checkArtifact_sample kind hcacheKey hsha256]
    rfl
  simp [transferRole, placedOf, sampleRole, hartifact .coreWasm _ _ hcore, hartifact .aot _ _ haot]

/-- The files of the generation and of its package. -/
def sampleStart : TransferState :=
  { initialTransfer with
    paths := addFiles (addFiles initialTransfer.paths
      ["generations", sampleDigest '1', sampleDigest '3']
        ["COMPLETE", "deployment.json", "generation.json"])
      samplePackage ["COMPLETE", "build-provenance.json", "graph-manifest.json", "package-entry.json"] }

variable {base shared leaf : RoleArtifacts}

/-- The roles are all that is left of the transfer. -/
theorem samplePreflight_run (hbase : Placeable base) (hshared : Placeable shared)
    (hleaf : Placeable leaf) :
    (samplePreflight base shared leaf).generationReferences.foldlM
        (transferReference sampleOperations "/r") initialTransfer =
      ([base, shared, leaf].flatMap placedOf).foldlM placeFiles sampleStart := by
  have hdigest : ∀ char, isHexDigit char = true →
      requireSha256 (sampleDigest char) = fun _ => .ok (sampleDigest char) :=
    fun char hhex => funext (requireSha256_sample hhex)
  have hpackage : ∀ description, relativeRegistryPath sampleOperations "/r"
      ("/r/" ++ pathText samplePackage) samplePackage description = .ok () :=
    relativeRegistryPath_sample _
  have hmanifest : ∀ description, relativeRegistryPath sampleOperations "/r"
      ("/r/" ++ pathText (samplePackage ++ ["graph-manifest.json"]))
        (samplePackage ++ ["graph-manifest.json"]) description = .ok () :=
    relativeRegistryPath_sample _
  have hroles : ∀ state, [base, shared, leaf].foldlM (transferRole sampleOperations "/r") state =
      ([base, shared, leaf].flatMap placedOf).foldlM placeFiles state := by
    intro state
    simp [hbase _, hshared _, hleaf _]
  rw [← hroles]
  simp only [samplePreflight, sampleReference, sampleEntry, foldlM_cons, foldlM_nil,
    transferReference, transferGraph, hdigest '0' rfl, hdigest '1' rfl, hdigest '3' rfl, ok_bind,
    bind_pure, if_neg, cons_ne_nil, not_false_eq_true, packageRoot]
  rw [show (["module-graph-cache", "immutable", "v6", "packages", sampleDigest '0'] :
    RegistryPath) = samplePackage from rfl, hpackage, hmanifest]
  simp only [ok_bind, rolesOf, cons_append, nil_append, foldlM_cons, foldlM_nil, bind_pure]
  rfl

theorem createCatalog_sample :
    createRuntimeRegistrySourceCatalog sampleFingerprint id [sampleEntry] =
      .ok ⟨sampleDigest 'f', [sampleEntry], .v2⟩ := by
  change validateRuntimeRegistrySourceCatalog sampleFingerprint
    ⟨sampleDigest 'f', [sampleEntry], .v2⟩ = _
  unfold validateRuntimeRegistrySourceCatalog
  rfl

/-- The plan is accepted when its roles are. -/
theorem samplePreflight_accepted {state : TransferState}
    (hrun : (samplePreflight base shared leaf).generationReferences.foldlM
        (transferReference sampleOperations "/r") initialTransfer = .ok state) :
    ∃ plan, deriveRuntimeRegistryTransferPlan sampleOperations sampleFingerprint id
      (samplePreflight base shared leaf) none = .ok plan := by
  have hreferences : (samplePreflight base shared leaf).generationReferences.foldlM
      recordReference .empty = .ok (KeyedMap.empty.insert
        (referenceKey (sampleReference base shared leaf)) (sampleReference base shared leaf)) := by
    change recordReference .empty (sampleReference base shared leaf) >>= pure = _
    rw [bind_pure, recordReference]
    dsimp only [sampleReference]
    rfl
  have hentries : (samplePreflight base shared leaf).catalogEntries.foldlM
      recordEntry .empty = .ok (KeyedMap.empty.insert (entryKey sampleEntry) sampleEntry) := by
    change recordEntry .empty sampleEntry >>= pure = _
    rfl
  have hfound : (KeyedMap.empty.insert (entryKey sampleEntry) sampleEntry).get?
      (referenceKey (sampleReference base shared leaf)) = some sampleEntry :=
    KeyedMap.get?_insert_self
  have hdescribes : describes sampleEntry (sampleReference base shared leaf) = true := by
    simp [describes, sampleReference]
  have hvalues : (KeyedMap.empty.insert (referenceKey (sampleReference base shared leaf))
      (sampleReference base shared leaf)).values = [sampleReference base shared leaf] := rfl
  have hmerged : (outputCatalogEntries [] (KeyedMap.empty.insert (entryKey sampleEntry) sampleEntry)
      [sampleReference base shared leaf]).values = [sampleEntry] := by
    rfl
  unfold deriveRuntimeRegistryTransferPlan
  have hroot : ¬sampleOperations.isAbsolute (samplePreflight base shared leaf).registryPath =
      false := by
    change ¬sampleOperations.isAbsolute "/r" = false
    decide
  have hlisted : ¬(samplePreflight base shared leaf).catalogEntries = [] := cons_ne_nil _ _
  rw [if_neg hroot, if_neg hlisted, hreferences, hentries]
  dsimp only [ok_bind, validateRetained]
  rw [if_neg (by simp), hvalues, if_neg (by simp [hfound, hdescribes]), hmerged, createCatalog_sample]
  change ∃ plan, (samplePreflight base shared leaf).generationReferences.foldlM
        (transferReference sampleOperations "/r") initialTransfer >>= _ = Except.ok plan
  rw [hrun]
  exact ⟨_, rfl⟩

/-- Two roles share their Core Wasm under different cache keys. -/
def sharingPreflight : Preflight :=
  samplePreflight (sampleRole 'b' '5' '6') (sampleRole 'a' '7' '8') (sampleRole 'c' '5' '9')

theorem transferPlan_complete_sharing :
    ∃ plan, deriveRuntimeRegistryTransferPlan sampleOperations sampleFingerprint id
        sharingPreflight none = .ok plan ∧ Complete sharingPreflight [] plan := by
  have hrun : sharingPreflight.generationReferences.foldlM
      (transferReference sampleOperations "/r") initialTransfer =
        (reachableArtifacts sharingPreflight).foldlM placeFiles sampleStart :=
    samplePreflight_run (transferRole_sample rfl rfl rfl) (transferRole_sample rfl rfl rfl)
      (transferRole_sample rfl rfl rfl)
  have hplaced : ((reachableArtifacts sharingPreflight).foldlM placeFiles
      sampleStart).toOption.isSome = true := by decide +kernel
  obtain ⟨state, hstate⟩ := Option.isSome_iff_exists.mp hplaced
  obtain ⟨plan, hplan⟩ := samplePreflight_accepted (hrun.trans (toOption_eq_some.mp hstate))
  have halone : SharedAlone (reachableArtifacts sharingPreflight) := by
    unfold SharedAlone
    decide +kernel
  exact ⟨plan, hplan, (transferPlan_complete_iff sampleOperations sampleFingerprint id
    sharingPreflight none plan hplan).mpr halone⟩

/-- The last role has the path of the second one with the contents of the first. -/
def conflictingPreflight : Preflight :=
  samplePreflight (sampleRole 'b' '5' '6') (sampleRole 'a' '7' '8') (sampleRole 'a' '5' '8')

/-- A path is copied and is the target of a hard link. -/
theorem transferPlan_copies_and_links :
    ∃ plan, deriveRuntimeRegistryTransferPlan sampleOperations sampleFingerprint id
        conflictingPreflight none = .ok plan ∧
      ∃ placed ∈ reachableArtifacts conflictingPreflight, placed.path ∈ plan.paths ∧
        ∃ link ∈ plan.hardlinks, link.target = placed.path := by
  have hrun : conflictingPreflight.generationReferences.foldlM
      (transferReference sampleOperations "/r") initialTransfer =
        (reachableArtifacts conflictingPreflight).foldlM placeFiles sampleStart :=
    samplePreflight_run (transferRole_sample rfl rfl rfl) (transferRole_sample rfl rfl rfl)
      (transferRole_sample rfl rfl rfl)
  have hplaced : ((reachableArtifacts conflictingPreflight).foldlM placeFiles
      sampleStart).toOption.any (fun state => decide (∃ placed ∈
        reachableArtifacts conflictingPreflight, placed.path ∈ state.paths ∧
          (state.hardlinksByTarget.get? placed.path).isSome)) = true := by decide +kernel
  obtain ⟨state, hstate, hboth⟩ := (Option.any_eq_true _ _).mp hplaced
  obtain ⟨placed, hmem, hcopied, hlinked⟩ := of_decide_eq_true hboth
  obtain ⟨source, hsource⟩ := Option.isSome_iff_exists.mp hlinked
  have hfold := hrun.trans (toOption_eq_some.mp hstate)
  obtain ⟨plan, hplan⟩ := samplePreflight_accepted hfold
  obtain ⟨_, state', hderived⟩ := derived_of_plan hplan
  obtain rfl : state = state' := Except.ok.inj (hfold.symm.trans hderived.run)
  refine ⟨plan, hplan, placed, hmem, ?_, ⟨source, placed.path⟩, (hderived.links _).mpr hsource, rfl⟩
  rw [hderived.paths, (perm_insertionSort _ _).mem_iff]
  exact hcopied

end ConvexWasm.RegistryTransfer
