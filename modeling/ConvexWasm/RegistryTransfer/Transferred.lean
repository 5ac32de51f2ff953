import ConvexWasm.RegistryTransfer.Plan

/-!
# What a transfer has collected

After some artifacts each identity has a canonical path, which is copied, and
every other path of the identity is a hard link to it.  No other file of the
plan has the path of an artifact, and the directories of all paths are listed.
-/

namespace ConvexWasm.RegistryTransfer

open Fallible List

variable {paths : List RegistryPath} {directory : RegistryPath} {names : List String}

variable {path added : RegistryPath}

theorem mem_addPath : path ∈ addPath paths added ↔ path ∈ paths ∨ path = added := by
  unfold addPath
  split_ifs with hlisted
  · exact ⟨.inl, fun h => h.elim id fun heq => heq ▸ hlisted⟩
  · rw [mem_append, mem_singleton]

theorem addPath_nodup (hnodup : paths.Nodup) (added : RegistryPath) :
    (addPath paths added).Nodup := by
  unfold addPath
  split_ifs with hlisted
  · exact hnodup
  · exact concat_eq_append ▸ hnodup.concat hlisted

theorem foldl_addPath_spec (added : List RegistryPath) (hnodup : paths.Nodup) :
    (added.foldl addPath paths).Nodup ∧
      ∀ path, path ∈ added.foldl addPath paths ↔ path ∈ paths ∨ path ∈ added := by
  induction added generalizing paths with
  | nil => exact ⟨hnodup, by simp⟩
  | cons head rest ih =>
    obtain ⟨hrest, hmem⟩ := ih (addPath_nodup hnodup head)
    refine ⟨hrest, ?_⟩
    intro path
    rw [foldl_cons, hmem, mem_addPath, mem_cons, or_assoc]

theorem mem_tail_inits : path ∈ directory.inits.tail ↔ path ≠ [] ∧ path <+: directory := by
  cases directory with
  | nil => simp
  | cons first rest =>
    rw [inits_cons, tail_cons, mem_map]
    constructor
    · intro h
      obtain ⟨before, hbefore, rfl⟩ := h
      exact ⟨by simp, cons_prefix_cons.mpr ⟨rfl, (mem_inits _ _).mp hbefore⟩⟩
    · intro h
      obtain ⟨hne, hbefore⟩ := h
      cases path with
      | nil => exact absurd rfl hne
      | cons head before =>
        obtain ⟨rfl, hinner⟩ := cons_prefix_cons.mp hbefore
        exact ⟨before, (mem_inits _ _).mpr hinner, rfl⟩

/-- A listing of paths with their directories. -/
structure Listed (paths : List RegistryPath) : Prop where
  nodup : paths.Nodup
  closed : ∀ path ∈ paths, ∀ before, before ≠ [] → before <+: path → before ∈ paths

theorem addDirectory_spec (hlisted : Listed paths) (directory : RegistryPath) :
    Listed (addDirectory paths directory) ∧ ∀ path, path ∈ addDirectory paths directory ↔
      path ∈ paths ∨ (path ≠ [] ∧ path <+: directory) := by
  obtain ⟨hnodup, hmem⟩ := foldl_addPath_spec directory.inits.tail hlisted.nodup
  simp only [mem_tail_inits] at hmem
  refine ⟨⟨hnodup, ?_⟩, hmem⟩
  intro path hpath before hne hbefore
  rcases (hmem path).mp hpath with hold | ⟨-, hnew⟩
  · exact (hmem before).mpr (.inl (hlisted.closed path hold before hne hbefore))
  · exact (hmem before).mpr (.inr ⟨hne, hbefore.trans hnew⟩)

theorem addFile_spec (hlisted : Listed paths) (path : RegistryPath) (hne : path ≠ []) :
    Listed (addFile paths path) ∧ ∀ other, other ∈ addFile paths path ↔
      other ∈ paths ∨ (other ≠ [] ∧ other <+: path) := by
  obtain ⟨hdirectory, hmem⟩ := addDirectory_spec hlisted path.dropLast
  have hfile : ∀ other, other ∈ addFile paths path ↔
      other ∈ paths ∨ (other ≠ [] ∧ other <+: path) := by
    intro other
    have hsplit : other <+: path ↔ other = path ∨ other <+: path.dropLast := by
      conv_lhs => rw [← dropLast_concat_getLast hne]
      rw [prefix_concat_iff, dropLast_concat_getLast]
    rw [addFile, mem_addPath, hmem, hsplit]
    constructor
    · intro h
      rcases h with (hold | ⟨hother, hinner⟩) | rfl
      · exact .inl hold
      · exact .inr ⟨hother, .inr hinner⟩
      · exact .inr ⟨hne, .inl rfl⟩
    · intro h
      rcases h with hold | ⟨hother, rfl | hinner⟩
      · exact .inl (.inl hold)
      · exact .inr rfl
      · exact .inl (.inr ⟨hother, hinner⟩)
  refine ⟨⟨addPath_nodup hdirectory.nodup path, ?_⟩, hfile⟩
  intro other hother before hbefore hinner
  rcases (hfile other).mp hother with hold | ⟨-, hnew⟩
  · exact (hfile before).mpr (.inl (hlisted.closed other hold before hbefore hinner))
  · exact (hfile before).mpr (.inr ⟨hbefore, hinner.trans hnew⟩)

theorem addFiles_spec (hlisted : Listed paths) (directory : RegistryPath) (names : List String) :
    Listed (addFiles paths directory names) ∧ ∀ other, other ∈ addFiles paths directory names ↔
      other ∈ paths ∨ ∃ name ∈ names, other ≠ [] ∧ other <+: directory ++ [name] := by
  unfold addFiles
  induction names generalizing paths with
  | nil => exact ⟨hlisted, by simp⟩
  | cons name rest ih =>
    obtain ⟨hfirst, hfile⟩ := addFile_spec hlisted (directory ++ [name]) (by simp)
    obtain ⟨hrest, hmem⟩ := ih hfirst
    refine ⟨hrest, ?_⟩
    intro other
    rw [foldl_cons, hmem, hfile, exists_mem_cons_iff, or_assoc]

variable {placed : PlacedArtifact}

variable {other : PlacedArtifact}

theorem PlacedArtifact.length_path (placed : PlacedArtifact) : placed.path.length = 7 := rfl

theorem PlacedArtifact.not_prefix_of_length {path : RegistryPath} (hlength : path.length < 7) :
    ¬placed.path <+: path := fun hinner => by
  have hle := hinner.length_le
  rw [PlacedArtifact.length_path] at hle
  omega

/-- The files beside the payloads have other names. -/
theorem artifactPath_mem_addFiles (hlisted : Listed paths)
    (hnames : directory.length < 6 ∨ ∀ name ∈ names, ∀ kind, name ≠ payloadName kind)
    (hshort : directory.length ≤ 6) :
    placed.path ∈ addFiles paths directory names ↔ placed.path ∈ paths := by
  rw [(addFiles_spec hlisted directory names).2, or_iff_left]
  intro h
  obtain ⟨name, hname, -, hinner⟩ := h
  rcases hnames with hlength | hnames
  · exact PlacedArtifact.not_prefix_of_length (by simpa using by omega) hinner
  · rcases prefix_concat_iff.mp hinner with heq | hinner
    · have hlast := congrArg List.getLast? heq
      rw [PlacedArtifact.path, List.getLast?_concat, List.getLast?_concat] at hlast
      exact hnames name hname placed.kind (Option.some.inj hlast).symm
    · exact PlacedArtifact.not_prefix_of_length (by omega) hinner

variable {operations : PathOperations} {registryRoot : String} {seen : List PlacedArtifact}
  {state next : TransferState}

/-- The invariant of the loops over the artifacts. -/
structure Transferred (seen : List PlacedArtifact) (state : TransferState) : Prop where
  payload : ∀ identity canonical, state.artifactPayloads.get? identity = some canonical →
    ∃ placed ∈ seen, placed.identity = identity ∧ placed.path = canonical.path
  known : ∀ placed ∈ seen, ∃ canonical,
    state.artifactPayloads.get? placed.identity = some canonical
  link : ∀ target source, state.hardlinksByTarget.get? target = some source →
    ∃ placed ∈ seen, ∃ canonical, state.artifactPayloads.get? placed.identity = some canonical ∧
      placed.path = target ∧ canonical.path = source ∧ source ≠ target
  linked : ∀ placed ∈ seen, ∀ canonical,
    state.artifactPayloads.get? placed.identity = some canonical →
      canonical.path ≠ placed.path →
        state.hardlinksByTarget.get? placed.path = some canonical.path
  copied : ∀ placed : PlacedArtifact, placed.path ∈ state.paths ↔
    ∃ identity canonical, state.artifactPayloads.get? identity = some canonical ∧
      canonical.path = placed.path
  listed : Listed state.paths
  places : ∀ target source, state.hardlinksByTarget.get? target = some source →
    target.dropLast ∈ state.paths

section

variable (htransferred : Transferred seen state)
include htransferred

/-- Other files do not matter. -/
theorem Transferred.addFiles {directory : RegistryPath} {names : List String}
    (hnames : directory.length < 6 ∨ ∀ name ∈ names, ∀ kind, name ≠ payloadName kind)
    (hshort : directory.length ≤ 6) :
    Transferred seen
      { state with paths := RegistryTransfer.addFiles state.paths directory names } where
  payload := htransferred.payload
  known := htransferred.known
  link := htransferred.link
  linked := htransferred.linked
  copied := fun placed =>
    (artifactPath_mem_addFiles htransferred.listed hnames hshort).trans (htransferred.copied placed)
  listed := (addFiles_spec htransferred.listed directory names).1
  places := fun target source hlink =>
    ((addFiles_spec htransferred.listed directory names).2 _).mpr
      (.inl (htransferred.places target source hlink))

/-- The first path of an identity is copied. -/
theorem Transferred.first (hfresh : state.artifactPayloads.get? placed.identity = none) (size : ℤ) :
    Transferred (seen ++ [placed])
      { state with
        artifactPayloads := state.artifactPayloads.insert placed.identity ⟨placed.path, size⟩
        paths := addFile state.paths placed.path } := by
  have hpath : placed.path ≠ [] := by simp [PlacedArtifact.path]
  obtain ⟨hlisted, hmem⟩ := addFile_spec htransferred.listed placed.path hpath
  have hne : ∀ other ∈ seen, other.identity ≠ placed.identity := by
    intro other hother heq
    obtain ⟨canonical, hcanonical⟩ := htransferred.known other hother
    rw [heq, hfresh] at hcanonical
    simp at hcanonical
  have hinsert : ∀ (identity : ArtifactKind × String) (canonical : CanonicalPayload),
      (state.artifactPayloads.insert placed.identity ⟨placed.path, size⟩).get? identity =
          some canonical ↔
        (identity = placed.identity ∧ canonical = ⟨placed.path, size⟩) ∨
          state.artifactPayloads.get? identity = some canonical := by
    intro identity canonical
    by_cases hidentity : identity = placed.identity
    · subst hidentity
      rw [KeyedMap.get?_insert_self, hfresh]
      simp [eq_comm]
    · rw [KeyedMap.get?_insert_of_ne hidentity]
      simp [hidentity]
  refine ⟨?_, ?_, ?_, ?_, ?_, hlisted, ?_⟩
  · intro identity canonical hget
    rcases (hinsert _ _).mp hget with ⟨rfl, rfl⟩ | hold
    · exact ⟨placed, by simp, rfl, rfl⟩
    · obtain ⟨other, hother, heq⟩ := htransferred.payload identity canonical hold
      exact ⟨other, mem_append_left _ hother, heq⟩
  · intro other hother
    rcases mem_append.mp hother with hold | hnew
    · obtain ⟨canonical, hcanonical⟩ := htransferred.known other hold
      exact ⟨canonical, (hinsert _ _).mpr (.inr hcanonical)⟩
    · rw [mem_singleton.mp hnew]
      exact ⟨_, (hinsert _ _).mpr (.inl ⟨rfl, rfl⟩)⟩
  · intro target source hlink
    obtain ⟨other, hother, canonical, hcanonical, heq⟩ := htransferred.link target source hlink
    exact ⟨other, mem_append_left _ hother, canonical,
      (hinsert _ _).mpr (.inr hcanonical), heq⟩
  · intro other hother canonical hget hdiffers
    rcases mem_append.mp hother with hold | hnew
    · rcases (hinsert _ _).mp hget with ⟨heq, -⟩ | hget
      · exact absurd heq (hne other hold)
      · exact htransferred.linked other hold canonical hget hdiffers
    · obtain rfl := mem_singleton.mp hnew
      rcases (hinsert _ _).mp hget with ⟨-, rfl⟩ | hget
      · exact absurd rfl hdiffers
      · rw [hfresh] at hget
        simp at hget
  · intro other
    rw [hmem, htransferred.copied other]
    simp only [hinsert]
    constructor
    · intro h
      rcases h with ⟨identity, canonical, hget, heq⟩ | ⟨-, hinner⟩
      · exact ⟨identity, canonical, .inr hget, heq⟩
      · have heq := hinner.eq_of_length (other.length_path.trans placed.length_path.symm)
        exact ⟨placed.identity, ⟨placed.path, size⟩, .inl ⟨rfl, rfl⟩, heq.symm⟩
    · intro h
      obtain ⟨identity, canonical, ⟨rfl, rfl⟩ | hget, heq⟩ := h
      · have hpath : placed.path = other.path := heq
        exact .inr ⟨by simp [PlacedArtifact.path], hpath ▸ prefix_refl _⟩
      · exact .inl ⟨identity, canonical, hget, heq⟩
  · intro target source hlink
    rw [hmem]
    exact .inl (htransferred.places target source hlink)

/-- A path that is the canonical one adds nothing. -/
theorem Transferred.again {canonical : CanonicalPayload}
    (hknown : state.artifactPayloads.get? placed.identity = some canonical)
    (hsame : canonical.path = placed.path) : Transferred (seen ++ [placed]) state where
  payload := fun identity other hget => by
    obtain ⟨found, hfound, heq⟩ := htransferred.payload identity other hget
    exact ⟨found, mem_append_left _ hfound, heq⟩
  known := by
    intro other hother
    rcases mem_append.mp hother with hold | hnew
    · exact htransferred.known other hold
    · exact mem_singleton.mp hnew ▸ ⟨canonical, hknown⟩
  link := fun target source hlink => by
    obtain ⟨other, hother, hrest⟩ := htransferred.link target source hlink
    exact ⟨other, mem_append_left _ hother, hrest⟩
  linked := by
    intro other hother found hget hdiffers
    rcases mem_append.mp hother with hold | hnew
    · exact htransferred.linked other hold found hget hdiffers
    · obtain rfl := mem_singleton.mp hnew
      rw [hknown] at hget
      obtain rfl := Option.some.inj hget
      exact absurd hsame hdiffers
  copied := htransferred.copied
  listed := htransferred.listed
  places := htransferred.places

/-- Another path of an identity becomes a hard link. -/
theorem Transferred.hardlink {canonical : CanonicalPayload}
    (hknown : state.artifactPayloads.get? placed.identity = some canonical)
    (hdiffers : canonical.path ≠ placed.path)
    (hagrees : ∀ source, state.hardlinksByTarget.get? placed.path = some source →
      source = canonical.path) :
    Transferred (seen ++ [placed])
      { state with
        hardlinksByTarget := state.hardlinksByTarget.insert placed.path canonical.path
        paths := addDirectory state.paths placed.directory } := by
  obtain ⟨hlisted, hmem⟩ := addDirectory_spec htransferred.listed placed.directory
  have hinsert : ∀ target source,
      (state.hardlinksByTarget.insert placed.path canonical.path).get? target = some source ↔
        (target = placed.path ∧ source = canonical.path) ∨
          state.hardlinksByTarget.get? target = some source := by
    intro target source
    by_cases htarget : target = placed.path
    · subst htarget
      rw [KeyedMap.get?_insert_self]
      constructor
      · exact fun heq => .inl ⟨rfl, (Option.some.inj heq).symm⟩
      · intro h
        rcases h with ⟨-, rfl⟩ | hold
        · rfl
        · rw [hagrees source hold]
    · rw [KeyedMap.get?_insert_of_ne htarget]
      simp [htarget]
  refine ⟨?_, ?_, ?_, ?_, ?_, hlisted, ?_⟩
  · intro identity other hget
    obtain ⟨found, hfound, heq⟩ := htransferred.payload identity other hget
    exact ⟨found, mem_append_left _ hfound, heq⟩
  · intro other hother
    rcases mem_append.mp hother with hold | hnew
    · exact htransferred.known other hold
    · rw [mem_singleton.mp hnew]
      exact ⟨canonical, hknown⟩
  · intro target source hlink
    rcases (hinsert _ _).mp hlink with ⟨rfl, rfl⟩ | hold
    · exact ⟨placed, by simp, canonical, hknown, rfl, rfl, hdiffers⟩
    · obtain ⟨other, hother, hrest⟩ := htransferred.link target source hold
      exact ⟨other, mem_append_left _ hother, hrest⟩
  · intro other hother found hget hne
    rcases mem_append.mp hother with hold | hnew
    · exact (hinsert _ _).mpr (.inr (htransferred.linked other hold found hget hne))
    · obtain rfl := mem_singleton.mp hnew
      rw [hknown] at hget
      obtain rfl := Option.some.inj hget
      exact (hinsert _ _).mpr (.inl ⟨rfl, rfl⟩)
  · intro other
    rw [hmem, or_iff_left, htransferred.copied other]
    exact fun h => PlacedArtifact.not_prefix_of_length (by simp [PlacedArtifact.directory]) h.2
  · intro target source hlink
    rcases (hinsert _ _).mp hlink with ⟨rfl, rfl⟩ | hold
    · rw [hmem, PlacedArtifact.path, dropLast_concat]
      exact .inr ⟨by simp [PlacedArtifact.directory], prefix_refl _⟩
    · rw [hmem]
      exact .inl (htransferred.places target source hold)

/-- One artifact. -/
theorem Transferred.artifact
    (hstep : transferArtifact operations registryRoot state placed = .ok next) :
    Transferred (seen ++ [placed]) next := by
  obtain ⟨_, -, hstep⟩ := bind_eq_ok.mp hstep
  have hfiles : Transferred seen { state with
      paths := RegistryTransfer.addFiles state.paths placed.directory ["COMPLETE", "entry.json"] } :=
    htransferred.addFiles (.inr (by
      intro name hname kind
      revert name
      cases kind <;> decide)) (by simp [PlacedArtifact.directory])
  revert hstep hfiles
  intro hstep hfiles
  unfold placeArtifact at hstep
  split at hstep
  · next hfresh =>
      obtain rfl := Except.ok.inj hstep
      exact hfiles.first hfresh placed.artifact.size
  · next canonical hknown =>
      split_ifs at hstep with hsize hpath hconflict
      · obtain rfl := Except.ok.inj hstep
        apply hfiles.hardlink hknown hpath
        intro source hsource
        rw [hsource] at hconflict
        simpa using hconflict
      · obtain rfl := Except.ok.inj hstep
        exact hfiles.again hknown (by simpa using hpath)

end

/-- A loop whose turns each add their artifacts. -/
theorem transferred_of_foldlM {Item : Type} {step : TransferState → Item → Except String TransferState}
    {artifactsOf : Item → List PlacedArtifact}
    (hstep : ∀ (seen : List PlacedArtifact) (state : TransferState) (item : Item)
      (next : TransferState), Transferred seen state → step state item = .ok next →
        Transferred (seen ++ artifactsOf item) next)
    {items : List Item} (htransferred : Transferred seen state)
    (hfold : items.foldlM step state = .ok next) :
    Transferred (seen ++ items.flatMap artifactsOf) next := by
  induction items generalizing seen state with
  | nil =>
    obtain rfl := Except.ok.inj hfold
    simpa using htransferred
  | cons item rest ih =>
    obtain ⟨middle, hfirst, hrest⟩ := bind_eq_ok.mp hfold
    rw [flatMap_cons, ← append_assoc]
    exact ih (hstep seen state item middle htransferred hfirst) hrest

def placedOf (role : RoleArtifacts) : List PlacedArtifact :=
  [⟨.coreWasm, role.coreWasm⟩, ⟨.aot, role.aot⟩]

def graphArtifacts (graph : ModuleGraph) : List PlacedArtifact := (rolesOf graph).flatMap placedOf

def referenceArtifacts (reference : GenerationReference) : List PlacedArtifact :=
  reference.moduleGraphs.flatMap graphArtifacts

section

variable (htransferred : Transferred seen state)
include htransferred

theorem Transferred.role {role : RoleArtifacts}
    (hstep : transferRole operations registryRoot state role = .ok next) :
    Transferred (seen ++ placedOf role) next := by
  have hall : Transferred (seen ++ (placedOf role).flatMap fun placed => [placed]) next :=
    transferred_of_foldlM (fun _ _ _ _ htransferred hstep => htransferred.artifact hstep) htransferred hstep
  rwa [flatMap_singleton'] at hall

theorem Transferred.graph {graph : ModuleGraph}
    (hstep : transferGraph operations registryRoot state graph = .ok next) :
    Transferred (seen ++ graphArtifacts graph) next := by
  obtain ⟨_, -, hstep⟩ := bind_eq_ok.mp hstep
  obtain ⟨_, -, hstep⟩ := bind_eq_ok.mp hstep
  obtain ⟨_, -, hstep⟩ := bind_eq_ok.mp hstep
  exact transferred_of_foldlM (fun _ _ _ _ htransferred hstep => htransferred.role hstep)
    (htransferred.addFiles (.inl (by simp [packageRoot])) (by simp [packageRoot])) hstep

theorem Transferred.reference {reference : GenerationReference}
    (hstep : transferReference operations registryRoot state reference = .ok next) :
    Transferred (seen ++ referenceArtifacts reference) next := by
  obtain ⟨_, -, hstep⟩ := bind_eq_ok.mp hstep
  obtain ⟨_, -, hstep⟩ := bind_eq_ok.mp hstep
  split_ifs at hstep
  exact transferred_of_foldlM (fun _ _ _ _ htransferred hstep => htransferred.graph hstep)
    (htransferred.addFiles (.inl (by simp [generationRoot])) (by simp [generationRoot])) hstep

end

/-- Before any reference nothing is placed. -/
theorem transferred_initial : Transferred [] initialTransfer := by
  have hlisted : Listed initialTransfer.paths := by
    have hempty : Listed [] := ⟨nodup_nil, by simp⟩
    exact (addDirectory_spec (addDirectory_spec (addDirectory_spec (addDirectory_spec hempty _).1
      _).1 _).1 _).1
  have hshort : ∀ path ∈ initialTransfer.paths, path.length < 7 := by decide
  refine ⟨?_, by simp, ?_, by simp, ?_, hlisted, ?_⟩
  · intro identity canonical hget
    simp [initialTransfer, KeyedMap.get?_empty] at hget
  · intro target source hlink
    simp [initialTransfer, KeyedMap.get?_empty] at hlink
  · intro placed
    constructor
    · intro hmem
      have hlength := hshort placed.path hmem
      rw [PlacedArtifact.length_path] at hlength
      omega
    · intro h
      obtain ⟨identity, canonical, hget, -⟩ := h
      simp [initialTransfer, KeyedMap.get?_empty] at hget
  · intro target source hlink
    simp [initialTransfer, KeyedMap.get?_empty] at hlink

/-- After all references. -/
theorem transferred_all {references : List GenerationReference}
    (hfold : references.foldlM (transferReference operations registryRoot) initialTransfer =
      .ok next) : Transferred (references.flatMap referenceArtifacts) next := by
  have hall := transferred_of_foldlM
    (fun _ _ _ _ htransferred hstep => Transferred.reference htransferred hstep)
    transferred_initial hfold
  rwa [nil_append] at hall

end ConvexWasm.RegistryTransfer
