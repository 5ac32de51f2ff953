import ConvexWasm.Core.Fallible
import ConvexWasm.Core.KeySort

/-!
# Source catalogs of the runtime registry

A catalog lists the generations of a registry with their source packages, in
the order of their keys.  Its identity is the fingerprint of its contents.
-/

namespace ConvexWasm.RegistryTransfer

open Fallible List

structure Generation where
  sha256 : String
  size : ℤ
  deriving DecidableEq

structure CatalogEntry where
  deploymentSha256 : String
  generation : Generation
  generationSha256 : String
  sourcePackageRuntimeContentSha256 : String
  deriving DecidableEq

inductive CatalogKind
  | v1 | v2
  deriving DecidableEq

structure SourceCatalog where
  catalogSha256 : String
  entries : List CatalogEntry
  kind : CatalogKind
  deriving DecidableEq

def maxRegistryManifestBytes : ℤ := 4 * 1024 * 1024

def maxSourceCatalogEntries : ℕ := 4096

def maxSafeInteger : ℤ := 2 ^ 53 - 1

def isHexDigit (char : Char) : Bool := char.isDigit || (decide ('a' ≤ char) && decide (char ≤ 'f'))

def isSha256 (value : String) : Bool :=
  decide (value.toList.length = 64) && value.toList.all isHexDigit

def requireSha256 (value description : String) : Except String String :=
  if isSha256 value then .ok value
  else .error (description ++ " must be a lowercase SHA-256 digest")

/-- The four digests that `JSON.stringify` joins; the text of digests is ordered as
their list is. -/
def sourceCatalogEntryKey (entry : CatalogEntry) : List String :=
  [entry.sourcePackageRuntimeContentSha256, entry.deploymentSha256, entry.generation.sha256,
    entry.generationSha256]

/-- The text of a key. -/
def keyText (key : List String) : String :=
  "[" ++ String.intercalate "," (key.map fun digest => "\"" ++ digest ++ "\"") ++ "]"

def validateCatalogEntry (entry : CatalogEntry) (index : ℕ) : Except String CatalogEntry := do
  let description := "runtime registry source catalog entry " ++ toString index
  if entry.generation.size ≤ 0 ∨ maxRegistryManifestBytes < entry.generation.size then
    .error (description ++ " generation size is invalid")
  else
    let deploymentSha256 ← requireSha256 entry.deploymentSha256
      (description ++ " deploymentSha256")
    let sha256 ← requireSha256 entry.generation.sha256 (description ++ " generation sha256")
    let generationSha256 ← requireSha256 entry.generationSha256
      (description ++ " generationSha256")
    let sourcePackage ← requireSha256 entry.sourcePackageRuntimeContentSha256
      (description ++ " sourcePackageRuntimeContentSha256")
    return {
      deploymentSha256 := deploymentSha256
      generation := ⟨sha256, entry.generation.size⟩
      generationSha256 := generationSha256
      sourcePackageRuntimeContentSha256 := sourcePackage }

/-- Neighbours are in the order that the kind asks for. -/
def follows (kind : CatalogKind) (previous entry : CatalogEntry) : Bool :=
  match kind with
  | .v1 => decide (previous.sourcePackageRuntimeContentSha256 <
      entry.sourcePackageRuntimeContentSha256)
  | .v2 => decide (sourceCatalogEntryKey previous < sourceCatalogEntryKey entry)

section Validation

variable (fingerprint : CatalogKind → List CatalogEntry → String)

def validateRuntimeRegistrySourceCatalog (catalog : SourceCatalog) :
    Except String SourceCatalog := do
  if catalog.entries = [] ∨ maxSourceCatalogEntries < catalog.entries.length then
    .error "runtime registry source catalog must contain 1 through 4096 entries"
  else
    let entries ← catalog.entries.zipIdx.mapM fun entry => validateCatalogEntry entry.1 entry.2
    if (entries.zip entries.tail).any fun pair => !follows catalog.kind pair.1 pair.2 then
      .error "runtime registry source catalog entries must have unique, sorted exact pair keys"
    else
      let catalogSha256 ← requireSha256 catalog.catalogSha256 "source catalog identity"
      if catalogSha256 ≠ fingerprint catalog.kind entries then
        .error "runtime registry source catalog identity differs from its contents"
      else return ⟨catalogSha256, entries, catalog.kind⟩

/-- `localeCompare` compares the collation keys of texts. -/
def createRuntimeRegistrySourceCatalog {Collation : Type} [LinearOrder Collation]
    (collate : String → Collation) (entries : List CatalogEntry) : Except String SourceCatalog :=
  let sortedEntries := entries.insertionSort fun left right =>
    collate (keyText (sourceCatalogEntryKey left)) ≤ collate (keyText (sourceCatalogEntryKey right))
  validateRuntimeRegistrySourceCatalog fingerprint
    ⟨fingerprint .v2 sortedEntries, sortedEntries, .v2⟩

end Validation

section Accepted

variable {fingerprint : CatalogKind → List CatalogEntry → String}
  {catalog validated : SourceCatalog} {entry result : CatalogEntry} {index : ℕ}

theorem requireSha256_eq_ok {value description found : String}
    (hok : requireSha256 value description = .ok found) : found = value := by
  unfold requireSha256 at hok
  split_ifs at hok
  exact (Except.ok.inj hok).symm

/-- Validation copies the entry. -/
theorem validateCatalogEntry_eq (hok : validateCatalogEntry entry index = .ok result) :
    result = entry := by
  unfold validateCatalogEntry at hok
  split_ifs at hok
  obtain ⟨_, hfirst, hok⟩ := bind_eq_ok.mp hok
  obtain ⟨_, hsecond, hok⟩ := bind_eq_ok.mp hok
  obtain ⟨_, hthird, hok⟩ := bind_eq_ok.mp hok
  obtain ⟨_, hfourth, hok⟩ := bind_eq_ok.mp hok
  obtain rfl := Except.ok.inj hok
  rw [requireSha256_eq_ok hfirst, requireSha256_eq_ok hsecond, requireSha256_eq_ok hthird,
    requireSha256_eq_ok hfourth]

theorem validateCatalogEntries_eq {start : ℕ} {entries results : List CatalogEntry}
    (hok : (entries.zipIdx start).mapM (fun entry => validateCatalogEntry entry.1 entry.2) =
      .ok results) : results = entries := by
  have hall := mapM_eq_ok_iff.mp hok
  clear hok
  induction entries generalizing start results with
  | nil => simpa [List.forall₂_nil_left_iff] using hall
  | cons entry rest ih =>
    rw [zipIdx_cons, List.forall₂_cons_left_iff] at hall
    obtain ⟨result, later, hresult, hlater, rfl⟩ := hall
    rw [validateCatalogEntry_eq hresult, ih hlater]

theorem follows_chain {kind : CatalogKind} {entries : List CatalogEntry}
    (hordered : ((entries.zip entries.tail).any fun pair => !follows kind pair.1 pair.2) = false) :
    entries.IsChain fun previous entry => follows kind previous entry = true := by
  induction entries with
  | nil => exact isChain_nil
  | cons first rest ih =>
    cases rest with
    | nil => exact isChain_singleton _
    | cons second rest =>
      simp only [tail_cons, zip_cons_cons, any_cons, Bool.or_eq_false_iff,
        Bool.not_eq_false'] at hordered
      exact List.IsChain.cons_cons hordered.1 (ih hordered.2)

/-- An accepted catalog has its own entries in their order. -/
theorem validateCatalog_spec
    (hok : validateRuntimeRegistrySourceCatalog fingerprint catalog = .ok validated) :
    validated.entries = catalog.entries ∧ validated.kind = catalog.kind ∧
      catalog.entries.IsChain fun previous entry => follows catalog.kind previous entry = true := by
  unfold validateRuntimeRegistrySourceCatalog at hok
  split_ifs at hok
  obtain ⟨entries, hentries, hok⟩ := bind_eq_ok.mp hok
  obtain rfl := validateCatalogEntries_eq hentries
  split_ifs at hok with hordered
  obtain ⟨_, -, hok⟩ := bind_eq_ok.mp hok
  split_ifs at hok
  obtain rfl := Except.ok.inj hok
  exact ⟨rfl, rfl, follows_chain (by simpa using hordered)⟩

/-- A created catalog lists the entries in the order of their keys, each once. -/
theorem createCatalog_spec {Collation : Type} [LinearOrder Collation]
    {collate : String → Collation} {entries : List CatalogEntry}
    (hok : createRuntimeRegistrySourceCatalog fingerprint collate entries = .ok validated) :
    validated.entries.Perm entries ∧ validated.entries.Pairwise fun previous entry =>
      sourceCatalogEntryKey previous < sourceCatalogEntryKey entry := by
  obtain ⟨hentries, -, hchain⟩ := validateCatalog_spec hok
  rw [hentries]
  refine ⟨perm_insertionSort _ _, ?_⟩
  have hkeys : (entries.insertionSort fun left right =>
      collate (keyText (sourceCatalogEntryKey left)) ≤
        collate (keyText (sourceCatalogEntryKey right))).IsChain fun previous entry =>
          sourceCatalogEntryKey previous < sourceCatalogEntryKey entry :=
    hchain.imp fun _ _ hfollows => of_decide_eq_true hfollows
  exact isChain_iff_pairwise.mp hkeys

end Accepted

end ConvexWasm.RegistryTransfer
