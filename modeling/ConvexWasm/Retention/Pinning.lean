import ConvexWasm.Core.GuardedAccumulation
import ConvexWasm.Retention.Plan

/-!
# What the planner pins

Each closure of the planner adds a fixed effect to the retained sets when its
key is available and otherwise stops the plan.  The effects form a monoid under
union, so a plan's retained sets are the union of the effects of all requests
its loops make.
-/

namespace ConvexWasm.Retention

open ConvexWasm.GuardedAccumulation Finset

namespace Retained

instance : Zero Retained := ⟨⟨∅, ∅, ∅, ∅⟩⟩

instance : Add Retained :=
  ⟨fun left right =>
    { paths := left.paths ∪ right.paths
      packageKeys := left.packageKeys ∪ right.packageKeys
      artifactKeys := left.artifactKeys ∪ right.artifactKeys
      certificateSha256s := left.certificateSha256s ∪ right.certificateSha256s }⟩

variable (left right : Retained)

@[simp] theorem paths_zero : (0 : Retained).paths = ∅ := rfl
@[simp] theorem packageKeys_zero : (0 : Retained).packageKeys = ∅ := rfl
@[simp] theorem artifactKeys_zero : (0 : Retained).artifactKeys = ∅ := rfl
@[simp] theorem certificateSha256s_zero : (0 : Retained).certificateSha256s = ∅ := rfl

@[simp] theorem paths_add :
    (left + right).paths = left.paths ∪ right.paths := rfl
@[simp] theorem packageKeys_add :
    (left + right).packageKeys = left.packageKeys ∪ right.packageKeys := rfl
@[simp] theorem artifactKeys_add :
    (left + right).artifactKeys = left.artifactKeys ∪ right.artifactKeys := rfl
@[simp] theorem certificateSha256s_add :
    (left + right).certificateSha256s = left.certificateSha256s ∪ right.certificateSha256s := rfl

instance : AddMonoid Retained where
  add_assoc first second third := by ext <;> simp
  zero_add retained := by ext <;> simp
  add_zero retained := by ext <;> simp
  nsmul := nsmulRec

variable {Item : Type*} {items : List Item} {effect : Item → Retained}

theorem mem_paths_sum {path : CachePath} :
    path ∈ (items.map effect).sum.paths ↔
      ∃ item ∈ items, path ∈ (effect item).paths := by
  induction items with
  | nil => simp
  | cons item rest ih => simp [ih]

theorem mem_artifactKeys_sum {key : ArtifactKey} :
    key ∈ (items.map effect).sum.artifactKeys ↔
      ∃ item ∈ items, key ∈ (effect item).artifactKeys := by
  induction items with
  | nil => simp
  | cons item rest ih => simp [ih]

theorem mem_packageKeys_sum {key : Sha256} :
    key ∈ (items.map effect).sum.packageKeys ↔
      ∃ item ∈ items, key ∈ (effect item).packageKeys := by
  induction items with
  | nil => simp
  | cons item rest ih => simp [ih]

end Retained

def artifactEffect (key : ArtifactKey) : Retained :=
  { (0 : Retained) with paths := {key.path}, artifactKeys := {key} }

section Effects

variable (settings : Settings) (inventory : Inventory)

def packageEffect (key : Sha256) : Retained :=
  match inventory.packageByKey key with
  | none => 0
  | some record =>
    { (0 : Retained) with paths := {record.path}, packageKeys := {key} } +
      (record.artifactKeys.map artifactEffect).sum

def certificateEffect (key : Sha256) : Retained :=
  match inventory.certificateBySha256 key with
  | none => 0
  | some (certificate, root) =>
    { (0 : Retained) with paths := {root.path}, certificateSha256s := {key} } +
      (certificate.packageKeys.map (packageEffect inventory)).sum

def compilerOutputEffect (key : Sha256) : Retained :=
  match inventory.artifactByKey (compilerOutputKey key) with
  | none => 0
  | some compilerOutput =>
    artifactEffect (compilerOutputKey key) +
      if compilerOutput.compilerOutputSchema = some .current then
        (compilerOutput.closureArtifactKeys.map artifactEffect).sum
      else 0

/-- What a met request adds to the retained sets. -/
def Request.effect : Request → Retained
  | .artifact key => artifactEffect key
  | .package key => packageEffect inventory key
  | .certificate key => certificateEffect inventory key
  | .compilerOutput key => compilerOutputEffect inventory key

def artifactAvailable (key : ArtifactKey) : Prop := (inventory.artifactByKey key).isSome

def packageAvailable (key : Sha256) : Prop :=
  ∃ record, inventory.packageByKey key = some record ∧
    ∀ artifact ∈ record.artifactKeys, artifactAvailable inventory artifact

def certificateAvailable (key : Sha256) : Prop :=
  ∃ certificate root,
    inventory.certificateBySha256 key = some (certificate, root) ∧
      ∀ package ∈ certificate.packageKeys, packageAvailable inventory package

def compilerOutputAvailable (key : Sha256) : Prop :=
  ∃ compilerOutput,
    inventory.artifactByKey (compilerOutputKey key) = some compilerOutput ∧
      compilerOutput.type = .artifact ∧
        (compilerOutput.compilerOutputSchema = some .current →
          ∀ artifact ∈ compilerOutput.closureArtifactKeys, artifactAvailable inventory artifact)

/-- Whether the records a request needs are all authenticated and present. -/
def Request.Available : Request → Prop
  | .artifact key => artifactAvailable inventory key
  | .package key => packageAvailable inventory key
  | .certificate key => certificateAvailable inventory key
  | .compilerOutput key => compilerOutputAvailable inventory key

/-- `maxRetainedPackages` bounds the retained packages. -/
def packageBound (retained : Retained) : Prop :=
  retained.packageKeys.card ≤ settings.maxRetainedPackages

end Effects

section Guards

variable {settings : Settings} {inventory : Inventory}

theorem packageBound_of_add (total extra : Retained)
    (hbound : packageBound settings (total + extra)) : packageBound settings total :=
  le_trans (card_le_card subset_union_left) hbound

theorem artifactByKey_cacheKey {key : ArtifactKey} {record : ArtifactRecord}
    (hfind : inventory.artifactByKey key = some record) :
    record ∈ inventory.artifacts ∧ record.authority.isAuthenticated ∧
      record.cacheKey = key := by
  have hmem := List.mem_of_find?_eq_some hfind
  have hpred := List.find?_some hfind
  simp only [Bool.and_eq_true, beq_iff_eq] at hpred
  exact ⟨hmem, hpred.1, hpred.2⟩

variable {key : Sha256}

theorem packageByKey_key {record : PackageRecord} (hfind : inventory.packageByKey key = some record)
    :
    record ∈ inventory.packages ∧ record.authority.isAuthenticated ∧
      record.key = key := by
  have hmem := List.mem_of_find?_eq_some hfind
  have hpred := List.find?_some hfind
  simp only [Bool.and_eq_true, beq_iff_eq] at hpred
  exact ⟨hmem, hpred.1, hpred.2⟩

theorem certificateBySha256_key {certificate : CertificateEntry} {root : CertificateRoot}
    (hfind : inventory.certificateBySha256 key = some (certificate, root)) :
    (certificate, root) ∈ inventory.readableCertificates ∧ certificate.key = key := by
  have hmem := List.mem_of_find?_eq_some hfind
  have hpred := List.find?_some hfind
  simp only [beq_iff_eq] at hpred
  exact ⟨hmem, hpred⟩

theorem guarded_retainArtifact :
    Guarded (retainArtifact inventory) (artifactAvailable inventory)
      artifactEffect (packageBound settings) where
  bound_of_add := packageBound_of_add
  sound total key total' hstep := by
    unfold retainArtifact at hstep
    split at hstep
    · cases hstep
    · rename_i record hfind
      have hkey := (artifactByKey_cacheKey hfind).2.2
      cases hstep
      refine ⟨by simp [artifactAvailable, hfind], ?_, fun hbound => hbound⟩
      rw [← hkey]
      ext <;> simp [artifactEffect, or_comm]
  complete total key havailable _ := by
    obtain ⟨record, hfind⟩ := Option.isSome_iff_exists.mp havailable
    have hkey := (artifactByKey_cacheKey hfind).2.2
    simp only [retainArtifact, hfind]
    rw [← hkey]
    congr 1
    ext <;> simp [artifactEffect, or_comm]

/-- The closure of a package is retained by its guarded insertion. -/
theorem guarded_retainPackage :
    Guarded (retainPackage settings inventory) (packageAvailable inventory)
      (packageEffect inventory) (packageBound settings) where
  bound_of_add := packageBound_of_add
  sound total key total' hstep := by
    have hguarded : Guarded (retainArtifact inventory) (artifactAvailable inventory)
        artifactEffect (packageBound settings) := guarded_retainArtifact
    unfold retainPackage at hstep
    split at hstep
    · cases hstep
    · rename_i hroom
      split at hstep
      · cases hstep
      · rename_i record hfind
        obtain ⟨havailable, htotal, hbound⟩ := hguarded.foldlM_sound hstep
        refine ⟨⟨record, hfind, havailable⟩, ?_, fun h => hbound ?_⟩
        · rw [htotal, packageEffect, hfind]
          rw [← add_assoc]
          ext <;> simp [or_comm]
        · -- Either the key was already counted or there was room for it.
          simp only [packageBound] at h ⊢
          by_cases hmem : key ∈ total.packageKeys
          · rwa [insert_eq_of_mem hmem]
          · have hlt : total.packageKeys.card < settings.maxRetainedPackages := by
              by_contra hfull
              exact hroom ⟨not_lt.mp hfull, hmem⟩
            rw [card_insert_of_notMem hmem]
            exact hlt
  complete total key havailable hbound := by
    obtain ⟨record, hfind, hartifacts⟩ := havailable
    have heffect : packageEffect inventory key =
        { (0 : Retained) with paths := {record.path}, packageKeys := {key} } +
          (record.artifactKeys.map artifactEffect).sum := by
      simp only [packageEffect, hfind]
    rw [heffect, ← add_assoc] at hbound ⊢
    have hroom : ¬ (settings.maxRetainedPackages ≤ total.packageKeys.card ∧
        key ∉ total.packageKeys) := by
      rintro ⟨hfull, hmem⟩
      have hcard := packageBound_of_add _ _ hbound
      simp only [packageBound, Retained.packageKeys_add] at hcard
      rw [union_comm, ← insert_eq, card_insert_of_notMem hmem] at hcard
      omega
    have hinsert : ({ total with
        packageKeys := insert key total.packageKeys
        paths := insert record.path total.paths } : Retained) =
        total + { (0 : Retained) with
          paths := {record.path}, packageKeys := {key} } := by
      ext <;> simp [or_comm]
    simp only [retainPackage, if_neg hroom, hfind]
    rw [hinsert]
    exact guarded_retainArtifact.foldlM_complete hartifacts hbound

theorem guarded_retainCertificate :
    Guarded (retainCertificate settings inventory)
      (certificateAvailable inventory) (certificateEffect inventory)
      (packageBound settings) where
  bound_of_add := packageBound_of_add
  sound total key total' hstep := by
    unfold retainCertificate at hstep
    split at hstep
    · cases hstep
    · rename_i certificate root hfind
      obtain ⟨havailable, htotal, hbound⟩ := guarded_retainPackage.foldlM_sound hstep
      refine ⟨⟨certificate, root, hfind, havailable⟩, ?_, hbound⟩
      rw [htotal, certificateEffect, hfind]
      rw [← add_assoc]
      ext <;> simp [or_comm]
  complete total key havailable hbound := by
    obtain ⟨certificate, root, hfind, hpackages⟩ := havailable
    have hinsert : ({ total with
        certificateSha256s := insert key total.certificateSha256s
        paths := insert root.path total.paths } : Retained) =
        total + { (0 : Retained) with
          paths := {root.path}, certificateSha256s := {key} } := by
      ext <;> simp [or_comm]
    simp only [certificateEffect, hfind, ← add_assoc] at hbound ⊢
    simp only [retainCertificate, hfind]
    rw [hinsert]
    exact guarded_retainPackage.foldlM_complete hpackages hbound

theorem guarded_retainCompilerOutput :
    Guarded (retainCompilerOutput inventory) (compilerOutputAvailable inventory)
      (compilerOutputEffect inventory) (packageBound settings) where
  bound_of_add := packageBound_of_add
  sound total key total' hstep := by
    have hguarded : Guarded (retainArtifact inventory) (artifactAvailable inventory)
        artifactEffect (packageBound settings) := guarded_retainArtifact
    unfold retainCompilerOutput at hstep
    split at hstep
    · cases hstep
    · rename_i compilerOutput hfind
      split at hstep
      · rename_i htype
        cases hfirst : retainArtifact inventory total (compilerOutputKey key) with
        | error failure =>
          rw [hfirst] at hstep
          cases hstep
        | ok next =>
          rw [hfirst] at hstep
          obtain ⟨_, hnext, hbound⟩ := hguarded.sound _ _ _ hfirst
          change (if _ then _ else _) = _ at hstep
          split at hstep
          · rename_i hschema
            obtain ⟨havailable, htotal, hbound'⟩ := hguarded.foldlM_sound hstep
            refine ⟨⟨compilerOutput, hfind, htype, fun _ => havailable⟩, ?_,
              fun h => hbound' (hbound h)⟩
            simp only [compilerOutputEffect, hfind, if_pos hschema]
            rw [htotal, hnext, add_assoc]
          · rename_i hschema
            cases hstep
            refine ⟨⟨compilerOutput, hfind, htype, fun h => absurd h hschema⟩, ?_, hbound⟩
            simp only [compilerOutputEffect, hfind, if_neg hschema]
            rw [hnext, add_zero]
      · cases hstep
  complete total key havailable hbound := by
    obtain ⟨compilerOutput, hfind, htype, hclosure⟩ := havailable
    have hself : artifactAvailable inventory (compilerOutputKey key) := by
      simp [artifactAvailable, hfind]
    simp only [compilerOutputEffect, hfind, ← add_assoc] at hbound ⊢
    have hfirst := guarded_retainArtifact.complete total _ hself (packageBound_of_add _ _ hbound)
    simp only [retainCompilerOutput, hfind, if_pos htype, hfirst]
    change (if _ then _ else _) = _
    by_cases hschema : compilerOutput.compilerOutputSchema = some .current
    · simp only [if_pos hschema] at hbound ⊢
      exact guarded_retainArtifact.foldlM_complete (hclosure hschema) hbound
    · simp [hschema]

/-- Every request of the planner is a guarded accumulation. -/
theorem guarded_retain :
    Guarded (retain settings inventory) (Request.Available inventory)
      (Request.effect inventory) (packageBound settings) where
  bound_of_add := packageBound_of_add
  sound total request total' hstep := by
    cases request with
    | artifact key => exact guarded_retainArtifact.sound total key total' hstep
    | package key => exact guarded_retainPackage.sound total key total' hstep
    | certificate key =>
      exact guarded_retainCertificate.sound total key total' hstep
    | compilerOutput key =>
      exact guarded_retainCompilerOutput.sound total key total' hstep
  complete total request havailable hbound := by
    cases request with
    | artifact key =>
      exact guarded_retainArtifact.complete total key havailable hbound
    | package key =>
      exact guarded_retainPackage.complete total key havailable hbound
    | certificate key =>
      exact guarded_retainCertificate.complete total key havailable hbound
    | compilerOutput key =>
      exact guarded_retainCompilerOutput.complete total key havailable hbound

end Guards

end ConvexWasm.Retention
