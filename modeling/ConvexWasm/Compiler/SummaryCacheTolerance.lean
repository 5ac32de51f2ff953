import ConvexWasm.Compiler.SummaryCacheReading
import ConvexWasm.Compiler.SummaryCachePruning

/-!
# What lookups and prunes tolerate

In every run that starts without a cache, whatever the others build and remove
meanwhile, a lookup returns what it should exactly when the summary is left in
its place with its times, and a prune does when nothing it lists goes and what
is published fits.
-/

namespace ConvexWasm.Compiler.SummaryCache

open Sharing Function

def sampleKey : CacheKey := ⟨"ab", "cd"⟩

def sampleRoot : CacheTree :=
  { CacheTree.empty.stampDirectory .root with
    directory := update (CacheTree.empty.stampDirectory .root).directory .root (some 0) }

/-- The directories of the sample key, made by another compiler. -/
def sampleDirectories : CacheTree :=
  { sampleRoot.stampDirectory .root with
    directory := update (sampleRoot.stampDirectory .root).directory (.shard "ab") (some 0) }

def sampleCreated : CacheTree :=
  { sampleDirectories with
    store := sampleDirectories.store.allocate.setEntry (.temporary sampleKey 7) 0 (by decide)
    modified := update sampleDirectories.modified 0 5 }.stampDirectory (.shard "ab")

/-- Three bytes in a temporary file. -/
def sampleWriting : CacheTree :=
  { sampleCreated with
    store := sampleCreated.store.append 0 [1, 2, 3]
    modified := update sampleCreated.modified 0 5 }

/-- The same file under its final name. -/
def samplePublished : CacheTree :=
  { sampleWriting with
    store := ((sampleWriting.store.dropEntry (.temporary sampleKey 7)).setEntry
      (.published sampleKey) 0 (by decide)).touch 0 }.stampDirectory (.shard "ab")

def sampleListed : CacheTree :=
  (samplePublished.stampDirectory .root).stampDirectory (.shard "ab")

def sampleRemoved : CacheTree :=
  { sampleListed with
    store := (sampleListed.store.dropEntry (.published sampleKey)).touch 0
    }.stampDirectory (.shard "ab")

def sampleRelisted : CacheTree :=
  (sampleRemoved.stampDirectory .root).stampDirectory (.shard "ab")

theorem sampleWriting_reach : Relation.ReflTransGen Others .empty sampleWriting := by
  have hroot : Others .empty sampleRoot := .makeDirectory rfl
  have hshard : Others sampleRoot sampleDirectories := .makeDirectory rfl
  have hcreate : sampleDirectories.store.createNew (.temporary sampleKey 7) =
      some (0, sampleCreated.store) := rfl
  have hcreated : Others sampleDirectories sampleCreated := .create rfl hcreate 5
  have hentry : sampleCreated.store.entry (.temporary sampleKey 7) = some 0 := rfl
  exact .tail (.tail (.tail (.single hroot) hshard) hcreated) (.write hentry [1, 2, 3] 5)

theorem samplePublished_step : Others sampleWriting samplePublished := by
  have hrename : sampleWriting.store.rename (.temporary sampleKey 7) (.published sampleKey) =
      some samplePublished.store := rfl
  exact .publish hrename

theorem performs_secureDirectory (tree : CacheTree) (directory : CacheDirectory) :
    cache.performs (.secureDirectory directory) tree () (tree.stampDirectory directory) := rfl

/-- The sample directory is the only one. -/
theorem sample_listRoot {tree : CacheTree}
    (hdirectory : ∀ shard, (tree.directory (.shard shard)).isSome ↔ shard = "ab") :
    Performs .listRoot tree ["ab"] tree :=
  ⟨by simp, fun shard => by rw [hdirectory, List.mem_singleton], rfl⟩

theorem sample_listShard {tree : CacheTree} {name : CacheName}
    (hentry : ∀ other, (tree.store.entry other).isSome ↔ other = name)
    (hname : name.key.shard = "ab") : Performs (.listShard "ab") tree [name] tree := by
  refine ⟨by simp, fun other => ?_, rfl⟩
  rw [hentry, List.mem_singleton]
  constructor
  · rintro rfl
    exact ⟨hname, rfl⟩
  · exact And.right

theorem sampleWriting_shards (shard : String) :
    (sampleWriting.directory (.shard shard)).isSome ↔ shard = "ab" := by
  by_cases hshard : shard = "ab"
  · subst hshard
    exact iff_of_true rfl rfl
  · refine iff_of_false ?_ hshard
    simp [sampleWriting, sampleCreated, sampleDirectories, sampleRoot, CacheTree.stampDirectory,
      CacheTree.empty, hshard]

theorem sampleWriting_names (other : CacheName) :
    (sampleWriting.store.entry other).isSome ↔ other = .temporary sampleKey 7 := by
  by_cases hother : other = .temporary sampleKey 7
  · subst hother
    exact iff_of_true rfl rfl
  · refine iff_of_false ?_ hother
    have hnone : sampleWriting.store.entry other = none := update_of_ne hother _ _
    simp [hnone]

theorem samplePublished_shards (shard : String) :
    (samplePublished.directory (.shard shard)).isSome ↔ shard = "ab" := by
  rw [← sampleWriting_shards shard]
  by_cases hshard : shard = "ab"
  · subst hshard
    exact iff_of_true rfl rfl
  · simp [samplePublished, CacheTree.stampDirectory, hshard]

theorem samplePublished_names (other : CacheName) :
    (samplePublished.store.entry other).isSome ↔ other = .published sampleKey := by
  by_cases hother : other = .published sampleKey
  · subst hother
    exact iff_of_true rfl rfl
  · refine iff_of_false ?_ hother
    have hdropped : samplePublished.store.entry other =
        update sampleWriting.store.entry (.temporary sampleKey 7) none other :=
      update_of_ne hother _ _
    by_cases htemporary : other = .temporary sampleKey 7
    · rw [hdropped, htemporary, update_self]
      simp
    · have habsent := (sampleWriting_names other).not.mpr htemporary
      rwa [hdropped, update_of_ne htemporary]

/-- A temporary file renamed between its listing and its inspection. -/
theorem prune_fails_sample : ∃ trace error final,
    cache.Runs (pruneModuleSummaryCache 1000 0 0) .empty trace (.error error) final := by
  have hshards : ∀ shard, ((sampleWriting.stampDirectory .root).directory
      (.shard shard)).isSome ↔ shard = "ab" := sampleWriting_shards
  have hnames : Performs (.listShard "ab") _ [.temporary sampleKey 7]
      ((sampleWriting.stampDirectory .root).stampDirectory (.shard "ab")) :=
    sample_listShard sampleWriting_names rfl
  have hrename : ((sampleWriting.stampDirectory .root).stampDirectory (.shard "ab")).store.rename
      (.temporary sampleKey 7) (.published sampleKey) = some samplePublished.store := rfl
  apply Exists.intro; apply Exists.intro; apply Exists.intro
  apply Runs.after_others sampleWriting_reach
  apply Runs.perform (show Performs (.lookupDirectory .root) _ true _ from ⟨rfl, rfl⟩)
  apply Runs.perform (performs_secureDirectory _ .root)
  apply Runs.perform (show Performs (.inspectDirectory .root) _ 2 _ from ⟨rfl, rfl⟩)
  apply Runs.perform (sample_listRoot hshards)
  apply Runs.perform (show Performs (.recheckDirectory .root 2) _ (some 2) _ from ⟨rfl, rfl⟩)
  apply Runs.perform (show Performs (.lookupDirectory (.shard "ab")) _ true _ from ⟨rfl, rfl⟩)
  apply Runs.perform (performs_secureDirectory _ (.shard "ab"))
  apply Runs.perform (show Performs (.inspectDirectory (.shard "ab")) _ 2 _ from ⟨rfl, rfl⟩)
  apply Runs.perform hnames
  apply Runs.others (Others.publish hrename)
  apply Runs.perform (show Performs (.inspectChild _) _ none _ from ⟨rfl, rfl⟩)
  exact Runs.fail

/-- A summary evicted while its bytes are read. -/
theorem read_fails_sample : ∃ trace error final,
    cache.Runs (readModuleSummaryCache (.published sampleKey)) .empty trace (.error error)
      final := by
  have hunlink : samplePublished.store.unlink (.published sampleKey) =
      some ((samplePublished.store.dropEntry (.published sampleKey)).touch 0) := rfl
  have hbytes : Performs (.readFile 0 0 3) samplePublished [1, 2, 3] samplePublished :=
    ⟨List.prefix_rfl, le_rfl, by simp, rfl⟩
  apply Exists.intro; apply Exists.intro; apply Exists.intro
  apply Runs.after_others (sampleWriting_reach.tail samplePublished_step)
  apply Runs.perform (show Performs (.lookup (.published sampleKey)) _ (some ⟨0, 3, 2, 5⟩) _
    from ⟨rfl, rfl⟩)
  apply Runs.perform (show Performs (.openFile (.published sampleKey)) _ (some 0) _
    from ⟨rfl, rfl⟩)
  apply Runs.perform (show Performs (.inspectFile 0) _ ⟨0, 3, 2, 5⟩ _ from ⟨rfl, rfl⟩)
  apply Runs.perform hbytes
  apply Runs.others (Others.remove hunlink)
  apply Runs.perform (show Performs (.reinspectFile 0) _ ⟨0, 3, 3, 5⟩ _ from ⟨rfl, rfl⟩)
  exact Runs.fail

/-- A lookup of the sample summary. -/
theorem read_succeeds_sample : ∃ trace final,
    cache.Runs (readModuleSummaryCache (.published sampleKey)) .empty trace
      (.ok (some [1, 2, 3])) final ∧ ReadUndisturbed (.published sampleKey) trace := by
  have hbytes : Performs (.readFile 0 0 3) samplePublished [1, 2, 3] samplePublished :=
    ⟨List.prefix_rfl, le_rfl, by simp, rfl⟩
  apply Exists.intro; apply Exists.intro
  constructor
  · apply Runs.after_others (sampleWriting_reach.tail samplePublished_step)
    apply Runs.perform (show Performs (.lookup (.published sampleKey)) _ (some ⟨0, 3, 2, 5⟩) _
      from ⟨rfl, rfl⟩)
    apply Runs.perform (show Performs (.openFile (.published sampleKey)) _ (some 0) _
      from ⟨rfl, rfl⟩)
    apply Runs.perform (show Performs (.inspectFile 0) _ ⟨0, 3, 2, 5⟩ _ from ⟨rfl, rfl⟩)
    apply Runs.perform hbytes
    apply Runs.perform (show Performs (.reinspectFile 0) _ ⟨0, 3, 2, 5⟩ _ from ⟨rfl, rfl⟩)
    apply Runs.perform (show Performs (.recheck (.published sampleKey)) _ (some ⟨0, 3, 2, 5⟩) _
      from ⟨rfl, rfl⟩)
    exact Runs.done
  · constructor
    · intro looked file hlooked hentry
      obtain rfl : looked = samplePublished := by simpa using hlooked
      obtain rfl : 0 = file := Option.some.inj hentry
      decide
    all_goals simp +contextual

/-- A prune that removes the sample summary for its size. -/
theorem prune_succeeds_sample : ∃ trace result final,
    cache.Runs (pruneModuleSummaryCache 2 1000 20) .empty trace (.ok result) final ∧
      PruneUndisturbed 2 trace ∧ removed trace = [.published sampleKey] := by
  have hshards : ∀ shard, ((samplePublished.stampDirectory .root).directory
      (.shard shard)).isSome ↔ shard = "ab" := samplePublished_shards
  have hnames : Performs (.listShard "ab") _ [.published sampleKey] sampleListed :=
    sample_listShard samplePublished_names rfl
  have hremove : Performs (.removeFile (.published sampleKey)) sampleListed true sampleRemoved :=
    ⟨rfl, rfl⟩
  have hemptied : ∀ shard, ((sampleRemoved.stampDirectory .root).directory
      (.shard shard)).isSome ↔ shard = "ab" := by
    intro shard
    rw [← samplePublished_shards shard]
    by_cases hshard : shard = "ab"
    · subst hshard
      exact iff_of_true rfl rfl
    · simp [sampleRemoved, sampleListed, CacheTree.stampDirectory, hshard]
  have hgone : ∀ name, sampleRelisted.store.entry name = none := by
    intro name
    have hentry : sampleRelisted.store.entry name =
        update samplePublished.store.entry (.published sampleKey) none name := rfl
    by_cases hname : name = .published sampleKey
    · rw [hentry, hname, update_self]
    · rw [hentry, update_of_ne hname]
      exact Option.not_isSome_iff_eq_none.mp ((samplePublished_names name).not.mpr hname)
  have hnone : Performs (.listShard "ab") sampleRelisted [] sampleRelisted :=
    ⟨by simp, fun name => by simp [hgone], rfl⟩
  apply Exists.intro; apply Exists.intro; apply Exists.intro
  constructor
  · apply Runs.after_others (sampleWriting_reach.tail samplePublished_step)
    apply Runs.perform (show Performs (.lookupDirectory .root) _ true _ from ⟨rfl, rfl⟩)
    apply Runs.perform (performs_secureDirectory _ .root)
    apply Runs.perform (show Performs (.inspectDirectory .root) _ 2 _ from ⟨rfl, rfl⟩)
    apply Runs.perform (sample_listRoot hshards)
    apply Runs.perform (show Performs (.recheckDirectory .root 2) _ (some 2) _ from ⟨rfl, rfl⟩)
    apply Runs.perform (show Performs (.lookupDirectory (.shard "ab")) _ true _ from ⟨rfl, rfl⟩)
    apply Runs.perform (performs_secureDirectory _ (.shard "ab"))
    apply Runs.perform (show Performs (.inspectDirectory (.shard "ab")) _ 3 _ from ⟨rfl, rfl⟩)
    apply Runs.perform hnames
    apply Runs.perform (show Performs (.inspectChild _) _ (some ⟨0, 3, 2, 5⟩) _ from ⟨rfl, rfl⟩)
    apply Runs.perform (show Performs (.recheckDirectory (.shard "ab") 3) _ (some 3) _
      from ⟨rfl, rfl⟩)
    apply Runs.perform hremove
    apply Runs.perform (show Performs (.lookupDirectory .root) _ true _ from ⟨rfl, rfl⟩)
    apply Runs.perform (performs_secureDirectory _ .root)
    apply Runs.perform (show Performs (.inspectDirectory .root) _ 3 _ from ⟨rfl, rfl⟩)
    apply Runs.perform (sample_listRoot hemptied)
    apply Runs.perform (show Performs (.recheckDirectory .root 3) _ (some 3) _ from ⟨rfl, rfl⟩)
    apply Runs.perform (show Performs (.lookupDirectory (.shard "ab")) _ true _ from ⟨rfl, rfl⟩)
    apply Runs.perform (performs_secureDirectory _ (.shard "ab"))
    apply Runs.perform (show Performs (.inspectDirectory (.shard "ab")) _ 5 _ from ⟨rfl, rfl⟩)
    apply Runs.perform hnone
    apply Runs.perform (show Performs (.recheckDirectory (.shard "ab") 5) _ (some 5) _
      from ⟨rfl, rfl⟩)
    exact Runs.done
  · refine ⟨⟨by decide, ?_, ?_, ?_⟩, rfl⟩
    · intro name tree hmem
      obtain ⟨rfl, rfl⟩ : name = .published sampleKey ∧ tree = sampleListed := by
        simpa using hmem
      simp [sampleListed, samplePublished, CacheTree.stampDirectory, FileStore.setEntry]
    · intro key tree hmem
      obtain ⟨rfl, rfl⟩ : key = sampleKey ∧ tree = sampleListed := by simpa using hmem
      simp [sampleListed, samplePublished, CacheTree.stampDirectory, FileStore.setEntry]
    · exact Nat.zero_le 2

end ConvexWasm.Compiler.SummaryCache
