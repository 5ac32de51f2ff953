import ConvexWasm.Compiler.SummaryCacheListing

/-!
# A prune among other compilers

Between its two passes over the tree a prune removes what its first pass
listed: stale temporary files, expired summaries, and then the oldest of the
rest until the bytes it still counts fit.  A summary that another compiler
removes first keeps being counted.
-/

namespace ConvexWasm.Compiler.SummaryCache

open List Program Sharing

section Observed

/-- The names that a trace has removed. -/
def removed (trace : Trace) : List CacheName :=
  trace.filterMap fun observation =>
    match observation.operation with
    | .removeFile name => (observation.state.store.entry name).map fun _ => name
    | _ => none

/-- Every removal of a summary finds it. -/
def RemovalsFound (trace : Trace) : Prop :=
  ∀ key tree, ⟨.removeFile (.published key), tree⟩ ∈ trace →
    tree.store.entry (.published key) ≠ none

def opensPass (observation : Observation CacheTree Operation) : Bool :=
  decide (observation.operation = .lookupDirectory .root)

/-- What a prune observes up to its second look at the root of the cache. -/
def firstPass (trace : Trace) : Trace :=
  trace.take 1 ++ (trace.drop 1).takeWhile fun observation => !opensPass observation

def secondPass (trace : Trace) : Trace :=
  (trace.drop 1).dropWhile fun observation => !opensPass observation

variable {before later : Trace}

@[simp]
theorem removed_append : removed (before ++ later) = removed before ++ removed later :=
  filterMap_append

theorem removalsFound_append :
    RemovalsFound (before ++ later) ↔ RemovalsFound before ∧ RemovalsFound later := by
  simp only [RemovalsFound, mem_append]
  constructor
  · exact fun h => ⟨fun key tree hmem => h key tree (.inl hmem),
      fun key tree hmem => h key tree (.inr hmem)⟩
  · rintro ⟨hbefore, hlater⟩ key tree (hmem | hmem)
    · exact hbefore key tree hmem
    · exact hlater key tree hmem

variable {name : CacheName} {tree : CacheTree}

theorem removed_found {file : ℕ} (hentry : tree.store.entry name = some file) :
    removed (⟨.removeFile name, tree⟩ :: later) = name :: removed later := by
  simp [removed, hentry]

theorem removed_gone (hentry : tree.store.entry name = none) :
    removed (⟨.removeFile name, tree⟩ :: later) = removed later := by
  simp [removed, hentry]

theorem removed_of_within (hwithin : ∀ observation ∈ before, Within observation) :
    removed before = [] := by
  rw [removed, filterMap_eq_nil_iff]
  intro observation hmem
  obtain ⟨-, hother⟩ := hwithin observation hmem
  cases hoperation : observation.operation with
  | removeFile name => exact absurd hoperation (hother name)
  | _ => rfl

/-- A prune's trace splits at its second look at the root. -/
theorem firstPass_eq {opening : Observation CacheTree Operation} {middle second : Trace}
    (hmiddle : ∀ observation ∈ middle, opensPass observation = false)
    (hsecond : ∀ observation rest, second = observation :: rest → opensPass observation = true) :
    firstPass (opening :: (middle ++ second)) = opening :: middle ∧
      secondPass (opening :: (middle ++ second)) = second := by
  have hall : ∀ observation ∈ middle, (!opensPass observation) = true := by simpa using hmiddle
  have htake : second.takeWhile (fun observation => !opensPass observation) = [] := by
    cases second with
    | nil => rfl
    | cons observation rest => simp [hsecond observation rest rfl]
  have hdrop : second.dropWhile (fun observation => !opensPass observation) = second := by
    cases second with
    | nil => rfl
    | cons observation rest => simp [hsecond observation rest rfl]
  constructor
  · simp only [firstPass, take_succ_cons, take_zero, drop_succ_cons,
      drop_zero, takeWhile_append_of_pos hall, htake]
    simp
  · simp only [secondPass, drop_succ_cons, drop_zero]
    rw [dropWhile_append_of_pos hall, hdrop]

end Observed

/-- The trace consists of the removals of these names. -/
def Removals (names : List CacheName) (trace : Trace) : Prop :=
  trace.map (·.operation) = names.map Operation.removeFile

section Removals

variable {names more : List CacheName} {trace later : Trace}

theorem Removals.append (hfirst : Removals names trace) (hlater : Removals more later) :
    Removals (names ++ more) (trace ++ later) := by
  rw [Removals, map_append, map_append, hfirst, hlater]

variable (hremovals : Removals names trace)
include hremovals

theorem Removals.operation :
    ∀ observation ∈ trace, ∃ name ∈ names, observation.operation = .removeFile name := by
  intro observation hmem
  have hoperation := mem_map_of_mem (f := (·.operation)) hmem
  rw [hremovals, mem_map] at hoperation
  obtain ⟨name, hname, heq⟩ := hoperation
  exact ⟨name, hname, heq.symm⟩

/-- Only names that were to be removed are removed. -/
theorem Removals.removed_sublist : (removed trace).Sublist names := by
  induction trace generalizing names with
  | nil =>
    obtain rfl : names = [] := by simpa [Removals] using hremovals.symm
    exact .slnil
  | cons observation later ih =>
    cases names with
    | nil => simp [Removals] at hremovals
    | cons name more =>
      obtain ⟨operation, tree⟩ := observation
      obtain ⟨rfl, hlater⟩ : operation = .removeFile name ∧ Removals more later := by
        simpa [Removals] using hremovals
      cases hentry : tree.store.entry name with
      | none =>
        rw [removed_gone hentry]
        exact (ih hlater).cons name
      | some file =>
        rw [removed_found hentry]
        exact (ih hlater).cons_cons name

/-- Summaries that are all found are all removed. -/
theorem Removals.removed_eq (hpublished : ∀ name ∈ names, name.isTemporary = false)
    (hfound : RemovalsFound trace) : removed trace = names := by
  induction trace generalizing names with
  | nil =>
    obtain rfl : names = [] := by simpa [Removals] using hremovals.symm
    rfl
  | cons observation later ih =>
    cases names with
    | nil => simp [Removals] at hremovals
    | cons name more =>
      obtain ⟨operation, tree⟩ := observation
      obtain ⟨rfl, hlater⟩ : operation = .removeFile name ∧ Removals more later := by
        simpa [Removals] using hremovals
      rw [← singleton_append, removalsFound_append] at hfound
      obtain ⟨hname, hmore⟩ := forall_mem_cons.mp hpublished
      cases name with
      | temporary key pid => cases hname
      | published key =>
        have hentry := hfound.1 key tree (mem_singleton.mpr rfl)
        obtain ⟨file, hfile⟩ := Option.ne_none_iff_exists'.mp hentry
        rw [removed_found hfile, ih hlater hmore hfound.2]

end Removals

variable {state final : CacheTree} {trace : Trace}

/-- A removal succeeds exactly when it finds the name. -/
theorem removal_runs {Result : Type} {entry : ModuleSummaryCacheEntry}
    {next : Bool → CacheProgram Result} {outcome : Except ErrorChain Result}
    (hruns : cache.Runs (removeModuleSummaryCacheEntry entry >>= next) state trace outcome final) :
    ∃ tree changed later, trace = ⟨.removeFile entry.path, tree⟩ :: later ∧
      cache.Runs (next (tree.store.entry entry.path).isSome) changed later outcome final := by
  obtain ⟨tree, found, changed, later, rfl, -, hperforms, hlater⟩ := Runs.of_perform hruns
  refine ⟨tree, changed, later, rfl, ?_⟩
  have hfound : found = (tree.store.entry entry.path).isSome := by
    have hremoved : Performs (.removeFile entry.path) tree found changed := hperforms
    rw [Performs] at hremoved
    cases hunlink : tree.store.unlink entry.path with
    | none =>
      rw [hunlink] at hremoved
      rw [hremoved.1, FileStore.unlink_eq_none_iff.mp hunlink]
      rfl
    | some store =>
      rw [hunlink] at hremoved
      have hentry : tree.store.entry entry.path ≠ none := fun hnone => by
        rw [FileStore.unlink_eq_none_iff.mpr hnone] at hunlink
        cases hunlink
      rw [hremoved.1]
      exact (Option.isSome_iff_ne_none.mpr hentry).symm
  rw [← hfound]
  exact hlater

/-- Temporary files beyond their age. -/
def staleTemporary (now : ℕ) (entry : ModuleSummaryCacheEntry) : Bool :=
  entry.temporary && olderThan now moduleSummaryTempMaxAge entry

def publishedEntries (entries : List ModuleSummaryCacheEntry) : List ModuleSummaryCacheEntry :=
  entries.filter fun entry => !entry.temporary

section Loops

variable {now maxAge maxBytes : ℕ} {entries kept : List ModuleSummaryCacheEntry}
  {result : ModuleSummaryCacheGc}

variable {outcome : Except ErrorChain (ModuleSummaryCacheGc × List ModuleSummaryCacheEntry)}

theorem removeStaleTemporaries_spec
    (hruns : cache.Runs (removeStaleTemporaries now entries result kept) state trace outcome
      final) :
    Removals ((entries.filter (staleTemporary now)).map (·.path)) trace ∧
      ∃ after, after.remainingBytes = result.remainingBytes ∧
        outcome = .ok (after, kept ++ publishedEntries entries) := by
  induction entries generalizing result kept state trace with
  | nil =>
    obtain ⟨rfl, rfl, -⟩ := Runs.of_done hruns
    exact ⟨rfl, result, rfl, by simp [publishedEntries]⟩
  | cons entry later ih =>
    rw [removeStaleTemporaries] at hruns
    by_cases htemporary : entry.temporary
    · rw [if_pos htemporary] at hruns
      have hpublished : publishedEntries (entry :: later) = publishedEntries later := by
        simp [publishedEntries, htemporary]
      rw [hpublished]
      by_cases hstale : olderThan now moduleSummaryTempMaxAge entry
      · rw [if_pos hstale] at hruns
        obtain ⟨tree, changed, rest, rfl, hrest⟩ := removal_runs hruns
        obtain ⟨hremovals, after, hbytes, houtcome⟩ := ih hrest
        have hfilter : (entry :: later).filter (staleTemporary now) =
            entry :: later.filter (staleTemporary now) :=
          filter_cons_of_pos (by simp [staleTemporary, htemporary, hstale])
        refine ⟨?_, after, ?_, houtcome⟩
        · rw [hfilter, Removals, map_cons, hremovals]
          rfl
        · rw [hbytes]
          split <;> rfl
      · rw [if_neg hstale] at hruns
        have hfilter : (entry :: later).filter (staleTemporary now) =
            later.filter (staleTemporary now) :=
          filter_cons_of_neg (by simp [staleTemporary, hstale])
        rw [hfilter]
        exact ih hruns
    · rw [if_neg htemporary] at hruns
      obtain ⟨hremovals, after, hbytes, houtcome⟩ := ih hruns
      have hfilter : (entry :: later).filter (staleTemporary now) =
          later.filter (staleTemporary now) :=
        filter_cons_of_neg (by simp [staleTemporary, htemporary])
      rw [hfilter]
      refine ⟨hremovals, after, hbytes, ?_⟩
      rw [houtcome, publishedEntries, publishedEntries, filter_cons_of_pos (by simpa using
        htemporary), append_assoc, singleton_append]

theorem removeExpired_spec (hentries : ∀ entry ∈ entries, entry.path.isTemporary = false)
    (hruns : cache.Runs (removeExpired now maxAge entries result kept) state trace outcome final) :
    Removals ((entries.filter (olderThan now maxAge)).map (·.path)) trace ∧
      ∃ after retained, after.remainingBytes = result.remainingBytes ∧
        outcome = .ok (after, kept ++ retained) ∧ retained.Sublist entries ∧
        (RemovalsFound trace → retained = entries.filter fun entry => !olderThan now maxAge entry) := by
  induction entries generalizing result kept state trace with
  | nil =>
    obtain ⟨rfl, rfl, -⟩ := Runs.of_done hruns
    exact ⟨rfl, result, [], rfl, by simp, .slnil, fun _ => rfl⟩
  | cons entry later ih =>
    obtain ⟨hpath, hlater⟩ := forall_mem_cons.mp hentries
    rw [removeExpired] at hruns
    by_cases hold : olderThan now maxAge entry
    · rw [if_pos hold] at hruns
      obtain ⟨tree, changed, rest, rfl, hrest⟩ := removal_runs hruns
      have hfilter : (entry :: later).filter (olderThan now maxAge) =
          entry :: later.filter (olderThan now maxAge) := filter_cons_of_pos hold
      have hkeeps : ((entry :: later).filter fun entry => !olderThan now maxAge entry) =
          later.filter fun entry => !olderThan now maxAge entry :=
        filter_cons_of_neg (by simp [hold])
      rw [hfilter, hkeeps]
      cases hentry : tree.store.entry entry.path with
      | none =>
        rw [hentry] at hrest
        obtain ⟨hremovals, after, retained, hbytes, houtcome, hsublist, -⟩ := ih hlater hrest
        refine ⟨by rw [Removals, map_cons, hremovals]; rfl, after, entry :: retained,
          hbytes, ?_, hsublist.cons_cons entry, ?_⟩
        · rw [houtcome, append_assoc, singleton_append]
        · intro hfound
          cases hname : entry.path with
          | temporary key pid =>
            rw [hname] at hpath
            cases hpath
          | published key =>
            rw [hname] at hentry hfound
            exact absurd hentry (hfound key tree mem_cons_self)
      | some file =>
        rw [hentry] at hrest
        obtain ⟨hremovals, after, retained, hbytes, houtcome, hsublist, hretained⟩ :=
          ih hlater hrest
        refine ⟨by rw [Removals, map_cons, hremovals]; rfl, after, retained, hbytes,
          houtcome, hsublist.cons entry, fun hfound => hretained ?_⟩
        exact fun key tree hmem => hfound key tree (mem_cons_of_mem _ hmem)
    · rw [if_neg hold] at hruns
      obtain ⟨hremovals, after, retained, hbytes, houtcome, hsublist, hretained⟩ :=
        ih hlater hruns
      have hfilter : (entry :: later).filter (olderThan now maxAge) =
          later.filter (olderThan now maxAge) := filter_cons_of_neg hold
      have hkeeps : ((entry :: later).filter fun entry => !olderThan now maxAge entry) =
          entry :: later.filter fun entry => !olderThan now maxAge entry :=
        filter_cons_of_pos (by simp [hold])
      rw [hfilter, hkeeps]
      refine ⟨hremovals, after, entry :: retained, hbytes, ?_, hsublist.cons_cons entry, ?_⟩
      · rw [houtcome, append_assoc, singleton_append]
      · exact fun hfound => congrArg _ (hretained hfound)

@[simp]
theorem totalBytes_cons {entry : ModuleSummaryCacheEntry} :
    totalBytes (entry :: entries) = entry.bytes + totalBytes entries := by
  simp [totalBytes]

/-- The bytes counted cover those still to come, so their count never underflows. -/
theorem removeBeyondLimit_spec {counted : ℕ} {outcome : Except ErrorChain ModuleSummaryCacheGc}
    (hentries : ∀ entry ∈ entries, entry.path.isTemporary = false)
    (hcounted : totalBytes entries ≤ counted)
    (hruns : cache.Runs (removeBeyondLimit maxBytes entries counted result) state trace outcome
      final) :
    ∃ count, Removals ((entries.take count).map (·.path)) trace ∧
      (∃ after, after.remainingBytes = result.remainingBytes ∧ outcome = .ok after) ∧
      (RemovalsFound trace → ∀ fewer < count,
        maxBytes < counted - totalBytes (entries.take fewer)) := by
  induction entries generalizing counted result state trace with
  | nil =>
    obtain ⟨rfl, rfl, -⟩ := Runs.of_done hruns
    exact ⟨0, rfl, ⟨result, rfl, rfl⟩, by simp⟩
  | cons entry later ih =>
    obtain ⟨hpath, hlater⟩ := forall_mem_cons.mp hentries
    rw [totalBytes_cons] at hcounted
    rw [removeBeyondLimit] at hruns
    by_cases hfits : counted ≤ maxBytes
    · rw [if_pos hfits] at hruns
      obtain ⟨rfl, rfl, -⟩ := Runs.of_done hruns
      exact ⟨0, rfl, ⟨result, rfl, rfl⟩, by simp⟩
    · rw [if_neg hfits] at hruns
      obtain ⟨tree, changed, rest, rfl, hrest⟩ := removal_runs hruns
      cases hentry : tree.store.entry entry.path with
      | none =>
        rw [hentry] at hrest
        obtain ⟨count, hremovals, hafter, -⟩ := ih hlater (by omega) hrest
        refine ⟨count + 1, ?_, hafter, fun hfound => ?_⟩
        · rw [take_succ_cons, Removals, map_cons, hremovals]
          rfl
        · cases hname : entry.path with
          | temporary key pid =>
            rw [hname] at hpath
            cases hpath
          | published key =>
            rw [hname] at hentry hfound
            exact absurd hentry (hfound key tree mem_cons_self)
      | some file =>
        rw [hentry] at hrest
        obtain ⟨-, hcontinues⟩ | ⟨hunderflow, -, -⟩ := Runs.of_ensure hrest
        · obtain ⟨count, hremovals, hafter, hneeded⟩ := ih hlater (by omega) hcontinues
          refine ⟨count + 1, ?_, hafter, fun hfound fewer hfewer => ?_⟩
          · rw [take_succ_cons, Removals, map_cons, hremovals]
            rfl
          · cases fewer with
            | zero => simpa [totalBytes] using not_le.mp hfits
            | succ fewer =>
              have hrestFound : RemovalsFound rest := fun key tree hmem =>
                hfound key tree (mem_cons_of_mem _ hmem)
              have hmore := hneeded hrestFound fewer (by omega)
              rw [take_succ_cons, totalBytes_cons]
              omega
        · exact absurd (of_decide_eq_false hunderflow) (by omega)

end Loops

variable {entry : ModuleSummaryCacheEntry}

theorem inspected_temporary (hentry : entry ∈ inspected trace) :
    entry.temporary = entry.path.isTemporary := by
  obtain ⟨⟨operation, tree⟩, -, hsome⟩ := mem_filterMap.mp hentry
  cases operation with
  | inspectChild name =>
    obtain ⟨view, -, rfl⟩ := Option.map_eq_some_iff.mp hsome
    rfl
  | _ => cases hsome

theorem publishedEntries_path (hentry : entry ∈ publishedEntries (enumerated trace)) :
    entry.path.isTemporary = false := by
  obtain ⟨henumerated, htemporary⟩ := mem_filter.mp hentry
  rw [enumerated] at henumerated
  split at henumerated
  · rw [← inspected_temporary henumerated]
    simpa using htemporary
  · cases henumerated

theorem countRemaining_bytes {entries : List ModuleSummaryCacheEntry}
    {result : ModuleSummaryCacheGc} :
    (entries.foldl countRemaining result).remainingBytes =
      result.remainingBytes + totalBytes (publishedEntries entries) := by
  induction entries generalizing result with
  | nil => rfl
  | cons entry later ih =>
    rw [foldl_cons, ih, countRemaining]
    by_cases htemporary : entry.temporary
    · simp [htemporary, publishedEntries]
    · simp [htemporary, publishedEntries, Nat.add_assoc]

/-- The summaries that are not beyond their age, the oldest first. -/
def remainingEntries (maxAge now : ℕ) (entries : List ModuleSummaryCacheEntry) :
    List ModuleSummaryCacheEntry :=
  oldestFirst ((publishedEntries entries).filter fun entry => !olderThan now maxAge entry)

/-- The prune succeeds, and removes only stale temporary files, expired
summaries and as many of the oldest others as the limit demands. -/
def PruneTolerated (maxBytes maxAge now : ℕ) (trace : Trace)
    (outcome : Except ErrorChain ModuleSummaryCacheGc) : Prop :=
  (∃ result, outcome = .ok result) ∧ ∃ stale expired count,
    removed trace = stale ++ expired ++
      ((remainingEntries maxAge now (enumerated (firstPass trace))).take count).map (·.path) ∧
    stale.Sublist (((enumerated (firstPass trace)).filter (staleTemporary now)).map (·.path)) ∧
    expired.Sublist (((publishedEntries (enumerated (firstPass trace))).filter
      (olderThan now maxAge)).map (·.path)) ∧
    ∀ fewer < count, maxBytes < totalBytes (remainingEntries maxAge now
        (enumerated (firstPass trace))) -
      totalBytes ((remainingEntries maxAge now (enumerated (firstPass trace))).take fewer)

/-- No file goes between its listing and its inspection, no other compiler
removes a summary first, and what the others publish meanwhile fits the limit. -/
structure PruneUndisturbed (maxBytes : ℕ) (trace : Trace) : Prop where
  positive : 0 < maxBytes
  found : Found trace
  removals : RemovalsFound trace
  fits : totalBytes (publishedEntries (enumerated (secondPass trace))) ≤ maxBytes

/-- The parts of a prune that has a limit and loses no file while it lists. -/
structure PruneParts (maxBytes maxAge now : ℕ) (trace : Trace)
    (outcome : Except ErrorChain ModuleSummaryCacheGc) (stale expired beyond : Trace)
    (retained : List ModuleSummaryCacheEntry) (count : ℕ) : Prop where
  removed_eq : removed trace = removed stale ++ removed expired ++ removed beyond
  removals : RemovalsFound trace → RemovalsFound expired ∧ RemovalsFound beyond
  stale_names : Removals (((enumerated (firstPass trace)).filter (staleTemporary now)).map
    (·.path)) stale
  expired_names : Removals (((publishedEntries (enumerated (firstPass trace))).filter
    (olderThan now maxAge)).map (·.path)) expired
  retained_eq : RemovalsFound expired →
    retained = (publishedEntries (enumerated (firstPass trace))).filter
      fun entry => !olderThan now maxAge entry
  retained_path : ∀ entry ∈ retained, entry.path.isTemporary = false
  beyond_names : Removals (((oldestFirst retained).take count).map (·.path)) beyond
  needed : RemovalsFound beyond → ∀ fewer < count,
    maxBytes < totalBytes (oldestFirst retained) - totalBytes ((oldestFirst retained).take fewer)
  succeeds : (∃ result, outcome = .ok result) ↔
    totalBytes (publishedEntries (enumerated (secondPass trace))) ≤ maxBytes

variable {names : List CacheName}

theorem Removals.found (hremovals : Removals names trace) : Found trace := by
  refine found_of_no_inspection fun observation hmem name => ?_
  obtain ⟨other, -, hoperation⟩ := hremovals.operation observation hmem
  simp [hoperation]

theorem Removals.opensPass (hremovals : Removals names trace) :
    ∀ observation ∈ trace, opensPass observation = false := by
  intro observation hmem
  obtain ⟨other, -, hoperation⟩ := hremovals.operation observation hmem
  simp [SummaryCache.opensPass, hoperation]

theorem Within.opensPass (hwithin : ∀ observation ∈ trace, Within observation) :
    ∀ observation ∈ trace, opensPass observation = false := by
  intro observation hmem
  simpa [SummaryCache.opensPass] using (hwithin observation hmem).1

/-- Removals change nothing about the entries that were listed before them. -/
theorem Removals.enumerated_append {listing : Trace} (hremovals : Removals names trace) :
    enumerated (listing ++ trace) = enumerated listing := by
  have hinspected : inspected trace = [] := by
    rw [inspected, filterMap_eq_nil_iff]
    intro observation hmem
    obtain ⟨name, -, hoperation⟩ := hremovals.operation observation hmem
    rw [hoperation]
  have hunchanged : unchanged trace = true := by
    rw [unchanged, all_eq_true]
    intro observation hmem
    obtain ⟨name, -, hoperation⟩ := hremovals.operation observation hmem
    rw [hoperation]
  rw [enumerated, unchanged_append, inspected_append, hinspected, hunchanged, Bool.and_true,
    List.append_nil, enumerated]

theorem pass_parts {opening : CacheTree} {rest : Trace}
    (htrace : trace = ⟨.lookupDirectory .root, opening⟩ :: rest)
    (hwithin : ∀ observation ∈ rest, Within observation) : removed trace = [] := by
  have hopening : removed [⟨.lookupDirectory .root, opening⟩] = [] := rfl
  rw [htrace, ← singleton_append, removed_append, hopening, removed_of_within hwithin]
  rfl

variable {maxBytes maxAge now : ℕ} {outcome : Except ErrorChain ModuleSummaryCacheGc}

section

variable (hruns : cache.Runs (pruneModuleSummaryCache maxBytes maxAge now) state trace outcome
  final)
include hruns

/-- A prune lists the tree, removes, and lists the tree again. -/
theorem pruneParts_of_runs (hpositive : 0 < maxBytes) :
    (¬ Found trace ∧ ∃ error, outcome = .error error) ∨ Found trace ∧
      ∃ stale expired beyond retained count,
        PruneParts maxBytes maxAge now trace outcome stale expired beyond retained count := by
  obtain ⟨-, hruns⟩ | ⟨hzero, -, -⟩ := Runs.of_ensure hruns
  swap
  · exact absurd hpositive (of_decide_eq_false hzero)
  obtain ⟨error, rfl, hlisting⟩ | ⟨entries, _, listing, afterListing, rfl, hlisting, hremoving⟩ :=
    Runs.of_bind hruns
  · obtain ⟨-, ⟨_, -, hlost⟩ | ⟨-, houtcome⟩⟩ := moduleSummaryCacheEntries_spec hlisting
    · exact .inl ⟨hlost, error, rfl⟩
    · cases houtcome
  obtain ⟨⟨opening, listed, hlistingEq, hlisted⟩, ⟨_, herror, -⟩ | ⟨hlistingFound, houtcome⟩⟩ :=
    moduleSummaryCacheEntries_spec hlisting
  · cases herror
  cases houtcome
  obtain ⟨error, rfl, hstale⟩ | ⟨afterStale, _, stale, rest, rfl, hstale, hexpiring⟩ :=
    Runs.of_bind hremoving
  · obtain ⟨-, _, -, houtcome⟩ := removeStaleTemporaries_spec hstale
    cases houtcome
  obtain ⟨hstaleNames, counters, hcounters, houtcome⟩ := removeStaleTemporaries_spec hstale
  cases houtcome
  have hpublished : ∀ entry ∈ [] ++ publishedEntries (enumerated listing),
      entry.path.isTemporary = false := fun entry => publishedEntries_path
  obtain ⟨error, rfl, hexpired⟩ | ⟨afterExpired, _, expired, rest, rfl, hexpired, hlimiting⟩ :=
    Runs.of_bind hexpiring
  · obtain ⟨-, _, _, -, houtcome, -⟩ := removeExpired_spec hpublished hexpired
    cases houtcome
  obtain ⟨hexpiredNames, afterCounters, retained, hafterCounters, houtcome, hsublist, hretained⟩ :=
    removeExpired_spec hpublished hexpired
  cases houtcome
  have hretainedPath : ∀ entry ∈ retained, entry.path.isTemporary = false := fun entry hmem =>
    hpublished entry (hsublist.subset hmem)
  have horderedPath : ∀ entry ∈ oldestFirst retained, entry.path.isTemporary = false :=
    fun entry hmem => hretainedPath entry ((mem_insertionSort _).mp hmem)
  have hlimits : cache.Runs (removeBeyondLimit maxBytes (oldestFirst retained)
      (totalBytes (oldestFirst retained)) afterCounters >>= fun result =>
        moduleSummaryCacheEntries >>= fun remaining =>
          ensure (decide ((remaining.foldl countRemaining result).remainingBytes ≤ maxBytes)) _ >>=
            fun _ => pure (remaining.foldl countRemaining result)) _ rest outcome final := hlimiting
  obtain ⟨error, rfl, hbeyond⟩ | ⟨afterLimit, _, beyond, again, rfl, hbeyond, hchecking⟩ :=
    Runs.of_bind hlimits
  · obtain ⟨_, -, ⟨_, -, houtcome⟩, -⟩ := removeBeyondLimit_spec horderedPath le_rfl hbeyond
    cases houtcome
  obtain ⟨count, hbeyondNames, ⟨_, hlastCounters, houtcome⟩, hneeded⟩ :=
    removeBeyondLimit_spec horderedPath le_rfl hbeyond
  cases houtcome
  have hremovals := hstaleNames.append (hexpiredNames.append hbeyondNames)
  obtain ⟨error, rfl, hrelisting⟩ | ⟨remaining, _, relisting, last, rfl, hrelisting, hensuring⟩ :=
    Runs.of_bind hchecking
  · obtain ⟨-, ⟨_, -, hlost⟩ | ⟨-, houtcome⟩⟩ := moduleSummaryCacheEntries_spec hrelisting
    · refine .inl ⟨fun hfound => hlost ?_, error, rfl⟩
      simp only [found_append] at hfound
      exact hfound.2.2.2.2
    · cases houtcome
  obtain ⟨⟨reopening, relisted, hrelistingEq, hrelisted⟩,
    ⟨_, herror, -⟩ | ⟨hrelistingFound, houtcome⟩⟩ := moduleSummaryCacheEntries_spec hrelisting
  · cases herror
  cases houtcome
  have hbytes : ((enumerated relisting).foldl countRemaining afterLimit).remainingBytes =
      totalBytes (publishedEntries (enumerated relisting)) := by
    rw [countRemaining_bytes, hlastCounters, hafterCounters, hcounters, Nat.zero_add]
  have hend : last = [] ∧ ((∃ result, outcome = .ok result) ↔
      totalBytes (publishedEntries (enumerated relisting)) ≤ maxBytes) := by
    rw [← hbytes]
    obtain ⟨hfits, hdone⟩ | ⟨hexceeds, rfl, rfl⟩ := Runs.of_ensure hensuring
    · obtain ⟨rfl, rfl, -⟩ := Runs.of_done hdone
      exact ⟨rfl, iff_of_true ⟨_, rfl⟩ (of_decide_eq_true hfits)⟩
    · exact ⟨rfl, iff_of_false (fun ⟨_, houtcome⟩ => nomatch houtcome)
        (of_decide_eq_false hexceeds)⟩
  obtain ⟨rfl, hsucceeds⟩ := hend
  have htrace : listing ++ (stale ++ (expired ++ (beyond ++ (relisting ++ [])))) =
      ⟨.lookupDirectory .root, opening⟩ ::
        ((listed ++ (stale ++ (expired ++ beyond))) ++ relisting) := by
    rw [hlistingEq]
    simp
  have hmiddle : ∀ observation ∈ listed ++ (stale ++ (expired ++ beyond)),
      opensPass observation = false := by
    rw [forall_mem_append]
    exact ⟨Within.opensPass hlisted, hremovals.opensPass⟩
  have hreopens : ∀ observation rest, relisting = observation :: rest →
      opensPass observation = true := by
    rintro observation rest rfl
    cases hrelistingEq
    rfl
  have hfirst : firstPass (⟨.lookupDirectory .root, opening⟩ ::
        ((listed ++ (stale ++ (expired ++ beyond))) ++ relisting)) =
      ⟨.lookupDirectory .root, opening⟩ :: (listed ++ (stale ++ (expired ++ beyond))) :=
    (firstPass_eq hmiddle hreopens).1
  have hsecond : secondPass (⟨.lookupDirectory .root, opening⟩ ::
        ((listed ++ (stale ++ (expired ++ beyond))) ++ relisting)) = relisting :=
    (firstPass_eq hmiddle hreopens).2
  have hentries : enumerated (firstPass (listing ++ (stale ++ (expired ++ (beyond ++
      (relisting ++ [])))))) = enumerated listing := by
    rw [htrace, hfirst, ← cons_append, ← hlistingEq]
    exact hremovals.enumerated_append
  have hagain : secondPass (listing ++ (stale ++ (expired ++ (beyond ++
      (relisting ++ []))))) = relisting := by
    rw [htrace, hsecond]
  refine .inr ⟨?_, stale, expired, beyond, retained, count, ?_⟩
  · simp only [found_append]
    exact ⟨hlistingFound, hstaleNames.found, hexpiredNames.found, hbeyondNames.found,
      hrelistingFound, by simp [Found]⟩
  · refine ⟨?_, ?_, ?_, ?_, ?_, hretainedPath, hbeyondNames, hneeded, ?_⟩
    · simp [pass_parts hlistingEq hlisted, pass_parts hrelistingEq hrelisted]
    · intro hfound
      simp only [removalsFound_append] at hfound
      exact ⟨hfound.2.2.1, hfound.2.2.2.1⟩
    · rw [hentries]
      exact hstaleNames
    · rw [hentries]
      exact hexpiredNames
    · rw [hentries]
      exact hretained
    · rw [hagain]
      exact hsucceeds

/-- Undisturbed prunes do what they should. -/
theorem PruneUndisturbed.tolerated (hundisturbed : PruneUndisturbed maxBytes trace) :
    PruneTolerated maxBytes maxAge now trace outcome := by
  obtain ⟨hlost, -⟩ | ⟨-, stale, expired, beyond, retained, count, hparts⟩ :=
    pruneParts_of_runs hruns hundisturbed.positive
  · exact absurd hundisturbed.found hlost
  · obtain ⟨hexpired, hbeyond⟩ := hparts.removals hundisturbed.removals
    have hretained : oldestFirst retained =
        remainingEntries maxAge now (enumerated (firstPass trace)) := by
      rw [hparts.retained_eq hexpired, remainingEntries]
    have hbeyondPath : ∀ name ∈ ((oldestFirst retained).take count).map (·.path),
        name.isTemporary = false := by
      intro name hname
      obtain ⟨entry, hentry, rfl⟩ := mem_map.mp hname
      exact hparts.retained_path entry ((mem_insertionSort _).mp (mem_of_mem_take hentry))
    refine ⟨hparts.succeeds.mpr hundisturbed.fits, removed stale, removed expired, count, ?_,
      hparts.stale_names.removed_sublist, hparts.expired_names.removed_sublist, ?_⟩
    · rw [hparts.removed_eq, hparts.beyond_names.removed_eq hbeyondPath hbeyond, hretained]
    · rw [← hretained]
      exact hparts.needed hbeyond

/-- A prune with a limit succeeds exactly when it loses no file while it lists
and ends within its limit. -/
theorem prune_succeeds_iff (hpositive : 0 < maxBytes) :
    (∃ result, outcome = .ok result) ↔ Found trace ∧
      totalBytes (publishedEntries (enumerated (secondPass trace))) ≤ maxBytes := by
  obtain ⟨hlost, error, rfl⟩ | ⟨hfound, _, _, _, _, _, hparts⟩ :=
    pruneParts_of_runs hruns hpositive
  · exact iff_of_false (fun ⟨_, houtcome⟩ => nomatch houtcome) fun h => hlost h.1
  · rw [hparts.succeeds]
    exact ⟨fun hfits => ⟨hfound, hfits⟩, And.right⟩

end

end ConvexWasm.Compiler.SummaryCache
