import ConvexWasm.Compiler.SummaryCacheMaintenance

/-!
# Listing the summary cache among other compilers

A pass over the tree returns the entries it inspected, or none at all when it
finds a directory changed.  It fails exactly when a file it has listed is gone
by the time it is inspected.
-/

namespace ConvexWasm.Compiler.SummaryCache

open List Program Sharing

section Observed

/-- The entries that a trace has inspected. -/
def inspected (trace : Trace) : List ModuleSummaryCacheEntry :=
  trace.filterMap fun observation =>
    match observation.operation with
    | .inspectChild name => (observation.state.viewOf name).map fun view =>
      ⟨name, view.length, view.modified, name.isTemporary⟩
    | _ => none

/-- No directory was found changed after it was listed. -/
def unchanged (trace : Trace) : Bool :=
  trace.all fun observation =>
    match observation.operation with
    | .recheckDirectory directory before =>
      decide (observation.state.directory directory = some before)
    | _ => true

/-- The entries of a pass over the tree. -/
def enumerated (trace : Trace) : List ModuleSummaryCacheEntry :=
  if unchanged trace then inspected trace else []

/-- Every file listed is still there when it is inspected. -/
def Found (trace : Trace) : Prop :=
  ∀ name tree, ⟨.inspectChild name, tree⟩ ∈ trace → tree.store.entry name ≠ none

/-- Neither the beginning of a pass nor a removal. -/
def Within (observation : Observation CacheTree Operation) : Prop :=
  observation.operation ≠ .lookupDirectory .root ∧
    ∀ name, observation.operation ≠ .removeFile name

variable {before later : Trace}

@[simp]
theorem inspected_append : inspected (before ++ later) = inspected before ++ inspected later :=
  filterMap_append

@[simp]
theorem unchanged_append : unchanged (before ++ later) = (unchanged before && unchanged later) :=
  all_append

theorem found_append : Found (before ++ later) ↔ Found before ∧ Found later := by
  simp only [Found, mem_append]
  constructor
  · exact fun h => ⟨fun name tree hmem => h name tree (.inl hmem),
      fun name tree hmem => h name tree (.inr hmem)⟩
  · rintro ⟨hbefore, hlater⟩ name tree (hmem | hmem)
    · exact hbefore name tree hmem
    · exact hlater name tree hmem

theorem found_of_no_inspection
    (hno : ∀ observation ∈ before, ∀ name, observation.operation ≠ .inspectChild name) :
    Found before :=
  fun name _ hmem => absurd rfl (hno _ hmem name)

/-- Nothing is inspected and nothing found changed. -/
structure Quiet (trace : Trace) : Prop where
  found : Found trace
  unchanged : unchanged trace = true
  inspected : inspected trace = []

theorem Quiet.append (hbefore : Quiet before) (hlater : Quiet later) : Quiet (before ++ later) where
  found := found_append.mpr ⟨hbefore.found, hlater.found⟩
  unchanged := by rw [unchanged_append, hbefore.unchanged, hlater.unchanged, Bool.and_true]
  inspected := by rw [inspected_append, hbefore.inspected, hlater.inspected, append_nil]

/-- What comes after it counts. -/
theorem Quiet.then (hbefore : Quiet before) (later : Trace) :
    (Found (before ++ later) ↔ Found later) ∧
    SummaryCache.unchanged (before ++ later) = SummaryCache.unchanged later ∧
      SummaryCache.inspected (before ++ later) = SummaryCache.inspected later := by
  rw [found_append, unchanged_append, inspected_append, hbefore.unchanged, hbefore.inspected,
    Bool.true_and, nil_append]
  exact ⟨and_iff_right hbefore.found, rfl, rfl⟩

end Observed

variable {state final : CacheTree} {trace : Trace} {entries : List ModuleSummaryCacheEntry}

variable {outcome : Except ErrorChain (List ModuleSummaryCacheEntry)}

theorem inspectChildren_spec {names : List CacheName}
    (hruns : cache.Runs (inspectChildren names entries) state trace outcome final) :
    (∀ observation ∈ trace, ∃ name, observation.operation = .inspectChild name) ∧
      ((∃ error, outcome = .error error ∧ ¬ Found trace) ∨
        Found trace ∧ outcome = .ok (entries ++ inspected trace)) := by
  induction names generalizing entries state trace with
  | nil =>
    obtain ⟨rfl, rfl, -⟩ := Runs.of_done hruns
    exact ⟨by simp, .inr ⟨by simp [Found], by simp [inspected]⟩⟩
  | cons name later ih =>
    obtain ⟨found, view, tree, rest, rfl, -, ⟨rfl, rfl⟩, hrest⟩ := Runs.of_perform hruns
    cases hentry : tree.store.entry name with
    | none =>
      rw [CacheTree.viewOf, hentry] at hrest
      obtain ⟨rfl, rfl, -⟩ := Runs.of_fail hrest
      refine ⟨by simp, .inl ⟨_, rfl, fun hfound => ?_⟩⟩
      exact hfound name tree mem_cons_self hentry
    | some file =>
      rw [CacheTree.viewOf, hentry] at hrest
      obtain ⟨hoperations, hlater⟩ := ih hrest
      have hfirst : Found [⟨.inspectChild name, tree⟩] := by
        rintro other found hmem
        obtain ⟨rfl, rfl⟩ : other = name ∧ found = tree := by simpa using hmem
        rw [hentry]
        simp
      refine ⟨by simpa using hoperations, ?_⟩
      rw [← singleton_append, found_append, inspected_append]
      obtain ⟨error, houtcome, hlost⟩ | ⟨hfound, houtcome⟩ := hlater
      · exact .inl ⟨error, houtcome, fun h => hlost h.2⟩
      · refine .inr ⟨⟨hfirst, hfound⟩, ?_⟩
        rw [houtcome]
        simp [inspected, CacheTree.viewOf, hentry]

variable {directory : CacheDirectory}

theorem privateDirectory_spec {outcome : Except ErrorChain (Option ℕ)}
    (hruns : cache.Runs (privateModuleSummaryCacheDirectory directory) state trace outcome final) :
    Quiet trace ∧ (∃ tree rest, trace = ⟨.lookupDirectory directory, tree⟩ :: rest ∧
      ∀ observation ∈ rest, Within observation) ∧ ∃ stamp, outcome = .ok stamp := by
  obtain ⟨_, there, first, rest, rfl, -, ⟨hthere, rfl⟩, hruns⟩ := Runs.of_perform hruns
  cases there with
  | false =>
    obtain ⟨rfl, rfl, -⟩ := Runs.of_done hruns
    exact ⟨⟨found_of_no_inspection (by simp), rfl, rfl⟩, ⟨_, [], rfl, by simp⟩, _, rfl⟩
  | true =>
    obtain ⟨second, _, _, rest, rfl, -, -, hsecured⟩ := Runs.of_perform hruns
    obtain ⟨third, stamp, _, rest, rfl, -, -, hstamped⟩ := Runs.of_perform hsecured
    obtain ⟨rfl, rfl, -⟩ := Runs.of_done hstamped
    exact ⟨⟨found_of_no_inspection (by simp), rfl, rfl⟩, ⟨_, _, rfl, by simp [Within]⟩, _, rfl⟩

theorem directorySettled_spec {before : ℕ} {outcome : Except ErrorChain Bool}
    (hruns : cache.Runs (directorySettled directory before) state trace outcome final) :
    ∃ tree, trace = [⟨.recheckDirectory directory before, tree⟩] ∧
      outcome = .ok (unchanged trace) := by
  obtain ⟨_, found, tree, rest, rfl, -, ⟨rfl, rfl⟩, hruns⟩ := Runs.of_perform hruns
  obtain ⟨rfl, rfl, -⟩ := Runs.of_done hruns
  exact ⟨tree, rfl, by simp [unchanged]⟩

theorem Within.of_inspection {observations : Trace}
    (hoperations : ∀ observation ∈ observations, ∃ name,
      observation.operation = .inspectChild name) :
    ∀ observation ∈ observations, Within observation := by
  intro observation hmem
  obtain ⟨name, hoperation⟩ := hoperations observation hmem
  simp [Within, hoperation]

/-- The inspections of a directory between its opening and its second stamp. -/
theorem shardEntries_spec {shard : String}
    {outcome : Except ErrorChain (Option (List ModuleSummaryCacheEntry))}
    (hruns : cache.Runs (shardEntries shard entries) state trace outcome final) :
    (∀ observation ∈ trace, Within observation) ∧
      ((∃ error, outcome = .error error ∧ ¬ Found trace) ∨
        Found trace ∧ outcome = .ok (if unchanged trace then some (entries ++ inspected trace)
          else none)) := by
  obtain ⟨error, rfl, hdirectory⟩ | ⟨stamp, middle, opening, rest, rfl, hdirectory, hrest⟩ :=
    Runs.of_bind hruns
  · obtain ⟨_, _, _, houtcome⟩ := privateDirectory_spec hdirectory
    cases houtcome
  obtain ⟨hquiet, ⟨first, looks, rfl, hlooks⟩, -⟩ := privateDirectory_spec hdirectory
  have hopening : ∀ observation ∈ (⟨.lookupDirectory (.shard shard), first⟩ :: looks : Trace),
      Within observation := forall_mem_cons.mpr ⟨by simp [Within], hlooks⟩
  cases stamp with
  | none =>
    obtain ⟨rfl, rfl, -⟩ := Runs.of_done hrest
    rw [append_nil]
    exact ⟨hopening, .inr ⟨hquiet.found, by simp [hquiet.unchanged, hquiet.inspected]⟩⟩
  | some before =>
    obtain ⟨listed, names, _, rest, rfl, -, -, hnames⟩ := Runs.of_perform hrest
    have hchildren : cache.Runs (inspectChildren names entries >>= fun entries =>
        directorySettled (.shard shard) before >>= fun settled =>
          pure (if settled then some entries else none)) _ rest outcome final := hnames
    have hlisted : Quiet [⟨.listShard shard, listed⟩] :=
      ⟨found_of_no_inspection (by simp), rfl, rfl⟩
    rw [append_cons]
    obtain ⟨hlater, hunchanged, hinspected⟩ := (hquiet.append hlisted).then rest
    rw [hlater, hunchanged, hinspected, forall_mem_append, forall_mem_append]
    have hwithin : ∀ observation ∈ ([⟨.listShard shard, listed⟩] : Trace), Within observation := by
      simp [Within]
    obtain ⟨error, rfl, hfailed⟩ | ⟨children, middle, inspections, rest, rfl, hfirst, hsettle⟩ :=
      Runs.of_bind hchildren
    · obtain ⟨hoperations, ⟨_, -, hlost⟩ | ⟨-, houtcome⟩⟩ := inspectChildren_spec hfailed
      · exact ⟨⟨⟨hopening, hwithin⟩, Within.of_inspection hoperations⟩, .inl ⟨error, rfl, hlost⟩⟩
      · cases houtcome
    · obtain ⟨hoperations, ⟨_, herror, -⟩ | ⟨hfound, houtcome⟩⟩ := inspectChildren_spec hfirst
      · cases herror
      · cases houtcome
        obtain ⟨error, rfl, hfailed⟩ | ⟨settled, _, _, rest, rfl, hchecked, hdone⟩ :=
          Runs.of_bind hsettle
        · obtain ⟨_, -, houtcome⟩ := directorySettled_spec hfailed
          cases houtcome
        · obtain ⟨tree, rfl, houtcome⟩ := directorySettled_spec hchecked
          cases houtcome
          obtain ⟨rfl, rfl, -⟩ := Runs.of_done hdone
          have hsteady : unchanged inspections = true := by
            rw [unchanged, all_eq_true]
            intro observation hmem
            obtain ⟨name, hoperation⟩ := hoperations observation hmem
            simp [hoperation]
          refine ⟨⟨⟨hopening, hwithin⟩, ?_⟩, .inr ⟨?_, ?_⟩⟩
          · rw [forall_mem_append]
            exact ⟨Within.of_inspection hoperations, by simp [Within]⟩
          · rw [List.append_nil, found_append]
            exact ⟨hfound, found_of_no_inspection (by simp)⟩
          · have hnone : inspected [⟨.recheckDirectory (.shard shard) before, tree⟩] = [] := rfl
            simp [hsteady, hnone]

theorem pendingEntries_spec {shards : List String}
    (hruns : cache.Runs (pendingEntries shards entries) state trace outcome final) :
    (∀ observation ∈ trace, Within observation) ∧
      ((∃ error, outcome = .error error ∧ ¬ Found trace) ∨
        Found trace ∧ outcome = .ok (if unchanged trace then entries ++ inspected trace
          else [])) := by
  induction shards generalizing entries state trace with
  | nil =>
    obtain ⟨rfl, rfl, -⟩ := Runs.of_done hruns
    exact ⟨by simp, .inr ⟨by simp [Found], by simp [unchanged, inspected]⟩⟩
  | cons shard later ih =>
    obtain ⟨error, rfl, hfailed⟩ | ⟨found, middle, visited, rest, rfl, hshard, hrest⟩ :=
      Runs.of_bind hruns
    · obtain ⟨hwithin, ⟨_, -, hlost⟩ | ⟨-, houtcome⟩⟩ := shardEntries_spec hfailed
      · exact ⟨hwithin, .inl ⟨error, rfl, hlost⟩⟩
      · cases houtcome
    · obtain ⟨hwithin, ⟨_, herror, -⟩ | ⟨hfound, houtcome⟩⟩ := shardEntries_spec hshard
      · cases herror
      · rw [forall_mem_append, found_append, unchanged_append, inspected_append]
        cases hsettled : unchanged visited with
        | false =>
          rw [hsettled] at houtcome
          cases houtcome
          obtain ⟨rfl, rfl, -⟩ := Runs.of_done hrest
          exact ⟨⟨hwithin, by simp⟩, .inr ⟨⟨hfound, by simp [Found]⟩, by simp⟩⟩
        | true =>
          rw [hsettled] at houtcome
          cases houtcome
          obtain ⟨hlater, ⟨error, houtcome, hlost⟩ | ⟨hrestFound, houtcome⟩⟩ := ih hrest
          · exact ⟨⟨hwithin, hlater⟩, .inl ⟨error, houtcome, fun h => hlost h.2⟩⟩
          · refine ⟨⟨hwithin, hlater⟩, .inr ⟨⟨hfound, hrestFound⟩, ?_⟩⟩
            rw [houtcome, append_assoc, Bool.true_and]

/-- A pass over the tree begins with a look at its root, and never again. -/
theorem moduleSummaryCacheEntries_spec
    (hruns : cache.Runs moduleSummaryCacheEntries state trace outcome final) :
    (∃ tree rest, trace = ⟨.lookupDirectory .root, tree⟩ :: rest ∧
      ∀ observation ∈ rest, Within observation) ∧
      ((∃ error, outcome = .error error ∧ ¬ Found trace) ∨
        Found trace ∧ outcome = .ok (enumerated trace)) := by
  obtain ⟨error, rfl, hdirectory⟩ | ⟨stamp, middle, opening, rest, rfl, hdirectory, hrest⟩ :=
    Runs.of_bind hruns
  · obtain ⟨_, _, _, houtcome⟩ := privateDirectory_spec hdirectory
    cases houtcome
  obtain ⟨hquiet, ⟨first, looks, rfl, hlooks⟩, -⟩ := privateDirectory_spec hdirectory
  cases stamp with
  | none =>
    obtain ⟨rfl, rfl, -⟩ := Runs.of_done hrest
    rw [append_nil, enumerated, hquiet.unchanged, hquiet.inspected]
    exact ⟨⟨first, looks, rfl, hlooks⟩, .inr ⟨hquiet.found, rfl⟩⟩
  | some before =>
    obtain ⟨listed, shards, _, rest, rfl, -, -, hshards⟩ := Runs.of_perform hrest
    have hchecked : cache.Runs (directorySettled .root before >>= fun settled =>
        if settled then pendingEntries shards.reverse [] else pure []) _ rest outcome final :=
      hshards
    have hlisted : Quiet [⟨.listRoot, listed⟩] := ⟨found_of_no_inspection (by simp), rfl, rfl⟩
    obtain ⟨error, rfl, hfailed⟩ | ⟨settled, middle, _, later, rfl, hsettle, hpending⟩ :=
      Runs.of_bind hchecked
    · obtain ⟨_, -, houtcome⟩ := directorySettled_spec hfailed
      cases houtcome
    · obtain ⟨tree, rfl, houtcome⟩ := directorySettled_spec hsettle
      cases houtcome
      have hsettled : Found [⟨.recheckDirectory .root before, tree⟩] :=
        found_of_no_inspection (by simp)
      rw [enumerated, append_cons]
      obtain ⟨hfound, hunchanged, hinspected⟩ := (hquiet.append hlisted).then
        ([⟨.recheckDirectory .root before, tree⟩] ++ later)
      rw [hfound, hunchanged, hinspected, found_append, unchanged_append, inspected_append]
      have hwithin : (∀ observation ∈ later, Within observation) → ∀ observation ∈ looks ++
          ⟨.listRoot, listed⟩ :: ⟨.recheckDirectory .root before, tree⟩ :: later,
          Within observation :=
        fun hlater => forall_mem_append.mpr ⟨hlooks, by simpa [Within] using hlater⟩
      cases hsteady : unchanged [⟨.recheckDirectory .root before, tree⟩] with
      | false =>
        rw [hsteady] at hpending
        obtain ⟨rfl, rfl, -⟩ := Runs.of_done hpending
        exact ⟨⟨first, _, by simp, hwithin (by simp)⟩, .inr ⟨⟨hsettled, by simp [Found]⟩, rfl⟩⟩
      | true =>
        rw [hsteady] at hpending
        obtain ⟨hlater, hresult⟩ := pendingEntries_spec hpending
        refine ⟨⟨first, _, by simp, hwithin hlater⟩, ?_⟩
        obtain ⟨error, houtcome, hlost⟩ | ⟨hfound, houtcome⟩ := hresult
        · exact .inl ⟨error, houtcome, fun h => hlost h.2⟩
        · exact .inr ⟨⟨hsettled, hfound⟩, houtcome⟩

end ConvexWasm.Compiler.SummaryCache
