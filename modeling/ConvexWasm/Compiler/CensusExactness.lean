import ConvexWasm.Compiler.CensusFinalization

/-!
# Exactness of the diagnostic census

A batch records every result once and then closes its census.  Whatever the
order of the results, the census lists the distinct diagnostics in order with
their exact counts, and every result with the positions of its diagnostics.  A
result recorded twice, or never, ends in an error.
-/

namespace ConvexWasm.Compiler.DiagnosticCensus

open Attempt Fallible List

def recordResults (calls : List (ℕ × List DiagnosticCensusKey)) :
    Attempt DiagnosticCensusAccumulator Unit :=
  each calls fun call => DiagnosticCensusAccumulator.recordResult call.1 call.2

/-- Recording stops at the first error. -/
def takeCensus (diagnosticCensusId : DiagnosticCensusKey → Except ErrorChain String) (count : ℕ)
    (capture : Bool) (calls : List (ℕ × List DiagnosticCensusKey)) :
    Except ErrorChain FinalizedDiagnosticCensus :=
  match recordResults calls (DiagnosticCensusAccumulator.new count capture) with
  | (census, .ok ()) => census.finalize diagnosticCensusId
  | (_, .error error) => .error error

/-- What a census says of the diagnostics of each result. -/
structure Exact (diagnosticsOf : ℕ → List DiagnosticCensusKey) (count : ℕ) (capture : Bool)
    (idOf : DiagnosticCensusKey → String) (census : FinalizedDiagnosticCensus) : Prop where
  ascending : (census.entries.map (·.diagnostic)).Pairwise (· < ·)
  listed : ∀ key, key ∈ census.entries.map (·.diagnostic) ↔
    ∃ index < count, key ∈ diagnosticsOf index
  identified : ∀ entry ∈ census.entries, entry.id = idOf entry.diagnostic
  occurrences : ∀ entry ∈ census.entries, entry.occurrenceCount =
    ∑ index ∈ Finset.range count, (diagnosticsOf index).count entry.diagnostic
  exports : ∀ entry ∈ census.entries, entry.exportCount =
    ((Finset.range count).filter fun index => entry.diagnostic ∈ diagnosticsOf index).card
  captured : capture = true → ∃ byResultIndex, census.membership = some byResultIndex ∧
    byResultIndex.length = count ∧ ∀ index members, byResultIndex[index]? = some members →
      members.Pairwise (· < ·) ∧ ∀ position, position ∈ members ↔
        ∃ entry, census.entries[position]? = some entry ∧ entry.diagnostic ∈ diagnosticsOf index
  uncaptured : capture = false → census.membership = none
  occurrence_count : census.telemetry.occurrenceCount =
    ∑ index ∈ Finset.range count, (diagnosticsOf index).length
  occurrence_sum : census.telemetry.occurrenceCount = (census.entries.map (·.occurrenceCount)).sum
  distinct_count : census.telemetry.distinctCount = census.entries.length
  max_diagnostics : census.telemetry.maxDiagnosticsPerExport =
    (Finset.range count).sup fun index => (diagnosticsOf index).length
  reference_count : census.telemetry.membershipReferenceCount =
    ∑ index ∈ Finset.range count, (diagnosticsOf index).toFinset.card
  reference_sum : census.telemetry.membershipReferenceCount =
    (census.entries.map (·.exportCount)).sum

variable {diagnosticsOf : ℕ → List DiagnosticCensusKey}

variable {keys : List DiagnosticCensusKey} {seen : List ℕ}

section

variable (hnodup : keys.Nodup) (hkeys : ∀ index ∈ seen, ∀ key ∈ diagnosticsOf index, key ∈ keys)
include hnodup hkeys

theorem sum_occurrences :
    (keys.map (occurrences diagnosticsOf seen)).sum = (seen.flatMap diagnosticsOf).length := by
  have hall : ∀ key ∈ seen.flatMap diagnosticsOf, key ∈ keys.toFinset := by
    intro key hkey
    obtain ⟨index, hindex, hmem⟩ := mem_flatMap.mp hkey
    exact mem_toFinset.mpr (hkeys index hindex key hmem)
  calc (keys.map (occurrences diagnosticsOf seen)).sum
      = ∑ key ∈ keys.toFinset, (seen.flatMap diagnosticsOf).count key :=
        (sum_toFinset _ hnodup).symm
    _ = (seen.flatMap diagnosticsOf).length := by
        have hcount := Multiset.sum_count_eq_card (s := keys.toFinset)
          (m := (seen.flatMap diagnosticsOf : Multiset DiagnosticCensusKey)) hall
        simpa using hcount

theorem sum_exportsWith :
    (keys.map (exportsWith diagnosticsOf seen)).sum =
      (seen.map fun index => (diagnosticsOf index).toFinset.card).sum := by
  induction seen with
  | nil =>
    have hnone : exportsWith diagnosticsOf [] = fun _ => 0 := rfl
    simp [hnone]
  | cons index rest ih =>
    have hrest := ih fun later hlater => hkeys later (mem_cons_of_mem _ hlater)
    have hfirst : keys.toFinset.filter (· ∈ diagnosticsOf index) =
        (diagnosticsOf index).toFinset := by
      ext key
      rw [Finset.mem_filter, mem_toFinset, mem_toFinset]
      exact and_iff_right_of_imp fun hkey => hkeys index mem_cons_self key hkey
    have hsplit : exportsWith diagnosticsOf (index :: rest) = fun key =>
        exportsWith diagnosticsOf rest key + if key ∈ diagnosticsOf index then 1 else 0 := by
      funext key
      simp [exportsWith, countP_cons]
    have hsum : (keys.map fun key => if key ∈ diagnosticsOf index then 1 else 0).sum =
        (diagnosticsOf index).toFinset.card := by
      rw [← hfirst, Finset.card_filter, sum_toFinset _ hnodup]
    rw [hsplit, sum_map_add, hrest, hsum, map_cons, sum_cons, add_comm]

end

theorem foldl_max_eq_sup (count : ℕ) (size : ℕ → ℕ) :
    ((List.range count).map size).foldl max 0 = (Finset.range count).sup size := by
  induction count with
  | zero => rfl
  | succ count ih =>
    rw [range_succ, map_append, foldl_append, ih, Finset.range_add_one, Finset.sup_insert, sup_comm]
    rfl

theorem exportsWith_range (count : ℕ) (key : DiagnosticCensusKey) :
    exportsWith diagnosticsOf (List.range count) key =
      ((Finset.range count).filter fun index => key ∈ diagnosticsOf index).card := by
  have hfilter : (Finset.range count).filter (fun index => key ∈ diagnosticsOf index) =
      ((List.range count).filter fun index => decide (key ∈ diagnosticsOf index)).toFinset := by
    ext index
    simp
  rw [hfilter, toFinset_card_of_nodup (nodup_range.filter _), exportsWith, countP_eq_length_filter]

theorem sum_map_range (count : ℕ) (size : ℕ → ℕ) :
    ((List.range count).map size).sum = ∑ index ∈ Finset.range count, size index := by
  rw [← sum_toFinset _ nodup_range, toFinset_range]

variable {idOf : DiagnosticCensusKey → String} {capture : Bool}

section Entries

/-- Entries with different identifiers are all described. -/
theorem describe_all {items : List (DiagnosticCensusKey × DiagnosticCensusCounts)}
    (hids : (items.map fun item => idOf item.1).Nodup)
    {described : List String × List BatchDiagnosticCensusEntry}
    (hfresh : ∀ item ∈ items, idOf item.1 ∉ described.1) :
    items.foldlM (describeEntry fun key => .ok (idOf key)) described =
      .ok (described.1 ++ items.map fun item => idOf item.1,
        described.2 ++ items.map fun item =>
          ⟨idOf item.1, item.1, item.2.occurrenceCount, item.2.exportCount⟩) := by
  induction items generalizing described with
  | nil => simp [pure, Except.pure]
  | cons item rest ih =>
    rw [map_cons, nodup_cons] at hids
    have hensured : (!described.1.contains (idOf item.1)) = true := by
      simpa using hfresh item mem_cons_self
    have hstep : describeEntry (fun key => .ok (idOf key)) described item =
        .ok (described.1 ++ [idOf item.1], described.2 ++
          [⟨idOf item.1, item.1, item.2.occurrenceCount, item.2.exportCount⟩]) := by
      rw [describeEntry, ok_bind, ErrorChain.ensure, if_pos hensured]
      rfl
    have hlater : ∀ later ∈ rest, idOf later.1 ∉ described.1 ++ [idOf item.1] := by
      intro later hmem hlisted
      rcases mem_append.mp hlisted with hold | hnew
      · exact hfresh later (mem_cons_of_mem _ hmem) hold
      · exact hids.1 (mem_singleton.mp hnew ▸ mem_map.mpr ⟨later, hmem, rfl⟩)
    rw [foldlM_cons, hstep, ok_bind, ih hids.2 hlater]
    simp

variable (diagnosticsOf : ℕ → List DiagnosticCensusKey) (count : ℕ)

def entryOf (idOf : DiagnosticCensusKey → String) (key : DiagnosticCensusKey) :
    BatchDiagnosticCensusEntry :=
  ⟨idOf key, key, occurrences diagnosticsOf (List.range count) key,
    exportsWith diagnosticsOf (List.range count) key⟩

def fullCensus (idOf : DiagnosticCensusKey → String) (capture : Bool) :
    FinalizedDiagnosticCensus where
  entries := (censusKeys diagnosticsOf count).map (entryOf diagnosticsOf count idOf)
  membership := if capture then some ((List.range count).map
    (membersAmong diagnosticsOf (censusKeys diagnosticsOf count))) else none
  telemetry := {
    occurrenceCount := ((List.range count).flatMap diagnosticsOf).length
    distinctCount := (censusKeys diagnosticsOf count).length
    maxDiagnosticsPerExport :=
      ((List.range count).map fun index => (diagnosticsOf index).length).foldl max 0
    membershipReferenceCount :=
      ((List.range count).map fun index => (diagnosticsOf index).toFinset.card).sum }

variable {diagnosticsOf count}

/-- The census of diagnostics with different identifiers. -/
theorem censusOf_eq (hids : ∀ first ∈ censusKeys diagnosticsOf count,
      ∀ second ∈ censusKeys diagnosticsOf count, idOf first = idOf second → first = second) :
    censusOf diagnosticsOf count (fun key => .ok (idOf key)) capture =
      .ok (fullCensus diagnosticsOf count idOf capture) := by
  have hnodup : (((censusKeys diagnosticsOf count).map fun key =>
      (key, censusCounts diagnosticsOf count key)).map fun item => idOf item.1).Nodup := by
    rw [map_map]
    exact censusKeys_nodup.map_on fun first hfirst second hsecond heq =>
      hids first hfirst second hsecond heq
  have hdescribed : ((censusKeys diagnosticsOf count).map fun key =>
      (key, censusCounts diagnosticsOf count key)).foldlM (describeEntry fun key => .ok (idOf key))
        ([], []) = _ := describe_all hnodup fun _ _ => not_mem_nil
  rw [censusOf, hdescribed, ok_bind]
  simp [fullCensus, entryOf, censusCounts, pure, Except.pure]

end Entries

variable {count : ℕ}

theorem mem_censusKeys {key : DiagnosticCensusKey} :
    key ∈ censusKeys diagnosticsOf count ↔ ∃ index < count, key ∈ diagnosticsOf index := by
  simp [censusKeys]

/-- The positions of a result's diagnostics among all. -/
theorem mem_membersAmong {index position : ℕ}
    (hkeys : ∀ key ∈ diagnosticsOf index, key ∈ censusKeys diagnosticsOf count) :
    position ∈ membersAmong diagnosticsOf (censusKeys diagnosticsOf count) index ↔
      ∃ key, (censusKeys diagnosticsOf count)[position]? = some key ∧
        key ∈ diagnosticsOf index := by
  rw [membersAmong, Finset.mem_sort, Finset.mem_image]
  constructor
  · intro h
    obtain ⟨key, hkey, rfl⟩ := h
    rw [mem_toFinset] at hkey
    exact ⟨key, List.getElem?_idxOf (hkeys key hkey), hkey⟩
  · intro h
    obtain ⟨key, hposition, hkey⟩ := h
    obtain ⟨hbound, rfl⟩ := List.getElem?_eq_some_iff.mp hposition
    exact ⟨_, mem_toFinset.mpr hkey, censusKeys_nodup.idxOf_getElem position hbound⟩

theorem exact_census :
    Exact diagnosticsOf count capture idOf (fullCensus diagnosticsOf count idOf capture) := by
  have hall : ∀ index ∈ List.range count, ∀ key ∈ diagnosticsOf index,
      key ∈ censusKeys diagnosticsOf count := fun index hindex key hkey =>
    mem_censusKeys.mpr ⟨index, mem_range.mp hindex, hkey⟩
  have hkeys : ((censusKeys diagnosticsOf count).map (entryOf diagnosticsOf count idOf)).map
      (·.diagnostic) = censusKeys diagnosticsOf count := by
    rw [map_map]
    exact map_id _
  have hlength : ((List.range count).flatMap diagnosticsOf).length =
      ∑ index ∈ Finset.range count, (diagnosticsOf index).length := by
    rw [length_flatMap, sum_map_range]
  constructor
  case ascending =>
    rw [fullCensus, hkeys]
    exact (Finset.sortedLT_sort _).pairwise
  case listed =>
    intro key
    rw [fullCensus, hkeys, mem_censusKeys]
  case identified =>
    intro entry hentry
    obtain ⟨key, -, rfl⟩ := mem_map.mp hentry
    rfl
  case occurrences =>
    intro entry hentry
    obtain ⟨key, -, rfl⟩ := mem_map.mp hentry
    change occurrences diagnosticsOf (List.range count) key = _
    rw [occurrences, count_flatMap, sum_map_range]
    rfl
  case exports =>
    intro entry hentry
    obtain ⟨key, -, rfl⟩ := mem_map.mp hentry
    exact exportsWith_range count key
  case captured =>
    intro hcapture
    refine ⟨_, if_pos hcapture, by simp, ?_⟩
    intro index members hmembers
    rw [List.getElem?_map, Option.map_eq_some_iff] at hmembers
    obtain ⟨found, hfound, rfl⟩ := hmembers
    obtain ⟨hbound, heq⟩ := List.getElem?_eq_some_iff.mp hfound
    rw [getElem_range] at heq
    obtain rfl := heq
    refine ⟨(Finset.sortedLT_sort _).pairwise, ?_⟩
    intro position
    rw [mem_membersAmong (hall index (mem_of_getElem? hfound))]
    simp only [fullCensus, List.getElem?_map, Option.map_eq_some_iff]
    constructor
    · intro h
      obtain ⟨key, hkey, hmem⟩ := h
      exact ⟨_, ⟨key, hkey, rfl⟩, hmem⟩
    · intro h
      obtain ⟨entry, ⟨key, hkey, rfl⟩, hmem⟩ := h
      exact ⟨key, hkey, hmem⟩
  case uncaptured =>
    intro hcapture
    simp [fullCensus, hcapture]
  case occurrence_count => exact hlength
  case occurrence_sum =>
    rw [fullCensus, map_map]
    exact (sum_occurrences censusKeys_nodup hall).symm
  case distinct_count => exact (length_map _).symm
  case max_diagnostics => exact foldl_max_eq_sup count _
  case reference_count => exact sum_map_range count _
  case reference_sum =>
    rw [fullCensus, map_map]
    exact (sum_exportsWith censusKeys_nodup hall).symm

section Runs

variable {diagnosticCensusId : DiagnosticCensusKey → Except ErrorChain String}

variable {order : List ℕ}

/-- Results recorded once each are described whatever their order. -/
theorem recordResults_spec (hnodup : order.Nodup) (hbound : ∀ index ∈ order, index < count) :
    ∃ census, recordResults (order.map fun index => (index, diagnosticsOf index))
        (DiagnosticCensusAccumulator.new count capture) = (census, .ok ()) ∧
      Describes diagnosticsOf count capture order census := by
  let holds (before : List (ℕ × List DiagnosticCensusKey))
      (state : DiagnosticCensusAccumulator) : Prop :=
    Describes diagnosticsOf count capture (before.map Prod.fst) state
  have hinitial : holds [] (DiagnosticCensusAccumulator.new count capture) := describes_new
  have hstep : ∀ before call later state,
      (order.map fun index => (index, diagnosticsOf index)) = before ++ call :: later →
        holds before state →
          ∃ after, DiagnosticCensusAccumulator.recordResult call.1 call.2 state = (after, .ok ()) ∧
            holds (before ++ [call]) after := by
    intro before call later state horder hdescribes
    have hindexes := congrArg (List.map Prod.fst) horder
    rw [map_map, map_append, map_cons] at hindexes
    change order.map id = _ at hindexes
    rw [map_id] at hindexes
    obtain ⟨index, hindex, rfl⟩ := mem_map.mp (horder ▸ mem_append_right before mem_cons_self)
    have hfresh : index ∉ before.map Prod.fst := by
      rw [hindexes] at hnodup
      exact fun hmem => (nodup_append.mp hnodup).2.2 index hmem index mem_cons_self rfl
    simp only [holds, map_append]
    exact recordResult_spec hdescribes (hbound index hindex) hfresh
  obtain ⟨census, hrun, hcensus⟩ := each_of_step hstep hinitial
  simp only [holds, map_map] at hcensus
  exact ⟨census, hrun, by simpa [Function.comp_def] using hcensus⟩

theorem takeCensus_of_perm (hperm : order.Perm (List.range count)) :
    takeCensus diagnosticCensusId count capture
        (order.map fun index => (index, diagnosticsOf index)) =
      censusOf diagnosticsOf count diagnosticCensusId capture := by
  have hnodup : order.Nodup := hperm.nodup_iff.mpr nodup_range
  have hbound : ∀ index ∈ order, index < count :=
    fun index hindex => mem_range.mp (hperm.mem_iff.mp hindex)
  obtain ⟨census, hrun, hdescribes⟩ :
      ∃ census, recordResults (order.map fun index => (index, diagnosticsOf index))
          (DiagnosticCensusAccumulator.new count capture) = (census, .ok ()) ∧
        Describes diagnosticsOf count capture order census := recordResults_spec hnodup hbound
  rw [takeCensus, hrun]
  exact Complete.finalize_eq (hdescribes.of_perm hperm) diagnosticCensusId

/-- An action that leaves the marks of the recorded results alone. -/
def KeepsRecorded {Result : Type} (action : Attempt DiagnosticCensusAccumulator Result) : Prop :=
  ∀ census, (action census).1.recordedResults = census.recordedResults

theorem KeepsRecorded.bind {First Second : Type}
    {action : Attempt DiagnosticCensusAccumulator First}
    {next : First → Attempt DiagnosticCensusAccumulator Second} (haction : KeepsRecorded action)
    (hnext : ∀ value, KeepsRecorded (next value)) : KeepsRecorded (action >>= next) := by
  intro census
  have hfirst := haction census
  cases hrun : action census with
  | mk after outcome =>
    rw [hrun] at hfirst
    cases outcome with
    | error failure => rwa [bind_of_error hrun]
    | ok value =>
      rw [bind_of_ok hrun, hnext value]
      exact hfirst

theorem keepsRecorded_modify (change : DiagnosticCensusAccumulator → DiagnosticCensusAccumulator)
    (hchange : ∀ census, (change census).recordedResults = census.recordedResults) :
    KeepsRecorded (modify change) := hchange

theorem keepsRecorded_context {Value : Type} (value : Option Value) (message : String) :
    KeepsRecorded (context value message) := by
  cases value with
  | none => exact fun _ => rfl
  | some found => exact fun _ => rfl

theorem keepsRecorded_ensure (condition : Bool) (message : String) :
    KeepsRecorded (ensure condition message) := by
  cases condition with
  | false => exact fun _ => rfl
  | true => exact fun _ => rfl

variable {Item : Type}

theorem keepsRecorded_each {action : Item → Attempt DiagnosticCensusAccumulator Unit}
    (haction : ∀ item, KeepsRecorded (action item)) (items : List Item) :
    KeepsRecorded (each items action) := by
  induction items with
  | nil => exact fun _ => rfl
  | cons item rest ih => exact (haction item).bind fun _ => ih

theorem keepsRecorded_countExport (ordinal : ℕ) :
    KeepsRecorded (DiagnosticCensusAccumulator.countExport ordinal) := by
  intro census
  have hrest := (keepsRecorded_context census.keysByOrdinal[ordinal]?
    "diagnostic census provisional ordinal disappeared").bind fun key =>
      (keepsRecorded_context (census.entries.get? key)
        "diagnostic census provisional entry disappeared").bind fun entry =>
          keepsRecorded_modify (fun census => { census with
            entries := census.entries.insert key { entry with counts :=
              { entry.counts with exportCount := entry.counts.exportCount + 1 } } }) fun _ => rfl
  exact hrest census

theorem keepsRecorded_storeMembership (index : ℕ) (members : List ℕ) :
    KeepsRecorded (DiagnosticCensusAccumulator.storeMembership index members) := by
  intro census
  rw [DiagnosticCensusAccumulator.storeMembership, read_bind]
  cases census.membershipByResultIndex with
  | none => rfl
  | some byResultIndex =>
    have hrest := (keepsRecorded_context byResultIndex[index]?
      "diagnostic census membership result index disappeared").bind fun slot =>
        (keepsRecorded_modify (fun census => { census with
          membershipByResultIndex := some (byResultIndex.set index (some members)) })
            fun _ => rfl).bind fun _ => keepsRecorded_ensure slot.isNone
              s!"diagnostic census membership result index {index} was recorded more than once"
    exact hrest census

variable {census after : DiagnosticCensusAccumulator}

/-- A recorded result was not recorded before, and is marked. -/
theorem recordResult_recorded {index : ℕ} {diagnostics : List DiagnosticCensusKey}
    (hrun : census.recordResult index diagnostics = (after, .ok ())) :
    census.recordedResults[index]? = some false ∧
      after.recordedResults = census.recordedResults.set index true := by
  rw [DiagnosticCensusAccumulator.recordResult, read_bind] at hrun
  cases hslot : census.recordedResults[index]? with
  | none =>
    rw [hslot] at hrun
    cases hrun
  | some recorded =>
    rw [context_bind_some hslot, ensure_bind] at hrun
    cases recorded with
    | true => cases hrun
    | false =>
      refine ⟨rfl, ?_⟩
      have hrest : ∀ members, KeepsRecorded (each members
          DiagnosticCensusAccumulator.countExport >>= fun _ => modify (fun census =>
            { census with membershipReferenceCount :=
                census.membershipReferenceCount + members.length }) >>= fun _ =>
              DiagnosticCensusAccumulator.storeMembership index members) := fun members =>
        (keepsRecorded_each keepsRecorded_countExport members).bind fun _ =>
          (keepsRecorded_modify (fun census => { census with membershipReferenceCount :=
            census.membershipReferenceCount + members.length }) fun _ => rfl).bind fun _ =>
              keepsRecorded_storeMembership index members
      have hkept := congrArg (fun outcome => outcome.1.recordedResults) hrun
      exact hkept.symm.trans (hrest _ _)

variable {calls : List (ℕ × List DiagnosticCensusKey)}

/-- Recorded results are in range and different. -/
theorem recordResults_recorded {seen : List ℕ}
    (hcensus : census.recordedResults = (List.range count).map fun index => decide (index ∈ seen))
    (hrun : recordResults calls census = (after, .ok ())) :
    after.recordedResults = ((List.range count).map fun index =>
        decide (index ∈ seen ++ calls.map Prod.fst)) ∧
      (calls.map Prod.fst).Nodup ∧ ∀ index ∈ calls.map Prod.fst, index ∉ seen := by
  induction calls generalizing seen census with
  | nil =>
    obtain ⟨rfl, -⟩ := Prod.mk.inj hrun
    simpa using hcensus
  | cons call rest ih =>
    cases hfirst : DiagnosticCensusAccumulator.recordResult call.1 call.2 census with
    | mk middle outcome =>
      cases outcome with
      | error failure =>
        have herror := hrun.symm.trans (bind_of_error hfirst)
        cases herror
      | ok value =>
        have hlater : recordResults rest middle = (after, .ok ()) :=
          (bind_of_ok hfirst).symm.trans hrun
        obtain ⟨hslot, hmarked⟩ := recordResult_recorded hfirst
        rw [hcensus] at hslot hmarked
        have hfresh : call.1 ∉ seen := by
          simp only [List.getElem?_map, Option.map_eq_some_iff] at hslot
          obtain ⟨index, hindex, hseen⟩ := hslot
          obtain ⟨_, rfl⟩ := List.getElem?_eq_some_iff.mp hindex
          simpa using hseen
        have hmiddle : middle.recordedResults = (List.range count).map fun index =>
            decide (index ∈ seen ++ [call.1]) := by
          rw [hmarked, set_map_range]
          apply map_congr_left
          intro index _
          by_cases hindex : index = call.1
          · simp [hindex]
          · simp [hindex]
        obtain ⟨hafter, hnodup, hrest⟩ := ih hmiddle hlater
        rw [append_assoc] at hafter
        refine ⟨hafter, ?_, ?_⟩
        · rw [map_cons, nodup_cons]
          exact ⟨fun hmem => hrest _ hmem (by simp), hnodup⟩
        · intro index hindex
          rcases mem_cons.mp hindex with rfl | hindex
          · exact hfresh
          · exact fun hmem => hrest index hindex (mem_append_left _ hmem)

theorem forM_ok_of_mem {items : List Item} {check : Item → Except ErrorChain Unit}
    (hok : items.forM check = .ok ()) {item : Item} (hitem : item ∈ items) :
    check item = .ok () := by
  induction items with
  | nil => cases hitem
  | cons head rest ih =>
    have hsteps : (check head >>= fun _ => rest.forM check) = .ok () := hok
    obtain ⟨_, hhead, hrest⟩ := Fallible.bind_eq_ok.mp hsteps
    rcases mem_cons.mp hitem with rfl | hitem
    · exact hhead
    · exact ih hrest hitem

/-- A census that is taken has every result recorded once. -/
theorem takeCensus_recorded {census : FinalizedDiagnosticCensus}
    (hrun : takeCensus diagnosticCensusId count capture calls = .ok census) :
    (calls.map Prod.fst).Nodup ∧ ∀ index < count, index ∈ calls.map Prod.fst := by
  rw [takeCensus] at hrun
  cases hrecord : recordResults calls (DiagnosticCensusAccumulator.new count capture) with
  | mk after outcome =>
    rw [hrecord] at hrun
    cases outcome with
    | error failure => cases hrun
    | ok value =>
      have hinitial : Describes (fun _ => []) count capture []
          (DiagnosticCensusAccumulator.new count capture) := describes_new
      obtain ⟨hrecorded, hnodup, -⟩ := recordResults_recorded hinitial.recorded hrecord
      refine ⟨hnodup, ?_⟩
      intro index hindex
      obtain ⟨_, hchecked, -⟩ := Fallible.bind_eq_ok.mp hrun
      rw [hrecorded, map_range_zipIdx] at hchecked
      have hmarked := forM_ok_of_mem hchecked (mem_map.mpr ⟨index, mem_range.mpr hindex, rfl⟩)
      simpa using ErrorChain.ensure_eq_ok.mp hmarked

end Runs

/-- The census is exact and the same for every order of the results; a result recorded
twice, or never, is an error. -/
theorem diagnosticCensus_exact (diagnosticsOf : ℕ → List DiagnosticCensusKey) (count : ℕ)
    (capture : Bool) (idOf : DiagnosticCensusKey → String)
    (hids : ∀ first second, (∃ index < count, first ∈ diagnosticsOf index) →
      (∃ index < count, second ∈ diagnosticsOf index) → idOf first = idOf second → first = second) :
    (∃ census, Exact diagnosticsOf count capture idOf census ∧
      ∀ order : List ℕ, order.Perm (List.range count) →
        takeCensus (fun key => .ok (idOf key)) count capture
          (order.map fun index => (index, diagnosticsOf index)) = .ok census) ∧
    ∀ calls : List (ℕ × List DiagnosticCensusKey),
      (¬(calls.map Prod.fst).Nodup ∨ ∃ index < count, index ∉ calls.map Prod.fst) →
        ∃ failure, takeCensus (fun key => .ok (idOf key)) count capture calls =
          .error failure := by
  constructor
  · refine ⟨_, exact_census, ?_⟩
    intro order hperm
    rw [takeCensus_of_perm hperm]
    exact censusOf_eq fun first hfirst second hsecond =>
      hids first second (mem_censusKeys.mp hfirst) (mem_censusKeys.mp hsecond)
  · intro calls hbad
    cases hrun : takeCensus (fun key => .ok (idOf key)) count capture calls with
    | error failure => exact ⟨failure, rfl⟩
    | ok census =>
      obtain ⟨hnodup, hall⟩ := takeCensus_recorded hrun
      rcases hbad with hrepeated | ⟨index, hindex, hmissing⟩
      · exact absurd hnodup hrepeated
      · exact absurd (hall index hindex) hmissing

def sampleDiagnostic (code : String) : DiagnosticCensusKey :=
  ⟨code, "message", "convex/test.ts", 1, 1, none, "source"⟩

/-- The diagnostics of two results, which share one. -/
def sampleDiagnostics : ℕ → List DiagnosticCensusKey
  | 0 => [sampleDiagnostic "alpha", sampleDiagnostic "alpha", sampleDiagnostic "shared"]
  | _ => [sampleDiagnostic "beta", sampleDiagnostic "shared"]

def sampleId (key : DiagnosticCensusKey) : String := "diagnostic_" ++ key.code

theorem diagnosticCensus_exact_sample :
    ∃ census, Exact sampleDiagnostics 2 true sampleId census ∧
      takeCensus (fun key => .ok (sampleId key)) 2 true
        [(1, sampleDiagnostics 1), (0, sampleDiagnostics 0)] = .ok census := by
  have hids : ∀ first second, (∃ index < 2, first ∈ sampleDiagnostics index) →
      (∃ index < 2, second ∈ sampleDiagnostics index) → sampleId first = sampleId second →
        first = second := by
    have hcodes : ∀ key, (∃ index < 2, key ∈ sampleDiagnostics index) →
        key = sampleDiagnostic key.code := by
      intro key h
      obtain ⟨index, hindex, hkey⟩ := h
      interval_cases index
      · fin_cases hkey <;> rfl
      · fin_cases hkey <;> rfl
    intro first second hfirst hsecond heq
    rw [hcodes first hfirst, hcodes second hsecond]
    exact congrArg sampleDiagnostic (String.append_right_inj _ |>.mp heq)
  obtain ⟨census, hexact, horder⟩ :=
    (diagnosticCensus_exact sampleDiagnostics 2 true sampleId hids).1
  exact ⟨census, hexact, horder [1, 0] (by decide)⟩

end ConvexWasm.Compiler.DiagnosticCensus
