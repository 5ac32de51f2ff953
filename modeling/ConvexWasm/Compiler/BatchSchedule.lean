import ConvexWasm.Compiler.CensusFinalization
import ConvexWasm.Compiler.CompilerBatch

/-!
# A batch does not depend on its schedule

What one message does to the accumulators is a matter of its export alone.
After any part of the messages the accumulators hold what these messages left,
each in its own slot; once every message is in, only the order of the ready
output and of the ordinals can tell two schedules apart.
-/

namespace ConvexWasm.Compiler.CompilerBatch

open Attempt DiagnosticCensus List

variable {index : ℕ} {seen : List ℕ}

section Slots

variable {Value : Type} {count : ℕ} {value : ℕ → Option Value}

/-- The slots of the indexes seen hold their values. -/
def slots (count : ℕ) (seen : List ℕ) (value : ℕ → Option Value) : List (Option Value) :=
  (List.range count).map fun index => if index ∈ seen then value index else none

theorem slots_nil : slots count [] value = List.replicate count none := by
  simp [slots, map_const']

theorem slots_fresh (hindex : index < count) (hfresh : index ∉ seen) :
    (slots count seen value)[index]? = some none := by
  simp [slots, hindex, hfresh]

theorem slots_set {found : Value} (hvalue : value index = some found) :
    (slots count seen value).set index (some found) = slots count (seen ++ [index]) value := by
  rw [slots, set_map_range, slots]
  apply map_congr_left
  intro other _
  by_cases hother : other = index
  · simp [hother, hvalue]
  · simp [hother]

theorem slots_skip (hvalue : value index = none) :
    slots count (seen ++ [index]) value = slots count seen value := by
  apply map_congr_left
  intro other _
  by_cases hother : other = index
  · simp [hother, hvalue]
  · simp [hother]

/-- Puts a value, if there is one, in a slot. -/
def fill (values : List (Option Value)) (index : ℕ) : Option Value → List (Option Value)
  | none => values
  | some found => values.set index (some found)

theorem fill_slots :
    fill (slots count seen value) index (value index) = slots count (seen ++ [index]) value := by
  cases hvalue : value index with
  | none => exact (slots_skip hvalue).symm
  | some found => exact slots_set hvalue

theorem filterMap_concat {items : List ℕ} {item : ℕ} :
    (items ++ [item]).filterMap value = items.filterMap value ++ (value item).toList := by
  cases hvalue : value item <;> simp [hvalue]

theorem slots_of_perm (hperm : seen.Perm (List.range count)) :
    slots count seen value = (List.range count).map value := by
  apply map_congr_left
  intro index hindex
  rw [if_pos (hperm.mem_iff.mpr hindex)]

end Slots

theorem map_const_eq_ok {First Second : Type} {outcome : Except ErrorChain First}
    {second result : Second} :
    (outcome.map fun _ => second) = .ok result ↔
      (∃ first, outcome = .ok first) ∧ second = result := by
  cases outcome <;> simp [Except.map]

/-- What a result leaves in the ready spool. -/
structure Readied where
  sealRecord : Option BatchReadySealRecord := none
  frame : Option Frame := none
  outcome : Except ErrorChain Unit

/-- What a message leaves in the accumulators. -/
structure Handled (Artifact Detail : Type) where
  target : Option BatchExport := none
  diagnostics : Option (List DiagnosticCensusKey) := none
  sealRecord : Option BatchReadySealRecord := none
  frame : Option Frame := none
  outcome : Except ErrorChain (BatchResult Artifact Detail)

namespace Batch

variable {Artifact Detail Json : Type} (batch : Batch Artifact Detail Json)

def readied (index : ℕ) (result : BatchResult Artifact Detail) : Readied :=
  match batch.sealRecord index result with
  | .error error => { outcome := .error error }
  | .ok (payload, record) =>
    if batch.writesReadyOutput then
      match batch.readyFrame result payload record with
      | .error error => { sealRecord := some record, outcome := .error error }
      | .ok frame => { sealRecord := some record, frame := some frame, outcome := .ok () }
    else { sealRecord := some record, outcome := .ok () }

/-- The export of an index by itself. -/
def handled (index : ℕ) : Handled Artifact Detail :=
  let message := batch.messageAt index
  match message.compiled with
  | .error error => { outcome := .error error }
  | .ok compiled =>
    match batch.admission message compiled.output with
    | .error error => { outcome := .error error }
    | .ok admitted =>
      let result := resultOf message compiled
      let ready := batch.readied index result
      { target := if admitted then some message.target else none
        diagnostics := some compiled.diagnosticCensus
        sealRecord := ready.sealRecord
        frame := ready.frame
        outcome := ready.outcome.map fun _ => result }

/-- The result of an export, or why it fails. -/
def outcome (index : ℕ) : Except ErrorChain (BatchResult Artifact Detail) :=
  (batch.handled index).outcome

theorem readied_cases (index : ℕ) (result : BatchResult Artifact Detail) :
    (∃ error, batch.sealRecord index result = .error error ∧
      batch.readied index result = { outcome := .error error }) ∨
    ∃ payload record, batch.sealRecord index result = .ok (payload, record) ∧
      ((batch.writesReadyOutput = false ∧
          batch.readied index result = { sealRecord := some record, outcome := .ok () }) ∨
        (batch.writesReadyOutput = true ∧ ∃ error,
          batch.readyFrame result payload record = .error error ∧
          batch.readied index result = { sealRecord := some record, outcome := .error error }) ∨
        (batch.writesReadyOutput = true ∧ ∃ frame,
          batch.readyFrame result payload record = .ok frame ∧
          batch.readied index result =
            { sealRecord := some record, frame := some frame, outcome := .ok () })) := by
  unfold readied
  cases batch.sealRecord index result with
  | error error => exact .inl ⟨error, rfl, rfl⟩
  | ok sealed =>
    obtain ⟨payload, record⟩ := sealed
    refine .inr ⟨payload, record, rfl, ?_⟩
    cases batch.writesReadyOutput with
    | false => exact .inl ⟨rfl, rfl⟩
    | true =>
      cases hframe : batch.readyFrame result payload record with
      | error error => exact .inr (.inl ⟨rfl, error, rfl, by simp [hframe]⟩)
      | ok frame => exact .inr (.inr ⟨rfl, frame, rfl, by simp [hframe]⟩)

/-- An export fails before its diagnostics are counted, or leaves what its
compilation and its readied result say. -/
theorem handled_cases (index : ℕ) : (∃ error, batch.handled index = { outcome := .error error }) ∨
    ∃ compiled admitted, (batch.messageAt index).compiled = .ok compiled ∧
      batch.admission (batch.messageAt index) compiled.output = .ok admitted ∧
      batch.handled index = {
        target := if admitted then some (batch.messageAt index).target else none
        diagnostics := some compiled.diagnosticCensus
        sealRecord := (batch.readied index (resultOf (batch.messageAt index) compiled)).sealRecord
        frame := (batch.readied index (resultOf (batch.messageAt index) compiled)).frame
        outcome := (batch.readied index (resultOf (batch.messageAt index) compiled)).outcome.map
          fun _ => resultOf (batch.messageAt index) compiled } := by
  cases hcompiled : (batch.messageAt index).compiled with
  | error error => exact .inl ⟨error, by simp only [handled, hcompiled]⟩
  | ok compiled =>
    cases hadmission : batch.admission (batch.messageAt index) compiled.output with
    | error error => exact .inl ⟨error, by simp only [handled, hcompiled, hadmission]⟩
    | ok admitted =>
      exact .inr ⟨compiled, admitted, rfl, hadmission,
        by simp only [handled, hcompiled, hadmission]⟩

def failureOf (index : ℕ) : Option ErrorChain :=
  match batch.outcome index with
  | .ok _ => none
  | .error error => some error

def diagnosticsOf (index : ℕ) : List DiagnosticCensusKey :=
  (batch.handled index).diagnostics.getD []

def censused (seen : List ℕ) : List ℕ :=
  seen.filter fun index => (batch.handled index).diagnostics.isSome

/-- The bytes of the ready output after the messages `seen`. -/
def spooled (seen : List ℕ) : ByteString :=
  (seen.filterMap fun index => (batch.handled index).frame).flatMap Frame.encode

/-- What the accumulators that are changed before the last check hold after the
messages `seen`, in this order. -/
structure Gathered (seen : List ℕ) (state : BatchState Artifact Detail) : Prop where
  census : Describes batch.diagnosticsOf batch.exportCount batch.analysis
    (batch.censused seen) state.diagnosticCensus
  targets : state.actualCompileTargets = seen.filterMap fun index => (batch.handled index).target
  records : state.readySpool.recordsByIndex =
    slots batch.exportCount seen fun index => (batch.handled index).sealRecord
  output : state.readySpool.output =
    if batch.writesReadyOutput then some (batch.spooled seen) else none

structure Holds (seen : List ℕ) (state : BatchState Artifact Detail) : Prop
    extends batch.Gathered seen state where
  results : state.resultsByIndex =
    slots batch.exportCount seen fun index => (batch.outcome index).toOption
  failures : state.failuresByIndex = slots batch.exportCount seen batch.failureOf

variable {batch} {state : BatchState Artifact Detail}

variable {result : BatchResult Artifact Detail}

/-- A result recorded for the first time leaves in the spool what it would by
itself. -/
theorem recordReady_spec {spool : BatchReadySpool} {bytes : ByteString}
    (hindex : index < batch.exportCount) (hfresh : spool.recordsByIndex[index]? = some none)
    (houtput : spool.output = if batch.writesReadyOutput then some bytes else none) :
    let ready := batch.readied index result
    batch.recordReady index result spool = ({
      output := if batch.writesReadyOutput then
        some (bytes ++ ready.frame.toList.flatMap Frame.encode) else none
      recordsByIndex := fill spool.recordsByIndex index ready.sealRecord }, ready.outcome) := by
  have hnone : spool.recordsByIndex[index]?.join.isNone = true := by
    rw [hfresh]
    rfl
  rw [readied, recordReady, ensure_bind, if_pos (decide_eq_true hindex)]
  cases hseal : batch.sealRecord index result with
  | error error => simp [fill, ← houtput]
  | ok sealed =>
    obtain ⟨payload, record⟩ := sealed
    simp only [lift_ok_bind, read_bind, modify_bind, ensure_bind, hnone, if_true]
    cases hwrites : batch.writesReadyOutput with
    | false =>
      rw [hwrites] at houtput
      simp [fill, houtput]
    | true =>
      rw [hwrites] at houtput
      cases hframe : batch.readyFrame result payload record with
      | error error => simp [fill, houtput]
      | ok frame => simp [fill, houtput]

/-- An export that fails before its diagnostics are counted changes nothing. -/
theorem Gathered.skip {error : ErrorChain} (hgathered : batch.Gathered seen state)
    (hhandled : batch.handled index = { outcome := .error error }) :
    batch.Gathered (seen ++ [index]) state where
  census := by
    have hcensused : batch.censused (seen ++ [index]) = batch.censused seen := by
      simp [censused, hhandled]
    rw [hcensused]
    exact hgathered.census
  targets := by simp [hgathered.targets, hhandled]
  records := by
    rw [slots_skip (by rw [hhandled])]
    exact hgathered.records
  output := by
    have hspooled : batch.spooled (seen ++ [index]) = batch.spooled seen := by
      simp [spooled, hhandled]
    rw [hspooled]
    exact hgathered.output

theorem process_spec (hgathered : batch.Gathered seen state)
    (hindex : index < batch.exportCount) (hfresh : index ∉ seen) :
    ∃ after, batch.process (batch.messageAt index) state = (after, batch.outcome index) ∧
      batch.Gathered (seen ++ [index]) after ∧
      after.resultsByIndex = state.resultsByIndex ∧
      after.failuresByIndex = state.failuresByIndex := by
  cases hcompiled : (batch.messageAt index).compiled with
  | error error =>
    have hhandled : batch.handled index = { outcome := .error error } := by
      simp only [handled, hcompiled]
    refine ⟨state, ?_, hgathered.skip hhandled, rfl, rfl⟩
    rw [process, hcompiled, outcome, hhandled]
    rfl
  | ok compiled =>
    cases hadmission : batch.admission (batch.messageAt index) compiled.output with
    | error error =>
      have hhandled : batch.handled index = { outcome := .error error } := by
        simp only [handled, hcompiled, hadmission]
      refine ⟨state, ?_, hgathered.skip hhandled, rfl, rfl⟩
      rw [process, hcompiled, lift_ok_bind, hadmission, outcome, hhandled]
      rfl
    | ok admitted =>
      have hfreshCensus : index ∉ batch.censused seen := fun hmem => hfresh (mem_filter.mp hmem).1
      have hdiagnostics : (batch.handled index).diagnostics =
          some compiled.diagnosticCensus := by
        simp only [handled, hcompiled, hadmission]
      have hcounted : batch.diagnosticsOf index = compiled.diagnosticCensus := by
        rw [diagnosticsOf, hdiagnostics, Option.getD_some]
      obtain ⟨census, hrecord, hcensus⟩ := recordResult_spec hgathered.census hindex hfreshCensus
      rw [hcounted] at hrecord
      have hfreshSlot : state.readySpool.recordsByIndex[index]? = some none := by
        rw [hgathered.records, slots_fresh hindex hfresh]
      let result := resultOf (batch.messageAt index) compiled
      let spool : BatchReadySpool := {
        output := if batch.writesReadyOutput then
          some (batch.spooled seen ++
            (batch.readied index result).frame.toList.flatMap Frame.encode) else none
        recordsByIndex :=
          fill state.readySpool.recordsByIndex index (batch.readied index result).sealRecord }
      have hready : batch.recordReady index result state.readySpool =
          (spool, (batch.readied index result).outcome) :=
        recordReady_spec hindex hfreshSlot hgathered.output
      have hhandled : batch.handled index = {
          target := if admitted then some (batch.messageAt index).target else none
          diagnostics := some compiled.diagnosticCensus
          sealRecord := (batch.readied index result).sealRecord
          frame := (batch.readied index result).frame
          outcome := (batch.readied index result).outcome.map fun _ => result } := by
        simp only [handled, hcompiled, hadmission, result]
      let moved : BatchState Artifact Detail := { state with
        actualCompileTargets := if admitted then
          state.actualCompileTargets ++ [(batch.messageAt index).target]
          else state.actualCompileTargets }
      have hmoved : DiagnosticCensusAccumulator.recordResult index compiled.diagnosticCensus
          moved.diagnosticCensus = (census, .ok ()) := hrecord
      have hspool : batch.recordReady index result
          ({ moved with diagnosticCensus := census } : BatchState Artifact Detail).readySpool =
          (spool, (batch.readied index result).outcome) := hready
      refine ⟨{ moved with diagnosticCensus := census, readySpool := spool }, ?_, ?_, rfl, rfl⟩
      · rw [process, hcompiled, lift_ok_bind, hadmission, lift_ok_bind, modify_bind, outcome,
          hhandled]
        refine (bind_of_ok (onPart_apply hmoved)).trans ?_
        cases houtcome : (batch.readied index result).outcome with
        | error error =>
          rw [houtcome] at hspool
          exact bind_of_error (onPart_apply hspool)
        | ok =>
          rw [houtcome] at hspool
          exact bind_of_ok (onPart_apply hspool)
      · constructor
        case census =>
          have hcensused : batch.censused (seen ++ [index]) =
              batch.censused seen ++ [index] := by
            simp [censused, hdiagnostics]
          rw [hcensused]
          exact hcensus
        case targets =>
          rw [filterMap_concat, ← hgathered.targets, hhandled]
          cases admitted <;> simp [moved]
        case records =>
          rw [← fill_slots, ← hgathered.records, hhandled]
        case output =>
          have hspooled : batch.spooled (seen ++ [index]) = batch.spooled seen ++
              (batch.readied index result).frame.toList.flatMap Frame.encode := by
            rw [spooled, filterMap_concat, flatMap_append, hhandled, spooled]
          rw [hspooled]

variable {payload : ByteString} {record : BatchReadySealRecord} {frame : Frame}

theorem sealRecord_eq_ok (hseal : batch.sealRecord index result = .ok (payload, record)) :
    ∃ value, batch.toValue result = .ok value ∧ record.index = index ∧
      record.payloadBytes = payload.length ∧ record.payloadSha256 = batch.sha256 payload := by
  obtain ⟨value, hvalue, hrecord⟩ := Fallible.bind_eq_ok.mp hseal
  cases hrecord
  exact ⟨value, hvalue, rfl, rfl, rfl⟩

/-- A frame that is written fits its length fields; its header names the record. -/
theorem readyFrame_eq_ok (hframe : batch.readyFrame result payload record = .ok frame) :
    frame.Fits ∧ frame.payload = payload ∧
      ∃ header, header.sealRecord = record ∧ batch.headerBytes header = .ok frame.header := by
  obtain ⟨header, hheader, hframe⟩ := Fallible.bind_eq_ok.mp hframe
  obtain ⟨_, hheaderFits, hframe⟩ := Fallible.bind_eq_ok.mp hframe
  obtain ⟨_, hpayloadFits, hframe⟩ := Fallible.bind_eq_ok.mp hframe
  cases hframe
  refine ⟨⟨?_, ?_⟩, rfl, _, rfl, hheader⟩
  · exact of_decide_eq_true (ErrorChain.ensure_eq_ok.mp hheaderFits)
  · exact of_decide_eq_true (ErrorChain.ensure_eq_ok.mp hpayloadFits)

/-- An export that succeeds has passed every check and is in every accumulator. -/
theorem outcome_eq_ok (houtcome : batch.outcome index = .ok result) :
    ∃ payload record, batch.sealRecord index result = .ok (payload, record) ∧
      (batch.handled index).sealRecord = some record ∧
      (batch.handled index).diagnostics.isSome ∧
      (batch.writesReadyOutput → ∃ frame, batch.readyFrame result payload record = .ok frame ∧
        (batch.handled index).frame = some frame) := by
  rw [outcome] at houtcome
  obtain ⟨error, hhandled⟩ | ⟨compiled, admitted, -, -, hhandled⟩ := batch.handled_cases index
  · rw [hhandled] at houtcome
    cases houtcome
  · obtain ⟨⟨_, hready⟩, hresult⟩ := map_const_eq_ok.mp ((congrArg Handled.outcome hhandled).symm.trans houtcome)
    rw [hhandled]
    subst hresult
    obtain ⟨error, -, hreadied⟩ | ⟨payload, record, hseal, hrest⟩ := batch.readied_cases index
      (resultOf (batch.messageAt index) compiled)
    · rw [hreadied] at hready
      cases hready
    · refine ⟨payload, record, hseal, ?_⟩
      obtain ⟨hwrites, hreadied⟩ | ⟨-, error, -, hreadied⟩ | ⟨-, frame, hframe, hreadied⟩ := hrest
      · rw [hreadied]
        exact ⟨rfl, rfl, fun h => absurd h (by simp [hwrites])⟩
      · rw [hreadied] at hready
        cases hready
      · rw [hreadied]
        exact ⟨rfl, rfl, fun _ => ⟨frame, hframe, rfl⟩⟩

/-- An export that fails has written no frame. -/
theorem frame_of_error {error : ErrorChain} (houtcome : batch.outcome index = .error error) :
    (batch.handled index).frame = none := by
  rw [outcome] at houtcome
  obtain ⟨error, hhandled⟩ | ⟨compiled, admitted, -, -, hhandled⟩ := batch.handled_cases index
  · rw [hhandled]
  · rw [hhandled] at houtcome ⊢
    obtain ⟨error, -, hreadied⟩ | ⟨payload, record, -, hrest⟩ := batch.readied_cases index
      (resultOf (batch.messageAt index) compiled)
    · rw [hreadied]
    · obtain ⟨-, hreadied⟩ | ⟨-, error, -, hreadied⟩ | ⟨-, frame, -, hreadied⟩ := hrest
      · rw [hreadied]
      · rw [hreadied]
      · rw [hreadied] at houtcome
        cases houtcome

section Receive

theorem receive_spec (hholds : batch.Holds seen state) (hindex : index < batch.exportCount)
    (hfresh : index ∉ seen) :
    ∃ after, batch.receive state (batch.messageAt index) = .ok after ∧
      batch.Holds (seen ++ [index]) after := by
  obtain ⟨after, hprocess, hgathered, hresults, hfailures⟩ :=
    process_spec hholds.toGathered hindex hfresh
  rw [receive, hprocess]
  cases houtcome : batch.outcome index with
  | error error =>
    have hslot : after.failuresByIndex[index]?.join.isNone = true := by
      rw [hfailures, hholds.failures, slots_fresh hindex hfresh]
      rfl
    refine ⟨{ after with failuresByIndex := after.failuresByIndex.set index (some error) },
      ?_, ⟨hgathered.census, hgathered.targets, hgathered.records, hgathered.output⟩, ?_, ?_⟩
    · exact Fallible.bind_eq_ok.mpr ⟨(), if_pos hslot, rfl⟩
    · have hvalue : (batch.outcome index).toOption = none := by rw [houtcome]; rfl
      rw [slots_skip hvalue, ← hholds.results, ← hresults]
    · have hvalue : batch.failureOf index = some error := by rw [failureOf, houtcome]
      rw [← slots_set hvalue, ← hholds.failures, ← hfailures]
  | ok result =>
    obtain ⟨payload, record, hseal, -⟩ := outcome_eq_ok houtcome
    obtain ⟨value, hvalue, -⟩ := sealRecord_eq_ok hseal
    have hslot : after.resultsByIndex[index]?.join.isNone = true := by
      rw [hresults, hholds.results, slots_fresh hindex hfresh]
      rfl
    have hsize : batch.serializedJsonSize result = .ok (batch.toBytes value).length := by
      rw [serializedJsonSize, hvalue]
      rfl
    refine ⟨{ after with resultsByIndex := after.resultsByIndex.set index (some result) },
      ?_, ⟨hgathered.census, hgathered.targets, hgathered.records, hgathered.output⟩, ?_, ?_⟩
    · refine Fallible.bind_eq_ok.mpr ⟨_, hsize, ?_⟩
      exact Fallible.bind_eq_ok.mpr ⟨(), if_pos hslot, rfl⟩
    · have hfound : (batch.outcome index).toOption = some result := by rw [houtcome]; rfl
      rw [← slots_set hfound, ← hholds.results, ← hresults]
    · have hnone : batch.failureOf index = none := by rw [failureOf, houtcome]
      rw [slots_skip hnone, ← hholds.failures, ← hfailures]

variable (batch) in
theorem holds_initial : batch.Holds [] batch.initial where
  census := describes_new
  targets := rfl
  records := slots_nil.symm
  output := rfl
  results := slots_nil.symm
  failures := slots_nil.symm

/-- Every order in which all messages come in runs the loop to its end. -/
theorem receiveAll_spec {indexes : List ℕ} (hholds : batch.Holds seen state)
    (hbound : ∀ index ∈ indexes, index < batch.exportCount) (hnodup : (seen ++ indexes).Nodup) :
    ∃ after, batch.receiveAll indexes.length (indexes.map batch.messageAt) state = .ok after ∧
      batch.Holds (seen ++ indexes) after := by
  induction indexes generalizing seen state with
  | nil => exact ⟨state, rfl, by rwa [List.append_nil]⟩
  | cons index later ih =>
    have hfresh : index ∉ seen := fun hmem =>
      (nodup_append.mp hnodup).2.2 index hmem index mem_cons_self rfl
    obtain ⟨middle, hreceive, hmiddle⟩ := receive_spec hholds (hbound index mem_cons_self) hfresh
    obtain ⟨after, hlater, hafter⟩ := ih hmiddle
      (fun other hother => hbound other (mem_cons_of_mem _ hother))
      (by simpa using hnodup)
    exact ⟨after, Fallible.bind_eq_ok.mpr ⟨middle, hreceive, hlater⟩, by simpa using hafter⟩

end Receive

section Arrival

variable {workerCount : ℕ} {arrival : List (Message Artifact Detail)}

/-- The indexes in the order in which their messages arrive. -/
def arrivalIndexes (arrival : List (Message Artifact Detail)) : List ℕ := arrival.map Message.index

variable (hworkers : 0 < workerCount)
  (harrival : Interleaving (batch.workerMessages workerCount) arrival)
include hworkers harrival

theorem arrival_perm : arrival.Perm ((List.range batch.exportCount).map batch.messageAt) := by
  have hflatten : (batch.workerMessages workerCount).flatten =
      (((List.range workerCount).map fun worker =>
        strided worker workerCount batch.exportCount).flatten).map batch.messageAt := by
    rw [workerMessages, map_flatten, map_map]
    rfl
  refine harrival.perm.trans ?_
  rw [hflatten]
  exact (flatten_strided_perm hworkers).map _

theorem arrivalIndexes_perm : (arrivalIndexes arrival).Perm (List.range batch.exportCount) := by
  have hperm := (arrival_perm hworkers harrival).map Message.index
  rw [map_map] at hperm
  exact hperm.trans (List.Perm.of_eq (map_id _))

theorem arrival_eq : arrival = (arrivalIndexes arrival).map batch.messageAt := by
  rw [arrivalIndexes, map_map]
  refine (map_id _).symm.trans (map_congr_left fun message hmessage => ?_)
  have hmem := (arrival_perm hworkers harrival).mem_iff.mp hmessage
  obtain ⟨index, -, rfl⟩ := mem_map.mp hmem
  rfl

theorem receiveAll_arrival :
    ∃ state, batch.receiveAll batch.exportCount arrival batch.initial = .ok state ∧
      batch.Holds (arrivalIndexes arrival) state := by
  have hperm := arrivalIndexes_perm hworkers harrival
  have hlength : (arrivalIndexes arrival).length = batch.exportCount := by
    rw [hperm.length_eq, length_range]
  have hnodup : ([] ++ arrivalIndexes arrival).Nodup := hperm.nodup_iff.mpr nodup_range
  obtain ⟨state, hrun, hholds⟩ := receiveAll_spec (holds_initial batch)
    (fun index hindex => mem_range.mp (hperm.mem_iff.mp hindex)) hnodup
  rw [hlength, ← arrival_eq hworkers harrival] at hrun
  exact ⟨state, hrun, hholds⟩

end Arrival

variable {indexes : List ℕ}

variable {others : List ℕ} {other : BatchState Artifact Detail}

theorem firstBatchExportFailure_range {count : ℕ} {failure : ℕ → Option ErrorChain} :
    firstBatchExportFailure ((List.range count).map failure) =
      (List.range count).findSome? fun index => (failure index).map fun error => (index, error) := by
  rw [firstBatchExportFailure, map_range_zipIdx, List.findSome?_map]
  rfl

/-- The failure reported is that of the least index that fails. -/
theorem firstBatchExportFailure_least {count : ℕ} {failure : ℕ → Option ErrorChain}
    {error : ErrorChain} (hindex : index < count) (hfailure : failure index = some error)
    (hleast : ∀ earlier < index, failure earlier = none) :
    firstBatchExportFailure ((List.range count).map failure) = some (index, error) := by
  obtain ⟨more, rfl⟩ := Nat.exists_eq_add_of_lt hindex
  rw [firstBatchExportFailure_range, Nat.add_assoc, range_add, List.findSome?_append]
  have hnone : ((List.range index).findSome? fun index =>
      (failure index).map fun error => (index, error)) = none := by
    rw [List.findSome?_eq_none_iff]
    intro earlier hearlier
    rw [hleast earlier (mem_range.mp hearlier), Option.map_none]
  rw [hnone, Option.none_or, range_succ_eq_map]
  simp [hfailure]

theorem firstBatchExportFailure_none {count : ℕ} {failure : ℕ → Option ErrorChain} :
    firstBatchExportFailure ((List.range count).map failure) = none ↔
      ∀ index < count, failure index = none := by
  rw [firstBatchExportFailure_range, List.findSome?_eq_none_iff]
  simp

theorem Holds.failures_eq (hholds : batch.Holds indexes state)
    (hperm : indexes.Perm (List.range batch.exportCount)) :
    state.failuresByIndex = (List.range batch.exportCount).map batch.failureOf := by
  rw [hholds.failures, slots_of_perm hperm]

theorem failureOf_eq_none : batch.failureOf index = none ↔ ∃ result, batch.outcome index = .ok result := by
  rw [failureOf]
  cases batch.outcome index <;> simp

/-- Without failures every result is in the census. -/
theorem Holds.complete (hholds : batch.Holds indexes state)
    (hperm : indexes.Perm (List.range batch.exportCount))
    (hsuccess : ∀ index < batch.exportCount, batch.failureOf index = none) :
    Complete batch.diagnosticsOf batch.exportCount batch.analysis state.diagnosticCensus := by
  have hcensused : batch.censused indexes = indexes := by
    rw [censused, filter_eq_self]
    intro index hindex
    have hbound := mem_range.mp (hperm.mem_iff.mp hindex)
    obtain ⟨result, hresult⟩ := failureOf_eq_none.mp (hsuccess index hbound)
    obtain ⟨-, -, -, -, hcounted, -⟩ := outcome_eq_ok hresult
    exact hcounted
  have hcensus := hholds.census
  rw [hcensused] at hcensus
  exact hcensus.of_perm hperm

theorem sortTargets_eq {targets others : List BatchExport} (hperm : targets.Perm others) :
    sortTargets targets = sortTargets others := by
  let before (left right : BatchExport) : Prop :=
    toLex (left.entryPath, left.exportName) ≤ toLex (right.entryPath, right.exportName)
  have hantisymm : ∀ left right, left ∈ sortTargets targets → right ∈ sortTargets others →
      before left right → before right left → left = right := by
    intro left right _ _ hleft hright
    have heq : toLex (left.entryPath, left.exportName) =
        toLex (right.entryPath, right.exportName) := le_antisymm hleft hright
    cases left
    simp_all
  apply List.Perm.eq_of_pairwise hantisymm (pairwise_insertionSort before targets)
    (pairwise_insertionSort before others)
  exact ((perm_insertionSort _ _).trans hperm).trans (perm_insertionSort _ _).symm

/-- Two orders of the same messages end in the same response. -/
theorem finish_congr (hholds : batch.Holds indexes state) (hother : batch.Holds others other)
    (hperm : indexes.Perm (List.range batch.exportCount))
    (hotherPerm : others.Perm (List.range batch.exportCount)) :
    batch.finish state = batch.finish other := by
  rw [finish, finish, hholds.failures_eq hperm, hother.failures_eq hotherPerm]
  cases hfailure : firstBatchExportFailure ((List.range batch.exportCount).map batch.failureOf) with
  | some failure => rfl
  | none =>
    have hsuccess := firstBatchExportFailure_none.mp hfailure
    have hresults : state.resultsByIndex = other.resultsByIndex := by
      rw [hholds.results, hother.results, slots_of_perm hperm, slots_of_perm hotherPerm]
    have htargets : sortTargets state.actualCompileTargets =
        sortTargets other.actualCompileTargets := by
      rw [hholds.targets, hother.targets]
      exact sortTargets_eq ((hperm.trans hotherPerm.symm).filterMap _)
    have hcensus : state.diagnosticCensus.finalize batch.diagnosticCensusId =
        other.diagnosticCensus.finalize batch.diagnosticCensusId := by
      rw [(hholds.complete hperm hsuccess).finalize_eq,
        (hother.complete hotherPerm hsuccess).finalize_eq]
    have hseal : sealReady state.readySpool = sealReady other.readySpool := by
      rw [sealReady, sealReady, hholds.records, hother.records, slots_of_perm hperm,
        slots_of_perm hotherPerm]
    simp only [hresults, htargets, hcensus, hseal]

def succeeds (batch : Batch Artifact Detail Json) (index : ℕ) : Bool :=
  (batch.outcome index).toOption.isSome

theorem succeeds_iff : batch.succeeds index = true ↔ ∃ result, batch.outcome index = .ok result := by
  rw [succeeds]
  cases batch.outcome index <;> simp [Except.toOption]

/-- The frame of an index holds the payload that its record lists, behind a
header that names the record. -/
structure Framed (batch : Batch Artifact Detail Json)
    (recordsByIndex : List (Option BatchReadySealRecord)) (index : ℕ) (frame : Frame) : Prop where
  fits : frame.Fits
  listed : ∃ record, recordsByIndex[index]? = some (some record) ∧ record.index = index ∧
    frame.payload.length = record.payloadBytes ∧
    batch.sha256 frame.payload = record.payloadSha256 ∧
    ∃ header, header.sealRecord = record ∧ batch.headerBytes header = .ok frame.header

theorem forall₂_filterMap {items : List ℕ} {keep : ℕ → Bool} {value : ℕ → Option Frame}
    (hkeep : ∀ item, keep item = (value item).isSome) :
    List.Forall₂ (fun item frame => item ∈ items ∧ value item = some frame) (items.filter keep)
      (items.filterMap value) := by
  induction items with
  | nil => exact .nil
  | cons item later ih =>
    have hlater : List.Forall₂ (fun other frame => other ∈ item :: later ∧
        value other = some frame) (later.filter keep) (later.filterMap value) :=
      ih.imp fun _ _ h => ⟨mem_cons_of_mem _ h.1, h.2⟩
    cases hvalue : value item with
    | none =>
      have hskip : keep item = false := by rw [hkeep, hvalue]; rfl
      simpa [hskip, hvalue] using hlater
    | some frame =>
      have htake : keep item = true := by rw [hkeep, hvalue]; rfl
      simpa [htake, hvalue] using hlater

theorem frame_isSome (hwrites : batch.writesReadyOutput = true) (index : ℕ) :
    batch.succeeds index = (batch.handled index).frame.isSome := by
  cases houtcome : batch.outcome index with
  | error error =>
    rw [succeeds, houtcome, frame_of_error houtcome]
    rfl
  | ok result =>
    obtain ⟨payload, record, -, -, -, hframe⟩ := outcome_eq_ok houtcome
    obtain ⟨frame, -, hframe⟩ := hframe hwrites
    rw [succeeds, houtcome, hframe]
    rfl

theorem Holds.framed (hholds : batch.Holds indexes state)
    (hbound : ∀ index ∈ indexes, index < batch.exportCount)
    (hwrites : batch.writesReadyOutput = true) :
    List.Forall₂ (batch.Framed state.readySpool.recordsByIndex) (indexes.filter batch.succeeds)
      (indexes.filterMap fun index => (batch.handled index).frame) := by
  refine (forall₂_filterMap (frame_isSome hwrites)).imp fun index frame hframed => ?_
  obtain ⟨hmem, hframe⟩ := hframed
  have hsucceeds : batch.succeeds index = true := by
    rw [frame_isSome hwrites, hframe]
    rfl
  obtain ⟨result, hresult⟩ := succeeds_iff.mp hsucceeds
  obtain ⟨payload, record, hseal, hrecord, -, hwritten⟩ := outcome_eq_ok hresult
  obtain ⟨written, hready, hwritten⟩ := hwritten hwrites
  obtain rfl : written = frame := Option.some.inj (hwritten.symm.trans hframe)
  obtain ⟨hfits, hpayload, hheader⟩ := readyFrame_eq_ok hready
  obtain ⟨-, -, hindex, hlength, hsha⟩ := sealRecord_eq_ok hseal
  refine ⟨hfits, record, ?_, hindex, ?_, ?_, hheader⟩
  · rw [hholds.records, slots, List.getElem?_map, List.getElem?_range (hbound index hmem),
      Option.map_some, if_pos hmem, hrecord]
  · rw [hpayload, hlength]
  · rw [hpayload, hsha]

theorem fits_of_framed {recordsByIndex : List (Option BatchReadySealRecord)}
    {recorded : List ℕ} {frames : List Frame}
    (hframed : List.Forall₂ (batch.Framed recordsByIndex) recorded frames) :
    ∀ frame ∈ frames, frame.Fits := by
  induction hframed with
  | nil => exact fun _ hframe => absurd hframe not_mem_nil
  | cons hfirst _ ih => exact forall_mem_cons.mpr ⟨hfirst.fits, ih⟩

theorem sealReady_eq_ok {spool : BatchReadySpool} {readySeal : BatchReadySeal}
    (hseal : sealReady spool = .ok readySeal) :
    spool.recordsByIndex = readySeal.records.map some := by
  obtain ⟨records, hrecords, hseal⟩ := Fallible.bind_eq_ok.mp hseal
  cases hseal
  have hall := Fallible.mapM_eq_ok_iff.mp hrecords
  have hfirst : List.Forall₂ (fun item record => item.1 = some record)
      spool.recordsByIndex.zipIdx records := by
    refine hall.imp fun item record hitem => ?_
    obtain ⟨slot, index⟩ := item
    cases slot with
    | none => cases hitem
    | some found =>
      cases hitem
      rfl
  have hslots : List.Forall₂ (fun slot record => slot = some record)
      (spool.recordsByIndex.zipIdx.map Prod.fst) records := List.forall₂_map_left_iff.mpr hfirst
  rw [zipIdx_map_fst] at hslots
  have heq : List.Forall₂ Eq spool.recordsByIndex (records.map some) :=
    List.forall₂_map_right_iff.mpr hslots
  rwa [List.forall₂_eq_eq_eq] at heq

theorem readySeal_of_finish {response : BatchResponse Artifact Detail}
    (hfinish : batch.finish state = .ok response) :
    sealReady state.readySpool = .ok response.readySeal := by
  rw [finish] at hfinish
  cases hfailure : firstBatchExportFailure state.failuresByIndex with
  | some failure =>
    rw [hfailure] at hfinish
    cases hfinish
  | none =>
    rw [hfailure] at hfinish
    obtain ⟨results, -, hfinish⟩ := Fallible.bind_eq_ok.mp hfinish
    obtain ⟨selections, -, hfinish⟩ := Fallible.bind_eq_ok.mp hfinish
    obtain ⟨census, -, hfinish⟩ := Fallible.bind_eq_ok.mp hfinish
    obtain ⟨readySeal, hseal, hfinish⟩ := Fallible.bind_eq_ok.mp hfinish
    obtain ⟨-, -, hfinish⟩ := Fallible.bind_eq_ok.mp hfinish
    cases hfinish
    exact hseal

/-- The ready output splits back into frames, one for every index in the
order of arrival that was recorded, and into nothing else. -/
structure ReadyOutput (batch : Batch Artifact Detail Json)
    (recordsByIndex : List (Option BatchReadySealRecord)) (recorded : List ℕ)
    (output : ByteString) (frames : List Frame) : Prop where
  parsed : Frame.parseAll output = some frames
  unique : ∀ others : List Frame, (∀ frame ∈ others, frame.Fits) →
    others.flatMap Frame.encode = output → others = frames
  framed : List.Forall₂ (batch.Framed recordsByIndex) recorded frames

theorem Holds.readyOutput (hholds : batch.Holds indexes state)
    (hbound : ∀ index ∈ indexes, index < batch.exportCount) {output : ByteString}
    (houtput : state.readySpool.output = some output) :
    ∃ frames, output = frames.flatMap Frame.encode ∧
      batch.ReadyOutput state.readySpool.recordsByIndex (indexes.filter batch.succeeds)
        output frames := by
  have hwrites : batch.writesReadyOutput = true := by
    by_contra hwrites
    rw [hholds.output, if_neg hwrites] at houtput
    cases houtput
  rw [hholds.output, if_pos hwrites] at houtput
  cases houtput
  have hframed := hholds.framed hbound hwrites
  have hfits : ∀ frame ∈ indexes.filterMap fun index => (batch.handled index).frame,
      frame.Fits := fits_of_framed hframed
  refine ⟨_, rfl, Frame.parseAll_encode hfits, fun others hothers heq => ?_, hframed⟩
  exact Frame.encode_frames_injective hothers hfits heq

section Schedule

variable (batch) in
/-- What the loop makes of an export when nothing is recorded before it. -/
def exportOutcome (index : ℕ) : Except ErrorChain (BatchResult Artifact Detail) :=
  (batch.process (batch.messageAt index) batch.initial).2

theorem exportOutcome_eq (hindex : index < batch.exportCount) :
    batch.exportOutcome index = batch.outcome index := by
  obtain ⟨after, hprocess, -⟩ := process_spec (holds_initial batch).toGathered hindex not_mem_nil
  rw [exportOutcome, hprocess]

/-- Whatever the number of workers and the order of arrival: every index is
compiled once, the batch fails with the least index that fails, the response is
that of every other schedule, and the ready output lists the recorded results. -/
theorem runBatch_schedule_independent (batch : Batch Artifact Detail Json) {workerCount : ℕ}
    (hworkers : 0 < workerCount) {arrival : List (Message Artifact Detail)}
    (harrival : Interleaving (batch.workerMessages workerCount) arrival) :
    (∀ index, (arrivalIndexes arrival).count index = if index < batch.exportCount then 1 else 0) ∧
    (∀ message ∈ arrival, message = batch.messageAt message.index) ∧
    (∀ index < batch.exportCount, ∀ error, batch.exportOutcome index = .error error →
      (∀ earlier < index, ∃ result, batch.exportOutcome earlier = .ok result) →
      batch.runBatch arrival = .error (s!"batch export index {index} failed" :: error)) ∧
    (∀ otherCount other, 0 < otherCount →
      Interleaving (batch.workerMessages otherCount) other →
      batch.runBatch other = batch.runBatch arrival) ∧
    ∃ state, batch.receiveAll batch.exportCount arrival batch.initial = .ok state ∧
      state.readySpool.output.isSome = batch.writesReadyOutput ∧
      (∀ response, batch.runBatch arrival = .ok response →
        state.readySpool.recordsByIndex = response.readySeal.records.map some) ∧
      ∀ output, state.readySpool.output = some output → ∃ recorded frames,
        recorded.Nodup ∧
        (∀ index, index ∈ recorded ↔ index < batch.exportCount ∧
          ∃ result, batch.exportOutcome index = .ok result) ∧
        output = frames.flatMap Frame.encode ∧
        batch.ReadyOutput state.readySpool.recordsByIndex recorded output frames := by
  have hperm := arrivalIndexes_perm hworkers harrival
  have hbound : ∀ index ∈ arrivalIndexes arrival, index < batch.exportCount :=
    fun index hindex => mem_range.mp (hperm.mem_iff.mp hindex)
  obtain ⟨state, hreceive, hholds⟩ := receiveAll_arrival hworkers harrival
  have hrun : batch.runBatch arrival = batch.finish state := by
    rw [runBatch, hreceive]
    rfl
  refine ⟨fun index => ?_, fun message hmessage => ?_, ?_, ?_, state, hreceive, ?_, ?_, ?_⟩
  · rw [hperm.count_eq, List.Nodup.count nodup_range]
    simp
  · have hmem := (arrival_perm hworkers harrival).mem_iff.mp hmessage
    obtain ⟨index, -, rfl⟩ := mem_map.mp hmem
    rfl
  · intro index hindex error herror hleast
    rw [exportOutcome_eq hindex] at herror
    have hfailure : batch.failureOf index = some error := by rw [failureOf, herror]
    have hearlier : ∀ earlier < index, batch.failureOf earlier = none := by
      intro earlier hlt
      obtain ⟨result, hresult⟩ := hleast earlier hlt
      rw [exportOutcome_eq (hlt.trans hindex)] at hresult
      exact failureOf_eq_none.mpr ⟨result, hresult⟩
    rw [hrun, finish, hholds.failures_eq hperm,
      firstBatchExportFailure_least hindex hfailure hearlier]
  · intro otherCount other hotherWorkers hother
    obtain ⟨last, hlast, hotherHolds⟩ := receiveAll_arrival hotherWorkers hother
    have hotherRun : batch.runBatch other = batch.finish last := by
      rw [runBatch, hlast]
      rfl
    rw [hotherRun, hrun]
    exact finish_congr hotherHolds hholds (arrivalIndexes_perm hotherWorkers hother) hperm
  · rw [hholds.output]
    cases batch.writesReadyOutput <;> rfl
  · intro response hresponse
    exact sealReady_eq_ok (readySeal_of_finish (hrun.symm.trans hresponse))
  · intro output houtput
    obtain ⟨frames, hframes, hready⟩ := hholds.readyOutput hbound houtput
    refine ⟨_, frames, (hperm.nodup_iff.mpr nodup_range).filter _, fun index => ?_, hframes, hready⟩
    rw [mem_filter, succeeds_iff, hperm.mem_iff, mem_range]
    exact and_congr_right fun hindex => by rw [exportOutcome_eq hindex]

end Schedule

end Batch

def sampleMetadata : CompilerMetadata :=
  ⟨"pipeline", "revision", 1, "policy", "inventory", "surface"⟩

def sampleDiagnostic (line : ℕ) : DiagnosticCensusKey :=
  ⟨"unsupported", "unsupported syntax", "convex/first.ts", line, 1, none, "eval"⟩

/-- Two exports, of which the second is eligible. -/
def sampleBatch : Batch Unit Unit Unit where
  exports := [⟨"convex/first.ts", "list"⟩, ⟨"convex/second.ts", "get"⟩]
  protocol := .allEligible
  analysis := true
  compileTargets := []
  authoritativeSelections := [⟨"convex/first.ts", "list", "query", "compile", "direct"⟩]
  writesReadyOutput := true
  compileExport := fun index _ _ => .ok (if index = 1 then
    ⟨⟨"output", sampleMetadata, true, .compile (some ()), ()⟩, []⟩ else
    ⟨⟨"output", sampleMetadata, false, .analysis, ()⟩, [sampleDiagnostic 2, sampleDiagnostic 1]⟩)
  toValue := fun _ => .ok ()
  sortAllObjects := id
  toBytes := fun _ => [0x7b, 0x7d]
  headerBytes := fun header => .ok [UInt8.ofNat header.sealRecord.index]
  sha256 := fun bytes => toString bytes.length
  diagnosticCensusId := fun diagnostic => .ok (toString diagnostic.line)
  membershipBytes := fun _ => 0

/-- The second export arrives first. -/
theorem sampleBatch_arrival : Interleaving (sampleBatch.workerMessages 2)
    [sampleBatch.messageAt 1, sampleBatch.messageAt 0] := by
  have hlast : Interleaving ([] ++ [sampleBatch.messageAt 0] :: [[]])
      [sampleBatch.messageAt 0] := .take (.done (by simp))
  have hfirst : Interleaving ([[sampleBatch.messageAt 0]] ++ [sampleBatch.messageAt 1] :: [])
      [sampleBatch.messageAt 1, sampleBatch.messageAt 0] := .take hlast
  exact hfirst

theorem runBatch_schedule_independent_sample :
    0 < 2 ∧ Interleaving (sampleBatch.workerMessages 2)
        [sampleBatch.messageAt 1, sampleBatch.messageAt 0] ∧
      (∀ index, ([1, 0] : List ℕ).count index = if index < 2 then 1 else 0) ∧
      ∀ otherCount other, 0 < otherCount →
        Interleaving (sampleBatch.workerMessages otherCount) other →
        sampleBatch.runBatch other =
          sampleBatch.runBatch [sampleBatch.messageAt 1, sampleBatch.messageAt 0] := by
  obtain ⟨hcount, -, -, hsame, -⟩ :=
    sampleBatch.runBatch_schedule_independent (by decide : 0 < 2) sampleBatch_arrival
  exact ⟨by decide, sampleBatch_arrival, hcount, hsame⟩

end ConvexWasm.Compiler.CompilerBatch
