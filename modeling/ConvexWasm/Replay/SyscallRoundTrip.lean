import ConvexWasm.Replay.SyscallDrive

/-!
# Capturing and replaying

The replay of a capture answers the captured calls as they were recorded exactly when
no stream call carries a key besides its query id.  A run that completes is always a
rearrangement of the capture.
-/

namespace ConvexWasm.SyscallReplay

open List

variable {Number : Type} (json : JsonText Number)

/-- Driven in the captured order, the replay answers as recorded and completes. -/
def ReplaysInOrder (capture : Capture) (prepared : Prepared Number) : Prop :=
  ∀ ids answers last,
    Drives json ids (createConvexWasmSyscallReplay prepared) capture.calls answers last →
    (∀ pair ∈ answers, AsRecorded json pair.1 pair.2) ∧
      ∃ calls writes, last.assertComplete = .ok (calls, writes)

/-- The calls of a run that completes are the captured ones, each in its epoch and each
stream in its order. -/
def CompleteRunsRearrange (capture : Capture) (prepared : Prepared Number) : Prop :=
  ∀ invocations answers last calls writes,
    (createConvexWasmSyscallReplay prepared).run json invocations = (answers, last) →
    last.assertComplete = .ok (calls, writes) →
    ∃ pairs made, pairs.map Prod.fst = invocations ∧ pairs.map Prod.snd = answers ∧
      List.Forall₂ (fun pair made => Invokes json pair.1 pair.2 made) pairs made ∧
      Rearranged (SameConversation json) (SameWrite json) capture.calls made

section RoundTrip

variable {json} {capture : Capture} {prepared : Prepared Number} {state : Preparing Number}
  {replay : Replay Number} {ids : ℤ → ℤ} {count : ℕ}

theorem readsOf_last (state : Preparing Number) (calls : ℕ) :
    readsOf { epochs := state.epochs ++ [Epoch.mk state.reads none], calls }
      state.epochs.length = state.reads := by
  rw [readsOf, List.getElem?_concat_length]
  rfl

/-- What was prepared is what the loop ended with. -/
theorem ahead_last (state : Preparing Number) (calls : ℕ) :
    Ahead { epochs := state.epochs ++ [Epoch.mk state.reads none], calls } state where
  epochs := prefix_append _ _
  reads := fun position entry hentry => ⟨entry, by rwa [readsOf_last], .refl entry⟩

theorem inStep_create (prepared : Prepared Number) (ids : ℤ → ℤ) :
    InStep prepared {} (createConvexWasmSyscallReplay prepared) ids 0 where
  source := rfl
  failure := rfl
  epochIndex := rfl
  remaining := rfl
  calls := rfl
  nextQuery := ⟨le_refl 1, le_refl 1⟩
  opened := .of_empty rfl rfl
  handed := fun _ hopen => absurd hopen not_mem_nil

/-- A replay that stands where the loop ended is complete. -/
theorem InStep.assertComplete
    (hin : InStep { epochs := state.epochs ++ [Epoch.mk state.reads none], calls := count }
      state replay ids count) (hclosed : state.queries.entries = []) :
    replay.assertComplete = .ok (count, state.epochs.length) := by
  have hremaining : replay.remaining = [] := by
    rw [hin.remaining, readsOf_last, drop_length]
  have hqueries : replay.queries.entries = [] := hin.opened.entries_eq_nil hclosed
  have hepochs : replay.epochIndex + 1 = replay.prepared.epochs.length := by
    rw [hin.epochIndex, hin.source, length_append, length_singleton]
  have hcalls : replay.calls = replay.prepared.calls := by
    rw [hin.calls, hin.source]
  rw [Replay.assertComplete, hin.failure]
  rw [if_neg (by simp [hepochs, hremaining, hqueries, hcalls]), hin.calls, hin.epochIndex]

/-- A capture that was accepted is replayed as it was recorded exactly when its stream
calls carry nothing but their query id. -/
theorem syscall_replay_round_trip_iff (hlawful : json.Lawful)
    (hprepare : prepareConvexWasmSyscallReplay json capture = .ok prepared) :
    (ReplaysInOrder json capture prepared ∧ CompleteRunsRearrange json capture prepared) ↔
      ∀ call ∈ capture.calls, Plain json call := by
  have hrearranged : CompleteRunsRearrange json capture prepared :=
    fun _ _ _ _ _ hrun hcomplete => rearranged_of_complete hprepare hrun hcomplete
  obtain ⟨state, hcalls, hclosed, rfl⟩ := prepare_eq_ok hprepare
  have hcount : 0 + capture.calls.length < 2 ^ 32 := by
    rw [Nat.zero_add]
    exact capture.length_lt
  have hdriven : ∀ ids answers last,
      Drives json ids (createConvexWasmSyscallReplay _) capture.calls answers last → _ :=
    fun ids _ _ hdrives => hdrives.inStep hlawful grouped_initial (inStep_create _ ids) hcount
      hcalls (ahead_last state capture.calls.length)
  constructor
  · intro hgood
    obtain ⟨answers, last, hdrives⟩ := exists_drives hlawful (fun _ => 0)
      (createConvexWasmSyscallReplay _) hcalls
    exact (hdriven _ _ _ hdrives).1.mp (hgood.1 _ _ _ hdrives).1
  · intro hplain
    refine ⟨fun ids answers last hdrives => ?_, hrearranged⟩
    obtain ⟨hrecorded, hend⟩ := hdriven ids answers last hdrives
    obtain ⟨ids', hin⟩ := hend hplain
    rw [Nat.zero_add] at hin
    exact ⟨hrecorded.mpr hplain, _, _, hin.assertComplete hclosed⟩

end RoundTrip

/-- A library that knows the texts of a stream that is opened and closed. -/
def sampleParse (text : String) : Option (JsonValue ℕ) :=
  let rest := text.toList.drop 11
  let id := Nat.ofDigitChars 10 (rest.takeWhile Char.isDigit) 0
  if text = "true" then some (.boolean true)
  else if text.toList.take 11 ≠ "\x7b\"queryId\":".toList then none
  else if rest.dropWhile Char.isDigit = "\x7d".toList then
    some (.object [("queryId", .number id)])
  else if rest.dropWhile Char.isDigit = ",\"x\":2\x7d".toList then
    some (.object [("queryId", .number id), ("x", .number 2)])
  else none

def sampleJson : JsonText ℕ where
  parse := sampleParse
  sameNumber left right := left = right
  safeInteger number := some number
  integer := Int.toNat

theorem takeWhile_digits (id : ℕ) {last : Char} (tail : List Char) (hlast : last.isDigit = false) :
    (Nat.toDigits 10 id ++ last :: tail).takeWhile Char.isDigit = Nat.toDigits 10 id ∧
      (Nat.toDigits 10 id ++ last :: tail).dropWhile Char.isDigit = last :: tail := by
  have hdigits : ∀ char ∈ Nat.toDigits 10 id, char.isDigit = true :=
    fun char hmem => Nat.isDigit_of_mem_toDigits (by decide) (by decide) hmem
  constructor
  · rw [takeWhile_append_of_pos hdigits, takeWhile_cons_of_neg (by simp [hlast]),
      List.append_nil]
  · rw [dropWhile_append_of_pos hdigits, dropWhile_cons_of_neg (by simp [hlast])]

/-- The text of an object whose query id comes first. -/
def written (id : ℕ) (tail : List Char) : String :=
  String.ofList ("\x7b\"queryId\":".toList ++ (Nat.toDigits 10 id ++ tail))

theorem sampleParse_written (id : ℕ) (last : Char) (tail : List Char)
    (hlast : last.isDigit = false) :
    sampleParse (written id (last :: tail)) =
      if last :: tail = "\x7d".toList then some (.object [("queryId", .number id)])
      else if last :: tail = ",\"x\":2\x7d".toList then
        some (.object [("queryId", .number id), ("x", .number 2)])
      else none := by
  obtain ⟨hdigits, hrest⟩ := takeWhile_digits id tail hlast
  have hlist : (written id (last :: tail)).toList =
      "\x7b\"queryId\":".toList ++ (Nat.toDigits 10 id ++ last :: tail) :=
    String.toList_ofList
  have hne : written id (last :: tail) ≠ "true" := by
    intro heq
    rw [heq] at hlist
    cases hlist
  have htake : (written id (last :: tail)).toList.take 11 = "\x7b\"queryId\":".toList := by
    rw [hlist]
    rfl
  have hdrop : (written id (last :: tail)).toList.drop 11 =
      Nat.toDigits 10 id ++ last :: tail := by
    rw [hlist]
    rfl
  rw [sampleParse, hdrop, if_neg hne, htake, if_neg (not_not.mpr rfl), hdigits, hrest,
    Nat.ofDigitChars_ten_toDigits]

theorem sampleJson_lawful : sampleJson.Lawful where
  distinct text value hparse := by
    simp only [sampleJson, sampleParse] at hparse
    split_ifs at hparse <;> cases hparse <;>
      simp [JsonValue.Distinct, JsonValue.DistinctFields]
  sameNumber_self number := decide_eq_true rfl
  safeInteger_integer id hnonneg hle := congrArg some (Int.toNat_of_nonneg hnonneg)
  writes text value id hparse := by
    have hshort := sampleParse_written id.toNat '\x7d' [] (by decide)
    have hlong := sampleParse_written id.toNat ',' "\"x\":2\x7d".toList (by decide)
    simp only [sampleJson, sampleParse] at hparse
    split_ifs at hparse <;> cases hparse
    · exact ⟨"true", rfl⟩
    · exact ⟨_, hshort⟩
    · exact ⟨_, hlong⟩

/-- A query that is opened and closed again. -/
def sampleCapture (arguments : String) : Capture where
  calls :=
    [{ sequence := 0, channel := "syscall", operation := "1.0/queryStream"
       arguments := "\x7b\"queryId\":0\x7d", result := "\x7b\"queryId\":1\x7d"
       startedEvent := 0, completedEvent := 1 },
      { sequence := 1, channel := "syscall", operation := "1.0/queryCleanup"
        arguments, result := "true", startedEvent := 2, completedEvent := 3 }]
  length_lt := by simp

def samplePrepared : Prepared ℕ where
  epochs :=
    [⟨[{ operation := "1.0/queryStream", arguments := .object [("queryId", .number 0)]
         result := "\x7b\"queryId\":1\x7d", next := [], cleanup := some "true" }], none⟩]
  calls := 2

theorem syscall_replay_round_trip_iff_sample :
    ReplaysInOrder sampleJson (sampleCapture "\x7b\"queryId\":1\x7d") samplePrepared ∧
      CompleteRunsRearrange sampleJson (sampleCapture "\x7b\"queryId\":1\x7d")
        samplePrepared := by
  refine (syscall_replay_round_trip_iff sampleJson_lawful rfl).mpr fun call hmem => ?_
  rw [sampleCapture, mem_cons, mem_singleton] at hmem
  rcases hmem with rfl | rfl
  · exact
      { arguments := fun hcontinuation => absurd hcontinuation (by decide)
        result := fun _ result hparse => by
          obtain rfl := Option.some.inj hparse
          rfl }
  · exact
      { arguments := fun _ arguments hparse => by
          obtain rfl := Option.some.inj hparse
          rfl
        result := fun hstart => absurd hstart (by decide) }

/-- A cleanup with a second key is accepted and then refused by the replay. -/
theorem not_replays_in_order_of_extra_key :
    sampleJson.Lawful ∧
      prepareConvexWasmSyscallReplay sampleJson
        (sampleCapture "\x7b\"queryId\":1,\"x\":2\x7d") = .ok samplePrepared ∧
      ¬ ReplaysInOrder sampleJson (sampleCapture "\x7b\"queryId\":1,\"x\":2\x7d")
        samplePrepared := by
  refine ⟨sampleJson_lawful, rfl, fun hreplays => ?_⟩
  have hcleanup : Presented sampleJson (Function.update (fun _ => 0) 1 1)
      { sequence := 1, channel := "syscall", operation := "1.0/queryCleanup"
        arguments := "\x7b\"queryId\":1,\"x\":2\x7d", result := "true"
        startedEvent := 2, completedEvent := 3 } "\x7b\"queryId\":1,\"x\":2\x7d" :=
    ⟨_, 1, rfl, rfl, rfl⟩
  obtain ⟨hrecorded, _⟩ := hreplays (fun _ => 0) _ _ (.call rfl (.call hcleanup .done))
  exact hrecorded _ (mem_cons_of_mem _ mem_cons_self)

end ConvexWasm.SyscallReplay
