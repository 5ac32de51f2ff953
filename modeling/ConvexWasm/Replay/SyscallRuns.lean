import ConvexWasm.Replay.SyscallCapture

/-!
# A complete run makes the captured calls

Whatever calls are made, if the replay says that it is complete then they are the
captured calls up to the interleaving of the reads of an epoch.
-/

namespace ConvexWasm.SyscallReplay

open List

variable {Number : Type} (json : JsonText Number)

/-- A call that was answered. -/
structure Made (Number : Type) where
  channel : String
  operation : String
  arguments : JsonValue Number
  answer : Answer

/-- A call on a query that was handed out. -/
structure Continued (operation : String) (id : ℤ) (answer : Answer) (made : Made Number) : Prop where
  channel : made.channel = channelOf operation
  operation : made.operation = operation
  keys : keyCount made.arguments = some 1
  queryId : queryId json made.arguments = some id
  answer : made.answer = answer

/-- What a cleanup is answered with. -/
def cleanupAnswer (entry : Entry Number) : Answer :=
  match entry.cleanup with
  | none => .undefined
  | some text => .recorded text

/-- A call that was matched with an entry. -/
structure Matches (entry : Entry Number) (answer : Answer) (made : Made Number) : Prop where
  channel : made.channel = channelOf entry.operation
  operation : made.operation = entry.operation
  arguments : equalJson json entry.arguments made.arguments = true
  answer : made.answer = answer

/-- The calls that take a whole read. -/
inductive Answered (entry : Entry Number) : List (Made Number) → Prop
  | get {made : Made Number} : entry.operation = "1.0/get" →
      Matches json entry (.recorded entry.result) made → Answered entry [made]
  | stream {start cleanup : Made Number} {nexts : List (Made Number)} {id : ℤ} :
      entry.operation = "1.0/queryStream" → Matches json entry (.query id) start →
      List.Forall₂ (fun text next =>
        Continued json "1.0/queryStreamNext" id (.recorded text) next) entry.next nexts →
      Continued json "1.0/queryCleanup" id (cleanupAnswer entry) cleanup →
      Answered entry (start :: nexts ++ [cleanup])

/-- The calls on a query that is open. -/
def OpenAnswers (entry : Entry Number) (id : ℤ) (query : OpenQuery Number)
    (part : List (Made Number)) : Prop :=
  query.entry = entry ∧ entry.operation = "1.0/queryStream" ∧ ∃ start nexts,
    part = start :: nexts ∧ Matches json entry (.query id) start ∧
      List.Forall₂ (fun text next =>
        Continued json "1.0/queryStreamNext" id (.recorded text) next)
        (entry.next.take query.index) nexts

variable {prepared : Prepared Number} {replay : Replay Number}

section Tracking

/-- The replay stands where the calls have led it. -/
structure Sound (prepared : Prepared Number) (replay : Replay Number) (made : List (Made Number)) :
    Prop where
  prepared_eq : replay.prepared = prepared
  failure : replay.failure = none
  standing : Standing (OpenAnswers json) (Answered json)
    (fun entry => Matches json entry (.recorded entry.result)) prepared.epochs replay.epochIndex
    replay.remaining replay.queries replay.nextQuery made

variable {json} {replay' : Replay Number} {made : List (Made Number)} {operation : String}
  {arguments : JsonValue Number}

/-- What comes of a call whose channel is right: an answer in keeping with what was
prepared, or an error that either is kept or leaves the replay as it is. -/
def Sound.Next (json : JsonText Number) (prepared : Prepared Number) (made : List (Made Number))
    (replay : Replay Number) (operation : String) (arguments : JsonValue Number)
    (outcome : Except String Answer × Replay Number) : Prop :=
  (∃ answer, outcome.1 = .ok answer ∧ outcome.2.calls = replay.calls ∧
    Sound json prepared outcome.2
      (made ++ [{ channel := channelOf operation, operation, arguments, answer }])) ∨
  (∃ message, outcome.1 = .error message ∧ outcome.2.failure ≠ none) ∨
  ∃ message, outcome.1 = .error message ∧ outcome.2 = replay

theorem fail_next (message : String) :
    Sound.Next json prepared made replay operation arguments (replay.fail message) :=
  .inr (.inl ⟨message, rfl, fun hnone => by cases hnone⟩)

/-- Counting a call changes nothing else. -/
theorem Sound.of_calls {calls : ℕ} (hsound : Sound json prepared replay made) :
    Sound json prepared { replay with calls := calls } made :=
  ⟨hsound.prepared_eq, hsound.failure, hsound.standing⟩

variable {query : OpenQuery Number} {id : ℤ}

section

variable (hsound : Sound json prepared replay made) (hget : replay.queries.get? id = some query)
  (hkeys : keyCount arguments = some 1) (hid : queryId json arguments = some id)
include hsound hget hkeys hid

theorem Sound.invokeNext :
    Sound.Next json prepared made replay "1.0/queryStreamNext" arguments
      (replay.invokeNext query id) := by
  rw [Replay.invokeNext]
  split
  · exact fail_next _
  case h_2 text htext =>
    refine .inl ⟨_, rfl, rfl, hsound.prepared_eq, hsound.failure, hsound.standing.advance hget ?_⟩
    rintro read part ⟨hread, hoperation, start, nexts, rfl, hstart, hnexts⟩
    refine ⟨hread, hoperation, start, _, rfl, hstart, ?_⟩
    rw [hread] at htext
    rw [take_add_one, htext]
    exact rel_append hnexts (.cons ⟨rfl, rfl, hkeys, hid, rfl⟩ .nil)

theorem Sound.invokeCleanup :
    Sound.Next json prepared made replay "1.0/queryCleanup" arguments
      (replay.invokeCleanup query id) := by
  rw [Replay.invokeCleanup]
  split
  · exact fail_next _
  case isFalse hread =>
    have hindex : query.index = query.entry.next.length := not_not.mp hread
    refine .inl ⟨_, rfl, rfl, hsound.prepared_eq, hsound.failure, hsound.standing.close hget ?_⟩
    rintro read part ⟨hread, hoperation, start, nexts, rfl, hstart, hnexts⟩
    rw [hindex, hread, take_length] at hnexts
    have hclosed : Continued json "1.0/queryCleanup" id (cleanupAnswer read)
        ⟨channelOf "1.0/queryCleanup", "1.0/queryCleanup", arguments,
          cleanupAnswer query.entry⟩ := ⟨rfl, rfl, hkeys, hid, by rw [hread]⟩
    exact .stream hoperation hstart hnexts hclosed

end

theorem Sound.invokeOpen (hsound : Sound json prepared replay made)
    (hoperation : isContinuation operation = true) :
    Sound.Next json prepared made replay operation arguments
      (replay.invokeOpen json operation arguments) := by
  rw [Replay.invokeOpen]
  split
  · exact .inr (.inr ⟨_, rfl, rfl⟩)
  case h_2 keys hkeys =>
    split
    · exact fail_next _
    case isFalse hone =>
      obtain rfl : keys = 1 := not_not.mp hone
      split
      · exact fail_next _
      case h_2 id hid =>
        split
        · exact fail_next _
        case h_2 query hget =>
          by_cases hnext : operation = "1.0/queryStreamNext"
          · subst hnext
            exact hsound.invokeNext hget hkeys hid
          · have hcleanup : operation = "1.0/queryCleanup" := by
              simpa [isContinuation, hnext] using hoperation
            subst hcleanup
            exact hsound.invokeCleanup hget hkeys hid

theorem asked_iff {entry : Entry Number} :
    asked json operation arguments entry = true ↔
      entry.operation = operation ∧ equalJson json entry.arguments arguments = true := by
  rw [asked, Bool.and_eq_true, decide_eq_true_iff]

theorem Sound.invokeRead (hsound : Sound json prepared replay made)
    (hoperation : isRead operation = true) :
    Sound.Next json prepared made replay operation arguments
      (replay.invokeRead json operation arguments) := by
  rw [Replay.invokeRead]
  split
  · exact fail_next _
  case h_2 entry rest htake =>
    obtain ⟨front, back, hremaining, rfl, hasked, _⟩ := takeFirst_eq_some_iff.mp htake
    obtain ⟨rfl, hsame⟩ := asked_iff.mp hasked
    have hstanding := hsound.standing
    rw [hremaining] at hstanding
    split
    case isTrue hstream =>
      exact .inl ⟨_, rfl, rfl, hsound.prepared_eq, hsound.failure, hstanding.opening
        (Int.lt_succ _) ⟨rfl, hstream, _, [], rfl, ⟨rfl, rfl, hsame, rfl⟩, .nil⟩⟩
    case isFalse hstream =>
      have hget : entry.operation = "1.0/get" := by
        simpa [isRead, hstream] using hoperation
      exact .inl ⟨_, rfl, rfl, hsound.prepared_eq, hsound.failure, hstanding.answer
        (.get hget ⟨rfl, rfl, hsame, rfl⟩)⟩

theorem Sound.invokeWrite (hsound : Sound json prepared replay made)
    (hlast : ∀ last, prepared.epochs.getLast? = some last → last.write = none) :
    Sound.Next json prepared made replay operation arguments
      (replay.invokeWrite json operation arguments) := by
  rw [Replay.invokeWrite]
  split
  · exact fail_next _
  case h_2 entry hentry =>
    split
    · exact fail_next _
    case isFalse hmatches =>
      simp only [Bool.or_eq_true, not_or, Bool.not_eq_true, Bool.not_eq_false',
        List.isEmpty_iff] at hmatches
      obtain ⟨⟨hremaining, hqueries⟩, hasked⟩ := hmatches
      obtain ⟨rfl, hsame⟩ := asked_iff.mp hasked
      obtain ⟨rfl, hfailure, hstanding⟩ := hsound
      rw [hremaining] at hstanding
      exact .inl ⟨_, rfl, rfl, rfl, hfailure,
        hstanding.nextEpoch hlast hqueries hentry ⟨rfl, rfl, hsame, rfl⟩⟩

theorem invoke_of_open (hfailure : replay.failure = none) (channel operation text : String) :
    replay.invoke json channel operation text =
      match json.parse text with
      | none => replay.fail "Malformed replay JSON"
      | some arguments =>
        if channel ≠ channelOf operation then
          replay.fail ("Replay channel differs at call " ++ toString replay.calls)
        else
          let counted := { replay with calls := replay.calls + 1 }
          if isContinuation operation then counted.invokeOpen json operation arguments
          else if isRead operation then counted.invokeRead json operation arguments
          else counted.invokeWrite json operation arguments := by
  rw [Replay.invoke]
  split
  case h_1 message hmessage =>
    rw [hfailure] at hmessage
    cases hmessage
  · rfl

/-- A call that is invoked is counted once its channel is right. -/
theorem Sound.invoke (hsound : Sound json prepared replay made)
    (hlast : ∀ last, prepared.epochs.getLast? = some last → last.write = none)
    (channel operation text : String) :
    (∃ arguments answer, json.parse text = some arguments ∧
      (replay.invoke json channel operation text).1 = .ok answer ∧
      (replay.invoke json channel operation text).2.calls = replay.calls + 1 ∧
      Sound json prepared (replay.invoke json channel operation text).2
        (made ++ [⟨channel, operation, arguments, answer⟩])) ∨
    (replay.invoke json channel operation text).2.failure ≠ none ∨
    Sound json prepared (replay.invoke json channel operation text).2 made ∧
      (replay.invoke json channel operation text).2.calls = replay.calls + 1 := by
  rw [invoke_of_open hsound.failure]
  cases hparse : json.parse text with
  | none => exact .inr (.inl fun hnone => by cases hnone)
  | some arguments =>
    dsimp only
    by_cases hchannel : channel = channelOf operation
    · rw [if_neg (not_not.mpr hchannel)]
      have hcounted : Sound json prepared { replay with calls := replay.calls + 1 } made :=
        hsound.of_calls
      have hnext : Sound.Next json prepared made { replay with calls := replay.calls + 1 }
          operation arguments
          (if isContinuation operation = true then
            Replay.invokeOpen json { replay with calls := replay.calls + 1 } operation arguments
          else if isRead operation = true then
            Replay.invokeRead json { replay with calls := replay.calls + 1 } operation arguments
          else
            Replay.invokeWrite json { replay with calls := replay.calls + 1 } operation
              arguments) := by
        split
        case isTrue hcontinuation => exact hcounted.invokeOpen hcontinuation
        · split
          case isTrue hread => exact hcounted.invokeRead hread
          · exact hcounted.invokeWrite hlast
      rcases hnext with ⟨answer, hanswer, hcalls, hsound'⟩ | ⟨_, _, hfailure⟩ | ⟨_, _, hsame⟩
      · subst hchannel
        exact .inl ⟨arguments, answer, rfl, hanswer, hcalls, hsound'⟩
      · exact .inr (.inl hfailure)
      · refine .inr (.inr ⟨?_, ?_⟩)
        · rw [hsame]
          exact hcounted
        · rw [hsame]
    · rw [if_pos hchannel]
      exact .inr (.inl fun hnone => by cases hnone)

end Tracking

section Runs

/-- What the guest may call. -/
inductive Invocation
  | invoke (channel operation serializedArgs : String)
  | jsSyscall

def Replay.perform (replay : Replay Number) : Invocation → Except String Answer × Replay Number
  | .invoke channel operation text => replay.invoke json channel operation text
  | .jsSyscall => replay.jsSyscall

/-- What the guest sees of its calls, and the replay after them. -/
def Replay.run : Replay Number → List Invocation → List (Except String Answer) × Replay Number
  | replay, [] => ([], replay)
  | replay, invocation :: later =>
    let (answer, next) := replay.perform json invocation
    let (answers, last) := Replay.run next later
    (answer :: answers, last)

/-- The invocations, with their answers, that the calls stand for. -/
def Invokes (json : JsonText Number) (invocation : Invocation) (answer : Except String Answer)
    (made : Made Number) : Prop :=
  ∃ text, invocation = .invoke made.channel made.operation text ∧
    json.parse text = some made.arguments ∧ answer = .ok made.answer

variable {json} {last : Replay Number} {made : List (Made Number)} {invocations : List Invocation}
  {answers : List (Except String Answer)}

theorem run_cons {invocation : Invocation} {later : List Invocation} :
    replay.run json (invocation :: later) =
      ((replay.perform json invocation).1 ::
          (Replay.run json (replay.perform json invocation).2 later).1,
        (Replay.run json (replay.perform json invocation).2 later).2) := rfl

theorem perform_failed (hfailure : replay.failure ≠ none) (invocation : Invocation) :
    (replay.perform json invocation).2 = replay := by
  obtain ⟨message, hmessage⟩ := Option.ne_none_iff_exists'.mp hfailure
  cases invocation with
  | invoke channel operation text => simp [Replay.perform, Replay.invoke, hmessage]
  | jsSyscall => simp [Replay.perform, Replay.jsSyscall, hmessage]

theorem run_failed (hfailure : replay.failure ≠ none) (invocations : List Invocation) :
    (replay.run json invocations).2 = replay := by
  induction invocations with
  | nil => rfl
  | cons invocation later ih =>
    rw [run_cons, perform_failed hfailure]
    exact ih

/-- A run ends in a failure, or everything that was answered is in keeping with what
was prepared and every other call has been counted in vain. -/
theorem Sound.run (hsound : Sound json prepared replay made)
    (hlast : ∀ last, prepared.epochs.getLast? = some last → last.write = none)
    (hrun : replay.run json invocations = (answers, last)) :
    last.failure ≠ none ∨ ∃ further idle, Sound json prepared last (made ++ further) ∧
      last.calls = replay.calls + further.length + idle ∧
      (idle = 0 → ∃ pairs : List (Invocation × Except String Answer),
        pairs.map Prod.fst = invocations ∧ pairs.map Prod.snd = answers ∧
          List.Forall₂ (fun pair made => Invokes json pair.1 pair.2 made) pairs further) := by
  induction invocations generalizing replay made answers with
  | nil =>
    cases hrun
    exact .inr ⟨[], 0, by rwa [List.append_nil], rfl, fun _ => ⟨[], rfl, rfl, .nil⟩⟩
  | cons invocation later ih =>
    rw [run_cons] at hrun
    cases hrest : Replay.run json (replay.perform json invocation).2 later with
    | mk others final =>
      rw [hrest] at hrun
      obtain ⟨rfl, rfl⟩ := Prod.mk.inj hrun
      have hstuck : (replay.perform json invocation).2.failure ≠ none →
          final.failure ≠ none := by
        intro hfailure
        have hsame : (Replay.run json (replay.perform json invocation).2 later).2 = _ :=
          run_failed hfailure later
        rw [hrest] at hsame
        have hfinal : final = (replay.perform json invocation).2 := hsame
        rw [hfinal]
        exact hfailure
      cases invocation with
      | jsSyscall =>
        refine .inl (hstuck ?_)
        simp [Replay.perform, Replay.jsSyscall, hsound.failure, Replay.fail]
      | invoke channel operation text =>
        rcases hsound.invoke hlast channel operation text with
          ⟨arguments, answer, hparse, hanswer, hcalls, hnext⟩ | hfailure | ⟨hnext, hcalls⟩
        · rcases ih hnext hrest with hfailure | ⟨further, idle, hend, htotal, hpairs⟩
          · exact .inl hfailure
          · refine .inr ⟨⟨channel, operation, arguments, answer⟩ :: further, idle,
              by simpa using hend, ?_, fun hidle => ?_⟩
            · rw [htotal]
              rw [hcalls, length_cons]
              omega
            · obtain ⟨pairs, hfirst, hsecond, hall⟩ := hpairs hidle
              refine ⟨(.invoke channel operation text, .ok answer) :: pairs, ?_, ?_,
                .cons ⟨text, rfl, hparse, rfl⟩ hall⟩
              · rw [map_cons, hfirst]
              · rw [map_cons, hsecond]
                exact congrArg (· :: others) hanswer.symm
        · exact .inl (hstuck hfailure)
        · rcases ih hnext hrest with hfailure | ⟨further, idle, hend, htotal, hpairs⟩
          · exact .inl hfailure
          · refine .inr ⟨further, idle + 1, hend, ?_, fun hidle => by cases hidle⟩
            rw [htotal]
            omega

end Runs

section Complete

/-- A call is made as it was captured, but for what it is answered. -/
structure SameCall (call : Call) (made : Made Number) : Prop where
  channel : made.channel = call.channel
  operation : made.operation = call.operation
  arguments : ∃ arguments, json.parse call.arguments = some arguments ∧
    equalJson json arguments made.arguments = true

/-- A call on a query is made on the query that was handed out instead. -/
structure SameContinuation (captured id : ℤ) (call : Call) (made : Made Number) : Prop where
  channel : made.channel = call.channel
  operation : made.operation = call.operation
  captured : ∃ arguments, json.parse call.arguments = some arguments ∧
    queryId json arguments = some captured
  queryId : queryId json made.arguments = some id
  answer : made.answer = .recorded call.result

/-- A single read, or a query with all its items in order. -/
inductive SameConversation : List Call → List (Made Number) → Prop
  | get {call : Call} {made : Made Number} :
      SameCall json call made → made.answer = .recorded call.result →
      SameConversation [call] [made]
  | stream {start cleanup : Call} {start' cleanup' : Made Number} {nexts : List Call}
      {nexts' : List (Made Number)} {captured id : ℤ} :
      SameCall json start start' →
      (∃ result, json.parse start.result = some result ∧ queryId json result = some captured) →
      start'.answer = .query id →
      List.Forall₂ (SameContinuation json captured id) nexts nexts' →
      SameContinuation json captured id cleanup cleanup' →
      SameConversation (start :: nexts ++ [cleanup]) (start' :: nexts' ++ [cleanup'])

def SameWrite (call : Call) (made : Made Number) : Prop :=
  SameCall json call made ∧ made.answer = .recorded call.result

variable {json} {entry : Entry Number}

variable {call : Call} {made : Made Number}

theorem Records.sameCall {answer : Answer} (hrecords : Records json entry call)
    (hmatches : Matches json entry answer made) : SameCall json call made where
  channel := by rw [hmatches.channel, hrecords.operation, hrecords.channel]
  operation := hmatches.operation.trans hrecords.operation
  arguments := ⟨entry.arguments, hrecords.arguments, hmatches.arguments⟩

theorem ContinuesQuery.same {operation : String} {captured id : ℤ}
    (hcall : ContinuesQuery json operation captured call)
    (hmade : Continued json operation id (.recorded call.result) made) :
    SameContinuation json captured id call made := { hmade with
  channel := by rw [hmade.channel, hcall.channel, hcall.operation]
  operation := hmade.operation.trans hcall.operation.symm
  captured := hcall.queryId }

theorem Captured.same {part : List Call} {part' : List (Made Number)}
    (hcaptured : Captured json entry part) (hanswered : Answered json entry part') :
    SameConversation json part part' := by
  cases hcaptured with
  | get hrecords hoperation _ _ =>
    cases hanswered with
    | get _ hmatches =>
      refine .get (hrecords.sameCall hmatches) ?_
      rw [hmatches.answer, hrecords.result]
    | stream hstream _ _ _ =>
      rw [hrecords.operation, hoperation] at hstream
      exact absurd hstream (by decide)
  | stream hstart hnexts hcleanup hnext hlast =>
    cases hanswered with
    | get hget _ =>
      rw [hstart.records.operation, hstart.operation] at hget
      exact absurd hget (by decide)
    | stream _ hmatches hanswers hclosed =>
      refine .stream (hstart.records.sameCall hmatches) hstart.queryId hmatches.answer ?_ ?_
      · rw [hnext, List.forall₂_map_left_iff] at hanswers
        exact ((List.forall₂_and_left _ _).mpr ⟨hnexts, hanswers⟩).imp fun call made hboth =>
          hboth.1.same hboth.2
      · rw [cleanupAnswer, hlast] at hclosed
        exact hcleanup.same hclosed

theorem CapturedWrite.same (hcall : CapturedWrite json entry call)
    (hmade : Matches json entry (.recorded entry.result) made) : SameWrite json call made :=
  ⟨hcall.records.sameCall hmade, by rw [hmade.answer, hcall.records.result]⟩

theorem SameConversation.length_eq {part : List Call} {part' : List (Made Number)}
    (hsame : SameConversation json part part') : part.length = part'.length := by
  cases hsame with
  | get _ _ => rfl
  | stream _ _ _ hnexts _ => simp [hnexts.length_eq]

variable {calls writes : ℕ}

theorem closed_of_complete (hcomplete : replay.assertComplete = .ok (calls, writes)) :
    replay.failure = none ∧ replay.epochIndex + 1 = replay.prepared.epochs.length ∧
      replay.remaining = [] ∧ replay.queries.entries = [] ∧
      replay.calls = replay.prepared.calls := by
  rw [Replay.assertComplete] at hcomplete
  split at hcomplete
  · cases hcomplete
  case h_2 hfailure =>
    split at hcomplete
    · cases hcomplete
    case isFalse hclosed =>
      simp only [Bool.or_eq_true, not_or, Bool.not_eq_true, Bool.not_eq_false',
        List.isEmpty_iff, decide_eq_true_eq, not_not, ne_eq] at hclosed
      obtain ⟨⟨⟨hepoch, hremaining⟩, hqueries⟩, hcalls⟩ := hclosed
      exact ⟨hfailure, hepoch, hremaining, hqueries, hcalls⟩

theorem sound_create (hepochs : prepared.epochs ≠ []) :
    Sound json prepared (createConvexWasmSyscallReplay prepared) [] := by
  obtain ⟨first, later, hsplit⟩ := exists_cons_of_ne_nil hepochs
  have hremaining : readsOf prepared 0 = first.reads := by
    rw [readsOf, hsplit]
    rfl
  refine ⟨rfl, rfl, ?_⟩
  rw [createConvexWasmSyscallReplay, hremaining]
  exact .start hsplit

/-- What was made of a replay that is complete covers everything prepared. -/
theorem Sound.replays {made : List (Made Number)} (hsound : Sound json prepared replay made)
    (hlast : ∀ last, prepared.epochs.getLast? = some last → last.write = none)
    (hcomplete : replay.assertComplete = .ok (calls, writes)) :
    Replays (Answered json) (fun entry => Matches json entry (.recorded entry.result))
      prepared.epochs made := by
  obtain ⟨_, hepoch, hremaining, hqueries, _⟩ := closed_of_complete hcomplete
  have hstanding := hsound.standing
  rw [hremaining] at hstanding
  exact hstanding.replays hlast hqueries (hsound.prepared_eq ▸ hepoch)

/-- A complete run has made the captured calls, and every call was answered. -/
theorem rearranged_of_complete {capture : Capture} {invocations : List Invocation}
    {answers : List (Except String Answer)} {last : Replay Number}
    (hprepare : prepareConvexWasmSyscallReplay json capture = .ok prepared)
    (hrun : (createConvexWasmSyscallReplay prepared).run json invocations = (answers, last))
    (hcomplete : last.assertComplete = .ok (calls, writes)) :
    ∃ pairs made, pairs.map Prod.fst = invocations ∧ pairs.map Prod.snd = answers ∧
      List.Forall₂ (fun pair made => Invokes json pair.1 pair.2 made) pairs made ∧
      Rearranged (SameConversation json) (SameWrite json) capture.calls made := by
  have hcaptured := replays_of_prepare hprepare
  obtain ⟨state, _, _, rfl⟩ := prepare_eq_ok hprepare
  have hlastWrite : ∀ last : Epoch (Entry Number) (Entry Number),
      (state.epochs ++ [Epoch.mk state.reads none]).getLast? = some last → last.write = none := by
    intro last hgetLast
    rw [List.getLast?_concat] at hgetLast
    exact Option.some.inj hgetLast ▸ rfl
  obtain ⟨hfailure, _, _, _, hcalls⟩ := closed_of_complete hcomplete
  rcases (sound_create (by simp)).run hlastWrite hrun with
    hfailed | ⟨made, idle, hend, htotal, hpairs⟩
  · exact absurd hfailure hfailed
  · have hmade := hend.replays hlastWrite hcomplete
    have hrearranged : Rearranged (SameConversation json) (SameWrite json) capture.calls made :=
      hcaptured.rearranged (fun _ _ _ hcall hanswered => hcall.same hanswered)
        (fun _ _ _ hcall hmatches => hcall.same hmatches) hmade
    have hlength := hrearranged.length_eq fun _ _ => SameConversation.length_eq
    -- as many calls as were captured were answered, so that none was in vain
    have hidle : idle = 0 := by
      rw [htotal, hend.prepared_eq] at hcalls
      have hcount : (0 : ℕ) + made.length + idle = capture.calls.length := hcalls
      omega
    obtain ⟨pairs, hfirst, hsecond, hall⟩ := hpairs hidle
    exact ⟨pairs, made, hfirst, hsecond, hall, hrearranged⟩

end Complete

end ConvexWasm.SyscallReplay
