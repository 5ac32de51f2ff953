import ConvexWasm.Replay.Capability

/-!
# A replay that ends well consumed what was captured

Every operation that succeeds is part of the conversation of one captured read or is
the captured write; every operation that fails closes the replay.
-/

namespace ConvexWasm.CapabilityReplay

open Fallible List

variable {Number : Type} (json : SerdeJson Number)

/-- An operation with its answer. -/
abbrev Exchange (Number : Type) := Operation Number × Answer Number

/-- The operations that take a whole captured read, with the captured answers. -/
inductive Converses (entry : Entry Number) : List (Exchange Number) → Prop
  | get {expected arguments result : JsonValue Number} :
      entry.operation = "1.0/get" → requestArguments entry = .ok expected →
      sameArguments json expected arguments = true → json.parse entry.result = some result →
      Converses entry [(.get arguments, .value result)]
  | bulk {expected query : JsonValue Number} {items found : List (JsonValue Number)} :
      entry.operation = "1.0/queryStream" → requestArguments entry = .ok expected →
      sameArguments json expected (.object [("query", query)]) = true →
      queryItems json entry = .ok items → isWhole items = true → documents items = some found →
      Converses entry [(.query query true, .documents found)]
  | stream {expected query : JsonValue Number} {items : List (JsonValue Number)} {handle : ℕ} :
      entry.operation = "1.0/queryStream" → requestArguments entry = .ok expected →
      sameArguments json expected (.object [("query", query)]) = true →
      queryItems json entry = .ok items →
      Converses entry
        ((.query query false, .stream handle) ::
          (items.map fun item => (.streamNext handle, .value item)) ++
            [(.streamClose handle, .closed)])

/-- The captured write, with the captured answer. -/
inductive Performs (entry : Entry Number) : Exchange Number → Prop
  | write {expected arguments result : JsonValue Number} :
      requestArguments entry = .ok expected → sameArguments json expected arguments = true →
      json.parse entry.result = some result →
      Performs entry
        (.write entry.operation arguments, .value (writeResult entry.operation result))

/-- A stream that has been opened and read for a while. -/
def Opened (entry : Entry Number) (handle : ℕ) (stream : Stream Number)
    (part : List (Exchange Number)) : Prop :=
  ∃ expected query, entry.operation = "1.0/queryStream" ∧ requestArguments entry = .ok expected ∧
    sameArguments json expected (.object [("query", query)]) = true ∧
    queryItems json entry = .ok stream.next ∧
    part = (.query query false, .stream handle) ::
      (stream.next.take stream.consumed).map fun item => (.streamNext handle, .value item)

/-- The handles of the streams that were opened. -/
def handles (events : List (Exchange Number)) : List ℕ :=
  events.filterMap fun
    | (_, .stream handle) => some handle
    | _ => none

/-- What a guest sees when nothing fails. -/
def succeeded (exchanges : List (Exchange Number)) :
    List (Operation Number × Except String (Answer Number)) :=
  exchanges.map fun exchange => (exchange.1, .ok exchange.2)

section Checked

variable {json}

theorem parseResult_eq_ok {serialized : String} {value : JsonValue Number} :
    parseResult json serialized = .ok value ↔ json.parse serialized = some value := by
  rw [parseResult]
  cases json.parse serialized with
  | none => simp
  | some found => simp

variable {count : ℕ}

theorem parse_of_checkRead {read : Entry Number} (hcheck : checkRead json read = .ok count) :
    ∃ result, json.parse read.result = some result := by
  obtain ⟨_, _, hcheck⟩ := bind_eq_ok.mp hcheck
  obtain ⟨result, hresult, _⟩ := bind_eq_ok.mp hcheck
  exact ⟨result, parseResult_eq_ok.mp hresult⟩

theorem check_of_countCalls {epochs : List (Epoch (Entry Number) (Entry Number))}
    (hcount : countCalls json epochs = .ok count) :
    ∀ epoch ∈ epochs, ∀ read ∈ epoch.reads, ∃ count, checkRead json read = .ok count := by
  induction epochs generalizing count with
  | nil => exact fun epoch hepoch => absurd hepoch not_mem_nil
  | cons epoch later ih =>
    rw [countCalls] at hcount
    split at hcount
    · cases hcount
    · obtain ⟨reads, hreads, hcount⟩ := bind_eq_ok.mp hcount
      obtain ⟨write, _, hcount⟩ := bind_eq_ok.mp hcount
      obtain ⟨rest, hrest, _⟩ := bind_eq_ok.mp hcount
      refine forall_mem_cons.mpr ⟨fun read hread => ?_, ih hrest⟩
      obtain ⟨calls, _, hcheck⟩ := exists_result_of_mem hreads hread
      exact ⟨calls, hcheck⟩

/-- What `new` has made sure of. -/
structure Checked (json : SerdeJson Number) (trace : Trace Number) : Prop where
  reads : ∀ epoch ∈ trace.epochs, ∀ read ∈ epoch.reads, ∃ count, checkRead json read = .ok count
  last : ∀ last, trace.epochs.getLast? = some last → last.write = none

theorem new_eq_ok {trace : Trace Number} {replay : Replay Number}
    (hnew : Replay.new json trace = .ok replay) :
    Checked json trace ∧ ∃ first later, trace.epochs = first :: later ∧
      replay = { trace, epoch := 0, remaining := first.reads, streams := .empty, nextStream := 1
                 calls := 0, failed := false } := by
  rw [Replay.new] at hnew
  split at hnew
  case h_1 first last hfirst hlast =>
    split at hnew
    · cases hnew
    case isFalse hwrite =>
      obtain ⟨count, hcount, hnew⟩ := bind_eq_ok.mp hnew
      split at hnew
      · cases hnew
      · cases hnew
        obtain ⟨later, hepochs⟩ := List.head?_eq_some_iff.mp hfirst
        refine ⟨⟨check_of_countCalls hcount, fun found hfound => ?_⟩, first, later, hepochs, rfl⟩
        obtain rfl := Option.some.inj (hlast.symm.trans hfound)
        exact Option.not_isSome_iff_eq_none.mp hwrite
  · cases hnew

end Checked

variable {trace : Trace Number} {replay : Replay Number} {events : List (Exchange Number)}

section Tracking

/-- The replay has answered with what was captured, and still can be completed. -/
structure Sound (trace : Trace Number) (replay : Replay Number) (events : List (Exchange Number)) :
    Prop where
  trace_eq : replay.trace = trace
  failed : replay.failed = false
  standing : Standing (Opened json) (Converses json) (Performs json) trace.epochs replay.epoch
    replay.remaining replay.streams replay.nextStream events
  handles_lt : ∀ handle ∈ handles events, handle < replay.nextStream
  handles_nodup : (handles events).Nodup

variable {json} {replay' : Replay Number}

theorem handles_append (before after : List (Exchange Number)) :
    handles (before ++ after) = handles before ++ handles after :=
  filterMap_append

variable {operation : String} {arguments : JsonValue Number} {entry : Entry Number}

theorem asked_iff :
    asked json operation arguments entry = true ↔
      entry.operation = operation ∧
        ∃ expected, requestArguments entry = .ok expected ∧
          sameArguments json expected arguments = true := by
  rw [asked, Bool.and_eq_true, decide_eq_true_iff]
  cases requestArguments entry with
  | error message => simp
  | ok expected => simp

/-- A read that could be taken was waiting. -/
theorem takeRead_eq_ok (htake : replay.takeRead json operation arguments = (.ok entry, replay')) :
    ∃ before after, replay.remaining = before ++ entry :: after ∧
      asked json operation arguments entry = true ∧
      replay' = { replay with
        remaining := before ++ after, calls := replay.calls + 1, failed := false } := by
  rw [Replay.takeRead] at htake
  split at htake
  · cases htake
  · split at htake
    · cases htake
    case h_2 found rest hfound =>
      obtain ⟨hentry, rfl⟩ := Prod.mk.inj htake
      cases hentry
      obtain ⟨before, after, hremaining, rfl, hasked, _⟩ := takeFirst_eq_some_iff.mp hfound
      exact ⟨before, after, hremaining, hasked, rfl⟩

theorem takeRead_failed {message : String}
    (htake : replay.takeRead json operation arguments = (.error message, replay')) :
    replay'.failed = true := by
  rw [Replay.takeRead] at htake
  split at htake
  case isTrue hfailed =>
    cases htake
    exact hfailed
  · split at htake
    · cases htake
      rfl
    · cases htake

variable {front back : List (Entry Number)}

/-- A read that waits was checked when the replay began. -/
theorem Sound.checked (hsound : Sound json trace replay events) (hchecked : Checked json trace)
    (hremaining : replay.remaining = front ++ entry :: back) :
    ∃ count, checkRead json entry = .ok count := by
  obtain ⟨epoch, hepoch, hread⟩ := (hremaining ▸ hsound.standing).exists_epoch
  exact hchecked.reads epoch hepoch entry hread

/-- Whether an operation succeeded in keeping with the trace, or failed for good. -/
def Sound.Next (json : SerdeJson Number) (trace : Trace Number) (events : List (Exchange Number))
    (operation : Operation Number) (outcome : Outcome Number (Answer Number)) : Prop :=
  (∃ answer, outcome.1 = .ok answer ∧
    Sound json trace outcome.2 (events ++ [(operation, answer)])) ∨
  ∃ message, outcome.1 = .error message ∧ outcome.2.failed = true

variable {calls : ℕ}

section

variable (hsound : Sound json trace replay events)
include hsound

/-- An operation that opens no stream. -/
theorem Sound.of_standing {operation : Operation Number} {answer : Answer Number} (htrace : replay'.trace = replay.trace)
    (hfailed : replay'.failed = false) (hnext : replay'.nextStream = replay.nextStream)
    (hhandles : handles [(operation, answer)] = [])
    (hstanding : Standing (Opened json) (Converses json) (Performs json) trace.epochs replay'.epoch
      replay'.remaining replay'.streams replay'.nextStream (events ++ [(operation, answer)])) :
    Sound json trace replay' (events ++ [(operation, answer)]) := by
  have hsame : handles (events ++ [(operation, answer)]) = handles events := by
    rw [handles_append, hhandles, List.append_nil]
  exact ⟨htrace.trans hsound.trace_eq, hfailed, hstanding, hsame ▸ hnext ▸ hsound.handles_lt,
    hsame ▸ hsound.handles_nodup⟩

/-- A read that is answered at once. -/
theorem Sound.answer {operation : Operation Number} {answer : Answer Number}
    (hremaining : replay.remaining = front ++ entry :: back)
    (hconverses : Converses json entry [(operation, answer)])
    (hhandles : handles [(operation, answer)] = []) :
    Sound json trace { replay with remaining := front ++ back, calls := calls, failed := false }
      (events ++ [(operation, answer)]) :=
  hsound.of_standing rfl rfl rfl hhandles ((hremaining ▸ hsound.standing).answer hconverses)

theorem Sound.get {arguments : JsonValue Number} (hchecked : Checked json trace) :
    Sound.Next json trace events (.get arguments) (replay.get json arguments) := by
  rw [Replay.get]
  cases htake : replay.takeRead json "1.0/get" arguments with
  | mk taken left =>
    cases taken with
    | error message => exact .inr ⟨message, rfl, takeRead_failed htake⟩
    | ok entry =>
      obtain ⟨front, back, hremaining, hasked, rfl⟩ := takeRead_eq_ok htake
      obtain ⟨_, hcheck⟩ := hsound.checked hchecked hremaining
      obtain ⟨result, hresult⟩ := parse_of_checkRead hcheck
      obtain ⟨hoperation, expected, hexpected, hsame⟩ := asked_iff.mp hasked
      refine .inl ⟨.value result, ?_, ?_⟩
      · dsimp only
        rw [parseResult_eq_ok.mpr hresult]
        rfl
      · exact hsound.answer hremaining (.get hoperation hexpected hsame hresult) rfl

/-- A stream that is opened has a handle that was never used. -/
theorem Sound.opening {query : JsonValue Number} {items : List (JsonValue Number)}
    (hremaining : replay.remaining = front ++ entry :: back)
    (hasked : asked json "1.0/queryStream" (.object [("query", query)]) entry = true)
    (hitems : queryItems json entry = .ok items) :
    Sound json trace
      { replay with
        remaining := front ++ back
        calls := calls
        nextStream := replay.nextStream + 1
        streams := replay.streams.insert replay.nextStream { next := items, consumed := 0 }
        failed := false }
      (events ++ [(.query query false, .stream replay.nextStream)]) := by
  obtain ⟨hoperation, expected, hexpected, hsame⟩ := asked_iff.mp hasked
  have hopened : Opened json entry replay.nextStream { next := items, consumed := 0 }
      [(.query query false, .stream replay.nextStream)] :=
    ⟨expected, query, hoperation, hexpected, hsame, hitems, rfl⟩
  have hhandles : handles (events ++ [(.query query false, .stream replay.nextStream)]) =
      handles events ++ [replay.nextStream] := handles_append ..
  refine ⟨hsound.trace_eq, rfl,
    (hremaining ▸ hsound.standing).opening (Nat.lt_succ_self _) hopened, fun handle hmem => ?_, ?_⟩
  · rw [hhandles] at hmem
    rcases mem_append.mp hmem with hold | hnew
    · exact Nat.lt_succ_of_lt (hsound.handles_lt handle hold)
    · rw [mem_singleton.mp hnew]
      exact Nat.lt_succ_self _
  · rw [hhandles, nodup_append]
    refine ⟨hsound.handles_nodup, nodup_singleton _, fun handle hold other hnew => ?_⟩
    rw [mem_singleton.mp hnew]
    exact (hsound.handles_lt handle hold).ne

theorem Sound.query {query : JsonValue Number} {collect : Bool} :
    Sound.Next json trace events (.query query collect) (replay.query json query collect) := by
  rw [Replay.query]
  cases htake : replay.takeRead json "1.0/queryStream" (.object [("query", query)]) with
  | mk taken left =>
    cases taken with
    | error message => exact .inr ⟨message, rfl, takeRead_failed htake⟩
    | ok entry =>
      obtain ⟨front, back, hremaining, hasked, rfl⟩ := takeRead_eq_ok htake
      dsimp only
      cases hitems : queryItems json entry with
      | error message => exact .inr ⟨message, rfl, rfl⟩
      | ok items =>
        dsimp only
        cases collect with
        | false =>
          rw [if_neg (by decide)]
          split
          · exact .inl ⟨_, rfl, hsound.opening hremaining hasked hitems⟩
          · exact .inr ⟨_, rfl, rfl⟩
        | true =>
          rw [if_pos rfl]
          by_cases hwhole : isWhole items = true
          · rw [if_neg (by simp [hwhole])]
            cases hfound : documents items with
            | none => exact .inr ⟨_, rfl, rfl⟩
            | some found =>
              obtain ⟨hoperation, expected, hexpected, hsame⟩ := asked_iff.mp hasked
              exact .inl ⟨_, rfl, hsound.answer hremaining
                (.bulk hoperation hexpected hsame hitems hwhole hfound) rfl⟩
          · rw [if_pos (by simp [hwhole])]
            exact .inr ⟨_, rfl, rfl⟩

end

variable {handle : ℕ}

section

variable (hsound : Sound json trace replay events)
include hsound

theorem Sound.streamNext :
    Sound.Next json trace events (.streamNext handle) (replay.streamNext handle) := by
  rw [Replay.streamNext, if_neg (by rw [hsound.failed]; exact Bool.false_ne_true)]
  split
  · exact .inr ⟨_, rfl, rfl⟩
  case h_2 stream hstream =>
    split
    · exact .inr ⟨_, rfl, rfl⟩
    case h_2 value hvalue =>
      refine .inl ⟨_, rfl, hsound.of_standing rfl rfl rfl rfl (hsound.standing.advance hstream ?_)⟩
      rintro read part ⟨expected, query, hoperation, hexpected, hsame, hitems, rfl⟩
      refine ⟨expected, query, hoperation, hexpected, hsame, hitems, ?_⟩
      rw [take_add_one, hvalue, map_append]
      rfl

theorem Sound.streamClose :
    Sound.Next json trace events (.streamClose handle) (replay.streamClose handle) := by
  rw [Replay.streamClose, if_neg (by rw [hsound.failed]; exact Bool.false_ne_true)]
  split
  · exact .inr ⟨_, rfl, rfl⟩
  case h_2 stream hstream =>
    split
    · exact .inr ⟨_, rfl, rfl⟩
    case isFalse hread =>
      have hconsumed : stream.consumed = stream.next.length := not_not.mp hread
      refine .inl ⟨_, rfl, hsound.of_standing rfl rfl rfl rfl (hsound.standing.close hstream ?_)⟩
      rintro read part ⟨expected, query, hoperation, hexpected, hsame, hitems, rfl⟩
      rw [hconsumed, take_length]
      exact .stream hoperation hexpected hsame hitems

theorem Sound.write (hchecked : Checked json trace) :
    Sound.Next json trace events (.write operation arguments)
      (replay.write json operation arguments) := by
  rw [Replay.write, if_neg (by rw [hsound.failed]; exact Bool.false_ne_true)]
  split
  · exact .inr ⟨_, rfl, rfl⟩
  case h_2 entry hentry =>
    split
    · exact .inr ⟨_, rfl, rfl⟩
    case isFalse hmatches =>
      split
      · exact .inr ⟨_, rfl, rfl⟩
      case h_2 result hresult =>
        simp only [Bool.or_eq_true, not_or, Bool.not_eq_true, Bool.not_eq_false',
          List.isEmpty_iff] at hmatches
        obtain ⟨⟨hremaining, hstreams⟩, hasked⟩ := hmatches
        obtain ⟨rfl, expected, hexpected, hsame⟩ := asked_iff.mp hasked
        have hperforms : Performs json entry
            (.write entry.operation arguments, .value (writeResult entry.operation result)) :=
          .write hexpected hsame (parseResult_eq_ok.mp hresult)
        obtain rfl := hsound.trace_eq
        exact .inl ⟨_, rfl, hsound.of_standing rfl rfl rfl rfl
          ((hremaining ▸ hsound.standing).nextEpoch hchecked.last hstreams hentry hperforms)⟩

end

theorem Sound.perform (hsound : Sound json trace replay events) (operation : Operation Number)
    (hchecked : Checked json trace) :
    Sound.Next json trace events operation (replay.perform json operation) := by
  cases operation with
  | get arguments => exact hsound.get hchecked
  | query query collect => exact hsound.query
  | streamNext handle => exact hsound.streamNext
  | streamClose handle => exact hsound.streamClose
  | write operation arguments => exact hsound.write hchecked

end Tracking

section Runs

variable {json} {last : Replay Number} {operations : List (Operation Number)}
  {answers : List (Operation Number × Except String (Answer Number))}

/-- A failed replay only fails. -/
theorem perform_failed (hfailed : replay.failed = true) (operation : Operation Number) :
    replay.perform json operation = (.error "Replay has failed", replay) := by
  cases operation with
  | get arguments => simp [Replay.perform, Replay.get, Replay.takeRead, hfailed]
  | query query collect => simp [Replay.perform, Replay.query, Replay.takeRead, hfailed]
  | streamNext handle => simp [Replay.perform, Replay.streamNext, hfailed]
  | streamClose handle => simp [Replay.perform, Replay.streamClose, hfailed]
  | write operation arguments => simp [Replay.perform, Replay.write, hfailed]

theorem run_failed (hfailed : replay.failed = true) (operations : List (Operation Number)) :
    (replay.run json operations).2 = replay := by
  induction operations with
  | nil => rfl
  | cons operation later ih =>
    rw [Replay.run, perform_failed hfailed]
    exact ih

/-- A run either succeeds throughout, in keeping with the trace, or ends failed. -/
theorem Sound.run (hsound : Sound json trace replay events) (hchecked : Checked json trace)
    (hrun : replay.run json operations = (answers, last)) : (∃ further : List (Exchange Number),
      answers = succeeded further ∧
        Sound json trace last (events ++ further)) ∨ last.failed = true := by
  induction operations generalizing replay events answers with
  | nil =>
    cases hrun
    exact .inl ⟨[], rfl, by rwa [List.append_nil]⟩
  | cons operation later ih =>
    have hperform := hsound.perform operation hchecked
    rw [Replay.run] at hrun
    cases hrest : Replay.run json (replay.perform json operation).2 later with
    | mk others final =>
      dsimp only at hrun
      rw [hrest] at hrun
      obtain ⟨rfl, rfl⟩ := Prod.mk.inj hrun
      rcases hperform with ⟨answer, hanswer, hnext⟩ | ⟨message, _, hfailed⟩
      · rcases ih hnext hrest with ⟨further, rfl, hend⟩ | hfailed
        · refine .inl ⟨(operation, answer) :: further, ?_, by simpa using hend⟩
          rw [hanswer]
          rfl
        · exact .inr hfailed
      · have hstuck : (Replay.run json _ later).2 = _ := run_failed hfailed later
        rw [hrest] at hstuck
        exact .inr (hstuck ▸ hfailed)

theorem sound_of_new (hnew : Replay.new json trace = .ok replay) :
    Checked json trace ∧ Sound json trace replay [] := by
  obtain ⟨hchecked, first, later, hepochs, rfl⟩ := new_eq_ok hnew
  exact ⟨hchecked, rfl, rfl, .start hepochs, fun _ hmem => absurd hmem not_mem_nil, nodup_nil⟩

theorem closed_of_finish {calls : ℕ} (hfinish : replay.finish = .ok calls) :
    replay.failed = false ∧ replay.epoch + 1 = replay.trace.epochs.length ∧
      replay.remaining = [] ∧ replay.streams.entries = [] ∧
      replay.calls = replay.trace.calls ∧ replay.calls = calls := by
  rw [Replay.finish] at hfinish
  split at hfinish
  · cases hfinish
  case isFalse hclosed =>
    simp only [Bool.or_eq_true, not_or, Bool.not_eq_true, Bool.not_eq_false', List.isEmpty_iff,
      decide_eq_true_eq, not_not, ne_eq] at hclosed
    obtain ⟨⟨⟨⟨hfailed, hepoch⟩, hremaining⟩, hstreams⟩, hcalls⟩ := hclosed
    exact ⟨hfailed, hepoch, hremaining, hstreams, hcalls, Except.ok.inj hfinish⟩

/-- Whatever a guest does, if the replay ends well then every operation succeeded and
the operations are the captured calls, each once: the reads within their epoch, the
items of every stream in order, and the writes in order. -/
theorem replay_exact {calls : ℕ} (hnew : Replay.new json trace = .ok replay)
    (hrun : replay.run json operations = (answers, last)) (hfinish : last.finish = .ok calls) :
    ∃ exchanges : List (Exchange Number),
      answers = succeeded exchanges ∧
        calls = trace.calls ∧ (handles exchanges).Nodup ∧
        Replays (Converses json) (Performs json) trace.epochs exchanges := by
  obtain ⟨hchecked, hsound⟩ := sound_of_new hnew
  obtain ⟨hfailed, hepoch, hremaining, hstreams, hcount, hcalls⟩ := closed_of_finish hfinish
  rcases hsound.run hchecked hrun with ⟨exchanges, hanswers, hend⟩ | hfail
  · rw [nil_append] at hend
    refine ⟨exchanges, hanswers, ?_, hend.handles_nodup, ?_⟩
    · rw [← hcalls, hcount, hend.trace_eq]
    · exact (hremaining ▸ hend.standing).replays hchecked.last hstreams (hend.trace_eq ▸ hepoch)
  · rw [hfailed] at hfail
    cases hfail

/-- A library that knows the two texts of the trace below. -/
def scheduleJson : SerdeJson ℕ where
  parse
    | "null" => some .null
    | "\"job\"" => some (.string "job")
    | _ => none
  asU64 := some
  sameNumber left right := left = right

def scheduleRead : Entry ℕ :=
  { operation := "1.0/get", arguments := .object [("id", .string "a"), ("version", .string "1")]
    result := "null", next := none, cleanup := none }

def scheduleWrite : Entry ℕ :=
  { operation := "1.0/schedule", arguments := .object [("ts", .number 7)]
    result := "\"job\"", next := none, cleanup := none }

def scheduleTrace : Trace ℕ :=
  { epochs := [⟨[scheduleRead], some scheduleWrite⟩, ⟨[], none⟩], calls := 2 }

def scheduleOperations : List (Operation ℕ) :=
  [.get (.object [("id", .string "a")]), .write "1.0/schedule" (.object [("ts", .number 7)])]

def scheduleReplay : Replay ℕ :=
  { trace := scheduleTrace, epoch := 0, remaining := [scheduleRead], streams := .empty
    nextStream := 1, calls := 0, failed := false }

theorem replay_exact_schedule : ∃ exchanges,
    (scheduleReplay.run scheduleJson scheduleOperations).1 = succeeded exchanges ∧
      2 = scheduleTrace.calls ∧ (handles exchanges).Nodup ∧
      Replays (Converses scheduleJson) (Performs scheduleJson) scheduleTrace.epochs exchanges :=
  replay_exact (show Replay.new scheduleJson scheduleTrace = .ok scheduleReplay from rfl) rfl rfl

end Runs

end ConvexWasm.CapabilityReplay
