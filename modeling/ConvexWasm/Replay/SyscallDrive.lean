import ConvexWasm.Replay.SyscallRuns

/-!
# Driving a replay with the captured calls

A replay that is driven with the captured calls in their order keeps step with the
loop that prepared them.  It answers as recorded as long as the stream calls carry
nothing but their query id.
-/

namespace ConvexWasm.SyscallReplay

open Fallible Function List Option

variable {Number : Type} (json : JsonText Number)

/-- A value with another query id. -/
def renameQuery (id : ℤ) : JsonValue Number → JsonValue Number
  | .object fields => .object (fields.map fun field =>
    (field.1, if field.1 = "queryId" then .number (json.integer id) else field.2))
  | value => value

/-- What is relied on of JSON and its numbers, none of which is NaN. -/
structure JsonText.Lawful : Prop where
  distinct : ∀ text value, json.parse text = some value → value.Distinct
  sameNumber_self : ∀ number, json.sameNumber number number = true
  safeInteger_integer : ∀ id, 0 ≤ id → id ≤ 2 ^ 53 - 1 →
    json.safeInteger (json.integer id) = some id
  writes : ∀ text value id, json.parse text = some value →
    ∃ text', json.parse text' = some (renameQuery json id value)

/-- What a captured call is presented as, given the ids that were handed out. -/
def Presented (ids : ℤ → ℤ) (call : Call) (text : String) : Prop :=
  if isContinuation call.operation then
    ∃ arguments id, json.parse call.arguments = some arguments ∧
      queryId json arguments = some id ∧
      json.parse text = some (renameQuery json (ids id) arguments)
  else text = call.arguments

/-- The id that was handed out for the captured one. -/
def learn (ids : ℤ → ℤ) (call : Call) : Except String Answer → ℤ → ℤ
  | .ok (.query id) =>
    match (json.parse call.result).bind (queryId json) with
    | some captured => update ids captured id
    | none => ids
  | _ => ids

/-- The captured calls are made one after the other. -/
inductive Drives : (ℤ → ℤ) → Replay Number → List Call → List (Call × Except String Answer) →
    Replay Number → Prop
  | done {ids : ℤ → ℤ} {replay : Replay Number} : Drives ids replay [] [] replay
  | call {ids : ℤ → ℤ} {replay last : Replay Number} {call : Call} {text : String}
      {later : List Call} {answers : List (Call × Except String Answer)} :
      Presented json ids call text →
      Drives (learn json ids call (replay.invoke json call.channel call.operation text).1)
        (replay.invoke json call.channel call.operation text).2 later answers last →
      Drives ids replay (call :: later)
        ((call, (replay.invoke json call.channel call.operation text).1) :: answers) last

/-- A recorded text, or the recorded object with the id that was handed out. -/
def AsRecorded (call : Call) : Except String Answer → Prop
  | .ok (.recorded text) => text = call.result
  | .ok (.query id) => ∃ result, json.parse call.result = some result ∧
      renameQuery json id result = .object [("queryId", .number (json.integer id))]
  | _ => False

/-- A stream call has no key but its query id. -/
structure Plain (call : Call) : Prop where
  arguments : isContinuation call.operation = true →
    ∀ arguments, json.parse call.arguments = some arguments → keyCount arguments = some 1
  result : call.operation = "1.0/queryStream" →
    ∀ result, json.parse call.result = some result → keyCount result = some 1

variable {id : ℤ}

section Values

variable {json} {value : JsonValue Number} {captured : ℤ}

theorem exists_fields_of_queryId (hid : queryId json value = some captured) :
    ∃ fields number, value = .object fields ∧ fields.lookup "queryId" = some (.number number) := by
  rw [queryId] at hid
  split at hid
  case h_1 number hfield =>
    cases value with
    | object fields => exact ⟨fields, number, rfl, hfield⟩
    | null => cases hfield
    | boolean _ => cases hfield
    | number _ => cases hfield
    | string _ => cases hfield
    | array _ => cases hfield
  · cases hid

theorem keyCount_renameQuery : keyCount (renameQuery json id value) = keyCount value := by
  cases value with
  | object fields => simp [renameQuery, keyCount]
  | _ => rfl

theorem lookup_rename {fields : List (String × JsonValue Number)} {number : Number}
    (hlookup : fields.lookup "queryId" = some (.number number)) :
    (fields.map fun field =>
      (field.1, if field.1 = "queryId" then JsonValue.number (json.integer id)
        else field.2)).lookup "queryId" = some (.number (json.integer id)) := by
  induction fields with
  | nil => cases hlookup
  | cons field rest ih =>
    obtain ⟨name, found⟩ := field
    rw [map_cons, lookup_cons]
    rw [lookup_cons] at hlookup
    by_cases hname : "queryId" = name
    · subst hname
      simp
    · rw [beq_false_of_ne hname] at hlookup ⊢
      exact ih hlookup

/-- The new id is read back. -/
theorem queryId_renameQuery (hlawful : json.Lawful) (hid : queryId json value = some captured)
    (hnonneg : 0 ≤ id) (hle : id ≤ 2 ^ 53 - 1) :
    queryId json (renameQuery json id value) = some id := by
  obtain ⟨fields, number, rfl, hlookup⟩ := exists_fields_of_queryId hid
  rw [queryId, renameQuery, JsonValue.field, lookup_rename hlookup]
  exact hlawful.safeInteger_integer id hnonneg hle

/-- A result that names a query is the answer of the replay when it has no other
key. -/
theorem renameQuery_eq_iff (id : ℤ) (hid : queryId json value = some captured) :
    renameQuery json id value = .object [("queryId", .number (json.integer id))] ↔
      keyCount value = some 1 := by
  obtain ⟨fields, number, rfl, hlookup⟩ := exists_fields_of_queryId hid
  constructor
  · intro hrename
    have hlength := congrArg List.length (JsonValue.object.inj hrename)
    rw [length_map] at hlength
    rw [keyCount, hlength]
    rfl
  · intro hcount
    obtain ⟨⟨name, found⟩, rfl⟩ := length_eq_one_iff.mp (Option.some.inj hcount)
    rw [lookup_cons] at hlookup
    by_cases hname : "queryId" = name
    · subst hname
      simp [renameQuery]
    · rw [beq_false_of_ne hname] at hlookup
      cases hlookup

end Values

variable {prepared : Prepared Number} {state state' : Preparing Number} {before during : List Call}
  {parts : List (List Call)} {call : Call} {entry : Entry Number} {result : JsonValue Number}
  {count index : ℕ}

section Ahead

/-- An entry as it is later. -/
structure Grows (entry entry' : Entry Number) : Prop where
  operation : entry'.operation = entry.operation
  arguments : entry'.arguments = entry.arguments
  result : entry'.result = entry.result
  next : ∃ more, entry'.next = entry.next ++ more
  cleanup : ∀ text, entry.cleanup = some text →
    entry'.next = entry.next ∧ entry'.cleanup = some text

theorem Grows.refl (entry : Entry Number) : Grows entry entry :=
  ⟨rfl, rfl, rfl, ⟨[], (List.append_nil _).symm⟩, fun _ hcleanup => ⟨rfl, hcleanup⟩⟩

theorem Grows.trans {first second third : Entry Number} (hfirst : Grows first second)
    (hsecond : Grows second third) : Grows first third where
  operation := hsecond.operation.trans hfirst.operation
  arguments := hsecond.arguments.trans hfirst.arguments
  result := hsecond.result.trans hfirst.result
  next := by
    obtain ⟨more, hmore⟩ := hfirst.next
    obtain ⟨later, hlater⟩ := hsecond.next
    exact ⟨more ++ later, by rw [hlater, hmore, append_assoc]⟩
  cleanup := fun text hcleanup => by
    obtain ⟨hnext, hkept⟩ := hfirst.cleanup text hcleanup
    obtain ⟨hlater, hlast⟩ := hsecond.cleanup text hkept
    exact ⟨hlater.trans hnext, hlast⟩

/-- What was prepared in the end goes on from a state of the loop. -/
structure Ahead (prepared : Prepared Number) (state : Preparing Number) : Prop where
  epochs : state.epochs <+: prepared.epochs
  reads : ∀ (position : ℕ) (entry : Entry Number), state.reads[position]? = some entry →
    ∃ entry' : Entry Number, (readsOf prepared state.epochs.length)[position]? = some entry' ∧
      Grows entry entry'

variable {json}

section

variable (hahead : Ahead prepared state') (hepochs : state'.epochs = state.epochs)
include hahead hepochs

/-- A state with the same epochs and reads that have grown since. -/
theorem Ahead.of_grows
    (hreads : ∀ (position : ℕ) (entry : Entry Number), state.reads[position]? = some entry →
      ∃ entry' : Entry Number, state'.reads[position]? = some entry' ∧ Grows entry entry') :
    Ahead prepared state where
  epochs := hepochs ▸ hahead.epochs
  reads := fun position entry hentry => by
    obtain ⟨middle, hmiddle, hgrows⟩ := hreads position entry hentry
    obtain ⟨entry', hentry', hgrows'⟩ := hahead.reads position middle hmiddle
    exact ⟨entry', hepochs ▸ hentry', hgrows.trans hgrows'⟩

theorem Ahead.of_append (hreads : state'.reads = state.reads ++ [entry]) :
    Ahead prepared state := by
  refine hahead.of_grows hepochs fun position found hfound => ⟨found, ?_, .refl found⟩
  rw [hreads, List.getElem?_append_left (List.getElem?_eq_some_iff.mp hfound).1, hfound]

theorem Ahead.of_modify {position : ℕ} {change : Entry Number → Entry Number}
    (hreads : state'.reads = state.reads.modify position change)
    (hchange : ∀ entry, state.reads[position]? = some entry → Grows entry (change entry)) :
    Ahead prepared state := by
  refine hahead.of_grows hepochs fun place found hfound => ?_
  rw [hreads]
  by_cases hplace : position = place
  · subst hplace
    refine ⟨change found, ?_, hchange found hfound⟩
    rw [List.getElem?_modify_eq, hfound]
    rfl
  · refine ⟨found, ?_, .refl found⟩
    rw [List.getElem?_modify_ne _ _ hplace, hfound]

end

theorem epoch_of_prefix {epochs : List (Epoch (Entry Number) (Entry Number))}
    {epoch : Epoch (Entry Number) (Entry Number)} (hfront : epochs ++ [epoch] <+: prepared.epochs) :
    prepared.epochs[epochs.length]? = some epoch := by
  obtain ⟨later, hlater⟩ := hfront
  rw [← hlater, append_assoc]
  simp

theorem Ahead.of_write (hahead : Ahead prepared state')
    (hepochs : state'.epochs = state.epochs ++ [⟨state.reads, some entry⟩]) :
    Ahead prepared state where
  epochs := (prefix_append _ _).trans (hepochs ▸ hahead.epochs)
  reads := fun position found hfound => by
    refine ⟨found, ?_, .refl found⟩
    rw [readsOf, epoch_of_prefix (hepochs ▸ hahead.epochs)]
    exact hfound

/-- An open query has not been closed. -/
theorem OpenCapture.grows {id : ℤ} {part : List Call} {entry' : Entry Number}
    (hopen : OpenCapture json id entry part)
    (hchange : (∃ text, entry' = { entry with next := entry.next ++ [text] }) ∨
      ∃ text, entry' = { entry with cleanup := some text }) : Grows entry entry' := by
  obtain ⟨_, _, _, _, _, _, hcleanup⟩ := hopen
  rcases hchange with ⟨text, hchange⟩ | ⟨text, hchange⟩
  · rw [hchange]
    exact ⟨rfl, rfl, rfl, ⟨[text], rfl⟩, fun _ hsome => by rw [hcleanup] at hsome; cases hsome⟩
  · rw [hchange]
    exact ⟨rfl, rfl, rfl, ⟨[], (List.append_nil _).symm⟩,
      fun _ hsome => by rw [hcleanup] at hsome; cases hsome⟩

variable (hgrouped : Grouped json state before during parts)
include hgrouped

theorem Ahead.of_prepares (hprepares : Prepares json state call entry result state')
    (hahead : Ahead prepared state') : Ahead prepared state := by
  cases hprepares with
  | get _ hok =>
    obtain ⟨_, rfl⟩ := prepareGet_eq_ok hok
    exact hahead.of_append rfl rfl
  | start _ hok =>
    obtain ⟨_, _, _, _, rfl⟩ := prepareStart_eq_ok hok
    exact hahead.of_append rfl rfl
  | next _ hok =>
    obtain ⟨id, position, completed, _, _, hget, rfl⟩ := prepareNext_eq_ok hok
    obtain ⟨found, part, hfound, _, hopen⟩ := hgrouped.opened id position completed hget
    refine hahead.of_modify rfl rfl fun other hother => ?_
    obtain rfl := Option.some.inj (hfound.symm.trans hother)
    exact hopen.grows (.inl ⟨_, rfl⟩)
  | cleanup _ hok =>
    obtain ⟨id, position, completed, _, _, hget, rfl⟩ := prepareCleanup_eq_ok hok
    obtain ⟨found, part, hfound, _, hopen⟩ := hgrouped.opened id position completed hget
    refine hahead.of_modify rfl rfl fun other hother => ?_
    obtain rfl := Option.some.inj (hfound.symm.trans hother)
    exact hopen.grows (.inr ⟨_, rfl⟩)
  | write _ hok =>
    obtain ⟨_, _, rfl⟩ := prepareWrite_eq_ok hok
    exact hahead.of_write rfl

theorem Ahead.of_calls {calls : List Call}
    (hprepare : prepareCalls json count index calls state = .ok state')
    (hahead : Ahead prepared state') : Ahead prepared state := by
  induction calls generalizing state before during parts index with
  | nil =>
    cases hprepare
    exact hahead
  | cons call later ih =>
    obtain ⟨next, hnext, hprepare⟩ := bind_eq_ok.mp hprepare
    obtain ⟨before', during', parts', _, hgrouped'⟩ := hgrouped.step hnext
    obtain ⟨_, _, _, _, hprepares⟩ := prepares_of_prepareCall hnext
    exact .of_prepares hgrouped hprepares (ih hgrouped' hprepare)

end Ahead

variable {replay : Replay Number} {ids : ℤ → ℤ} {text : String}

section Steps

/-- The query of the replay is at the item that the loop has come to. -/
def SameItem (prepared : Prepared Number) (state : Preparing Number) (place : ℕ × ℤ)
    (query : OpenQuery Number) : Prop :=
  ∃ entry entry' : Entry Number, state.reads[place.1]? = some entry ∧
    (readsOf prepared state.epochs.length)[place.1]? = some entry' ∧
    query = ⟨entry', entry.next.length⟩

/-- The replay stands where the loop stands: the reads still to come are those that
the loop has not seen, and the open queries are at the same item. -/
structure InStep (prepared : Prepared Number) (state : Preparing Number) (replay : Replay Number)
    (ids : ℤ → ℤ) (count : ℕ) : Prop where
  source : replay.prepared = prepared
  failure : replay.failure = none
  epochIndex : replay.epochIndex = state.epochs.length
  remaining : replay.remaining = (readsOf prepared state.epochs.length).drop state.reads.length
  calls : replay.calls = count
  nextQuery : 1 ≤ replay.nextQuery ∧ replay.nextQuery ≤ count + 1
  opened : state.queries.Matches ids (SameItem prepared state) replay.queries
  handed : ∀ id ∈ state.queries.keys, 0 ≤ ids id ∧ ids id < replay.nextQuery

/-- A call is answered as it was recorded exactly when it is plain, and then the
replay stays in step. -/
def StepsAlong (prepared : Prepared Number) (state' : Preparing Number) (call : Call)
    (ids : ℤ → ℤ) (count : ℕ) (outcome : Except String Answer × Replay Number) : Prop :=
  (Plain json call → AsRecorded json call outcome.1 ∧
    InStep prepared state' outcome.2 (learn json ids call outcome.1) (count + 1)) ∧
  (AsRecorded json call outcome.1 → Plain json call)

variable {json} {entry' : Entry Number} {operation channel : String} {arguments : JsonValue Number}

theorem invoke_eq (hfailure : replay.failure = none) (hparse : json.parse text = some arguments)
    (hchannel : channel = channelOf operation) :
    replay.invoke json channel operation text =
      if isContinuation operation then
        Replay.invokeOpen json { replay with calls := replay.calls + 1 } operation arguments
      else if isRead operation then
        Replay.invokeRead json { replay with calls := replay.calls + 1 } operation arguments
      else Replay.invokeWrite json { replay with calls := replay.calls + 1 } operation arguments := by
  rw [invoke_of_open hfailure, hparse]
  exact if_neg (not_not.mpr hchannel)

section SameItem

variable {place : ℕ × ℤ} {query : OpenQuery Number} (hitem : SameItem prepared state place query)
  (hepochs : state'.epochs = state.epochs)
include hitem hepochs

theorem SameItem.of_append (hreads : state'.reads = state.reads ++ [entry]) :
    SameItem prepared state' place query := by
  obtain ⟨found, found', hfound, hfound', rfl⟩ := hitem
  refine ⟨found, found', ?_, hepochs ▸ hfound', rfl⟩
  rw [hreads, List.getElem?_append_left (List.getElem?_eq_some_iff.mp hfound).1, hfound]

theorem SameItem.of_modify {position : ℕ} {change : Entry Number → Entry Number}
    (hreads : state'.reads = state.reads.modify position change) (hne : position ≠ place.1) :
    SameItem prepared state' place query := by
  obtain ⟨found, found', hfound, hfound', rfl⟩ := hitem
  refine ⟨found, found', ?_, hepochs ▸ hfound', rfl⟩
  rw [hreads, List.getElem?_modify_ne _ _ hne, hfound]

end SameItem

theorem asked_grows (hlawful : json.Lawful) (hgrows : Grows entry entry')
    (hrecords : Records json entry call) :
    asked json call.operation entry.arguments entry' = true := by
  rw [asked_iff, hgrows.arguments, ← hrecords.operation]
  exact ⟨hgrows.operation,
    JsonValue.same_self hlawful.sameNumber_self _ (hlawful.distinct _ _ hrecords.arguments)⟩

/-- A new entry of the loop is the next that the replay has left. -/
theorem InStep.next_entry (hlawful : json.Lawful) (hin : InStep prepared state replay ids count)
    (hahead : Ahead prepared state') (hrecords : Records json entry call)
    (hepochs : state'.epochs = state.epochs) (hreads : state'.reads = state.reads ++ [entry]) :
    ∃ entry', Grows entry entry' ∧
      (readsOf prepared state.epochs.length)[state.reads.length]? = some entry' ∧
      takeFirst (asked json call.operation entry.arguments) replay.remaining =
        some (entry', (readsOf prepared state.epochs.length).drop (state.reads.length + 1)) := by
  have hlast : state'.reads[state.reads.length]? = some entry := by
    rw [hreads]
    exact List.getElem?_concat_length
  obtain ⟨entry', hentry', hgrows⟩ := hahead.reads _ _ hlast
  rw [hepochs] at hentry'
  obtain ⟨hlt, hget⟩ := List.getElem?_eq_some_iff.mp hentry'
  refine ⟨entry', hgrows, hentry', ?_⟩
  rw [hin.remaining, drop_eq_getElem_cons hlt, hget, takeFirst,
    if_pos (asked_grows hlawful hgrows hrecords)]

theorem plain_of_operation (hcontinuation : isContinuation call.operation = false)
    (hstream : call.operation ≠ "1.0/queryStream") : Plain json call where
  arguments := fun htrue => by
    rw [hcontinuation] at htrue
    cases htrue
  result := fun heq => absurd heq hstream

theorem InStep.get (hlawful : json.Lawful) (hin : InStep prepared state replay ids count)
    (hahead : Ahead prepared state') (hrecords : Records json entry call)
    (hoperation : call.operation = "1.0/get")
    (hok : prepareGet call (state.seen call) entry = .ok state') :
    StepsAlong json prepared state' call ids count
      (replay.invoke json call.channel call.operation call.arguments) := by
  obtain ⟨_, rfl⟩ := prepareGet_eq_ok hok
  obtain ⟨entry', hgrows, _, htaken⟩ := hin.next_entry hlawful hahead hrecords rfl rfl
  rw [invoke_eq hin.failure hrecords.arguments hrecords.channel]
  rw [hoperation] at htaken ⊢
  rw [if_neg (by decide), if_pos (by decide), Replay.invokeRead, htaken]
  dsimp only
  have hplain : Plain json call :=
    plain_of_operation (by rw [hoperation]; decide) (by rw [hoperation]; decide)
  refine ⟨fun _ => ⟨hgrows.result.trans hrecords.result, ?_⟩, fun _ => hplain⟩
  exact
    { hin with
      remaining := by
        rw [length_append, length_singleton]
        rfl
      calls := congrArg (· + 1) hin.calls
      nextQuery := ⟨hin.nextQuery.1, hin.nextQuery.2.trans (by omega)⟩
      opened := hin.opened.mono fun _ _ hitem => hitem.of_append rfl rfl }

theorem InStep.start (hlawful : json.Lawful) (hin : InStep prepared state replay ids count)
    (hahead : Ahead prepared state') (hrecords : Records json entry call)
    (hoperation : call.operation = "1.0/queryStream")
    (hresult : json.parse call.result = some result) (hnext : entry.next = [])
    (hok : prepareStart json call (state.seen call) entry result = .ok state') :
    StepsAlong json prepared state' call ids count
      (replay.invoke json call.channel call.operation call.arguments) := by
  obtain ⟨id, hid, _, hfresh, rfl⟩ := prepareStart_eq_ok hok
  obtain ⟨entry', hgrows, hentry', htaken⟩ := hin.next_entry hlawful hahead hrecords rfl rfl
  rw [invoke_eq hin.failure hrecords.arguments hrecords.channel]
  rw [hoperation] at htaken ⊢
  rw [if_neg (by decide), if_pos (by decide), Replay.invokeRead, htaken]
  dsimp only
  rw [if_pos rfl]
  have hrecorded : AsRecorded json call (.ok (.query replay.nextQuery)) ↔
      keyCount result = some 1 := by
    rw [← renameQuery_eq_iff replay.nextQuery hid, AsRecorded]
    constructor
    · rintro ⟨found, hfound, hrename⟩
      obtain rfl := Option.some.inj (hresult.symm.trans hfound)
      exact hrename
    · exact fun hrename => ⟨result, hresult, hrename⟩
  have hplain : Plain json call ↔ keyCount result = some 1 := by
    constructor
    · exact fun hplain => hplain.result hoperation result hresult
    · intro hcount
      refine ⟨fun hcontinuation => ?_, fun _ found hfound => ?_⟩
      · rw [hoperation] at hcontinuation
        exact absurd hcontinuation (by decide)
      · obtain rfl := Option.some.inj (hresult.symm.trans hfound)
        exact hcount
  have hlearn : learn json ids call (.ok (.query replay.nextQuery)) =
      update ids id replay.nextQuery := by
    rw [learn, hresult, bind_some, hid]
  have hnew : id ∉ state.queries.keys := KeyedMap.get?_eq_none_iff.mp hfresh
  have hbounds := hin.nextQuery
  refine ⟨fun hgood => ⟨hrecorded.mpr (hplain.mp hgood), ?_⟩, fun hrec =>
    hplain.mpr (hrecorded.mp hrec)⟩
  rw [hlearn]
  exact
    { hin with
      remaining := by
        rw [length_append, length_singleton]
        rfl
      calls := congrArg (· + 1) hin.calls
      nextQuery := by
        dsimp only
        omega
      opened := hin.opened.insert (fun _ _ _ _ _ hitem => hitem.of_append rfl rfl)
        (fun hopen => absurd hopen hnew) (fun other hother _ => (hin.handed other hother).2.ne)
        ⟨entry, entry', List.getElem?_concat_length, hentry', by rw [hnext]; rfl⟩
      handed := fun other hother => by
        obtain rfl | hopen := KeyedMap.mem_keys_insert.mp hother
        · rw [update_self]
          dsimp only
          omega
        · rw [update_of_ne (ne_of_mem_of_not_mem hopen hnew)]
          have hold := hin.handed other hopen
          dsimp only
          omega }

section Continuations

variable {position : ℕ} {completed : ℤ}

/-- More keys than the query id are refused. -/
theorem not_asRecorded_of_keys (hid : queryId json arguments = some id)
    (hkeys : keyCount arguments ≠ some 1) (other : ℤ) :
    ¬ AsRecorded json call (Replay.invokeOpen json replay operation
      (renameQuery json other arguments)).1 := by
  obtain ⟨fields, number, rfl, _⟩ := exists_fields_of_queryId hid
  have hlength : fields.length ≠ 1 := fun heq => hkeys (by rw [keyCount, heq])
  rw [Replay.invokeOpen, keyCount_renameQuery, keyCount]
  dsimp only
  rw [if_pos hlength]
  exact fun hfalse => hfalse

theorem plain_iff_of_continuation (hcontinuation : isContinuation call.operation = true)
    (hparse : json.parse call.arguments = some arguments) :
    Plain json call ↔ keyCount arguments = some 1 := by
  constructor
  · exact fun hplain => hplain.arguments hcontinuation arguments hparse
  · intro hkeys
    refine ⟨fun _ found hfound => ?_, fun hstream => ?_⟩
    · obtain rfl := Option.some.inj (hparse.symm.trans hfound)
      exact hkeys
    · rw [hstream] at hcontinuation
      exact absurd hcontinuation (by decide)

/-- Two open queries are at different entries. -/
theorem Grouped.position_ne {before during : List Call} {parts : List (List Call)} {other : ℤ}
    {place : ℕ × ℤ} (hgrouped : Grouped json state before during parts)
    (hget : state.queries.get? id = some (position, completed))
    (hother : state.queries.get? other = some place) (hne : other ≠ id) : position ≠ place.1 := by
  rintro rfl
  obtain ⟨_, part, _, hpart, hopen⟩ := hgrouped.opened id _ completed hget
  obtain ⟨_, part', _, hpart', hopen'⟩ := hgrouped.opened other _ _ hother
  obtain rfl := Option.some.inj (hpart.symm.trans hpart')
  exact hne (hopen'.id_eq hopen)

section

variable {before during : List Call} {parts : List (List Call)} {change : Entry Number → Entry Number}
  (hlawful : json.Lawful) (hgrouped : Grouped json state before during parts)
  (hin : InStep prepared state replay ids count) (hcount : count < 2 ^ 32)
  (hahead : Ahead prepared state') (hrecords : Records json entry call)
  (hpresented : Presented json ids call text)
include hlawful hgrouped hin hcount hahead hrecords hpresented

/-- A continuation goes on with the query that the loop has open, or is refused
for a second key.  The entry of the loop changes as the replay's has in the end. -/
theorem InStep.continuation (hcontinuation : isContinuation call.operation = true)
    (hid : queryId json entry.arguments = some id)
    (hget : state.queries.get? id = some (position, completed))
    (hepochs : state'.epochs = state.epochs)
    (hreads : state'.reads = state.reads.modify position change)
    (hanswer : ∀ (found found' : Entry Number) (outcome : Except String Answer × Replay Number),
      Grows (change found) found' → state'.reads[position]? = some (change found) →
      (readsOf prepared state'.epochs.length)[position]? = some found' →
      (∀ other place item, other ≠ id → state.queries.get? other = some place →
        SameItem prepared state place item → SameItem prepared state' place item) →
      outcome = (if call.operation = "1.0/queryStreamNext" then
        Replay.invokeNext { replay with calls := replay.calls + 1 }
          ⟨found', found.next.length⟩ (ids id)
      else
        Replay.invokeCleanup { replay with calls := replay.calls + 1 }
          ⟨found', found.next.length⟩ (ids id)) →
      AsRecorded json call outcome.1 ∧
        InStep prepared state' outcome.2 (learn json ids call outcome.1) (count + 1)) :
    StepsAlong json prepared state' call ids count
      (replay.invoke json call.channel call.operation text) := by
  rw [Presented, if_pos hcontinuation] at hpresented
  obtain ⟨arguments, id', harguments, hid', hparse⟩ := hpresented
  obtain rfl := Option.some.inj (hrecords.arguments.symm.trans harguments)
  obtain rfl := Option.some.inj (hid.symm.trans hid')
  have hplain := plain_iff_of_continuation hcontinuation hrecords.arguments
  rw [invoke_eq hin.failure hparse hrecords.channel, if_pos hcontinuation]
  by_cases hkeys : keyCount entry.arguments = some 1
  · obtain ⟨_, hquery, found, found', hfound, hfound', rfl⟩ := hin.opened.related id _ hget
    have hbounds := hin.handed id (KeyedMap.mem_keys_of_get? hget)
    have hlimit := hin.nextQuery.2
    have hrenamed : queryId json (renameQuery json (ids id) entry.arguments) = some (ids id) :=
      queryId_renameQuery hlawful hid hbounds.1 (by omega)
    have hchanged : state'.reads[position]? = some (change found) := by
      rw [hreads, List.getElem?_modify_eq, hfound]
      rfl
    obtain ⟨last, hlast, hgrows⟩ := hahead.reads position _ hchanged
    rw [← hepochs] at hfound'
    obtain rfl := Option.some.inj (hfound'.symm.trans hlast)
    rw [Replay.invokeOpen, keyCount_renameQuery, hkeys]
    dsimp only
    rw [if_neg (not_not.mpr rfl), hrenamed]
    dsimp only
    rw [hquery]
    exact ⟨fun _ => hanswer found found' _ hgrows hchanged hfound'
      (fun _ _ _ hne hother hitem => hitem.of_modify hepochs hreads
        (hgrouped.position_ne hget hother hne)) rfl, fun _ => hplain.mpr hkeys⟩
  · refine ⟨fun hgood => absurd (hplain.mp hgood) hkeys, fun hrecorded => ?_⟩
    exact absurd hrecorded (not_asRecorded_of_keys hid hkeys _)

theorem InStep.next (hoperation : call.operation = "1.0/queryStreamNext")
    (hok : prepareNext json call (state.seen call) entry.arguments result = .ok state') :
    StepsAlong json prepared state' call ids count
      (replay.invoke json call.channel call.operation text) := by
  obtain ⟨id, position, completed, hid, _, hget, rfl⟩ := prepareNext_eq_ok hok
  have hstate : state.queries.get? id = some (position, completed) := hget
  refine hin.continuation hlawful hgrouped hcount hahead hrecords hpresented
    (by rw [hoperation]; decide) hid hstate rfl rfl
    fun found found' outcome hgrows hchanged hfound' hothers houtcome => ?_
  subst houtcome
  -- the item is there since the loop has just put it there
  have hitem : found'.next[found.next.length]? = some call.result := by
    obtain ⟨more, hmore⟩ := hgrows.next
    rw [hmore]
    simp
  rw [if_pos hoperation, Replay.invokeNext]
  rw [hitem]
  refine ⟨rfl, ?_⟩
  have hself := KeyedMap.mem_keys_of_get? hstate
  exact
    { hin with
      remaining := by
        rw [length_modify]
        exact hin.remaining
      calls := congrArg (· + 1) hin.calls
      nextQuery := ⟨hin.nextQuery.1, hin.nextQuery.2.trans (by omega)⟩
      opened := hin.opened.replace hothers hself ⟨_, found', hchanged, hfound', by simp⟩
      handed := fun other hother => by
        obtain rfl | hopen := KeyedMap.mem_keys_insert.mp hother
        · exact hin.handed _ hself
        · exact hin.handed other hopen }

theorem InStep.cleanup (hoperation : call.operation = "1.0/queryCleanup")
    (hok : prepareCleanup json call (state.seen call) entry.arguments = .ok state') :
    StepsAlong json prepared state' call ids count
      (replay.invoke json call.channel call.operation text) := by
  obtain ⟨id, position, completed, hid, _, hget, rfl⟩ := prepareCleanup_eq_ok hok
  have hstate : state.queries.get? id = some (position, completed) := hget
  refine hin.continuation hlawful hgrouped hcount hahead hrecords hpresented
    (by rw [hoperation]; decide) hid hstate rfl rfl
    fun found found' outcome hgrows _ _ hothers houtcome => ?_
  subst houtcome
  -- the loop has closed the entry, so that no item comes later
  have hclosed := hgrows.cleanup call.result rfl
  rw [if_neg (by rw [hoperation]; decide), Replay.invokeCleanup]
  rw [hclosed.1, if_neg (not_not.mpr rfl), hclosed.2]
  refine ⟨rfl, ?_⟩
  exact
    { hin with
      remaining := by
        rw [length_modify]
        exact hin.remaining
      calls := congrArg (· + 1) hin.calls
      nextQuery := ⟨hin.nextQuery.1, hin.nextQuery.2.trans (by omega)⟩
      opened := hin.opened.erase hothers (KeyedMap.mem_keys_of_get? hstate)
      handed := fun other hother => hin.handed other (KeyedMap.mem_keys_erase.mp hother).1 }

end

end Continuations

theorem InStep.write (hlawful : json.Lawful) (hin : InStep prepared state replay ids count)
    (hahead : Ahead prepared state') (hrecords : Records json entry call)
    (hcontinuation : isContinuation call.operation = false) (hread : isRead call.operation = false)
    (hok : prepareWrite call (state.seen call) entry = .ok state') :
    StepsAlong json prepared state' call ids count
      (replay.invoke json call.channel call.operation call.arguments) := by
  obtain ⟨_, hclosed, rfl⟩ := prepareWrite_eq_ok hok
  have hepoch : prepared.epochs[state.epochs.length]? = some ⟨state.reads, some entry⟩ :=
    epoch_of_prefix hahead.epochs
  have hreads : readsOf prepared state.epochs.length = state.reads := by
    rw [readsOf, hepoch]
    rfl
  have hremaining : replay.remaining = [] := by
    rw [hin.remaining, hreads, drop_length]
  have hqueries : replay.queries.entries = [] := hin.opened.entries_eq_nil hclosed
  have hasked := asked_grows hlawful (.refl entry) hrecords
  have hwrite : replay.prepared.epochs[replay.epochIndex]?.bind (·.write) = some entry := by
    rw [hin.source, hin.epochIndex, hepoch]
    rfl
  have hstream : call.operation ≠ "1.0/queryStream" := by
    intro heq
    rw [heq] at hread
    exact absurd hread (by decide)
  rw [invoke_eq hin.failure hrecords.arguments hrecords.channel, hcontinuation, hread,
    if_neg Bool.false_ne_true, if_neg Bool.false_ne_true, Replay.invokeWrite]
  rw [hwrite]
  dsimp only
  rw [hremaining, hqueries, hasked, if_neg (by simp)]
  refine ⟨fun _ => ⟨hrecords.result, ?_⟩, fun _ => plain_of_operation hcontinuation hstream⟩
  have hepochs : (state.epochs ++ [Epoch.mk state.reads (some entry)]).length =
      state.epochs.length + 1 := by
    rw [length_append, length_singleton]
  exact
    { hin with
      epochIndex := (congrArg (· + 1) hin.epochIndex).trans hepochs.symm
      remaining := by
        change readsOf replay.prepared (replay.epochIndex + 1) =
          readsOf prepared (state.epochs ++ [Epoch.mk state.reads (some entry)]).length
        rw [hepochs, hin.source, hin.epochIndex]
      calls := congrArg (· + 1) hin.calls
      nextQuery := ⟨hin.nextQuery.1, hin.nextQuery.2.trans (by omega)⟩
      opened := .of_empty hclosed hqueries
      handed := hin.handed }

end Steps

section Drives

variable {json} {last : Replay Number} {total : ℕ} {calls : List Call}
  {answers : List (Call × Except String Answer)}

theorem isContinuation_of_write (hoperation : writeOperations.contains call.operation = true) :
    isContinuation call.operation = false ∧ isRead call.operation = false := by
  have hmem : call.operation ∈ writeOperations := contains_iff_mem.mp hoperation
  constructor
  · cases hcontinuation : isContinuation call.operation with
    | false => rfl
    | true =>
      simp only [isContinuation, Bool.or_eq_true, decide_eq_true_eq] at hcontinuation
      rcases hcontinuation with heq | heq <;> rw [heq] at hmem <;> exact absurd hmem (by decide)
  · cases hread : isRead call.operation with
    | false => rfl
    | true =>
      simp only [isRead, Bool.or_eq_true, decide_eq_true_eq] at hread
      rcases hread with heq | heq <;> rw [heq] at hmem <;> exact absurd hmem (by decide)

section

variable (hlawful : json.Lawful) (hgrouped : Grouped json state before during parts)
  (hin : InStep prepared state replay ids count)
include hlawful hgrouped hin

theorem InStep.step (hcount : count < 2 ^ 32) (hahead : Ahead prepared state')
    (hprepare : prepareCall json call state total index = .ok state')
    (hpresented : Presented json ids call text) :
    StepsAlong json prepared state' call ids count
      (replay.invoke json call.channel call.operation text) := by
  obtain ⟨arguments, result, harguments, hresult, hprepares⟩ := prepares_of_prepareCall hprepare
  have hrecords : Records json
      { operation := call.operation, arguments, result := call.result } call :=
    ⟨rfl, harguments, rfl, hprepares.channel⟩
  cases hprepares with
  | get hoperation hok =>
    rw [Presented, hoperation, if_neg (by decide)] at hpresented
    subst hpresented
    exact hin.get hlawful hahead hrecords hoperation hok
  | start hoperation hok =>
    rw [Presented, hoperation, if_neg (by decide)] at hpresented
    subst hpresented
    exact hin.start hlawful hahead hrecords hoperation hresult rfl hok
  | next hoperation hok =>
    exact hin.next hlawful hgrouped hcount hahead hrecords hpresented hoperation hok
  | cleanup hoperation hok =>
    exact hin.cleanup hlawful hgrouped hcount hahead hrecords hpresented hoperation hok
  | write hoperation hok =>
    obtain ⟨hcontinuation, hread⟩ := isContinuation_of_write hoperation
    rw [Presented, hcontinuation, if_neg Bool.false_ne_true] at hpresented
    subst hpresented
    exact hin.write hlawful hahead hrecords hcontinuation hread hok

/-- Driving the calls that are left. -/
theorem Drives.inStep (hcount : count + calls.length < 2 ^ 32)
    (hprepare : prepareCalls json total index calls state = .ok state')
    (hahead : Ahead prepared state') (hdrives : Drives json ids replay calls answers last) :
    ((∀ pair ∈ answers, AsRecorded json pair.1 pair.2) ↔ ∀ call ∈ calls, Plain json call) ∧
      ((∀ call ∈ calls, Plain json call) →
        ∃ ids', InStep prepared state' last ids' (count + calls.length)) := by
  induction hdrives generalizing state before during parts count index with
  | done =>
    cases hprepare
    refine ⟨⟨fun _ _ hmem => absurd hmem not_mem_nil,
      fun _ _ hmem => absurd hmem not_mem_nil⟩, fun _ => ⟨_, hin⟩⟩
  | @call ids replay last call text later answers hpresented _ ih =>
    obtain ⟨next, hnext, hprepare⟩ := bind_eq_ok.mp hprepare
    obtain ⟨before', during', parts', _, hgrouped'⟩ := hgrouped.step hnext
    have haheadNext : Ahead prepared next := .of_calls hgrouped' hprepare hahead
    rw [length_cons] at hcount
    obtain ⟨hplain, hrecorded⟩ := hin.step hlawful hgrouped (by omega) haheadNext hnext hpresented
    constructor
    · constructor
      · intro hall
        obtain ⟨hfirst, hrest⟩ := forall_mem_cons.mp hall
        have hgood := hrecorded hfirst
        have hlater := ih hgrouped' (hplain hgood).2 (by omega) hprepare
        exact forall_mem_cons.mpr ⟨hgood, hlater.1.mp hrest⟩
      · intro hall
        obtain ⟨hfirst, hrest⟩ := forall_mem_cons.mp hall
        obtain ⟨hanswer, hin'⟩ := hplain hfirst
        have hlater := ih hgrouped' hin' (by omega) hprepare
        exact forall_mem_cons.mpr ⟨hanswer, hlater.1.mpr hrest⟩
    · intro hall
      obtain ⟨hfirst, hrest⟩ := forall_mem_cons.mp hall
      have hlater := ih hgrouped' (hplain hfirst).2 (by omega) hprepare
      obtain ⟨ids', hend⟩ := hlater.2 hrest
      refine ⟨ids', ?_⟩
      rw [length_cons, show count + (later.length + 1) = count + 1 + later.length by omega]
      exact hend

end

/-- There is always a way to present the calls. -/
theorem exists_drives (hlawful : json.Lawful) (ids : ℤ → ℤ) (replay : Replay Number)
    (hprepare : prepareCalls json total index calls state = .ok state') :
    ∃ answers last, Drives json ids replay calls answers last := by
  induction calls generalizing state index ids replay with
  | nil => exact ⟨[], replay, .done⟩
  | cons call later ih =>
    obtain ⟨next, hnext, hprepare⟩ := bind_eq_ok.mp hprepare
    obtain ⟨arguments, _, harguments, _, hprepares⟩ := prepares_of_prepareCall hnext
    have hqueryId : isContinuation call.operation = true →
        ∃ id, queryId json arguments = some id := by
      intro hcontinuation
      cases hprepares with
      | get hoperation _ =>
        rw [hoperation] at hcontinuation
        exact absurd hcontinuation (by decide)
      | start hoperation _ =>
        rw [hoperation] at hcontinuation
        exact absurd hcontinuation (by decide)
      | next _ hok =>
        obtain ⟨id, _, _, hid, _⟩ := prepareNext_eq_ok hok
        exact ⟨id, hid⟩
      | cleanup _ hok =>
        obtain ⟨id, _, _, hid, _⟩ := prepareCleanup_eq_ok hok
        exact ⟨id, hid⟩
      | write hoperation _ =>
        rw [(isContinuation_of_write hoperation).1] at hcontinuation
        cases hcontinuation
    obtain ⟨text, hpresented⟩ : ∃ text, Presented json ids call text := by
      by_cases hcontinuation : isContinuation call.operation = true
      · obtain ⟨id, hid⟩ := hqueryId hcontinuation
        obtain ⟨text, htext⟩ := hlawful.writes _ _ (ids id) harguments
        refine ⟨text, ?_⟩
        rw [Presented, if_pos hcontinuation]
        exact ⟨arguments, id, harguments, hid, htext⟩
      · refine ⟨call.arguments, ?_⟩
        rw [Presented, if_neg hcontinuation]
    obtain ⟨answers, last, hdrives⟩ := ih _ _ hprepare
    exact ⟨_, last, .call hpresented hdrives⟩

end Drives

end ConvexWasm.SyscallReplay
