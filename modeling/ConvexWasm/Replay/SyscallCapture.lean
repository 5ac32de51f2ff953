import ConvexWasm.Replay.Syscall

/-!
# What a prepared capture is made of

The captured calls of an epoch are the conversations of its reads, interleaved, and
its write.  This is kept while the calls are sorted one by one.
-/

namespace ConvexWasm.SyscallReplay

open Fallible List

variable {Number : Type} (json : JsonText Number)

/-- A call that becomes an entry. -/
structure Records (entry : Entry Number) (call : Call) : Prop where
  operation : entry.operation = call.operation
  arguments : json.parse call.arguments = some entry.arguments
  result : entry.result = call.result
  channel : call.channel = channelOf call.operation

/-- A call on an open query. -/
structure ContinuesQuery (operation : String) (id : ℤ) (call : Call) : Prop where
  operation : call.operation = operation
  channel : call.channel = channelOf call.operation
  queryId : ∃ arguments, json.parse call.arguments = some arguments ∧
    queryId json arguments = some id

/-- The call that opened a query. -/
structure StartsQuery (entry : Entry Number) (id : ℤ) (call : Call) : Prop where
  records : Records json entry call
  operation : call.operation = "1.0/queryStream"
  queryId : ∃ result, json.parse call.result = some result ∧ queryId json result = some id

/-- The captured calls of a read. -/
inductive Captured (entry : Entry Number) : List Call → Prop
  | get {call : Call} : Records json entry call → call.operation = "1.0/get" →
      entry.next = [] → entry.cleanup = none → Captured entry [call]
  | stream {start cleanup : Call} {nexts : List Call} {id : ℤ} :
      StartsQuery json entry id start →
      (∀ next ∈ nexts, ContinuesQuery json "1.0/queryStreamNext" id next) →
      ContinuesQuery json "1.0/queryCleanup" id cleanup →
      entry.next = nexts.map (·.result) → entry.cleanup = some cleanup.result →
      Captured entry (start :: nexts ++ [cleanup])

/-- The captured calls of a query that is open. -/
def OpenCapture (id : ℤ) (entry : Entry Number) (part : List Call) : Prop :=
  ∃ start nexts, part = start :: nexts ∧ StartsQuery json entry id start ∧
    (∀ next ∈ nexts, ContinuesQuery json "1.0/queryStreamNext" id next) ∧
    entry.next = nexts.map (·.result) ∧ entry.cleanup = none

/-- The captured call of a write. -/
structure CapturedWrite (entry : Entry Number) (call : Call) : Prop where
  records : Records json entry call
  operation : writeOperations.contains call.operation = true

variable {state state' : Preparing Number} {before during : List Call} {parts : List (List Call)}
  {call : Call}

section Grouping

/-- The calls so far, sorted into the epochs that are over and the parts of the reads
of the current one. -/
structure Grouped (state : Preparing Number) (before during : List Call)
    (parts : List (List Call)) : Prop where
  played : Played (Captured json) (CapturedWrite json) state.epochs before
  merged : Interleaving parts during
  length : parts.length = state.reads.length
  opened : ∀ id position completed, state.queries.get? id = some (position, completed) →
    ∃ entry part, state.reads[position]? = some entry ∧ parts[position]? = some part ∧
      OpenCapture json id entry part
  closed : ∀ position entry part, state.reads[position]? = some entry →
    parts[position]? = some part →
    Captured json entry part ∨ ∃ id completed, state.queries.get? id = some (position, completed)

variable {json} {entry : Entry Number} {id : ℤ}

/-- The id of an open query is that of its start. -/
theorem OpenCapture.id_eq {other : ℤ} {part : List Call} {entry' : Entry Number}
    (hopen : OpenCapture json id entry part) (hother : OpenCapture json other entry' part) :
    id = other := by
  obtain ⟨start, nexts, rfl, hstart, _⟩ := hopen
  obtain ⟨start', nexts', hpart, hstart', _⟩ := hother
  obtain ⟨rfl, _⟩ := List.cons.inj hpart
  obtain ⟨result, hresult, hid⟩ := hstart.queryId
  obtain ⟨result', hresult', hid'⟩ := hstart'.queryId
  obtain rfl := Option.some.inj (hresult.symm.trans hresult')
  exact Option.some.inj (hid.symm.trans hid')

/-- A new entry stands at the end of the reads. -/
theorem Grouped.append (hgrouped : Grouped json state before during parts)
    (hepochs : state'.epochs = state.epochs) (hreads : state'.reads = state.reads ++ [entry])
    (hold : ∀ id position completed, state.queries.get? id = some (position, completed) →
      state'.queries.get? id = some (position, completed))
    (hnew : ∀ id position completed, state'.queries.get? id = some (position, completed) →
      state.queries.get? id = some (position, completed) ∨
        position = state.reads.length ∧ OpenCapture json id entry [call])
    (hentry : Captured json entry [call] ∨
      ∃ id completed, state'.queries.get? id = some (state.reads.length, completed)) :
    Grouped json state' before (during ++ [call]) (parts ++ [[call]]) where
  played := hepochs ▸ hgrouped.played
  merged := hgrouped.merged.append_singleton
  length := by simp [hreads, hgrouped.length]
  opened := fun id position completed hget => by
    rw [hreads]
    rcases hnew id position completed hget with hbefore | ⟨rfl, hopen⟩
    · obtain ⟨found, part, hfound, hpart, hopen⟩ := hgrouped.opened id position completed hbefore
      refine ⟨found, part, ?_, ?_, hopen⟩
      · rw [List.getElem?_append_left (List.getElem?_eq_some_iff.mp hfound).1, hfound]
      · rw [List.getElem?_append_left (List.getElem?_eq_some_iff.mp hpart).1, hpart]
    · refine ⟨entry, [call], List.getElem?_concat_length, ?_, hopen⟩
      rw [← hgrouped.length]
      exact List.getElem?_concat_length
  closed := fun position found part hfound hpart => by
    rw [hreads] at hfound
    by_cases hlt : position < state.reads.length
    · rw [List.getElem?_append_left hlt] at hfound
      rw [List.getElem?_append_left (hgrouped.length ▸ hlt)] at hpart
      rcases hgrouped.closed position found part hfound hpart with hcaptured | ⟨id, completed, hget⟩
      · exact .inl hcaptured
      · exact .inr ⟨id, completed, hold id position completed hget⟩
    · have hposition : position = state.reads.length := by
        have hbound := (List.getElem?_eq_some_iff.mp hfound).1
        rw [length_append, length_singleton] at hbound
        omega
      subst hposition
      obtain rfl := Option.some.inj (List.getElem?_concat_length.symm.trans hfound)
      rw [← hgrouped.length] at hpart
      obtain rfl := Option.some.inj (List.getElem?_concat_length.symm.trans hpart)
      exact hentry

/-- The entry of an open query grows with its part. -/
theorem Grouped.set {position : ℕ} {completed : ℤ} {change : Entry Number → Entry Number}
    (hgrouped : Grouped json state before during parts)
    (hget : state.queries.get? id = some (position, completed))
    (hepochs : state'.epochs = state.epochs)
    (hreads : state'.reads = state.reads.modify position change)
    (hothers : ∀ other, other ≠ id → state'.queries.get? other = state.queries.get? other)
    (hchange : ∀ entry part, OpenCapture json id entry part →
      (∃ completed', state'.queries.get? id = some (position, completed') ∧
        OpenCapture json id (change entry) (part ++ [call])) ∨
      state'.queries.get? id = none ∧ Captured json (change entry) (part ++ [call])) :
    ∃ parts', Grouped json state' before (during ++ [call]) parts' := by
  obtain ⟨entry, part, hentry, hpart, hopen⟩ := hgrouped.opened id position completed hget
  have hchanged := hchange entry part hopen
  have hentry' : state'.reads[position]? = some (change entry) := by
    rw [hreads, List.getElem?_modify_eq, hentry]
    rfl
  have hpart' : (parts.set position (part ++ [call]))[position]? = some (part ++ [call]) := by
    rw [List.getElem?_set_self (List.getElem?_eq_some_iff.mp hpart).1]
  -- no other query is open at this position
  have hunique : ∀ other completed', state.queries.get? other = some (position, completed') →
      other = id := by
    intro other completed' hother
    obtain ⟨found, found', hfound, hfound', hopen'⟩ :=
      hgrouped.opened other position completed' hother
    obtain rfl := Option.some.inj (hpart.symm.trans hfound')
    exact hopen'.id_eq hopen
  refine ⟨parts.set position (part ++ [call]), ?_⟩
  exact
    { played := hepochs ▸ hgrouped.played
      merged := hgrouped.merged.set hpart
      length := by simp [hreads, hgrouped.length]
      opened := fun other place completed' hother => by
        by_cases hid : other = id
        · subst hid
          rcases hchanged with ⟨completed'', hsome, hopen'⟩ | ⟨hnone, _⟩
          · obtain ⟨rfl, _⟩ := Prod.mk.inj (Option.some.inj (hsome.symm.trans hother))
            exact ⟨change entry, part ++ [call], hentry', hpart', hopen'⟩
          · rw [hnone] at hother
            cases hother
        · rw [hothers other hid] at hother
          have hplace : position ≠ place := by
            rintro rfl
            exact hid (hunique other completed' hother)
          obtain ⟨found, found', hfound, hfound', hopen'⟩ :=
            hgrouped.opened other place completed' hother
          refine ⟨found, found', ?_, ?_, hopen'⟩
          · rw [hreads, List.getElem?_modify_ne _ _ hplace, hfound]
          · rw [List.getElem?_set_ne hplace, hfound']
      closed := fun place found found' hfound hfound' => by
        by_cases hplace : position = place
        · subst hplace
          obtain rfl := Option.some.inj (hentry'.symm.trans hfound)
          obtain rfl := Option.some.inj (hpart'.symm.trans hfound')
          rcases hchanged with ⟨completed', hsome, _⟩ | ⟨_, hcaptured⟩
          · exact .inr ⟨id, completed', hsome⟩
          · exact .inl hcaptured
        · rw [hreads, List.getElem?_modify_ne _ _ hplace] at hfound
          rw [List.getElem?_set_ne hplace] at hfound'
          rcases hgrouped.closed place found found' hfound hfound' with
            hcaptured | ⟨other, completed', hother⟩
          · exact .inl hcaptured
          · refine .inr ⟨other, completed', ?_⟩
            rw [hothers other ?_, hother]
            rintro rfl
            obtain ⟨rfl, _⟩ := Prod.mk.inj (Option.some.inj (hget.symm.trans hother))
            exact hplace rfl }

theorem parseReplayJson_eq_ok {text : String} {value : JsonValue Number} :
    parseReplayJson json text = .ok value ↔ json.parse text = some value := by
  rw [parseReplayJson]
  cases json.parse text with
  | none => simp
  | some found => simp

/-- Taking note of the events of a call changes nothing here. -/
theorem Grouped.of_eq (hgrouped : Grouped json state before during parts)
    (hepochs : state'.epochs = state.epochs) (hreads : state'.reads = state.reads)
    (hqueries : state'.queries = state.queries) : Grouped json state' before during parts where
  played := hepochs ▸ hgrouped.played
  merged := hgrouped.merged
  length := hreads ▸ hgrouped.length
  opened := by rw [hqueries, hreads]; exact hgrouped.opened
  closed := by rw [hqueries, hreads]; exact hgrouped.closed

theorem prepareGet_eq_ok (hprepare : prepareGet call state entry = .ok state') :
    call.channel = "asyncSyscall" ∧ state' = { state with
      reads := state.reads ++ [entry]
      lastReadCompletion := max state.lastReadCompletion call.completedEvent } := by
  rw [prepareGet] at hprepare
  split at hprepare
  · cases hprepare
  case isFalse hchannel =>
    split at hprepare
    · cases hprepare
    · cases hprepare
      exact ⟨not_not.mp hchannel, rfl⟩

theorem Grouped.get (hgrouped : Grouped json state before during parts)
    (hrecords : Records json entry call) (hoperation : call.operation = "1.0/get")
    (hnext : entry.next = []) (hcleanup : entry.cleanup = none)
    (hprepare : prepareGet call state entry = .ok state') :
    ∃ parts', Grouped json state' before (during ++ [call]) parts' := by
  obtain ⟨_, rfl⟩ := prepareGet_eq_ok hprepare
  exact ⟨_, hgrouped.append rfl rfl (fun _ _ _ hget => hget) (fun _ _ _ hget => .inl hget)
    (.inl (.get hrecords hoperation hnext hcleanup))⟩

theorem prepareStart_eq_ok {result : JsonValue Number}
    (hprepare : prepareStart json call state entry result = .ok state') :
    ∃ id, queryId json result = some id ∧ call.channel = "syscall" ∧
      state.queries.get? id = none ∧ state' = { state with
        reads := state.reads ++ [entry]
        queries := state.queries.insert id (state.reads.length, call.completedEvent) } := by
  rw [prepareStart] at hprepare
  split at hprepare
  · cases hprepare
  case h_2 id hid =>
    split at hprepare
    · cases hprepare
    case isFalse hvalid =>
      split at hprepare
      · cases hprepare
      · cases hprepare
        rw [not_or, not_not] at hvalid
        refine ⟨id, hid, hvalid.1, ?_, rfl⟩
        rw [KeyedMap.get?_eq_none_iff, ← KeyedMap.containsKey_iff]
        exact hvalid.2

theorem Grouped.start {result : JsonValue Number} (hgrouped : Grouped json state before during parts)
    (hrecords : Records json entry call) (hoperation : call.operation = "1.0/queryStream")
    (hresult : json.parse call.result = some result)
    (hnext : entry.next = []) (hcleanup : entry.cleanup = none)
    (hprepare : prepareStart json call state entry result = .ok state') :
    ∃ parts', Grouped json state' before (during ++ [call]) parts' := by
  obtain ⟨id, hid, _, hfresh, rfl⟩ := prepareStart_eq_ok hprepare
  have hopen : OpenCapture json id entry [call] :=
    ⟨call, [], rfl, ⟨hrecords, hoperation, result, hresult, hid⟩,
      fun _ hmem => absurd hmem not_mem_nil, hnext, hcleanup⟩
  have hother : ∀ other, other ≠ id →
      (state.queries.insert id (state.reads.length, call.completedEvent)).get? other =
        state.queries.get? other := fun other hne => KeyedMap.get?_insert_of_ne hne
  refine ⟨_, hgrouped.append rfl rfl ?_ ?_ (.inr ⟨id, call.completedEvent, ?_⟩)⟩
  · intro other position completed hget
    have hne : other ≠ id := by
      rintro rfl
      rw [hfresh] at hget
      cases hget
    exact (hother other hne).trans hget
  · intro other position completed hget
    by_cases hne : other = id
    · subst hne
      have hself := KeyedMap.get?_insert_self.symm.trans hget
      obtain ⟨rfl, _⟩ := Prod.mk.inj (Option.some.inj hself)
      exact .inr ⟨rfl, hopen⟩
    · exact .inl ((hother other hne).symm.trans hget)
  · exact KeyedMap.get?_insert_self

theorem prepareNext_eq_ok {arguments result : JsonValue Number}
    (hprepare : prepareNext json call state arguments result = .ok state') :
    ∃ id position completed, queryId json arguments = some id ∧ call.channel = "asyncSyscall" ∧
      state.queries.get? id = some (position, completed) ∧ state' = { state with
        reads := state.reads.modify position fun entry =>
          { entry with next := entry.next ++ [call.result] }
        queries := state.queries.insert id (position, call.completedEvent)
        lastReadCompletion := max state.lastReadCompletion call.completedEvent } := by
  rw [prepareNext] at hprepare
  split at hprepare
  · cases hprepare
  case h_2 id hid =>
    split at hprepare
    · cases hprepare
    case h_2 position completed hget =>
      split at hprepare
      · cases hprepare
      case isFalse hvalid =>
        cases hprepare
        rw [not_or, not_not] at hvalid
        exact ⟨id, position, completed, hid, hvalid.1, hget, rfl⟩

theorem Grouped.next {arguments result : JsonValue Number}
    (hgrouped : Grouped json state before during parts)
    (hchannel : call.channel = channelOf call.operation)
    (hoperation : call.operation = "1.0/queryStreamNext")
    (harguments : json.parse call.arguments = some arguments)
    (hprepare : prepareNext json call state arguments result = .ok state') :
    ∃ parts', Grouped json state' before (during ++ [call]) parts' := by
  obtain ⟨id, position, completed, hid, _, hget, rfl⟩ := prepareNext_eq_ok hprepare
  refine hgrouped.set hget rfl rfl (fun other hne => KeyedMap.get?_insert_of_ne hne) ?_
  rintro entry part ⟨start, nexts, rfl, hstart, hnexts, hnext, hcleanup⟩
  refine .inl ⟨call.completedEvent, KeyedMap.get?_insert_self, start, nexts ++ [call], rfl,
    ⟨⟨hstart.records.operation, hstart.records.arguments, hstart.records.result,
      hstart.records.channel⟩,
      hstart.operation, hstart.queryId⟩, ?_, ?_, hcleanup⟩
  · intro next hmem
    rcases mem_append.mp hmem with hold | hnew
    · exact hnexts next hold
    · rw [mem_singleton.mp hnew]
      exact ⟨hoperation, hchannel, arguments, harguments, hid⟩
  · rw [map_append, hnext]
    rfl

theorem prepareCleanup_eq_ok {arguments : JsonValue Number}
    (hprepare : prepareCleanup json call state arguments = .ok state') :
    ∃ id position completed, queryId json arguments = some id ∧ call.channel = "syscall" ∧
      state.queries.get? id = some (position, completed) ∧ state' = { state with
        reads := state.reads.modify position fun entry =>
          { entry with cleanup := some call.result }
        queries := state.queries.erase id } := by
  rw [prepareCleanup] at hprepare
  split at hprepare
  · cases hprepare
  case h_2 id hid =>
    split at hprepare
    · cases hprepare
    case h_2 position completed hget =>
      split at hprepare
      · cases hprepare
      case isFalse hvalid =>
        cases hprepare
        rw [not_or, not_not] at hvalid
        exact ⟨id, position, completed, hid, hvalid.1, hget, rfl⟩

theorem Grouped.cleanup {arguments : JsonValue Number}
    (hgrouped : Grouped json state before during parts)
    (hchannel : call.channel = channelOf call.operation)
    (hoperation : call.operation = "1.0/queryCleanup")
    (harguments : json.parse call.arguments = some arguments)
    (hprepare : prepareCleanup json call state arguments = .ok state') :
    ∃ parts', Grouped json state' before (during ++ [call]) parts' := by
  obtain ⟨id, position, completed, hid, _, hget, rfl⟩ := prepareCleanup_eq_ok hprepare
  refine hgrouped.set hget rfl rfl (fun other hne => KeyedMap.get?_erase_of_ne hne) ?_
  rintro entry part ⟨start, nexts, rfl, hstart, hnexts, hnext, _⟩
  refine .inr ⟨KeyedMap.get?_erase_self, .stream ?_ hnexts
    ⟨hoperation, hchannel, arguments, harguments, hid⟩ hnext rfl⟩
  exact ⟨⟨hstart.records.operation, hstart.records.arguments, hstart.records.result,
      hstart.records.channel⟩,
    hstart.operation, hstart.queryId⟩

/-- With no open query the parts are the conversations of the reads. -/
theorem Grouped.covers (hgrouped : Grouped json state before during parts)
    (hqueries : state.queries.entries = []) : Covers (Captured json) state.reads during := by
  refine ⟨parts, List.forall₂_iff_get.mpr ⟨hgrouped.length.symm, ?_⟩, hgrouped.merged⟩
  intro position hread hpart
  rcases hgrouped.closed position _ _ (List.getElem?_eq_getElem hread)
    (List.getElem?_eq_getElem hpart) with hcaptured | ⟨id, completed, hget⟩
  · exact hcaptured
  · rw [KeyedMap.entries_eq_nil_iff.mp hqueries id] at hget
    cases hget

theorem prepareWrite_eq_ok (hprepare : prepareWrite call state entry = .ok state') :
    call.channel = "asyncSyscall" ∧ state.queries.entries = [] ∧ state' = { state with
      epochs := state.epochs ++ [⟨state.reads, some entry⟩]
      reads := []
      lastWriteCompletion := max state.lastWriteCompletion call.completedEvent } := by
  rw [prepareWrite] at hprepare
  split at hprepare
  · cases hprepare
  case isFalse hvalid =>
    cases hprepare
    rw [not_or, not_or, not_not] at hvalid
    refine ⟨hvalid.1, ?_, rfl⟩
    simpa using hvalid.2.1

theorem Grouped.write (hgrouped : Grouped json state before during parts)
    (hrecords : Records json entry call)
    (hoperation : writeOperations.contains call.operation = true)
    (hprepare : prepareWrite call state entry = .ok state') :
    Grouped json state' (before ++ (during ++ [call])) [] [] := by
  obtain ⟨_, hqueries, rfl⟩ := prepareWrite_eq_ok hprepare
  exact
    { played := hgrouped.played.write (hgrouped.covers hqueries) ⟨hrecords, hoperation⟩
      merged := .done fun _ hmem => absurd hmem not_mem_nil
      length := rfl
      opened := fun id position completed hget => by
        rw [KeyedMap.entries_eq_nil_iff.mp hqueries id] at hget
        cases hget
      closed := fun position entry part hentry => by
        cases hentry }

end Grouping

section Captures

variable {json} {count index : ℕ}

/-- The state that has taken note of the events of a call. -/
def Preparing.seen (state : Preparing Number) (call : Call) : Preparing Number :=
  { state with
    lastStart := call.startedEvent
    events := call.completedEvent :: call.startedEvent :: state.events }

/-- Which operations there are, and what is done with each. -/
inductive Prepares (json : JsonText Number) (state : Preparing Number) (call : Call)
    (entry : Entry Number) (result : JsonValue Number) (state' : Preparing Number) : Prop
  | get : call.operation = "1.0/get" → prepareGet call (state.seen call) entry = .ok state' →
      Prepares json state call entry result state'
  | start : call.operation = "1.0/queryStream" →
      prepareStart json call (state.seen call) entry result = .ok state' →
      Prepares json state call entry result state'
  | next : call.operation = "1.0/queryStreamNext" →
      prepareNext json call (state.seen call) entry.arguments result = .ok state' →
      Prepares json state call entry result state'
  | cleanup : call.operation = "1.0/queryCleanup" →
      prepareCleanup json call (state.seen call) entry.arguments = .ok state' →
      Prepares json state call entry result state'
  | write : writeOperations.contains call.operation = true →
      prepareWrite call (state.seen call) entry = .ok state' →
      Prepares json state call entry result state'

theorem prepares_of_prepareCall (hprepare : prepareCall json call state count index = .ok state') :
    ∃ arguments result, json.parse call.arguments = some arguments ∧
      json.parse call.result = some result ∧
      Prepares json state call
        { operation := call.operation, arguments, result := call.result } result state' := by
  rw [prepareCall] at hprepare
  split at hprepare
  · cases hprepare
  · obtain ⟨arguments, harguments, hprepare⟩ := bind_eq_ok.mp hprepare
    obtain ⟨result, hresult, hprepare⟩ := bind_eq_ok.mp hprepare
    refine ⟨arguments, result, parseReplayJson_eq_ok.mp harguments,
      parseReplayJson_eq_ok.mp hresult, ?_⟩
    split at hprepare
    case isTrue hoperation => exact .get hoperation hprepare
    · split at hprepare
      case isTrue hoperation => exact .start hoperation hprepare
      · split at hprepare
        case isTrue hoperation => exact .next hoperation hprepare
        · split at hprepare
          case isTrue hoperation => exact .cleanup hoperation hprepare
          · split at hprepare
            case isTrue hoperation => exact .write hoperation hprepare
            · cases hprepare

/-- Every captured call came through the channel of its operation. -/
theorem Prepares.channel {entry : Entry Number} {result : JsonValue Number}
    (hprepares : Prepares json state call entry result state') :
    call.channel = channelOf call.operation := by
  cases hprepares with
  | get hoperation hok =>
    rw [hoperation]
    exact (prepareGet_eq_ok hok).1
  | start hoperation hok =>
    obtain ⟨_, _, hchannel, _⟩ := prepareStart_eq_ok hok
    rw [hoperation]
    exact hchannel
  | next hoperation hok =>
    obtain ⟨_, _, _, _, hchannel, _⟩ := prepareNext_eq_ok hok
    rw [hoperation]
    exact hchannel
  | cleanup hoperation hok =>
    obtain ⟨_, _, _, _, hchannel, _⟩ := prepareCleanup_eq_ok hok
    rw [hoperation]
    exact hchannel
  | write hoperation hok =>
    obtain ⟨hchannel, _⟩ := prepareWrite_eq_ok hok
    rw [hchannel, channelOf, if_neg]
    intro hsynchronous
    simp only [Bool.or_eq_true, decide_eq_true_eq] at hsynchronous
    rcases hsynchronous with heq | heq
    · rw [heq] at hoperation
      exact absurd hoperation (by decide)
    · rw [heq] at hoperation
      exact absurd hoperation (by decide)

theorem Grouped.step (hgrouped : Grouped json state before during parts)
    (hprepare : prepareCall json call state count index = .ok state') :
    ∃ before' during' parts', before' ++ during' = before ++ during ++ [call] ∧
      Grouped json state' before' during' parts' := by
  obtain ⟨arguments, result, harguments, hresult, hcases⟩ := prepares_of_prepareCall hprepare
  have hseen : Grouped json (state.seen call) before during parts := hgrouped.of_eq rfl rfl rfl
  have hrecords : Records json
      { operation := call.operation, arguments, result := call.result } call :=
    ⟨rfl, harguments, rfl, hcases.channel⟩
  have hassoc : before ++ (during ++ [call]) = before ++ during ++ [call] :=
    (append_assoc _ _ _).symm
  have hchannel := hcases.channel
  cases hcases with
  | get hoperation hok =>
    obtain ⟨parts', hparts⟩ := hseen.get hrecords hoperation rfl rfl hok
    exact ⟨_, _, parts', hassoc, hparts⟩
  | start hoperation hok =>
    obtain ⟨parts', hparts⟩ := hseen.start hrecords hoperation hresult rfl rfl hok
    exact ⟨_, _, parts', hassoc, hparts⟩
  | next hoperation hok =>
    obtain ⟨parts', hparts⟩ := hseen.next hchannel hoperation harguments hok
    exact ⟨_, _, parts', hassoc, hparts⟩
  | cleanup hoperation hok =>
    obtain ⟨parts', hparts⟩ := hseen.cleanup hchannel hoperation harguments hok
    exact ⟨_, _, parts', hassoc, hparts⟩
  | write hoperation hok =>
    exact ⟨_, [], [], by simp, hseen.write hrecords hoperation hok⟩

theorem Grouped.calls {calls : List Call} (hgrouped : Grouped json state before during parts)
    (hprepare : prepareCalls json count index calls state = .ok state') :
    ∃ before' during' parts', before' ++ during' = before ++ during ++ calls ∧
      Grouped json state' before' during' parts' := by
  induction calls generalizing state before during parts index with
  | nil =>
    cases hprepare
    exact ⟨before, during, parts, (List.append_nil _).symm, hgrouped⟩
  | cons call later ih =>
    obtain ⟨next, hnext, hprepare⟩ := bind_eq_ok.mp hprepare
    obtain ⟨before', during', parts', heq, hgrouped'⟩ := hgrouped.step hnext
    obtain ⟨before'', during'', parts'', heq', hfinal⟩ := ih hgrouped' hprepare
    refine ⟨before'', during'', parts'', ?_, hfinal⟩
    rw [heq', heq]
    simp

theorem grouped_initial : Grouped json ({} : Preparing Number) [] [] [] where
  played := .start
  merged := .done fun _ hmem => absurd hmem not_mem_nil
  length := rfl
  opened := fun _ _ _ hget => by cases hget
  closed := fun _ _ _ hentry => by cases hentry

theorem prepare_eq_ok {capture : Capture} {prepared : Prepared Number}
    (hprepare : prepareConvexWasmSyscallReplay json capture = .ok prepared) :
    ∃ state, prepareCalls json capture.calls.length 0 capture.calls {} = .ok state ∧
      state.queries.entries = [] ∧
      prepared = { epochs := state.epochs ++ [⟨state.reads, none⟩]
                   calls := capture.calls.length } := by
  obtain ⟨state, hstate, hprepare⟩ := bind_eq_ok.mp hprepare
  split at hprepare
  · cases hprepare
  case isFalse hclosed =>
    cases hprepare
    exact ⟨state, hstate, by simpa using hclosed, rfl⟩

/-- The captured calls are the conversations of the prepared reads and the prepared
writes, epoch by epoch. -/
theorem replays_of_prepare {capture : Capture} {prepared : Prepared Number}
    (hprepare : prepareConvexWasmSyscallReplay json capture = .ok prepared) :
    Replays (Captured json) (CapturedWrite json) prepared.epochs capture.calls := by
  obtain ⟨state, hstate, hqueries, rfl⟩ := prepare_eq_ok hprepare
  obtain ⟨before, during, parts, hcalls, hgrouped⟩ := grouped_initial.calls hstate
  have hlast : Replays (Captured json) (CapturedWrite json) [⟨state.reads, none⟩] during :=
    .last (hgrouped.covers hqueries)
  have hall := hgrouped.played.replays hlast
  rw [hcalls] at hall
  exact hall

end Captures

end ConvexWasm.SyscallReplay
