import ConvexWasm.Replay.CapabilityRuns

/-!
# Queries as a whole and item by item

A captured stream that was read to its end answers a query as a whole as well.  The
documents are those of the stream, and the replay goes on as after the last item.
-/

namespace ConvexWasm.CapabilityReplay

open Fallible List

variable {Number : Type} {json : SerdeJson Number}

/-- The items of a checked stream have documents, and only the last may be the end. -/
theorem items_of_checkNext {done : Bool} {texts : List String}
    (hcheck : checkNext json done texts = .ok ()) :
    ∃ items, texts.mapM (parseResult json) = .ok items ∧ (done = true → items = []) ∧
      (∀ item ∈ items, ∃ document, item.field "value" = some document) ∧
      ∀ item ∈ items.dropLast, doneFlag item = some false := by
  induction texts generalizing done with
  | nil => exact ⟨[], rfl, fun _ => rfl, by simp, by simp⟩
  | cons text later ih =>
    obtain ⟨item, hitem, hcheck⟩ := bind_eq_ok.mp hcheck
    split at hcheck
    · cases hcheck
    case isFalse hopen =>
      split at hcheck
      · cases hcheck
      case h_2 finished hflag =>
        split at hcheck
        · cases hcheck
        case h_2 document hdocument =>
          split at hcheck
          · cases hcheck
          · obtain ⟨items, hitems, hend, hdocuments, hflags⟩ := ih hcheck
            refine ⟨item :: items, ?_, ?_, forall_mem_cons.mpr ⟨⟨document, hdocument⟩,
              hdocuments⟩, ?_⟩
            · rw [mapM_cons, hitem, hitems]
              rfl
            · intro hdone
              simp [hdone] at hopen
            · cases items with
              | nil => simp
              | cons next rest =>
                have hgoes : finished = false := by
                  by_contra hfinished
                  exact cons_ne_nil _ _ (hend (by simpa using hfinished))
                exact forall_mem_cons.mpr ⟨hgoes ▸ hflag, hflags⟩

theorem items_of_checkRead {read : Entry Number} {count : ℕ}
    (hcheck : checkRead json read = .ok count) (hoperation : read.operation = "1.0/queryStream") :
    ∃ items, queryItems json read = .ok items ∧
      (∀ item ∈ items, ∃ document, item.field "value" = some document) ∧
      ∀ item ∈ items.dropLast, doneFlag item = some false := by
  obtain ⟨_, _, hcheck⟩ := bind_eq_ok.mp hcheck
  obtain ⟨result, _, hcheck⟩ := bind_eq_ok.mp hcheck
  rw [hoperation, if_neg (by decide), if_pos rfl, checkQuery] at hcheck
  split at hcheck
  · cases hcheck
  · split at hcheck
    · cases hcheck
    · cases hcheck
    case h_3 next cleanup hnext hcleanup =>
      obtain ⟨_, _, hcheck⟩ := bind_eq_ok.mp hcheck
      split at hcheck
      · cases hcheck
      · obtain ⟨_, hitems, _⟩ := bind_eq_ok.mp hcheck
        obtain ⟨items, hparsed, _, hdocuments⟩ := items_of_checkNext hitems
        exact ⟨items, by rw [queryItems, hnext]; exact hparsed, hdocuments⟩

theorem exists_documents {items : List (JsonValue Number)}
    (hdocuments : ∀ item ∈ items, ∃ document, item.field "value" = some document) :
    ∃ found, documents items = some found := by
  rw [documents]
  have hkept : ∀ item ∈ items.filter fun value => doneFlag value = some false,
      ∃ document, item.field "value" = some document :=
    fun item hitem => hdocuments item (mem_of_mem_filter hitem)
  generalize items.filter (fun value => doneFlag value = some false) = kept at hkept
  induction kept with
  | nil => exact ⟨[], rfl⟩
  | cons item later ih =>
    obtain ⟨⟨document, hdocument⟩, hlater⟩ := forall_mem_cons.mp hkept
    obtain ⟨found, hfound⟩ := ih hlater
    exact ⟨document :: found, by rw [mapM_cons, hdocument, hfound]; rfl⟩

section Streams

variable (replay : Replay Number) (handle : ℕ) (items : List (JsonValue Number))

/-- The replay with a stream of which so many items were read. -/
def Replay.reading (consumed : ℕ) : Replay Number :=
  { replay with
    streams := replay.streams.insert handle { next := items, consumed }
    calls := replay.calls + consumed
    failed := false }

variable {replay handle items}

/-- Reading on to the end of a stream and closing it. -/
theorem run_reading {consumed : ℕ} {later : List (JsonValue Number)}
    (hlater : items.drop consumed = later) (hlength : consumed + later.length = items.length)
    (hfresh : handle ∉ replay.streams.keys) :
    (replay.reading handle items consumed).run json
        (replicate later.length (.streamNext handle) ++ [.streamClose handle]) =
      (later.map (fun item => (.streamNext handle, .ok (.value item))) ++
          [(.streamClose handle, .ok .closed)],
        { replay with calls := replay.calls + (items.length + 1), failed := false }) := by
  have hget : (replay.reading handle items consumed).streams.get? handle =
      some { next := items, consumed } := KeyedMap.get?_insert_self
  induction later generalizing consumed with
  | nil =>
    have hclose : (replay.reading handle items consumed).streamClose handle = (.ok .closed,
        { replay with calls := replay.calls + (items.length + 1), failed := false }) := by
      rw [Replay.streamClose, if_neg (by simp [Replay.reading]), hget]
      have hread : consumed = items.length := hlength
      simp only [hread, ne_eq, not_true_eq_false, if_false]
      simp only [Replay.reading, KeyedMap.erase_insert_of_fresh hfresh]
      rfl
    rw [length_nil, replicate_zero, nil_append, Replay.run, Replay.perform, hclose]
    rfl
  | cons item later ih =>
    have hitem : items[consumed]? = some item := by
      rw [← Nat.add_zero consumed, ← getElem?_drop, hlater]
      rfl
    have hnext : (replay.reading handle items consumed).streamNext handle =
        (.ok (.value item), replay.reading handle items (consumed + 1)) := by
      rw [Replay.streamNext, if_neg (by simp [Replay.reading]), hget]
      simp only [hitem]
      simp only [Replay.reading, KeyedMap.insert_insert]
      rfl
    have hrest : items.drop (consumed + 1) = later := by
      rw [← tail_drop, hlater, tail_cons]
    rw [length_cons] at hlength
    rw [length_cons, replicate_succ, cons_append, Replay.run, Replay.perform, hnext]
    simp only
    rw [ih hrest (by omega) KeyedMap.get?_insert_self]
    rfl

end Streams

/-- The operations that read a query of so many items as a stream. -/
def streamed (query : JsonValue Number) (handle length : ℕ) : List (Operation Number) :=
  .query query false :: (replicate length (.streamNext handle) ++ [.streamClose handle])

/-- A whole query is answered by the documents of its stream and leaves what the stream
leaves but for the handle.  A stream that was not read to its end is refused. -/
def BulkAgrees (json : SerdeJson Number) (replay : Replay Number) (query : JsonValue Number)
    (entry : Entry Number) : Prop :=
  ∃ items found collected, queryItems json entry = .ok items ∧
    documents items = some found ∧ (∀ item ∈ items.dropLast, doneFlag item = some false) ∧
    (isWhole items = true →
      replay.query json query true = (.ok (.documents found), collected) ∧
      if replay.nextStream + 1 < 2 ^ 32 then
        replay.run json (streamed query replay.nextStream items.length) =
          ((.query query false, .ok (.stream replay.nextStream)) ::
            (items.map (fun item => (.streamNext replay.nextStream, .ok (.value item))) ++
              [(.streamClose replay.nextStream, .ok .closed)]),
            { collected with nextStream := replay.nextStream + 1 })
      else (replay.query json query false).1 = .error "Replay query handle overflow") ∧
    (isWhole items = false →
      replay.query json query true =
          (.error "A partial stream cannot supply a bulk replay result", collected) ∧
        collected.failed = true)

variable {trace : Trace Number} {start replay : Replay Number} {query : JsonValue Number}
  {operations : List (Operation Number)} {entry : Entry Number} {rest : List (Entry Number)}

/-- In every replay that has not failed, the first captured query that is asked for is
answered as a whole as it is item by item. -/
theorem bulk_agrees_with_stream (hnew : Replay.new json trace = .ok start)
    (hrun : (start.run json operations).2 = replay) (hfailed : replay.failed = false)
    (hfirst : takeFirst (asked json "1.0/queryStream" (.object [("query", query)]))
      replay.remaining = some (entry, rest)) : BulkAgrees json replay query entry := by
  obtain ⟨hchecked, hstart⟩ := sound_of_new hnew
  obtain ⟨events, hsound⟩ : ∃ events, Sound json trace replay events := by
    rcases hstart.run hchecked (Prod.mk.eta.symm.trans (congrArg _ hrun)) with
      ⟨further, _, hsound⟩ | hbad
    · exact ⟨_, hsound⟩
    · rw [hfailed] at hbad
      cases hbad
  obtain ⟨front, back, hremaining, rfl, hasked, _⟩ := takeFirst_eq_some_iff.mp hfirst
  obtain ⟨_, hcheck⟩ := hsound.checked hchecked hremaining
  obtain ⟨items, hitems, hdocuments, hflags⟩ := items_of_checkRead hcheck (asked_iff.mp hasked).1
  obtain ⟨found, hfound⟩ := exists_documents hdocuments
  have htake : replay.takeRead json "1.0/queryStream" (.object [("query", query)]) = (.ok entry,
      { replay with remaining := front ++ back, calls := replay.calls + 1, failed := false }) := by
    rw [Replay.takeRead, if_neg (by simp [hfailed]), hfirst]
  refine ⟨items, found, (replay.query json query true).2, hitems, hfound, hflags,
    fun hwhole => ⟨?_, ?_⟩, fun hpart => ?_⟩
  · simp [Replay.query, htake, hitems, hwhole, hfound]
  · split
    case isTrue hroom =>
      let opened : Replay Number := { replay with
        remaining := front ++ back
        calls := replay.calls + 1
        nextStream := replay.nextStream + 1 }
      have hopen : replay.query json query false =
          (.ok (.stream replay.nextStream), opened.reading replay.nextStream items 0) := by
        rw [Replay.query, htake]
        simp only [hitems]
        rw [if_neg (by decide), if_pos hroom]
        rfl
      have hread : (opened.reading replay.nextStream items 0).run json
          (replicate items.length (Operation.streamNext replay.nextStream) ++
            [Operation.streamClose replay.nextStream]) = _ :=
        run_reading rfl (Nat.zero_add _) fun hmem =>
          lt_irrefl _ (hsound.standing.fresh _ hmem)
      rw [streamed, Replay.run, Replay.perform, hopen]
      simp only [hread]
      simp [Replay.query, htake, hitems, hwhole, hfound, opened]
    case isFalse hfull =>
      rw [Replay.query, htake]
      simp only [hitems]
      rw [if_neg (by decide), if_neg hfull]
  · simp [Replay.query, htake, hitems, hpart]

/-- A library that knows the texts of a query without documents. -/
def emptyQueryJson : SerdeJson ℕ where
  parse
    | "\x7b\x22queryId\x22:0\x7d" => some (.object [("queryId", .number 0)])
    | "\x7b\x7d" => some (.object [])
    | "done" => some (.object [("done", .boolean true), ("value", .null)])
    | _ => none
  asU64 := some
  sameNumber left right := left = right

def emptyQueryRead : Entry ℕ :=
  { operation := "1.0/queryStream", arguments := .object [("query", .null)]
    result := "\x7b\x22queryId\x22:0\x7d", next := some ["done"], cleanup := some "\x7b\x7d" }

theorem bulk_agrees_with_stream_sample :
    BulkAgrees emptyQueryJson
      { trace := ⟨[⟨[emptyQueryRead], none⟩], 3⟩, epoch := 0, remaining := [emptyQueryRead]
        streams := .empty, nextStream := 1, calls := 0, failed := false } .null emptyQueryRead :=
  bulk_agrees_with_stream (show Replay.new emptyQueryJson ⟨[⟨[emptyQueryRead], none⟩], 3⟩ = _ from rfl)
    (show (Replay.run _ _ []).2 = _ from rfl) rfl rfl

end ConvexWasm.CapabilityReplay
