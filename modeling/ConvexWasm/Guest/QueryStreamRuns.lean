import ConvexWasm.Core.TransitionSystem
import ConvexWasm.Guest.QueryStreamInvariant

/-!
# Runs of query streams

Every possible and timely event keeps the query streams sound, so they are in
every run.  A query of the SDK is only known by its number, and a number that
is kept beyond its invocation names the query of another one.
-/

namespace ConvexWasm.Guest

open Function Set SlotTable

section Completions

variable {Document : Type} {bridge : Bridge Document}

/-- A completed read gives the next document, the end, a failure or something
else, and only an end or a failure is the last thing of a stream. -/
theorem complete_read (stream : ℕ) (outcome : Outcome) :
    ∃ result rest, complete bridge (.read stream) outcome =
        ({ bridge with
            log := if result.isLast then .ended stream :: bridge.log else bridge.log
            remaining := update bridge.remaining stream rest }, result) ∧
      result.document?.toList ++ rest = bridge.remaining stream := by
  cases outcome with
  | answered =>
    cases hremaining : bridge.remaining stream with
    | nil =>
      refine ⟨.finished, [], ?_, rfl⟩
      simp [complete, hremaining, ReadResult.isLast]
    | cons document later =>
      refine ⟨.document document, later, ?_, rfl⟩
      simp [complete, hremaining, ReadResult.isLast]
  | invalid =>
    refine ⟨.invalid, bridge.remaining stream, ?_, rfl⟩
    rw [update_eq_self]
    rfl
  | failed =>
    refine ⟨.failed, bridge.remaining stream, ?_, rfl⟩
    rw [update_eq_self]
    rfl

/-- The host completes the read in a slot. -/
def answerRead (bridge : Bridge Document) (index slot : ℕ) (result : ReadResult Document)
    (rest : List Document) : Bridge Document :=
  { bridge with
    pendingOperations := clear bridge.pendingOperations slot
    microtasks := bridge.microtasks ++ [(index, result)]
    remaining := update bridge.remaining (bridge.iterators index).origin rest
    outstanding := update bridge.outstanding (slot + 1) none
    log :=
      if result.isLast then .ended (bridge.iterators index).origin :: bridge.log else bridge.log
    settled := bridge.settled + 1 }

/-- The host completes another operation. -/
def answerOther (bridge : Bridge Document) (slot : ℕ) : Bridge Document :=
  { bridge with
    pendingOperations := clear bridge.pendingOperations slot
    outstanding := update bridge.outstanding (slot + 1) none
    settled := bridge.settled + 1 }

theorem Sound.clear_waiting (hsound : Sound bridge) {slot : ℕ} :
    (∀ place continuation, lookup (clear bridge.pendingOperations slot) place =
        some continuation →
      update bridge.outstanding (slot + 1) none (place + 1) =
          some (operationOf bridge continuation) ∧
        ∀ found, continuation = .iterator found → found < bridge.iteratorCount) ∧
      ∀ handle operation, update bridge.outstanding (slot + 1) none handle =
        some operation → ∃ place continuation, handle = place + 1 ∧
          lookup (clear bridge.pendingOperations slot) place = some continuation := by
  constructor
  · intro place continuation hplace
    rw [lookup_clear] at hplace
    split_ifs at hplace with hsame
    rw [update_of_ne (by omega)]
    exact hsound.waiting place continuation hplace
  · intro handle operation hhandle
    by_cases hsame : handle = slot + 1
    · rw [hsame, update_self] at hhandle
      cases hhandle
    · rw [update_of_ne hsame] at hhandle
      obtain ⟨place, continuation, rfl, hplace⟩ := hsound.outstanding handle operation hhandle
      refine ⟨place, continuation, rfl, ?_⟩
      rw [lookup_clear, if_neg (by omega)]
      exact hplace

theorem Sound.otherAnswered (hsound : Sound bridge) {slot : ℕ}
    (hslot : lookup bridge.pendingOperations slot = some .other) :
    Sound (answerOther bridge slot) := by
  have hmoves : Moves bridge (answerOther bridge slot) bridge.iteratorCount :=
    { count := rfl
      streams := rfl
      invocation := rfl
      table := fun _ _ hfound => hfound
      state := fun _ => ⟨rfl, rfl, id⟩
      others := fun other _ _ => by
        ext place <;> simp [Bridge.view, answerOther, lookup_clear]
        intro hsome hplace
        rw [hplace, hslot] at hsome
        cases hsome }
  have hcounted := hsound.counted
  have hcleared := occupied_clear hslot
  refine hsound.move hmoves hsound.orderly (fun _ hmem => hmem)
    (fun habsurd => absurd habsurd (lt_irrefl _)) (fun habsurd => absurd habsurd (lt_irrefl _))
    (fun _ _ hfound => ⟨hfound, rfl, rfl⟩) hsound.clear_waiting.1 hsound.clear_waiting.2
    hsound.tasks ?_
  simp only [answerOther]
  omega

theorem Sound.readAnswered (hsound : Sound bridge) {index slot : ℕ}
    (hslot : lookup bridge.pendingOperations slot = some (.iterator index))
    {result : ReadResult Document} {rest : List Document}
    (hrest : result.document?.toList ++ rest = bridge.remaining (bridge.iterators index).origin) :
    Sound (answerRead bridge index slot result rest) := by
  have hindex : index < bridge.iteratorCount := (hsound.waiting _ _ hslot).2 index rfl
  have hmem : slot ∈ (bridge.view index).slots := hslot
  have hmoves : Moves bridge (answerRead bridge index slot result rest) index :=
    { count := rfl
      streams := rfl
      invocation := rfl
      table := fun _ _ hfound => hfound
      state := fun _ => ⟨rfl, rfl, id⟩
      others := fun other hother hsame => by
        have horigin : (bridge.iterators index).origin ≠ (bridge.iterators other).origin :=
          fun hequal => hsame (hsound.distinct index hindex other hother hequal).symm
        have hdifferent : index ≠ other := Ne.symm hsame
        ext place
        · rfl
        · rfl
        · simp only [Bridge.view, answerRead, lookup_clear, mem_ofPred_eq]
          by_cases hplace : place = slot
          · rw [if_pos hplace, hplace, hslot]
            simp [hdifferent]
          · rw [if_neg hplace]
        · simp [Bridge.view, answerRead, reactionsOf_append, hdifferent]
        · cases hlast : result.isLast <;> simp [Bridge.view, answerRead, Usable, horigin, hlast]
        · simp [Bridge.view, answerRead, update_of_ne horigin.symm]
        · rfl }
  have hcleared := occupied_clear hslot
  have hcounted := hsound.counted
  cases hsound.phase index hindex with
  | reading found hopen hpending hslots hreactions husable =>
    rw [hslots] at hmem
    have hfound : slot = found := hmem
    subst hfound
    have hview : (answerRead bridge index slot result rest).view index =
        { bridge.view index with
          slots := ∅
          reactions := [result]
          usable := (answerRead bridge index slot result rest |>.view index).usable
          remaining := rest } := by
      ext place
      · rfl
      · rfl
      · simp only [Bridge.view, answerRead, lookup_clear, mem_ofPred_eq,
          mem_empty_iff_false, iff_false]
        by_cases hplace : place = slot
        · simp [hplace]
        · rw [if_neg hplace]
          intro hlookup
          have hplaceMem : place ∈ (bridge.view index).slots := hlookup
          rw [hslots] at hplaceMem
          exact hplace hplaceMem
      · have hnone : reactionsOf bridge.microtasks index = [] := hreactions
        simp [Bridge.view, answerRead, reactionsOf_append, hnone]
      · rfl
      · simp [Bridge.view, answerRead]
      · rfl
    refine hsound.move hmoves ?_ (fun stream hstream => ?_) (fun _ => ?_) (fun _ => ?_)
      (fun _ _ hfound => ⟨hfound, rfl, rfl⟩) hsound.clear_waiting.1 hsound.clear_waiting.2
      (fun task htask => ?_) ?_
    · cases hlast : result.isLast with
      | false => simpa [answerRead, hlast] using hsound.orderly
      | true => simpa [answerRead, hlast] using ⟨husable, hsound.orderly⟩
    · cases hlast : result.isLast <;> simpa [answerRead, hlast] using hstream
    · rw [hview]
      refine .answered result ⟨hopen.done, hopen.handle, hopen.held⟩ hpending rfl rfl
        fun hlast => ?_
      simpa [Bridge.view, answerRead, hlast] using husable
    · have hbefore := hsound.conserved index hindex
      rw [hview]
      unfold Conserved at hbefore ⊢
      rw [hreactions] at hbefore
      have hfilter : [result].filterMap ReadResult.document? = result.document?.toList := by
        cases result <;> rfl
      rw [hfilter, List.append_assoc, hrest]
      rw [List.filterMap_nil, List.append_nil] at hbefore
      exact hbefore
    · obtain hold | hnew := List.mem_append.mp htask
      · exact hsound.tasks task hold
      · rw [List.mem_singleton.mp hnew]
        exact hindex
    · simp only [answerRead]
      omega
  | idle _ _ hslots _ _ | answered _ _ _ hslots _ _ | closed _ hslots _ =>
    rw [hslots] at hmem
    exact absurd hmem (notMem_empty _)

/-- A completion of the host settles what waits for it. -/
theorem Sound.settle (hsound : Sound bridge) (handle : ℕ) (outcome : Outcome) :
    Sound (settle bridge handle outcome).1 := by
  unfold ConvexWasm.Guest.settle
  cases hhandle : bridge.outstanding handle with
  | none => exact hsound
  | some operation =>
    obtain ⟨slot, continuation, rfl, hslot⟩ := hsound.outstanding handle operation hhandle
    have hoperation := (hsound.waiting slot continuation hslot).1
    rw [hhandle] at hoperation
    cases hoperation
    cases continuation with
    | other =>
      have hanswered := hsound.otherAnswered hslot
      unfold answerOther at hanswered
      cases outcome <;> simpa [complete, operationOf, hslot] using hanswered
    | iterator index =>
      obtain ⟨result, rest, hcomplete, hrest⟩ := @complete_read _
        { bridge with outstanding := update bridge.outstanding (slot + 1) none }
        (bridge.iterators index).origin outcome
      have hanswered := hsound.readAnswered hslot hrest
      simp only [operationOf, hcomplete, Nat.add_sub_cancel, hslot]
      exact hanswered

end Completions

section Boundaries

variable {Document : Type} {bridge : Bridge Document}

/-- Only the table of the SDK queries and the active kind change. -/
theorem Sound.retable (hsound : Sound bridge) {sdkQueryStreams : List (Option ℕ)}
    {activeUdfKind : Option UdfKind}
    (htable : ∀ slot index, lookup sdkQueryStreams slot = some index →
      index < bridge.iteratorCount ∧ (bridge.iterators index).invocation = bridge.invocation) :
    Sound { bridge with sdkQueryStreams, activeUdfKind } := { hsound with
  waiting slot continuation hslot := by
    obtain ⟨hoperation, hindex⟩ := hsound.waiting slot continuation hslot
    refine ⟨hoperation.trans ?_, hindex⟩
    cases continuation <;> rfl
  table := htable }

theorem Sound.startOperation (hsound : Sound bridge) {reply : Option ℕ}
    (hreply : ∀ handle ∈ reply, 0 < handle ∧ bridge.outstanding handle = none) :
    Sound (startOperation bridge reply).1 := by
  cases reply with
  | none => exact hsound
  | some handle =>
    obtain ⟨hpositive, hnew⟩ := hreply handle rfl
    have hfree := hsound.free hpositive hnew
    have hstarted : (ConvexWasm.Guest.startOperation bridge (some handle)).1 =
        { bridge with
          outstanding := update bridge.outstanding handle (some .other)
          pendingOperations := put bridge.pendingOperations (handle - 1) .other
          registered := bridge.registered + 1 } := by
      simp [ConvexWasm.Guest.startOperation, registerCapabilityOperation, hfree, hpositive.ne']
    rw [hstarted]
    have hcounted := hsound.counted
    have hput := @occupied_put _ _ _ Continuation.other hfree
    refine @Sound.move _ _ _ bridge.iteratorCount hsound
      ⟨rfl, rfl, rfl, fun _ _ hfound => hfound, fun _ => ⟨rfl, rfl, id⟩, fun other _ _ => ?_⟩
      hsound.orderly (fun _ hmem => hmem) (fun habsurd => absurd habsurd (lt_irrefl _))
      (fun habsurd => absurd habsurd (lt_irrefl _)) (fun _ _ hfound => ⟨hfound, rfl, rfl⟩)
      (fun slot continuation hslot => ?_) (fun other operation hother => ?_) hsound.tasks ?_
    · ext slot <;> simp [Bridge.view, lookup_put]
      by_cases hslot : slot = handle - 1
      · simp [hslot, hfree]
      · simp [hslot]
    · simp only [lookup_put] at hslot ⊢
      split_ifs at hslot with hsame
      · cases hslot
        have hslotHandle : slot + 1 = handle := by omega
        rw [hslotHandle, update_self]
        exact ⟨rfl, fun found hfound => by cases hfound⟩
      · rw [update_of_ne (by omega)]
        exact hsound.waiting slot continuation hslot
    · simp only at hother ⊢
      by_cases hsame : other = handle
      · refine ⟨handle - 1, .other, by omega, ?_⟩
        rw [lookup_put, if_pos rfl]
      · rw [update_of_ne hsame] at hother
        obtain ⟨slot, continuation, rfl, hslot⟩ := hsound.outstanding other operation hother
        refine ⟨slot, continuation, rfl, ?_⟩
        rw [lookup_put, if_neg (by omega)]
        exact hslot
    · simp only [hput]
      omega

/-- A new iterator over a new stream. -/
def addIterator (bridge : Bridge Document) (kind : IteratorKind) (documents : List Document) :
    Bridge Document :=
  { bridge with
    iterators := update bridge.iterators bridge.iteratorCount
      { kind, streamHandle := bridge.streamCount + 1, done := false, pending := false,
        cleanupSlot := some bridge.openQueryStreamCleanups.length,
        origin := bridge.streamCount + 1, invocation := bridge.invocation, handed := [] }
    iteratorCount := bridge.iteratorCount + 1
    openQueryStreamCleanups := bridge.openQueryStreamCleanups ++ [some bridge.iteratorCount]
    documents := update bridge.documents (bridge.streamCount + 1) documents
    remaining := update bridge.remaining (bridge.streamCount + 1) documents
    streamCount := bridge.streamCount + 1
    log := .opened (bridge.streamCount + 1) :: bridge.log }

variable (hsound : Sound bridge)
include hsound

theorem Sound.iteratorAdded (kind : IteratorKind) (documents : List Document) :
    Sound (addIterator bridge kind documents) := by
  have hold : ∀ index < bridge.iteratorCount,
      (addIterator bridge kind documents).iterators index = bridge.iterators index :=
    fun index hindex => update_of_ne hindex.ne _ _
  have hnew : (addIterator bridge kind documents).iterators bridge.iteratorCount =
      { kind, streamHandle := bridge.streamCount + 1, done := false, pending := false,
        cleanupSlot := some bridge.openQueryStreamCleanups.length,
        origin := bridge.streamCount + 1, invocation := bridge.invocation, handed := [] } :=
    update_self _ _ _
  have hfresh : ∀ index < bridge.iteratorCount,
      (bridge.iterators index).origin ≠ bridge.streamCount + 1 := fun index hindex => by
    have hle := hsound.origin index hindex
    omega
  have hviews : ∀ index < bridge.iteratorCount,
      (addIterator bridge kind documents).view index = bridge.view index := by
    intro index hindex
    have horigin := hfresh index hindex
    ext slot
    · exact hold index hindex
    · simp only [Bridge.view, hold index hindex]
      refine exists_congr fun slot => and_congr_right fun _ => ?_
      simp only [addIterator, lookup_push]
      by_cases hslot : slot = bridge.openQueryStreamCleanups.length
      · have hnone : lookup bridge.openQueryStreamCleanups slot = none := by
          cases hlookup : lookup bridge.openQueryStreamCleanups slot with
          | none => rfl
          | some found => exact absurd (lt_length_of_lookup hlookup) (by omega)
        rw [hnone]
        simp [hindex.ne']
      · rw [if_neg hslot]
    · rfl
    · rfl
    · simp [Bridge.view, hindex.ne, addIterator, Usable, Ne.symm horigin]
    · simp [Bridge.view, hindex.ne, addIterator, horigin]
    · simp [Bridge.view, hindex.ne, addIterator, horigin]
  have hcases : ∀ index < (addIterator bridge kind documents).iteratorCount,
      index < bridge.iteratorCount ∨ index = bridge.iteratorCount := fun index hindex =>
    lt_or_eq_of_le (Nat.lt_succ_iff.mp hindex)
  have hreactions : reactionsOf bridge.microtasks bridge.iteratorCount = [] := by
    unfold reactionsOf
    rw [List.map_eq_nil_iff, List.filter_eq_nil_iff]
    intro task htask hsame
    exact absurd (hsound.tasks task htask) (by simp_all)
  have hnewView : (addIterator bridge kind documents).view bridge.iteratorCount =
      { state := (addIterator bridge kind documents).iterators bridge.iteratorCount
        held := True, slots := ∅, reactions := [], usable := True
        remaining := documents, documents := documents } := by
    ext slot
    · rfl
    · simp [Bridge.view, addIterator, lookup_push]
    · simp only [Bridge.view, mem_ofPred_eq, mem_empty_iff_false, iff_false]
      intro hslot
      exact absurd ((hsound.waiting slot _ hslot).2 _ rfl) (lt_irrefl _)
    · exact (congrArg (fun list => _ ∈ list[slot]?) hreactions).to_iff
    · simp [Bridge.view, addIterator, Usable]
    · simp [Bridge.view, addIterator]
    · simp [Bridge.view, addIterator]
  exact
    { orderly := by
        refine ⟨Nat.succ_pos _, fun hmem => ?_, hsound.orderly⟩
        have hle := hsound.opened _ hmem
        omega
      opened := fun stream hmem => by
        cases hmem with
        | head => exact le_rfl
        | tail _ hearlier => exact (hsound.opened stream hearlier).trans (Nat.le_succ _)
      phase := fun index hindex => by
        obtain hbefore | rfl := hcases index hindex
        · rw [hviews index hbefore]
          exact hsound.phase index hbefore
        · rw [hnewView, hnew]
          exact .idle ⟨rfl, rfl, trivial⟩ rfl rfl rfl trivial
      conserved := fun index hindex => by
        obtain hbefore | rfl := hcases index hindex
        · rw [hviews index hbefore]
          exact hsound.conserved index hbefore
        · rw [hnewView, hnew]
          rfl
      origin := fun index hindex => by
        obtain hbefore | rfl := hcases index hindex
        · rw [hold index hbefore]
          exact (hsound.origin index hbefore).trans (Nat.le_succ _)
        · rw [hnew]
          exact le_rfl
      distinct := fun first hfirst second hsecond hequal => by
        obtain hfirstOld | rfl := hcases first hfirst
        · obtain hsecondOld | rfl := hcases second hsecond
          · rw [hold first hfirstOld, hold second hsecondOld] at hequal
            exact hsound.distinct first hfirstOld second hsecondOld hequal
          · rw [hold first hfirstOld, hnew] at hequal
            exact absurd hequal (hfresh first hfirstOld)
        · obtain hsecondOld | rfl := hcases second hsecond
          · rw [hnew, hold second hsecondOld] at hequal
            exact absurd hequal.symm (hfresh second hsecondOld)
          · rfl
      cleanups := fun slot index hslot => by
        simp only [addIterator, lookup_push] at hslot
        split_ifs at hslot with hsame
        · cases hslot
          rw [hnew]
          exact ⟨Nat.lt_succ_self _, congrArg some hsame.symm, rfl⟩
        · obtain ⟨hindex, hcleanup, hdone⟩ := hsound.cleanups slot index hslot
          rw [hold index hindex]
          exact ⟨hindex.trans (Nat.lt_succ_self _), hcleanup, hdone⟩
      waiting := fun slot continuation hslot => by
        obtain ⟨hoperation, hindex⟩ := hsound.waiting slot continuation hslot
        refine ⟨hoperation.trans ?_, fun index hequal =>
          (hindex index hequal).trans (Nat.lt_succ_self _)⟩
        cases continuation with
        | iterator index => simp only [operationOf, hold index (hindex index rfl)]
        | other => rfl
      outstanding := hsound.outstanding
      tasks := fun task htask => (hsound.tasks task htask).trans (Nat.lt_succ_self _)
      table := fun slot index hslot => by
        obtain ⟨hindex, hinvocation⟩ := hsound.table slot index hslot
        rw [hold index hindex]
        exact ⟨hindex.trans (Nat.lt_succ_self _), hinvocation⟩
      past := fun index hindex => by
        obtain hbefore | rfl := hcases index hindex
        · rw [hold index hbefore]
          exact hsound.past index hbefore
        · rw [hnew]
          exact ⟨le_rfl, fun hless => absurd hless (lt_irrefl _)⟩
      counted := hsound.counted }

theorem Sound.openQueryStream (kind : IteratorKind) (documents : Option (List Document)) :
    Sound (openQueryStream bridge kind documents).1 := by
  unfold ConvexWasm.Guest.openQueryStream
  split_ifs
  · exact hsound
  · cases documents with
    | none => exact hsound
    | some documents =>
      have hadded := hsound.iteratorAdded kind documents
      cases kind with
      | capability => exact hadded
      | sdk =>
        refine hadded.retable fun slot index hslot => ?_
        rw [lookup_push] at hslot
        split_ifs at hslot with hsame
        · cases hslot
          refine ⟨Nat.lt_succ_self _, ?_⟩
          simp [addIterator]
        · exact hadded.table slot index hslot

/-- Cleanup closes every iterator and clears every slot. -/
theorem Sound.cleanup : Sound (capabilityCleanup bridge).1 := by
  have hstate : ∀ index, ((capabilityCleanup bridge).1.iterators index).origin =
        (bridge.iterators index).origin ∧
      ((capabilityCleanup bridge).1.iterators index).invocation =
        (bridge.iterators index).invocation ∧
      ((capabilityCleanup bridge).1.iterators index).handed = (bridge.iterators index).handed ∧
      ((capabilityCleanup bridge).1.iterators index).pending =
        (bridge.iterators index).pending := fun index => by
    simp only [capabilityCleanup]
    split_ifs <;> exact ⟨rfl, rfl, rfl, rfl⟩
  have hdone : ∀ index < bridge.iteratorCount,
      ((capabilityCleanup bridge).1.iterators index).done = true := fun index hindex => by
    have hopenDone : (bridge.view index).IsOpen →
        some index ∈ bridge.openQueryStreamCleanups := fun hopen => by
      obtain ⟨slot, -, hslot⟩ := hopen.held
      exact List.mem_of_getElem? (getElem?_of_lookup hslot)
    simp only [capabilityCleanup]
    split_ifs with hregistered
    · rfl
    · cases hsound.phase index hindex with
      | idle hopen _ _ _ _ | reading _ hopen _ _ _ _ | answered _ hopen _ _ _ _ =>
        exact absurd (hopenDone hopen) hregistered
      | closed hclosed _ _ => exact hclosed
  have hview : ∀ index, ((capabilityCleanup bridge).1.view index).reactions =
        (bridge.view index).reactions ∧
      ((capabilityCleanup bridge).1.view index).remaining = (bridge.view index).remaining ∧
      ((capabilityCleanup bridge).1.view index).documents =
        (bridge.view index).documents := fun index => by
    simp only [Bridge.view, (hstate index).1]
    exact ⟨rfl, rfl, rfl⟩
  exact
    { hsound with
      opened := fun stream hmem => by
        cases hmem with
        | tail _ hearlier => exact hsound.opened stream hearlier
      phase := fun index hindex => by
        refine .closed (hdone index hindex) (eq_empty_of_forall_notMem fun _ hslot => by cases hslot) ?_
        rw [(hview index).1, Bridge.view_state, (hstate index).2.2.2]
        cases hsound.phase index hindex with
        | idle _ _ _ hreactions _ | reading _ _ _ _ hreactions _ => exact .inl hreactions
        | answered result _ hpending _ hreactions _ => exact .inr ⟨hpending, result, hreactions⟩
        | closed _ _ hreactions => exact hreactions
      conserved := fun index hindex => by
        have hconserved := hsound.conserved index hindex
        unfold Conserved at hconserved ⊢
        rw [(hview index).1, (hview index).2.1, (hview index).2.2, Bridge.view_state,
          (hstate index).2.2.1]
        exact hconserved
      origin := fun index hindex => by
        rw [(hstate index).1]
        exact hsound.origin index hindex
      distinct := fun first hfirst second hsecond hequal => by
        rw [(hstate first).1, (hstate second).1] at hequal
        exact hsound.distinct first hfirst second hsecond hequal
      cleanups := fun _ _ hslot => by cases hslot
      waiting := fun _ _ hslot => by cases hslot
      outstanding := fun _ _ hhandle => by cases hhandle
      table := fun _ _ hslot => by cases hslot
      past := fun index hindex => by
        rw [(hstate index).2.1]
        exact ⟨(hsound.past index hindex).1.trans (Nat.le_succ _), fun _ => hdone index hindex⟩
      counted := by
        have hcounted := hsound.counted
        simp only [capabilityCleanup, occupied_nil]
        omega }

theorem Sound.activate (kind : UdfKind) : Sound (activate bridge kind).1 := by
  unfold ConvexWasm.Guest.activate
  split_ifs
  · exact hsound.retable hsound.table
  · exact hsound

end Boundaries

section Runs

variable {Document : Type} {bridge : Bridge Document}

theorem requireQueryStream_eq_ok {queryId index : ℕ}
    (hok : requireQueryStream bridge queryId = .ok index) :
    lookup bridge.sdkQueryStreams (queryId - 1) = some index := by
  unfold requireQueryStream at hok
  split_ifs at hok
  cases hlookup : lookup bridge.sdkQueryStreams (queryId - 1) with
  | none =>
    rw [hlookup] at hok
    cases hok
  | some found =>
    rw [hlookup] at hok
    cases hok
    rfl

section

variable (hsound : Sound bridge)
include hsound

theorem Sound.iteratorNext {index : ℕ} {reply : Option ℕ} (hindex : index < bridge.iteratorCount)
    (hreply : ∀ handle ∈ reply, 0 < handle ∧ bridge.outstanding handle = none) :
    Sound (iteratorNext bridge index reply).1 := by
  unfold ConvexWasm.Guest.iteratorNext
  simp only
  split_ifs with hdone hpending
  · exact hsound
  · exact hsound
  · exact hsound.startRead hindex (Bool.eq_false_of_not_eq_true hdone)
      (Bool.eq_false_of_not_eq_true hpending) hreply

theorem Sound.iteratorReturn {index : ℕ} (hindex : index < bridge.iteratorCount) :
    Sound (iteratorReturn bridge index).1 := by
  unfold ConvexWasm.Guest.iteratorReturn
  split_ifs with hpending
  · exact hsound
  · obtain ⟨hreleased, -⟩ := hsound.released hindex (Bool.eq_false_of_not_eq_true hpending) true
    split <;> rename_i heq <;> rw [heq] at hreleased <;> exact hreleased

theorem Sound.queryStreamNext {ticket : Ticket} {reply : Option ℕ}
    (hreply : ∀ handle ∈ reply, 0 < handle ∧ bridge.outstanding handle = none) :
    Sound (queryStreamNext bridge ticket reply).1 := by
  unfold ConvexWasm.Guest.queryStreamNext
  split
  · exact hsound
  · rename_i index hok
    have hindex := (hsound.table _ _ (requireQueryStream_eq_ok hok)).1
    simp only
    split_ifs with hdone hpending
    · exact hsound
    · exact hsound
    · exact hsound.startRead hindex (Bool.eq_false_of_not_eq_true hdone)
        (Bool.eq_false_of_not_eq_true hpending) hreply

theorem Sound.queryCleanup (ticket : Ticket) : Sound (queryCleanup bridge ticket).1 := by
  unfold ConvexWasm.Guest.queryCleanup
  split
  · exact hsound
  · rename_i index hok
    have hindex := (hsound.table _ _ (requireQueryStream_eq_ok hok)).1
    simp only
    split_ifs with hpending
    · exact hsound
    · obtain ⟨hreleased, -⟩ := hsound.released hindex (Bool.eq_false_of_not_eq_true hpending)
        (!(bridge.iterators index).done)
      split <;> rename_i heq <;> rw [heq] at hreleased
      · exact hreleased
      · refine hreleased.retable fun slot found hslot => ?_
        rw [lookup_clear] at hslot
        split_ifs at hslot
        exact hreleased.table slot found hslot

end

theorem Sound.step (hsound : Sound bridge) {event : BridgeEvent Document}
    (hpossible : Possible bridge event) : Sound (step bridge event).1 := by
  cases event with
  | openQueryStream kind documents => exact hsound.openQueryStream kind documents
  | iteratorNext index reply => exact hsound.iteratorNext hpossible.1 hpossible.2
  | iteratorReturn index => exact hsound.iteratorReturn hpossible
  | queryStreamNext ticket reply => exact hsound.queryStreamNext hpossible
  | queryCleanup ticket => exact hsound.queryCleanup ticket
  | startOperation reply => exact hsound.startOperation hpossible
  | settle handle outcome => exact hsound.settle handle outcome
  | microtask place =>
    simp only [ConvexWasm.Guest.step, runMicrotask]
    split
    · exact hsound
    · rename_i index result hplace
      exact hsound.readSettled hplace
  | cleanup => exact hsound.cleanup
  | activate kind => exact hsound.activate kind

section

variable (hreachable : TransitionSystem.Reachable (· = emptyBridge) TimelyStep bridge)
include hreachable

theorem possible_of_timely : TransitionSystem.Reachable (· = emptyBridge) PossibleStep bridge := by
  induction hreachable with
  | start hstart => exact .start hstart
  | next _ hstep ih =>
    obtain ⟨event, hpossible, -, hnext⟩ := hstep
    exact ih.next ⟨event, hpossible, hnext⟩

theorem reachable_step (event : BridgeEvent Document) (hpossible : Possible bridge event)
    (htimely : Timely bridge event) :
    TransitionSystem.Reachable (· = emptyBridge) TimelyStep (step bridge event).1 :=
  hreachable.next ⟨event, hpossible, htimely, rfl⟩

end

/-- Every state of a run is sound. -/
theorem sound_of_reachable
    (hreachable : TransitionSystem.Reachable (· = emptyBridge) PossibleStep bridge) :
    Sound bridge := by
  refine hreachable.invariant (fun state hstate => ?_) fun state state' hsound hstep => ?_
  · subst hstate
    exact sound_empty
  · obtain ⟨event, hpossible, rfl⟩ := hstep
    exact hsound.step hpossible

end Runs

section Guarantees

variable {Document : Type} {bridge : Bridge Document}

/-- What the host and the users of iterators can rely on. -/
structure Guaranteed (bridge : Bridge Document) : Prop where
  closedOnce : ∀ stream, bridge.log.count (.closed stream) ≤ 1
  notNull : .closed 0 ∉ bridge.log
  notEnded : ∀ later earlier stream, bridge.log = later ++ .closed stream :: earlier →
    .ended stream ∉ earlier
  oneRead : ∀ stream handle other, bridge.outstanding handle = some (.read stream) →
    bridge.outstanding other = some (.read stream) → handle = other
  refused : ∀ handle stream, bridge.outstanding handle = some (.read stream) →
    ∃ index < bridge.iteratorCount, (bridge.iterators index).origin = stream ∧
      (∀ reply, iteratorNext bridge index reply =
        (bridge, .refused "Convex query stream already has a pending read")) ∧
      ∀ ticket reply, requireQueryStream bridge ticket.queryId = .ok index →
        queryStreamNext bridge ticket reply =
          (bridge, .refused "Convex SDK query stream already has a pending read")
  documents : ∀ index < bridge.iteratorCount,
    (bridge.iterators index).handed <+: bridge.documents (bridge.iterators index).origin
  distinct : ∀ index < bridge.iteratorCount, ∀ other < bridge.iteratorCount,
    (bridge.iterators index).origin = (bridge.iterators other).origin → index = other
  closed : ∀ index < bridge.iteratorCount,
    (bridge.iterators index).invocation < bridge.invocation →
      (∀ reply, iteratorNext bridge index reply = (bridge, .iterationDone)) ∧
        (iteratorReturn bridge index).1 = bridge
  abandoned : ∃ operations, (capabilityCleanup bridge).2 = .abandoned operations ∧
    bridge.registered = bridge.settled + bridge.cancelled + operations

/-- An outstanding read has its iterator, which waits for it. -/
theorem Sound.reader (hsound : Sound bridge) {handle stream : ℕ}
    (hread : bridge.outstanding handle = some (.read stream)) :
    ∃ slot index, handle = slot + 1 ∧ index < bridge.iteratorCount ∧
      (bridge.iterators index).origin = stream ∧ (bridge.view index).slots = {slot} ∧
      (bridge.iterators index).done = false ∧ (bridge.iterators index).pending = true := by
  obtain ⟨slot, continuation, rfl, hslot⟩ := hsound.outstanding handle _ hread
  obtain ⟨hoperation, hindex⟩ := hsound.waiting slot continuation hslot
  rw [hread] at hoperation
  cases continuation with
  | other => cases hoperation
  | iterator index =>
    cases hoperation
    have hmem : slot ∈ (bridge.view index).slots := hslot
    cases hsound.phase index (hindex index rfl) with
    | reading found hopen hpending hslots _ _ =>
      rw [hslots] at hmem
      have hfound : slot = found := hmem
      subst hfound
      exact ⟨slot, index, rfl, hindex index rfl, rfl, hslots, hopen.done, hpending⟩
    | idle _ _ hslots _ _ | answered _ _ _ hslots _ _ | closed _ hslots _ =>
      rw [hslots] at hmem
      exact absurd hmem (notMem_empty _)

theorem guaranteed_of_sound (hsound : Sound bridge) : Guaranteed bridge where
  closedOnce := hsound.orderly.count_closed_le
  notNull hmem := by
    have hpos := hsound.orderly.pos (hsound.orderly.opened (.inl hmem))
    exact absurd hpos (lt_irrefl 0)
  notEnded _ _ _ hsplit := (hsound.orderly.usable_of_closed hsplit).2
  oneRead stream handle other hhandle hother := by
    obtain ⟨slot, index, rfl, hindex, horigin, hslots, -⟩ := hsound.reader hhandle
    obtain ⟨slot', index', rfl, hindex', horigin', hslots', -⟩ := hsound.reader hother
    have hsame := hsound.distinct index hindex index' hindex' (horigin.trans horigin'.symm)
    subst hsame
    rw [hslots, singleton_eq_singleton_iff] at hslots'
    rw [hslots']
  refused handle stream hread := by
    obtain ⟨slot, index, -, hindex, horigin, -, hdone, hpending⟩ := hsound.reader hread
    refine ⟨index, hindex, horigin, fun reply => ?_, fun ticket reply hok => ?_⟩
    · simp [iteratorNext, hdone, hpending]
    · simp [queryStreamNext, hok, hdone, hpending]
  documents index hindex := by
    have hconserved := hsound.conserved index hindex
    rw [Conserved, List.append_assoc] at hconserved
    exact ⟨_, hconserved⟩
  distinct := hsound.distinct
  closed index hindex hearlier := by
    have hdone := (hsound.past index hindex).2 hearlier
    refine ⟨fun reply => ?_, ?_⟩
    · simp [iteratorNext, hdone]
    · cases hpending : (bridge.iterators index).pending <;>
        simp [iteratorReturn, hpending, releaseStream_done hdone]
  abandoned := ⟨occupied bridge.pendingOperations, rfl, hsound.counted⟩

/-- An SDK query of an earlier invocation is refused without a word to the host. -/
def Shut (bridge : Bridge Document) (ticket : Ticket) : Prop :=
  ∃ message, (∀ reply, queryStreamNext bridge ticket reply = (bridge, .refused message)) ∧
    queryCleanup bridge ticket = (bridge, .refused message)

theorem shut_iff_timely (hsound : Sound bridge) {ticket : Ticket}
    (hearlier : ticket.invocation < bridge.invocation) :
    Shut bridge ticket ↔ Timely bridge (.queryCleanup ticket) := by
  constructor
  · rintro ⟨message, hnext, hcleanup⟩
    refine .inr ?_
    cases hrequired : requireQueryStream bridge ticket.queryId with
    | error refusal => exact ⟨refusal, rfl⟩
    | ok index =>
      have hindex := (hsound.table _ _ (requireQueryStream_eq_ok hrequired)).1
      cases hpending : (bridge.iterators index).pending with
      | false =>
        obtain ⟨-, hreleased⟩ := hsound.released hindex hpending (!(bridge.iterators index).done)
        generalize hrelease : releaseStream bridge index (!(bridge.iterators index).done) =
          release at hreleased
        obtain ⟨released, failure⟩ := release
        subst hreleased
        simp [queryCleanup, hrequired, hpending, hrelease] at hcleanup
      | true =>
        have hrefused := hnext none
        simp only [queryCleanup, hrequired, hpending, if_true, Prod.mk.injEq, true_and,
          Reply.refused.injEq] at hcleanup
        cases hdone : (bridge.iterators index).done <;>
          simp [queryStreamNext, hrequired, hpending, hdone, ← hcleanup] at hrefused
  · intro htimely
    cases htimely with
    | inl hsame => exact absurd hsame hearlier.ne
    | inr hrefused =>
      obtain ⟨message, hmessage⟩ := hrefused
      exact ⟨message, fun reply => by simp [queryStreamNext, hmessage],
        by simp [queryCleanup, hmessage]⟩

end Guarantees

/-- An SDK query of one invocation and an SDK query of the next. -/
def twoInvocations : List (BridgeEvent ℕ) :=
  [.activate .query, .openQueryStream .sdk (some [1, 2]), .cleanup,
   .activate .query, .openQueryStream .sdk (some [3])]

def afterTwoInvocations : Bridge ℕ :=
  twoInvocations.foldl (fun bridge event => (step bridge event).1) emptyBridge

theorem afterTwoInvocations_reachable :
    TransitionSystem.Reachable (· = emptyBridge) TimelyStep afterTwoInvocations := by
  have hstart : TransitionSystem.Reachable (· = emptyBridge) TimelyStep
      (emptyBridge : Bridge ℕ) := .start rfl
  have hfirst := reachable_step hstart (.activate .query) trivial trivial
  have hopened := reachable_step hfirst (.openQueryStream .sdk (some [1, 2])) trivial trivial
  have hcleaned := reachable_step hopened .cleanup trivial trivial
  have hsecond := reachable_step hcleaned (.activate .query) trivial trivial
  exact reachable_step hsecond (.openQueryStream .sdk (some [3])) trivial trivial

end ConvexWasm.Guest
