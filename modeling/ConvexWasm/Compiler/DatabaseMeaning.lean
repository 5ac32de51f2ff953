import ConvexWasm.Compiler.DatabaseStages

/-!
# Recognised operations denote their calls

The candidate is all that a recognised call performs exactly when no other
stage stands in the chain.
-/

namespace ConvexWasm.Compiler.DatabaseOperation

open List

section Recognised

variable {Value : Type} {execution : Execution Value} {node : JsNode} {source : String}
  {candidate : OperationCandidate}

theorem chainStages_unwrap (node : JsNode) :
    chainStages node.unwrapRuntimeExpression = chainStages node := by
  induction node using JsNode.unwrapRuntimeExpression.induct with
  | case1 _ expression ih => exact ih
  | case2 node hnode => rw [JsNode.unwrapRuntimeExpression.eq_2 node hnode]

theorem databaseCalls_unwrap (node : JsNode) :
    databaseCalls execution node.unwrapRuntimeExpression = databaseCalls execution node := by
  induction node using JsNode.unwrapRuntimeExpression.induct with
  | case1 _ expression ih =>
    exact ih
  | case2 node hnode => rw [JsNode.unwrapRuntimeExpression.eq_2 node hnode]

/-- A method of the database itself has no call before it. -/
theorem databaseReceiver_of_segments {root name : String} : (inChain : Bool) →
    (callee : JsNode) → JsNode.memberSegmentsFrom inChain callee = some [root, "db", name] →
    databaseReceiver execution callee = some (name, [])
  | inChain, .wrapper _ expression, hsegments => by
    exact databaseReceiver_of_segments inChain expression hsegments
  | false, .chain _ expression, hsegments => by
    exact databaseReceiver_of_segments true expression hsegments
  | true, .chain _ _, hsegments => by
    simp [JsNode.memberSegmentsFrom] at hsegments
  | inChain, .member range object property computed optional, hsegments => by
    obtain ⟨rfl, hobject, hidentifier⟩ := memberSegments_database hsegments
    have hon : isDatabase object = true := by
      rw [isDatabase, hobject]
      rfl
    rw [databaseReceiver]
    simp [memberName, hidentifier, hon]
  | _, .identifier _ _, hsegments | _, .literal _ _, hsegments | _, .call _ _ _ _, hsegments
  | _, .construct _ _ _, hsegments | _, .arrow _ _ _ _, hsegments
  | _, .function _ _ _ _, hsegments | _, .spread _ _, hsegments | _, .other _ _ _, hsegments => by
    simp [JsNode.memberSegmentsFrom] at hsegments

theorem calleeStages_of_segments {root name method : String} {before : List Stage} :
    (inChain : Bool) → (callee : JsNode) →
    JsNode.memberSegmentsFrom inChain callee = some [root, "db", name] →
    calleeStages callee = some (method, before) → method = name ∧ before = []
  | inChain, .wrapper _ expression, hsegments, hstages => by
    exact calleeStages_of_segments inChain expression hsegments hstages
  | inChain, .member range object property computed optional, hsegments, hstages => by
    obtain ⟨rfl, hobject, hidentifier⟩ := memberSegments_database hsegments
    rw [calleeStages, stagesOf_of_segments object _ hobject] at hstages
    simp only [hidentifier] at hstages
    cases hstages
    exact ⟨rfl, rfl⟩
  | _, .chain _ _, _, hstages | _, .identifier _ _, _, hstages | _, .literal _ _, _, hstages
  | _, .call _ _ _ _, _, hstages | _, .construct _ _ _, _, hstages | _, .arrow _ _ _ _, _, hstages
  | _, .function _ _ _ _, _, hstages | _, .spread _ _, _, hstages
  | _, .other _ _ _, _, hstages => by
    simp [calleeStages] at hstages

/-- Every stage in between is an index or an order, the callback of the index is
not async and no operand of a constraint is spread. -/
def Accounted (node : JsNode) : Prop :=
  ∀ stages, chainStages node = some stages →
    (∀ stage ∈ stages.tail.dropLast, stage.method = "withIndex" ∨ stage.method = "order") ∧
    ∀ stage ∈ stages, stage.method = "withIndex" →
      ∀ callback, stage.arguments[1]? = some callback →
        callback.unwrapRuntimeExpression.isAsync = false ∧
        ∀ constraints, parseIndexConstraints callback = some constraints →
          ∀ constraint ∈ constraints, constraint.value.isSpread = false

def IsCall (node : JsNode) : Prop :=
  ∃ range callee arguments optional,
    node.unwrapRuntimeExpression = .call range callee arguments optional

variable {segments : List String} {kind : String} {arity : ℕ}

theorem documentOperation_eq (hdocument : documentOperation segments = some (kind, arity)) :
    ∃ root method, segments = [root, "db", method] ∧ method ∈ documentMethods ∧
      kind = "db." ++ method ∧ 0 < arity := by
  unfold documentOperation at hdocument
  split at hdocument
  all_goals cases hdocument
  all_goals exact ⟨_, _, rfl, by simp [documentMethods], rfl, by decide⟩

variable {arguments : List JsNode}

theorem parseDocumentOperation_eq {range effect : SourceRange} (harity : 0 < arity)
    (hparse : parseDocumentOperation range effect segments kind arity arguments = some candidate) :
    ∃ first rest table, arguments = first :: rest ∧ first.valueString = some table ∧
      candidate = {
        kind := kind
        range := range
        table := some table
        effect := effect
        effectPath := ".".intercalate segments } := by
  unfold parseDocumentOperation at hparse
  split at hparse
  · rename_i hlength
    cases arguments with
    | nil => exact absurd hlength (by rw [length_nil]; omega)
    | cons first rest =>
      split at hparse
      · cases hparse
      · cases hparse
      · rename_i table _ htable
        exact ⟨first, rest, table, rfl, htable, (Option.some.inj hparse).symm⟩
  · cases hparse

variable {range : SourceRange} {callee : JsNode} {optional : Bool}

/-- A candidate is one of a document or of a query with its stages. -/
theorem parseDbOperation_cases
    (hcall : node.unwrapRuntimeExpression = .call range callee arguments optional)
    (hparse : parseDbOperation node source = some candidate) :
    (∃ root method first rest table, callee.memberSegments = some [root, "db", method] ∧
      method ∈ documentMethods ∧ arguments = first :: rest ∧ first.valueString = some table ∧
      candidate = {
        kind := "db." ++ method
        range := range
        table := some table
        effect := callee.range
        effectPath := ".".intercalate [root, "db", method] }) ∨
    ∃ opening middle last, chainStages node = some (opening :: (middle ++ [last])) ∧
      last.method ∈ terminalMethods ∧
      parseQuery source range opening (opening :: (middle ++ [last])) last.method last.arguments =
        some candidate := by
  rw [parseDbOperation, hcall] at hparse
  simp only at hparse
  split at hparse
  · cases hparse
  · split at hparse
    · rename_i segments kind arity hdocument
      obtain ⟨path, hpath, hkind⟩ := Option.bind_eq_some_iff.mp hdocument
      obtain ⟨⟨_, _⟩, hoperation, heq⟩ := Option.map_eq_some_iff.mp hkind
      cases heq
      obtain ⟨root, method, rfl, hmethod, rfl, harity⟩ := documentOperation_eq hoperation
      obtain ⟨first, rest, table, rfl, htable, rfl⟩ := parseDocumentOperation_eq harity hparse
      exact .inl ⟨root, method, first, rest, table, hpath, hmethod, rfl, htable, rfl⟩
    · rw [← hcall, chainStages_unwrap] at hparse
      split at hparse
      · rename_i opening later hstages
        split at hparse
        · rename_i last hlast
          split at hparse
          · rename_i hterminal
            refine .inr ?_
            obtain ⟨parts⟩ := queryParts_of_parse hparse
            obtain ⟨hquery, -, -⟩ := queryTable_eq (⟨fun _ => (), fun _ => []⟩ : Execution Unit) parts.opened
            cases hlater : later.getLast? with
            | none =>
              obtain rfl := List.getLast?_eq_none_iff.mp hlater
              obtain rfl : opening = last := Option.some.inj hlast
              rw [hquery] at hterminal
              simp [terminalMethods] at hterminal
            | some found =>
              obtain ⟨middle, rfl⟩ := List.getLast?_eq_some_iff.mp hlater
              have hfound : (opening :: (middle ++ [found])).getLast? = some found := by
                rw [← cons_append, List.getLast?_concat]
              obtain rfl : found = last := Option.some.inj (hfound.symm.trans hlast)
              exact ⟨opening, middle, found, hstages, hterminal, hparse⟩
          · cases hparse
        · cases hparse
      · cases hparse

theorem document_performed {root method table : String} {first : JsNode} {rest : List JsNode}
    (hcall : node.unwrapRuntimeExpression = .call range callee (first :: rest) optional)
    (hsegments : callee.memberSegments = some [root, "db", method])
    (hmethod : method ∈ documentMethods) (htable : first.valueString = some table) :
    performedOperation execution node = some {
      kind := "db." ++ method
      table := some table } := by
  have hcalls : databaseCalls execution node =
      some [⟨method, (first :: rest).flatMap (stageArguments execution)⟩] := by
    rw [← databaseCalls_unwrap, hcall, databaseCalls,
      databaseReceiver_of_segments false callee hsegments]
    rfl
  obtain ⟨argument, hargument, htext⟩ := stageArguments_text execution htable
  rw [performedOperation, hcalls]
  simp [performedDocument, hmethod, hargument, htext]

theorem document_accounted {root method : String}
    (hcall : node.unwrapRuntimeExpression = .call range callee arguments optional)
    (hsegments : callee.memberSegments = some [root, "db", method])
    (hmethod : method ∈ documentMethods) : Accounted node := by
  intro stages hstages
  rw [← chainStages_unwrap, hcall] at hstages
  obtain ⟨⟨name, before⟩, hcallee, rfl⟩ := Option.map_eq_some_iff.mp hstages
  obtain ⟨rfl, rfl⟩ := calleeStages_of_segments false callee hsegments hcallee
  constructor
  · intro stage hmem
    cases hmem
  · intro stage hmem hindex
    obtain rfl := mem_singleton.mp hmem
    rw [show name = "withIndex" from hindex] at hmethod
    simp [documentMethods] at hmethod

variable {opening last : Stage} {middle : List Stage}

theorem query_accounted_iff {callback : JsNode}
    (hstages : chainStages node = some (opening :: (middle ++ [last])))
    (parts : QueryParts source range opening (opening :: (middle ++ [last])) last.method
      last.arguments candidate) (hcallback : parts.indexed.arguments[1]? = some callback)
    (hparse : parseIndexConstraints callback = some parts.constraints) :
    Accounted node ↔ QueryAccounted middle callback parts.constraints := by
  have hfilter : ∀ stage, stage ∈ opening :: (middle ++ [last]) ∧ stage.method = "withIndex" ↔
      stage = parts.indexed := by
    intro stage
    have hmem : stage ∈ (opening :: (middle ++ [last])).filter
        (fun stage => stage.method == "withIndex") ↔ stage ∈ [parts.indexed] := by
      rw [singleStage_eq parts.single, Option.toList_some]
    simpa [mem_filter] using hmem
  obtain ⟨hmem, hmethod⟩ := (hfilter parts.indexed).mpr rfl
  constructor
  · intro haccounted
    obtain ⟨hmiddle, hcallbacks⟩ := haccounted _ hstages
    obtain ⟨hsettled, hsingle⟩ := hcallbacks parts.indexed hmem hmethod callback hcallback
    refine ⟨?_, hsettled, hsingle _ hparse⟩
    simpa using hmiddle
  · rintro ⟨hmiddle, hsettled, hsingle⟩ stages hother
    cases hstages.symm.trans hother
    refine ⟨by simpa using hmiddle, fun stage hstage hindex other hargument => ?_⟩
    obtain rfl := (hfilter stage).mp ⟨hstage, hindex⟩
    obtain rfl : callback = other := Option.some.inj (hcallback.symm.trans hargument)
    refine ⟨hsettled, fun constraints hconstraints => ?_⟩
    obtain rfl : parts.constraints = constraints := Option.some.inj (hparse.symm.trans hconstraints)
    exact hsingle

theorem query_performed (hcall : IsCall node)
    (hstages : chainStages node = some (opening :: (middle ++ [last])))
    (hdatabase : OnDatabase opening.callee) (hquery : opening.method = "query") :
    performedOperation execution node =
      performedQuery (stageCall execution opening) (middle.map (stageCall execution))
        (stageCall execution last) := by
  obtain ⟨range, callee, arguments, optional, hnode⟩ := hcall
  have hcalls : databaseCalls execution node =
      some ((opening :: (middle ++ [last])).map (stageCall execution)) := by
    rw [← chainStages_unwrap, hnode] at hstages
    rw [← databaseCalls_unwrap, hnode]
    exact databaseCalls_of_stages _ opening (middle ++ [last]) hstages hdatabase
  rw [performedOperation, hcalls]
  have hlast : ((middle ++ [last]).map (stageCall execution)) =
      middle.map (stageCall execution) ++ [stageCall execution last] := by simp
  rw [map_cons, hlast]
  cases hmiddle : middle.map (stageCall execution) ++ [stageCall execution last] with
  | nil => simp at hmiddle
  | cons first rest =>
    simp only [← hmiddle, List.getLast?_concat, dropLast_concat]
    rw [if_pos (show (stageCall execution opening).method = "query" from hquery)]
    rfl

/-- What a stage says beside the receiver of its call. -/
def Stage.said (stage : Stage) : String × List JsNode := (stage.method, stage.arguments)

variable {stages others : List Stage}

theorem singleStage_perm {name : String} {found : Option Stage}
    (hperm : (others.map Stage.said).Perm (stages.map Stage.said))
    (hsingle : singleStage name stages = some found) :
    ∃ other, singleStage name others = some other ∧
      other.map Stage.said = found.map Stage.said := by
  have hfilter : ((others.filter fun stage => stage.method == name).map Stage.said).Perm
      (found.toList.map Stage.said) := by
    have hsaid : ∀ stages : List Stage, (stages.filter fun stage => stage.method == name).map
        Stage.said = (stages.map Stage.said).filter fun said => said.1 == name :=
      fun stages => by
        rw [filter_map]
        rfl
    rw [← singleStage_eq hsingle, hsaid, hsaid]
    exact hperm.filter _
  rw [singleStage]
  cases found with
  | none =>
    have hnone := map_eq_nil_iff.mp (perm_nil.mp hfilter)
    exact ⟨none, by rw [hnone], rfl⟩
  | some stage =>
    have hone : (others.filter fun stage => stage.method == name).map Stage.said =
        [stage.said] := perm_singleton.mp hfilter
    obtain ⟨other, hother, hsaid⟩ := map_eq_singleton_iff.mp hone
    exact ⟨some other, by rw [hother], congrArg some hsaid⟩

theorem indexStage_said {stage other : Stage} (hsaid : other.said = stage.said) :
    indexStage other = indexStage stage := by
  rw [indexStage, indexStage, show other.arguments = stage.arguments from congrArg Prod.snd hsaid]

theorem orderStage_said {stage other : Option Stage}
    (hsaid : other.map Stage.said = stage.map Stage.said) :
    orderStage other = orderStage stage := by
  cases stage with
  | none =>
    rw [Option.map_eq_none_iff.mp hsaid]
  | some stage =>
    obtain ⟨found, rfl, hfound⟩ := Option.map_eq_some_iff.mp hsaid
    rw [orderStage, orderStage,
      show found.arguments = stage.arguments from congrArg Prod.snd hfound]

/-- The same stages in between, in another order. -/
def Rearranged (node other : JsNode) : Prop :=
  ∃ opening middle rearranged last ending,
    chainStages node = some (opening :: (middle ++ [last])) ∧
    chainStages other = some (opening :: (rearranged ++ [ending])) ∧
    (rearranged.map Stage.said).Perm (middle.map Stage.said) ∧ ending.said = last.said ∧
    other.unwrapRuntimeExpression.range = node.unwrapRuntimeExpression.range ∧
    other.callHasOptionalCallee = node.callHasOptionalCallee

theorem parseQuery_perm {opening : Stage} {terminal : String}
    (hperm : (others.map Stage.said).Perm (stages.map Stage.said))
    (hparse : parseQuery source range opening stages terminal arguments = some candidate) :
    parseQuery source range opening others terminal arguments = some candidate := by
  obtain ⟨parts⟩ := queryParts_of_parse hparse
  obtain ⟨indexed, hindexed, hindexedSaid⟩ := singleStage_perm hperm parts.single
  obtain ⟨found, rfl, hfound⟩ := Option.map_eq_some_iff.mp hindexedSaid
  obtain ⟨ordered, hordered, horderedSaid⟩ := singleStage_perm hperm parts.singleOrder
  have hindex := (indexStage_said hfound).trans parts.indexedBy
  have horder := (orderStage_said horderedSaid).trans parts.orderedBy
  refine Eq.trans ?_ (congrArg some parts.candidate_eq.symm)
  simp [parseQuery, parts.limited, parts.opened, hindexed, hindex, hordered, horder, parts.shaped]

theorem callHasOptionalCallee_unwrap (node : JsNode) :
    node.unwrapRuntimeExpression.callHasOptionalCallee = node.callHasOptionalCallee := by
  induction node using JsNode.unwrapRuntimeExpression.induct with
  | case1 _ expression ih => exact ih
  | case2 node hnode => rw [JsNode.unwrapRuntimeExpression.eq_2 node hnode]

section

variable (hnode : node.unwrapRuntimeExpression = .call range callee arguments optional)
include hnode

/-- A chain of more than one call is no method of the database itself. -/
theorem chain_document_none (hstages : chainStages node = some (opening :: (middle ++ [last]))) :
    (callee.memberSegments.bind fun segments =>
      (documentOperation segments).map (segments, ·)) = none := by
  rw [← chainStages_unwrap, hnode] at hstages
  obtain ⟨⟨method, before⟩, hcallee, hsplit⟩ := Option.map_eq_some_iff.mp hstages
  have hbefore : before = opening :: middle := by
    rw [← cons_append] at hsplit
    exact (append_inj' hsplit rfl).1
  rw [hbefore] at hcallee
  cases hsegments : callee.memberSegments with
  | none => rfl
  | some segments =>
    cases hdocument : documentOperation segments with
    | none => simp [hdocument]
    | some found =>
      obtain ⟨root, name, rfl, -⟩ := documentOperation_eq hdocument
      obtain ⟨-, hnil⟩ := calleeStages_of_segments false callee hsegments hcallee
      cases hnil

theorem parseDbOperation_query (hoptional : node.callHasOptionalCallee = false)
    (hstages : chainStages node = some (opening :: (middle ++ [last])))
    (hlast : last.method ∈ terminalMethods) :
    parseDbOperation node source = parseQuery source range opening (opening :: (middle ++ [last]))
      last.method last.arguments := by
  have hplain : (JsNode.call range callee arguments optional).callHasOptionalCallee = false := by
    rw [← hnode, callHasOptionalCallee_unwrap, hoptional]
  have hcall : chainStages (.call range callee arguments optional) =
      some (opening :: (middle ++ [last])) := by
    rw [← hnode, chainStages_unwrap, hstages]
  have hgetLast : (opening :: (middle ++ [last])).getLast? = some last := by
    rw [← cons_append, List.getLast?_concat]
  rw [parseDbOperation, hnode]
  simp only [hplain, chain_document_none hnode hstages, hcall, hgetLast]
  rw [if_neg (by simp), if_pos hlast]

end

theorem parseDbOperation_rearranged {other : JsNode} (hcall : IsCall node) (hother : IsCall other)
    (hparse : parseDbOperation node source = some candidate) (hrearranged : Rearranged node other) :
    parseDbOperation other source = some candidate := by
  obtain ⟨opening, middle, rearranged, last, ending, hstages, hothers, hperm, hending, hrange,
    hoptional⟩ := hrearranged
  obtain ⟨range, callee, arguments, optional, hnode⟩ := hcall
  obtain ⟨otherRange, otherCallee, otherArguments, otherOptional, hotherNode⟩ := hother
  obtain rfl : otherRange = range := by
    rw [hnode, hotherNode] at hrange
    exact hrange
  have hplain : node.callHasOptionalCallee = false := by
    cases hnodeOptional : node.callHasOptionalCallee with
    | false => rfl
    | true =>
      rw [parseDbOperation, callHasOptionalCallee_unwrap, if_pos hnodeOptional] at hparse
      cases hparse
  obtain ⟨root, method, first, rest, table, hsegments, hmethod, rfl, htable, rfl⟩ |
    ⟨otherOpening, otherMiddle, otherLast, hsame, hlast, hquery⟩ :=
      parseDbOperation_cases hnode hparse
  · have hnone := chain_document_none hnode hstages
    rw [hsegments] at hnone
    simp only [documentMethods, mem_cons, not_mem_nil, or_false] at hmethod
    obtain rfl | rfl | rfl | rfl | rfl := hmethod
    all_goals cases hnone
  · have heq : otherOpening :: (otherMiddle ++ [otherLast]) = opening :: (middle ++ [last]) :=
      Option.some.inj (hsame.symm.trans hstages)
    obtain ⟨rfl, hconcat⟩ := cons_eq_cons.mp heq
    obtain ⟨rfl, hlastEq⟩ := append_inj' hconcat rfl
    cases hlastEq
    have hmethods : ending.method = last.method := congrArg Prod.fst hending
    have hsaid : ending.arguments = last.arguments := congrArg Prod.snd hending
    rw [parseDbOperation_query hotherNode (hoptional.trans hplain) hothers (hmethods ▸ hlast),
      hmethods, hsaid]
    refine parseQuery_perm ?_ hquery
    rw [map_cons, map_cons, map_append, map_append, map_singleton, map_singleton, hending]
    exact (hperm.append_right _).cons _

/-- Whatever is recognised is exactly what the call performs in every execution
if and only if the chain is accounted for; and the order of its stages never
changes the candidate. -/
theorem parseDbOperation_denotes (hcall : IsCall node)
    (hparse : parseDbOperation node source = some candidate) :
    ((∀ (Value : Type) (execution : Execution Value),
      performedOperation execution node = some (candidate.performed execution)) ↔ Accounted node) ∧
    ∀ other, IsCall other → Rearranged node other →
      parseDbOperation other source = some candidate := by
  refine ⟨?_, fun other hother => parseDbOperation_rearranged hcall hother hparse⟩
  obtain ⟨range, callee, arguments, optional, hnode⟩ := id hcall
  obtain ⟨root, method, first, rest, table, hsegments, hmethod, rfl, htable, rfl⟩ |
    ⟨opening, middle, last, hstages, hlast, hquery⟩ := parseDbOperation_cases hnode hparse
  · refine iff_of_true (fun Value execution => ?_) (document_accounted hnode hsegments hmethod)
    exact document_performed hnode hsegments hmethod htable
  · obtain ⟨parts⟩ := queryParts_of_parse hquery
    obtain ⟨callback, hcallback, hconstraints, hiff⟩ := queryParts_performed_iff hlast parts
    rw [query_accounted_iff hstages parts hcallback hconstraints, ← hiff]
    refine forall_congr' fun Value => forall_congr' fun execution => ?_
    obtain ⟨hmethod, hdatabase, -⟩ := queryTable_eq execution parts.opened
    rw [query_performed hcall hstages hdatabase hmethod]

/-- `ctx.db.query("posts").withIndex("by_author", (q) => q.eq("author", id))`,
with further stages and the terminal method `first`. -/
def sampleQuery (further : List (String × List JsNode)) : JsNode :=
  let identifier (start stop : ℕ) (name : String) := JsNode.identifier ⟨start, stop⟩ name
  let text (start stop : ℕ) (value : String) := JsNode.literal ⟨start, stop⟩ (.text value)
  let method (object : JsNode) (stop : ℕ) (name : String) :=
    JsNode.member ⟨0, stop⟩ object (identifier (stop - name.length) stop name) false false
  let opening := JsNode.call ⟨0, 21⟩ (method (method (identifier 0 3 "ctx") 6 "db") 12 "query")
    [text 13 20 "posts"] false
  let constraint := JsNode.call ⟨52, 70⟩
    (JsNode.member ⟨52, 56⟩ (identifier 52 53 "q") (identifier 54 56 "eq") false false)
    [text 57 65 "author", identifier 67 69 "id"] false
  let indexed := JsNode.call ⟨0, 71⟩ (method opening 31 "withIndex")
    [text 32 43 "by_author", .arrow ⟨45, 70⟩ [identifier 46 47 "q"] constraint false] false
  let stages := further.foldl
    (fun receiver stage => JsNode.call ⟨0, 90⟩ (method receiver 80 stage.1) stage.2 false) indexed
  JsNode.call ⟨0, 98⟩ (method stages 96 "first") [] false

theorem parseDbOperation_denotes_sample : ∃ candidate,
    parseDbOperation (sampleQuery [("order", [.literal ⟨72, 78⟩ (.text "desc")])]) "" =
      some candidate ∧
    ∀ (Value : Type) (execution : Execution Value),
      performedOperation execution
        (sampleQuery [("order", [.literal ⟨72, 78⟩ (.text "desc")])]) =
      some (candidate.performed execution) := by
  refine ⟨_, rfl, ?_⟩
  refine (parseDbOperation_denotes ⟨_, _, _, _, rfl⟩ rfl).1.mpr ?_
  intro stages hstages
  cases hstages
  refine ⟨by decide, ?_⟩
  have hcallback : ∀ callback constraints, (callback : JsNode).isAsync = false →
      (∀ constraint ∈ constraints, (constraint : ParsedIndexConstraint).value.isSpread = false) →
      callback.unwrapRuntimeExpression = callback →
      parseIndexConstraints callback = some constraints → ∀ other, some callback = some other →
      other.unwrapRuntimeExpression.isAsync = false ∧
        ∀ found, parseIndexConstraints other = some found →
          ∀ constraint ∈ found, constraint.value.isSpread = false := by
    rintro callback constraints hasync hspread hunwrap hparse other heq
    cases heq
    refine ⟨by rw [hunwrap, hasync], fun found hfound => ?_⟩
    cases hparse.symm.trans hfound
    exact hspread
  refine forall_mem_cons.mpr ⟨fun hquery => absurd hquery (by decide), ?_⟩
  refine forall_mem_cons.mpr ⟨fun _ => hcallback _ _ rfl (by decide) rfl rfl, ?_⟩
  refine forall_mem_cons.mpr ⟨fun horder => absurd horder (by decide), ?_⟩
  exact forall_mem_singleton.mpr fun hfirst => absurd hfirst (by decide)

/-- A filter between the index and the terminal method is left out of the
candidate. -/
theorem parseDbOperation_filter_sample :
    ¬ ∀ node source candidate, IsCall node → parseDbOperation node source = some candidate →
      ∀ (Value : Type) (execution : Execution Value),
        performedOperation execution node = some (candidate.performed execution) := by
  intro hall
  have hequal := hall (sampleQuery [("filter", [.identifier ⟨72, 78⟩ "keep"])]) "" _
    ⟨_, _, _, _, rfl⟩ rfl Unit ⟨fun _ => (), fun _ => []⟩
  have hstages := congrArg (Option.map fun operation => operation.furtherStages.length) hequal
  revert hstages
  decide

end Recognised

end ConvexWasm.Compiler.DatabaseOperation
