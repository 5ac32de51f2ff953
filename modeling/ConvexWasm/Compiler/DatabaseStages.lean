import ConvexWasm.Compiler.DatabaseExecution

/-!
# Stages are calls

The stages that the parser reads of a chain are the calls that the chain makes
on the database, and the constraints it reads of a callback are the calls that
the callback makes on its range.
-/

namespace ConvexWasm.Compiler.DatabaseOperation

open List

section Chains

variable {Value : Type} {execution : Execution Value} {parameter : String}

/-- The constraint that a parsed one is at run time. -/
def constraintPerformed (execution : Execution Value) (constraint : ParsedIndexConstraint) :
    PerformedConstraint Value where
  field := some constraint.field
  operator := constraint.operator
  operands := (passedValues execution constraint.value).map (·.value)

def stageCall (execution : Execution Value) (stage : Stage) : StageCall Value where
  method := stage.method
  arguments := stage.arguments.flatMap (stageArguments execution)

theorem passedValues_unwrap (node : JsNode) :
    passedValues execution node.unwrapRuntimeExpression = passedValues execution node := by
  induction node using JsNode.unwrapRuntimeExpression.induct with
  | case1 _ expression ih => exact ih
  | case2 node hnode => rw [JsNode.unwrapRuntimeExpression.eq_2 node hnode]

variable (execution) in
/-- A string literal passes its text. -/
theorem passedValues_text {node : JsNode} {text : String} (htext : node.valueString = some text) :
    ∃ value, passedValues execution node = [⟨some (.text text), value⟩] := by
  induction node using JsNode.valueString.induct with
  | case1 _ expression ih => exact ih htext
  | case2 range value =>
    cases htext
    exact ⟨_, rfl⟩
  | case3 node hwrapper hliteral =>
    rw [JsNode.valueString.eq_3 node hwrapper hliteral] at htext
    cases htext

theorem parseIndexConstraint_spec {operator : String} {arguments : List JsNode}
    {constraint : ParsedIndexConstraint}
    (hparse : parseIndexConstraint operator arguments = some constraint) :
    performedConstraint ⟨operator, arguments.flatMap (passedValues execution)⟩ =
      constraintPerformed execution constraint := by
  unfold parseIndexConstraint at hparse
  split at hparse
  · split at hparse
    · split at hparse
      · cases hparse
      · cases hparse
      · rename_i text _ htext
        cases hparse
        obtain ⟨passed, hpassed⟩ := passedValues_text execution htext
        simp [performedConstraint, constraintPerformed, hpassed, passedValues_unwrap,
          PassedValue.text]
    · cases hparse
  · cases hparse

mutual

/-- The constraints of a chain are the calls it makes on the range. -/
theorem rangeCalls_of_constraints (receiver : Bool) : (node : JsNode) →
    (constraints : List ParsedIndexConstraint) →
    constraintsOf parameter receiver node = some constraints →
    ∃ calls, rangeCalls execution parameter node = some calls ∧
      calls.map performedConstraint = constraints.map (constraintPerformed execution)
  | .wrapper _ expression, constraints, hparse => by
    rw [constraintsOf] at hparse
    rw [rangeCalls]
    exact rangeCalls_of_constraints receiver expression constraints hparse
  | .identifier _ name, constraints, hparse => by
    cases receiver with
    | false => simp [constraintsOf] at hparse
    | true =>
      rw [constraintsOf] at hparse
      rw [rangeCalls]
      split at hparse
      · rename_i hname
        cases hparse
        exact ⟨[], by rw [if_pos hname], rfl⟩
      · cases hparse
  | .call _ callee arguments optional, constraints, hparse => by
    rw [constraintsOf] at hparse
    rw [rangeCalls]
    split at hparse
    · cases hparse
    · cases hreceiver : constraintReceiver parameter callee with
      | none => simp [hreceiver] at hparse
      | some found =>
        obtain ⟨operator, before⟩ := found
        rw [hreceiver] at hparse
        obtain ⟨constraint, hconstraint, rfl⟩ := Option.map_eq_some_iff.mp hparse
        obtain ⟨calls, hcalls, hmap⟩ :=
          rangeReceiver_of_constraints callee operator before hreceiver
        refine ⟨_, by rw [hcalls]; rfl, ?_⟩
        rw [map_append, map_append, hmap, map_singleton, map_singleton,
          parseIndexConstraint_spec hconstraint]
  | .literal _ _, _, hparse | .member _ _ _ _ _, _, hparse | .construct _ _ _, _, hparse
  | .chain _ _, _, hparse | .arrow _ _ _ _, _, hparse | .function _ _ _ _, _, hparse
  | .spread _ _, _, hparse | .other _ _ _, _, hparse => by
    simp [constraintsOf] at hparse

theorem rangeReceiver_of_constraints : (node : JsNode) → (operator : String) →
    (before : List ParsedIndexConstraint) →
    constraintReceiver parameter node = some (operator, before) →
    ∃ calls, rangeReceiver execution parameter node = some (operator, calls) ∧
      calls.map performedConstraint = before.map (constraintPerformed execution)
  | .wrapper _ expression, operator, before, hparse => by
    rw [constraintReceiver] at hparse
    rw [rangeReceiver]
    exact rangeReceiver_of_constraints expression operator before hparse
  | .member _ object property computed _, operator, before, hparse => by
    rw [constraintReceiver] at hparse
    rw [rangeReceiver]
    split at hparse
    · cases hparse
    · rename_i hcomputed
      have hname : memberName property computed = property.identifierName := by
        rw [memberName, if_neg hcomputed]
      rw [hname]
      cases hidentifier : property.identifierName with
      | none => simp [hidentifier] at hparse
      | some name =>
        rw [hidentifier] at hparse
        obtain ⟨constraints, hobject, heq⟩ := Option.map_eq_some_iff.mp hparse
        cases heq
        obtain ⟨calls, hcalls, hmap⟩ := rangeCalls_of_constraints true object before hobject
        exact ⟨calls, by rw [hcalls]; rfl, hmap⟩
  | .identifier _ _, _, _, hparse | .literal _ _, _, _, hparse | .call _ _ _ _, _, _, hparse
  | .construct _ _ _, _, _, hparse | .chain _ _, _, _, hparse | .arrow _ _ _ _, _, _, hparse
  | .function _ _ _ _, _, _, hparse | .spread _ _, _, _, hparse | .other _ _ _, _, _, hparse => by
    simp [constraintReceiver] at hparse

end

/-- What is a path of members is no call. -/
theorem stagesOf_of_segments {inChain : Bool} : (node : JsNode) → (segments : List String) →
    JsNode.memberSegmentsFrom inChain node = some segments → stagesOf node = some []
  | .wrapper _ expression, segments, hsegments => by
    exact stagesOf_of_segments expression segments hsegments
  | .call _ _ _ _, _, hsegments => by
    simp [JsNode.memberSegmentsFrom] at hsegments
  | .identifier _ _, _, _ | .literal _ _, _, _ | .member _ _ _ _ _, _, _
  | .construct _ _ _, _, _ | .chain _ _, _, _ | .arrow _ _ _ _, _, _ | .function _ _ _ _, _, _
  | .spread _ _, _, _ | .other _ _ _, _, _ => rfl

theorem memberSegments_member {inChain : Bool} {range : SourceRange} {object property : JsNode}
    {computed optional : Bool} {segments : List String}
    (hsegments : JsNode.memberSegmentsFrom inChain
      (.member range object property computed optional) = some segments) :
    computed = false ∧ ∃ before name, object.memberSegments = some before ∧
      property.identifierName = some name ∧ segments = before ++ [name] := by
  cases computed with
  | true =>
    all_goals cases hsegments
  | false =>
    have hobject : (do
        let before ← JsNode.memberSegmentsFrom false object
        let name ← property.identifierName
        return before ++ [name]) = some segments := by
      all_goals exact hsegments
    obtain ⟨before, hbefore, hname⟩ := Option.bind_eq_some_iff.mp hobject
    obtain ⟨name, hidentifier, heq⟩ := Option.bind_eq_some_iff.mp hname
    cases heq
    exact ⟨rfl, before, name, hbefore, hidentifier, rfl⟩

/-- The last name of a path in a database is that of the method. -/
theorem memberSegments_database {inChain : Bool} {range : SourceRange} {object property : JsNode}
    {computed optional : Bool} {root name : String} (hsegments : JsNode.memberSegmentsFrom inChain
      (.member range object property computed optional) = some [root, "db", name]) :
    computed = false ∧ object.memberSegments = some [root, "db"] ∧
      property.identifierName = some name := by
  obtain ⟨hcomputed, before, last, hbefore, hidentifier, heq⟩ := memberSegments_member hsegments
  have hsplit : before ++ [last] = [root, "db"] ++ [name] := heq.symm
  obtain ⟨rfl, hlast⟩ := append_inj' hsplit rfl
  cases hlast
  exact ⟨hcomputed, hbefore, hidentifier⟩

/-- The database of a context. -/
def OnDatabase (callee : JsNode) : Prop :=
  ∃ root name, callee.memberSegments = some [root, "db", name]

mutual

/-- The stages of a chain on the database are the calls it makes there. -/
theorem databaseCalls_of_stages : (node : JsNode) → (opening : Stage) → (later : List Stage) →
    stagesOf node = some (opening :: later) → OnDatabase opening.callee →
    databaseCalls execution node = some ((opening :: later).map (stageCall execution))
  | .wrapper _ expression, opening, later, hstages, hdatabase => by
    rw [stagesOf] at hstages
    rw [databaseCalls]
    exact databaseCalls_of_stages expression opening later hstages hdatabase
  | .call _ callee arguments _, opening, later, hstages, hdatabase => by
    rw [stagesOf] at hstages
    rw [databaseCalls]
    obtain ⟨⟨method, before⟩, hcallee, heq⟩ := Option.map_eq_some_iff.mp hstages
    rw [databaseReceiver_of_stages callee method before hcallee]
    · rw [← heq]
      simp [stageCall]
    · cases before with
      | nil =>
        cases heq
        exact hdatabase
      | cons first rest =>
        cases heq
        exact hdatabase
  | .identifier _ _, _, _, hstages, _ | .literal _ _, _, _, hstages, _
  | .member _ _ _ _ _, _, _, hstages, _ | .construct _ _ _, _, _, hstages, _
  | .chain _ _, _, _, hstages, _ | .arrow _ _ _ _, _, _, hstages, _
  | .function _ _ _ _, _, _, hstages, _ | .spread _ _, _, _, hstages, _
  | .other _ _ _, _, _, hstages, _ => by
    simp [stagesOf] at hstages

theorem databaseReceiver_of_stages : (node : JsNode) → (method : String) →
    (before : List Stage) → calleeStages node = some (method, before) →
    OnDatabase ((before.head?.map Stage.callee).getD node) →
    databaseReceiver execution node = some (method, before.map (stageCall execution))
  | .wrapper _ expression, method, before, hstages, hdatabase => by
    rw [calleeStages] at hstages
    rw [databaseReceiver]
    refine databaseReceiver_of_stages expression method before hstages ?_
    cases before with
    | nil => exact hdatabase
    | cons first rest => exact hdatabase
  | .member _ object property computed _, method, before, hstages, hdatabase => by
    rw [calleeStages] at hstages
    rw [databaseReceiver]
    split at hstages
    · cases hstages
    · rename_i hcomputed
      have hname : memberName property computed = property.identifierName := by
        rw [memberName, if_neg hcomputed]
      rw [hname]
      cases hidentifier : property.identifierName with
      | none => simp [hidentifier] at hstages
      | some name =>
        rw [hidentifier] at hstages
        obtain ⟨stages, hobject, heq⟩ := Option.map_eq_some_iff.mp hstages
        cases heq
        cases before with
        | nil =>
          obtain ⟨root, last, hsegments⟩ := hdatabase
          have hon : isDatabase object = true := by
            obtain ⟨-, hobject, -⟩ := memberSegments_database hsegments
            rw [isDatabase, hobject]
            rfl
          simp [hon]
        | cons first rest =>
          have hoff : isDatabase object = false := by
            cases hsegments : object.memberSegments with
            | none => simp [isDatabase, hsegments]
            | some segments =>
              rw [stagesOf_of_segments object segments hsegments] at hobject
              cases hobject
          simp only [hoff]
          rw [databaseCalls_of_stages object first rest hobject hdatabase]
          rfl
  | .identifier _ _, _, _, hstages, _ | .literal _ _, _, _, hstages, _
  | .call _ _ _ _, _, _, hstages, _ | .construct _ _ _, _, _, hstages, _
  | .chain _ _, _, _, hstages, _ | .arrow _ _ _ _, _, _, hstages, _
  | .function _ _ _ _, _, _, hstages, _ | .spread _ _, _, _, hstages, _
  | .other _ _ _, _, _, hstages, _ => by
    simp [calleeStages] at hstages

end

end Chains

section Queries

variable {Value : Type} {execution : Execution Value} {source : String} {range : SourceRange}
  {opening : Stage} {stages : List Stage} {terminal : String} {arguments : List JsNode}
  {candidate : OperationCandidate}

/-- The parts from which a query candidate is made. -/
structure QueryParts (source : String) (range : SourceRange) (opening : Stage)
    (stages : List Stage) (terminal : String) (arguments : List JsNode)
    (candidate : OperationCandidate) where
  limit : Option ℕ
  dynamicLimit : Bool
  limited : terminalLimit terminal arguments = some (limit, dynamicLimit)
  table : String
  segments : List String
  opened : queryTable opening = some (table, segments)
  indexed : Stage
  single : singleStage "withIndex" stages = some (some indexed)
  index : String
  constraints : List ParsedIndexConstraint
  indexedBy : indexStage indexed = some (index, constraints)
  ordered : Option Stage
  singleOrder : singleStage "order" stages = some ordered
  order : Option String
  orderedBy : orderStage ordered = some order
  shape : CanonicalIndexQueryShape
  shaped : canonicalIndexQueryShape order terminal limit dynamicLimit = some shape
  candidate_eq : candidate = {
    kind := "db.query"
    range := range
    table := some table
    index := some index
    indexConstraints := constraints.map (indexConstraintCandidate source)
    order := some shape.order
    terminal := some shape.terminal
    limit := shape.limit
    limitArgumentIndex := if shape.dynamicLimit then some constraints.length else none
    effect := opening.callee.range
    effectPath := ".".intercalate segments }

theorem queryParts_of_parse
    (hparse : parseQuery source range opening stages terminal arguments = some candidate) :
    Nonempty (QueryParts source range opening stages terminal arguments candidate) := by
  obtain ⟨⟨limit, dynamicLimit⟩, hlimit, hopening⟩ := Option.bind_eq_some_iff.mp hparse
  obtain ⟨⟨table, segments⟩, htable, hindexing⟩ := Option.bind_eq_some_iff.mp hopening
  obtain ⟨_, hsingle, hfound⟩ := Option.bind_eq_some_iff.mp hindexing
  obtain ⟨indexed, rfl, hconstraining⟩ := Option.bind_eq_some_iff.mp hfound
  obtain ⟨⟨index, constraints⟩, hindexed, hordering⟩ := Option.bind_eq_some_iff.mp hconstraining
  obtain ⟨ordered, hordered, hdirecting⟩ := Option.bind_eq_some_iff.mp hordering
  obtain ⟨order, horder, hshaping⟩ := Option.bind_eq_some_iff.mp hdirecting
  obtain ⟨shape, hshape, hcandidate⟩ := Option.bind_eq_some_iff.mp hshaping
  refine ⟨⟨limit, dynamicLimit, hlimit, table, segments, htable, indexed, hsingle, index,
    constraints, hindexed, ordered, hordered, order, horder, shape, hshape, ?_⟩⟩
  simpa using (Option.some.inj hcandidate).symm

theorem singleStage_eq {name : String} {found : Option Stage}
    (hsingle : singleStage name stages = some found) :
    stages.filter (fun stage => stage.method == name) = found.toList := by
  unfold singleStage at hsingle
  split at hsingle
  · rename_i hnone
    cases hsingle
    rw [hnone, Option.toList_none]
  · rename_i hone
    cases hsingle
    rw [hone, Option.toList_some]
  · cases hsingle

variable (execution) in
/-- Stages that are looked up by name stand between the first and the last. -/
theorem middle_filter {name : String} {middle : List Stage} {last : Stage} {found : Option Stage}
    (hopening : opening.method ≠ name) (hlast : last.method ≠ name)
    (hsingle : singleStage name (opening :: (middle ++ [last])) = some found) :
    named name (middle.map (stageCall execution)) = found.toList.map (stageCall execution) := by
  have hfilter := singleStage_eq hsingle
  rw [filter_cons_of_neg (by simpa using hopening), filter_append,
    filter_cons_of_neg (by simpa using hlast), filter_nil, List.append_nil] at hfilter
  rw [named, filter_map, ← hfilter]
  rfl

variable (execution) in
theorem stageArguments_text {node : JsNode} {text : String} (htext : node.valueString = some text) :
    ∃ argument : StageArgument Value, stageArguments execution node = [argument] ∧
      argument.text = some text := by
  obtain ⟨value, hvalues⟩ := passedValues_text execution htext
  rw [stageArguments, hvalues]
  exact ⟨_, rfl, rfl⟩

variable (execution) in
/-- An expression passes one value, and is known by its text or number only if
it is a literal. -/
theorem passedValues_single {node : JsNode}
    (hspread : node.unwrapRuntimeExpression.isSpread = false) :
    ∃ passed : PassedValue Value, passedValues execution node = [passed] ∧
      passed.value = execution.value node.unwrapRuntimeExpression.range ∧
      passed.literal = match node.unwrapRuntimeExpression with
        | .literal _ literal => some literal
        | _ => none := by
  rw [← passedValues_unwrap]
  cases hnode : node.unwrapRuntimeExpression with
  | spread range argument =>
    rw [hnode] at hspread
    cases hspread
  | wrapper range expression =>
    exact absurd hnode (node.unwrapRuntimeExpression_ne expression range)
  | _ => exact ⟨_, rfl, rfl, rfl⟩

/-- A range callback, an arrow or a function of one parameter. -/
theorem parseIndexConstraints_cases {callback : JsNode} {constraints : List ParsedIndexConstraint}
    (hparse : parseIndexConstraints callback = some constraints) :
    ∃ range inner parameter body isAsync,
      (callback.unwrapRuntimeExpression = .arrow range [.identifier inner parameter] body isAsync ∨
        callback.unwrapRuntimeExpression =
          .function range [.identifier inner parameter] body isAsync) ∧
      constraintsOf parameter false body = some constraints := by
  rw [parseIndexConstraints] at hparse
  split at hparse
  case h_1 range parameters body isAsync hnode | h_2 range parameters body isAsync hnode =>
    split at hparse
    case h_1 inner parameter =>
      split at hparse
      · cases hparse
      · rename_i found hfound
        split at hparse
        · cases hparse
          exact ⟨range, inner, parameter, body, isAsync, by simp [hnode], hfound⟩
        · cases hparse
    case h_2 => cases hparse
  case h_3 => cases hparse

variable (execution) in
theorem callback_performed {callback : JsNode} {constraints : List ParsedIndexConstraint}
    (hparse : parseIndexConstraints callback = some constraints) :
    ∃ (range : StageArgument Value) (calls : List (RangeCall Value)),
      stageArguments execution callback = [range] ∧
      range.callback = some (calls, callback.unwrapRuntimeExpression.isAsync) ∧
      calls.map performedConstraint = constraints.map (constraintPerformed execution) := by
  obtain ⟨range, inner, parameter, body, isAsync, hnode, hconstraints⟩ :=
    parseIndexConstraints_cases hparse
  have hbody : ∃ calls, rangeCalls execution parameter body = some calls ∧
      calls.map performedConstraint = constraints.map (constraintPerformed execution) :=
    rangeCalls_of_constraints false body constraints hconstraints
  obtain ⟨calls, hcalls, hmap⟩ := hbody
  have hspread : callback.unwrapRuntimeExpression.isSpread = false := by
    obtain hnode | hnode := hnode
    all_goals rw [hnode]; rfl
  obtain ⟨passed, hpassed, -, -⟩ := passedValues_single execution hspread
  refine ⟨{ passed with
    callback := callbackCalls execution callback.unwrapRuntimeExpression }, calls, ?_, ?_, hmap⟩
  · rw [stageArguments, hpassed, map_singleton]
  · obtain hnode | hnode := hnode
    all_goals
      rw [hnode]
      simp [callbackCalls, hcalls, JsNode.isAsync]

variable (execution) in
theorem indexStage_performed {indexed : Stage} {index : String}
    {constraints : List ParsedIndexConstraint}
    (hindexed : indexStage indexed = some (index, constraints)) :
    ∃ callback first second calls, indexed.arguments[1]? = some callback ∧
      parseIndexConstraints callback = some constraints ∧
      (stageCall execution indexed).arguments = [first, second] ∧ first.text = some index ∧
      second.callback = some (calls, callback.unwrapRuntimeExpression.isAsync) ∧
      calls.map performedConstraint = constraints.map (constraintPerformed execution) := by
  unfold indexStage at hindexed
  split at hindexed
  · rename_i indexNode callback harguments
    split at hindexed
    · cases hindexed
    · cases hindexed
    · rename_i text _ htext
      obtain ⟨_, hparse, heq⟩ := Option.map_eq_some_iff.mp hindexed
      cases heq
      obtain ⟨first, hfirst, hfirstText⟩ := stageArguments_text execution htext
      obtain ⟨second, calls, hsecond, hcallback, hmap⟩ := callback_performed execution hparse
      refine ⟨callback, first, second, calls, ?_, hparse, ?_, hfirstText, hcallback, hmap⟩
      · rw [harguments]
        rfl
      · rw [stageCall, harguments]
        simp [hfirst, hsecond]
  · cases hindexed

theorem canonicalIndexQueryShape_eq {order : Option String} {limit : Option ℕ}
    {dynamicLimit : Bool} {shape : CanonicalIndexQueryShape}
    (hshape : canonicalIndexQueryShape order terminal limit dynamicLimit = some shape) :
    canonicalOrder order = some shape.order ∧
      canonicalTerminal terminal limit dynamicLimit = some (shape.terminal, shape.limit) ∧
      shape.dynamicLimit = dynamicLimit := by
  obtain ⟨direction, hdirection, hrest⟩ := Option.bind_eq_some_iff.mp hshape
  obtain ⟨⟨method, bound⟩, hterminal, heq⟩ := Option.bind_eq_some_iff.mp hrest
  cases heq
  exact ⟨hdirection, hterminal, rfl⟩

theorem orderStage_performed {ordered : Option Stage} {order : Option String} {direction : String}
    (hordered : orderStage ordered = some order) (horder : canonicalOrder order = some direction) :
    performedOrder (ordered.toList.map (stageCall execution)) = some direction := by
  cases ordered with
  | none =>
    cases hordered
    exact horder
  | some stage =>
    rw [orderStage] at hordered
    split at hordered
    · rename_i node harguments
      obtain ⟨text, htext, rfl⟩ := Option.map_eq_some_iff.mp hordered
      obtain ⟨argument, hargument, hargumentText⟩ := stageArguments_text execution htext
      have hcall : (stageCall execution stage).arguments = [argument] := by
        rw [stageCall, harguments]
        simp [hargument]
      simp only [Option.toList_some, map_singleton, performedOrder, hcall, hargumentText]
      unfold canonicalOrder at horder
      split at horder
      all_goals simp_all
    · cases hordered

variable (execution) in
theorem takeLimit_performed {argument : JsNode} {limit : Option ℕ} {dynamicLimit : Bool}
    (hlimit : takeLimit argument = some (limit, dynamicLimit)) :
    ∃ passed : StageArgument Value, stageArguments execution argument = [passed] ∧
      ((∃ value, passed.literal = some (.number value) ∧ limit = some value.num.toNat ∧
          dynamicLimit = false) ∨
        passed.literal = none ∧ limit = none ∧ dynamicLimit = true) := by
  have hspread : argument.unwrapRuntimeExpression.isSpread = false := by
    cases hnode : argument.unwrapRuntimeExpression with
    | spread range inner =>
      rw [takeLimit, hnode] at hlimit
      cases hlimit
    | _ => rfl
  obtain ⟨passed, hpassed, -, hliteral⟩ := passedValues_single execution hspread
  refine ⟨{ passed with callback := callbackCalls execution argument.unwrapRuntimeExpression },
    by rw [stageArguments, hpassed, map_singleton], ?_⟩
  rw [takeLimit] at hlimit
  cases hnode : argument.unwrapRuntimeExpression with
  | literal range value =>
    rw [hnode] at hlimit hliteral
    cases value with
    | number value =>
      simp only at hlimit
      split at hlimit
      · cases hlimit
        exact .inl ⟨value, hliteral, rfl, rfl⟩
      · cases hlimit
    | text _ | other => cases hlimit
  | spread range inner =>
    rw [hnode] at hspread
    cases hspread
  | _ =>
    rw [hnode] at hlimit hliteral
    cases hlimit
    exact .inr ⟨hliteral, rfl, rfl⟩

theorem terminal_performed {limit found : Option ℕ} {dynamicLimit : Bool} {method : String}
    {operands : ℕ} {last : Stage}
    (hlimit : terminalLimit last.method last.arguments = some (limit, dynamicLimit))
    (hterminal : canonicalTerminal last.method limit dynamicLimit = some (method, found)) :
    performedTerminal operands (stageCall execution last) =
      some (method, limitPerformed found (if dynamicLimit then some operands else none)) := by
  obtain ⟨name, callee, arguments⟩ := last
  simp only [stageCall] at hlimit hterminal ⊢
  by_cases htake : name = "take"
  · subst htake
    unfold terminalLimit at hlimit
    rw [if_pos rfl] at hlimit
    split at hlimit
    · obtain ⟨passed, hpassed, ⟨value, hliteral, rfl, rfl⟩ | ⟨hliteral, rfl, rfl⟩⟩ :=
        takeLimit_performed execution hlimit
      · have hcanonical : (if 1 ≤ value.num.toNat ∧ value.num.toNat ≤ 100000 then
            some ("collect", some value.num.toNat) else none) = some (method, found) := hterminal
        split at hcanonical
        · cases hcanonical
          simp [performedTerminal, hpassed, hliteral, limitPerformed]
        · cases hcanonical
      · cases hterminal
        simp [performedTerminal, hpassed, hliteral, limitPerformed]
    · cases hlimit
  · unfold terminalLimit at hlimit
    rw [if_neg htake] at hlimit
    split at hlimit
    · rename_i hempty
      obtain rfl : arguments = [] := List.isEmpty_iff.mp hempty
      unfold canonicalTerminal at hterminal
      split at hterminal
      all_goals first
        | exact absurd rfl htake
        | cases hterminal
      all_goals rfl
    · cases hlimit

variable (execution) in
theorem queryTable_eq {table : String} {segments : List String}
    (hopened : queryTable opening = some (table, segments)) :
    opening.method = "query" ∧ OnDatabase opening.callee ∧
      ((stageCall execution opening).arguments.head?.bind fun table => table.text) =
        some table := by
  unfold queryTable at hopened
  split at hopened
  · rename_i hmethod
    split at hopened
    · rename_i root node hsegments harguments
      split at hopened
      · cases hopened
      · cases hopened
      · rename_i text _ htext
        cases hopened
        obtain ⟨argument, hargument, hargumentText⟩ := stageArguments_text execution htext
        refine ⟨hmethod, ⟨root, "query", hsegments⟩, ?_⟩
        rw [stageCall, harguments]
        simpa [hargument] using hargumentText
    · cases hopened
  · cases hopened

/-- The operation that the parts of a candidate perform. -/
def partsPerformed (execution : Execution Value) (middle : List Stage) (table index : String)
    (constraints : List ParsedIndexConstraint) (shape : CanonicalIndexQueryShape) :
    PerformedOperation Value where
  kind := "db.query"
  table := some table
  index := some index
  constraints := constraints.map (constraintPerformed execution)
  order := some shape.order
  terminal := some shape.terminal
  limit := limitPerformed shape.limit (if shape.dynamicLimit then
    some ((constraints.map (constraintPerformed execution)).flatMap (·.operands)).length else none)
  furtherStages := furtherStages (middle.map (stageCall execution))

theorem performedQuery_of_parts {middle : List Stage} {last : Stage}
    (hlast : last.method ∈ terminalMethods)
    (parts : QueryParts source range opening (opening :: (middle ++ [last])) last.method
      last.arguments candidate) :
    ∃ callback, parts.indexed.arguments[1]? = some callback ∧
      parseIndexConstraints callback = some parts.constraints ∧
      ∀ (Value : Type) (execution : Execution Value),
        performedQuery (stageCall execution opening) (middle.map (stageCall execution))
          (stageCall execution last) =
        if callback.unwrapRuntimeExpression.isAsync then none
        else some (partsPerformed execution middle parts.table parts.index parts.constraints
          parts.shape) := by
  have hnames : last.method ≠ "withIndex" ∧ last.method ≠ "order" := by
    simp only [terminalMethods, mem_cons, not_mem_nil, or_false] at hlast
    obtain h | h | h | h := hlast
    all_goals simp [h]
  obtain ⟨callback, -, -, -, hcallback, hparse, -⟩ :=
    indexStage_performed (⟨fun _ => (), fun _ => []⟩ : Execution Unit) parts.indexedBy
  refine ⟨callback, hcallback, hparse, fun Value execution => ?_⟩
  obtain ⟨hquery, -, htable⟩ := queryTable_eq execution parts.opened
  obtain ⟨other, first, second, calls, hother, -, harguments, hindex, hcalls, hmap⟩ :=
    indexStage_performed execution parts.indexedBy
  obtain rfl : other = callback := Option.some.inj (hother.symm.trans hcallback)
  obtain ⟨horder, hterminal, hdynamic⟩ := canonicalIndexQueryShape_eq parts.shaped
  have hindexed := middle_filter execution (by rw [hquery]; decide) hnames.1 parts.single
  have hordered := middle_filter execution (by rw [hquery]; decide) hnames.2 parts.singleOrder
  rw [performedQuery, hindexed, hordered]
  simp only [Option.toList_some, map_singleton, harguments, settledCalls, hcalls]
  cases other.unwrapRuntimeExpression.isAsync with
  | true => rfl
  | false =>
    simp only [orderStage_performed parts.orderedBy horder,
      terminal_performed parts.limited hterminal, htable, hindex]
    rw [partsPerformed, ← hmap, ← hdynamic]
    rfl

/-- The middle stages are all indexes and orders, the callback is not async and
no operand is spread. -/
def QueryAccounted (middle : List Stage) (callback : JsNode)
    (constraints : List ParsedIndexConstraint) : Prop :=
  (∀ stage ∈ middle, stage.method = "withIndex" ∨ stage.method = "order") ∧
    callback.unwrapRuntimeExpression.isAsync = false ∧
    ∀ constraint ∈ constraints, constraint.value.isSpread = false

theorem furtherStages_eq_nil_iff {middle : List Stage} :
    furtherStages (middle.map (stageCall execution)) = [] ↔
      ∀ stage ∈ middle, stage.method = "withIndex" ∨ stage.method = "order" := by
  rw [furtherStages, filter_eq_nil_iff, forall_mem_map]
  refine forall₂_congr fun stage _ => ?_
  by_cases hindex : stage.method = "withIndex"
  · simp [stageCall, hindex]
  · simp [stageCall, hindex]

/-- An operand is its candidate's exactly when it is not spread. -/
theorem operands_eq_iff {constraint : ParsedIndexConstraint} :
    (∀ (Value : Type) (execution : Execution Value),
      constraintPerformed execution constraint = ⟨some constraint.field, constraint.operator,
        [execution.value constraint.value.range]⟩) ↔ constraint.value.isSpread = false := by
  obtain ⟨field, operator, value, hunwrapped⟩ := constraint
  constructor
  · intro hall
    cases value with
    | spread range argument =>
      have hnone := congrArg PerformedConstraint.operands (hall Unit ⟨fun _ => (), fun _ => []⟩)
      cases hnone
    | _ => rfl
  · intro hspread Value execution
    cases value with
    | spread range argument => cases hspread
    | wrapper range expression => exact absurd rfl (hunwrapped expression range)
    | _ => rfl

theorem queryParts_performed_iff {middle : List Stage} {last : Stage}
    (hlast : last.method ∈ terminalMethods)
    (parts : QueryParts source range opening (opening :: (middle ++ [last])) last.method
      last.arguments candidate) :
    ∃ callback, parts.indexed.arguments[1]? = some callback ∧
      parseIndexConstraints callback = some parts.constraints ∧
      ((∀ (Value : Type) (execution : Execution Value),
        performedQuery (stageCall execution opening) (middle.map (stageCall execution))
          (stageCall execution last) = some (candidate.performed execution)) ↔
        QueryAccounted middle callback parts.constraints) := by
  obtain ⟨callback, hcallback, hparse, hperformed⟩ := performedQuery_of_parts hlast parts
  refine ⟨callback, hcallback, hparse, ?_⟩
  have hcandidate : ∀ (Value : Type) (execution : Execution Value),
      candidate.performed execution = {
        kind := "db.query"
        table := some parts.table
        index := some parts.index
        constraints := parts.constraints.map fun constraint =>
          ⟨some constraint.field, constraint.operator, [execution.value constraint.value.range]⟩
        order := some parts.shape.order
        terminal := some parts.shape.terminal
        limit := limitPerformed parts.shape.limit
          (if parts.shape.dynamicLimit then some parts.constraints.length else none) } := by
    intro Value execution
    have heq := congrArg (fun candidate => candidate.performed execution) parts.candidate_eq
    refine heq.trans ?_
    simp [OperationCandidate.performed, indexConstraintCandidate]
  constructor
  · intro hall
    have hsettled : callback.unwrapRuntimeExpression.isAsync = false := by
      have hunit := hall Unit ⟨fun _ => (), fun _ => []⟩
      rw [hperformed] at hunit
      split at hunit
      · cases hunit
      · simp_all
    have hequal : ∀ (Value : Type) (execution : Execution Value),
        partsPerformed execution middle parts.table parts.index parts.constraints parts.shape =
          candidate.performed execution := by
      intro Value execution
      have hvalue := hall Value execution
      rw [hperformed, hsettled] at hvalue
      exact Option.some.inj hvalue
    refine ⟨?_, hsettled, fun constraint hmem => ?_⟩
    · have hnone := congrArg PerformedOperation.furtherStages
        (hequal Unit ⟨fun _ => (), fun _ => []⟩)
      exact furtherStages_eq_nil_iff.mp hnone
    · refine operands_eq_iff.mp fun Value execution => ?_
      have hconstraints := congrArg PerformedOperation.constraints (hequal Value execution)
      rw [hcandidate] at hconstraints
      exact map_inj_left.mp hconstraints constraint hmem
  · rintro ⟨hmiddle, hsettled, hsingle⟩ Value execution
    have hconstraints : parts.constraints.map (constraintPerformed execution) =
        parts.constraints.map fun constraint => ⟨some constraint.field, constraint.operator,
          [execution.value constraint.value.range]⟩ :=
      map_inj_left.mpr fun constraint hmem =>
        operands_eq_iff.mpr (hsingle constraint hmem) Value execution
    rw [hperformed, hsettled, hcandidate]
    simp only [partsPerformed, hconstraints, furtherStages_eq_nil_iff.mpr hmiddle]
    simp [flatMap_map]

end Queries

end ConvexWasm.Compiler.DatabaseOperation
