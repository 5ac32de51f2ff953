import ConvexWasm.Guest.IndexQueryRuntime

/-!
# Calls find their operations

Every call that looks an operation up finds one of its own kind, and a query
one of its own table, index, constraints, order and terminal.  Where the limit
comes from is not part of what the lookup compares.
-/

namespace ConvexWasm.Guest

open List Option

variable {operations : List Operation}

section First

/-- In a list sorted by number the first match is the one with the least number. -/
theorem find?_eq_some_iff_least {test : Operation → Bool}
    (hsorted : operations.Pairwise fun left right => left.id ≤ right.id)
    (hnodup : (operations.map Operation.id).Nodup) {operation : Operation} :
    operations.find? test = some operation ↔ operation ∈ operations ∧ test operation = true ∧
      ∀ other ∈ operations, test other = true → operation.id ≤ other.id := by
  have hfirst : ∀ {found other : Operation}, operations.find? test = some found →
      other ∈ operations → test other = true → found.id ≤ other.id := by
    intro found other hfind hother htest
    obtain ⟨-, before, after, hsplit, hbefore⟩ := List.find?_eq_some_iff_append.mp hfind
    rw [hsplit] at hother hsorted
    obtain hearly | hlate := mem_append.mp hother
    · have hfalse := hbefore other hearly
      rw [htest] at hfalse
      cases hfalse
    · obtain rfl | hlater := mem_cons.mp hlate
      · exact le_rfl
      · exact rel_of_pairwise_cons (pairwise_append.mp hsorted).2.1 hlater
  constructor
  · intro hfind
    exact ⟨mem_of_find?_eq_some hfind, List.find?_some hfind, fun _ => hfirst hfind⟩
  · rintro ⟨hmem, htest, hleast⟩
    cases hfind : operations.find? test with
    | none => exact absurd htest (List.find?_eq_none.mp hfind operation hmem)
    | some found =>
      have hfound := mem_of_find?_eq_some hfind
      have hle := hleast found hfound (List.find?_some hfind)
      rw [inj_on_of_nodup_map hnodup hfound hmem (le_antisymm (hfirst hfind hmem htest) hle)]

/-- The operations that lowering keeps are sorted and have different numbers. -/
structure Listed (operations : List Operation) : Prop where
  sorted : operations.Pairwise fun left right => left.id ≤ right.id
  nodup : (operations.map Operation.id).Nodup

theorem listed_of_normalize {records : List OperationRecord}
    (hok : normalizeOperations records = .ok operations) : Listed operations := by
  obtain ⟨found, hfrom, hok⟩ := Fallible.bind_eq_ok.mp hok
  cases hok
  have hids := (normalizeFrom_eq_ok.mp hfrom).1.ids
  exact ⟨pairwise_insertionSort _ _, ((perm_insertionSort _ _).map _).nodup_iff.mpr hids⟩

end First

section Said

variable {Value : Type}

/-- A call may follow the calls that led to its receiver. -/
def Allowed (chain : List (RangeCall Value)) (call : RangeCall Value) : Prop :=
  call.field.isSome = true ∧ (∀ last ∈ chain.getLast?, last.operator = .eq) ∧
    ∀ earlier ∈ chain, earlier.field ≠ call.field

instance decidableAllowed (chain : List (RangeCall Value)) (call : RangeCall Value) :
    Decidable (Allowed chain call) :=
  inferInstanceAs (Decidable (_ ∧ (∀ last ∈ chain.getLast?, _) ∧ ∀ earlier ∈ chain, _))

/-- The chains of calls that lead from the first range to each range. -/
def extendChains (chains : List (List (RangeCall Value))) (call : RangeCall Value) :
    List (List (RangeCall Value)) :=
  match chains[call.receiver]? with
  | none => chains
  | some chain => if Allowed chain call then chains ++ [chain ++ [call]] else chains

def chainsOf (calls : List (RangeCall Value)) : List (List (RangeCall Value)) :=
  calls.foldl extendChains [[]]

/-- What a chain of calls has said. -/
def saidOf (chain : List (RangeCall Value)) : RangeState Value where
  fields := chain.filterMap (·.field)
  operators := chain.map (·.operator)
  values := chain.map (·.value)

theorem add_saidOf {chain : List (RangeCall Value)} {call : RangeCall Value} :
    ((saidOf chain).add call).toOption =
      if Allowed chain call then some (saidOf (chain ++ [call])) else none := by
  unfold RangeState.add
  cases hfield : call.field with
  | none =>
    have hnot : ¬Allowed chain call := fun hallowed => by
      have hsome := hallowed.1
      rw [hfield] at hsome
      cases hsome
    rw [if_neg hnot]
    rfl
  | some field =>
    have hlast : ((saidOf chain).operators.getLast?.any (· != .eq)) = true ↔
        ¬∀ last ∈ chain.getLast?, last.operator = .eq := by
      rw [saidOf, List.getLast?_map]
      cases chain.getLast? with
      | none => simp
      | some last => simp
    have hmem : field ∈ (saidOf chain).fields ↔
        ¬∀ earlier ∈ chain, earlier.field ≠ call.field := by
      rw [saidOf, mem_filterMap, hfield]
      push Not
      rfl
    by_cases hrange : ∀ last ∈ chain.getLast?, last.operator = .eq
    · by_cases hfresh : ∀ earlier ∈ chain, earlier.field ≠ call.field
      · have hallowed : Allowed chain call := ⟨by rw [hfield]; rfl, hrange, hfresh⟩
        simp only
        rw [if_neg (mt hlast.mp (not_not.mpr hrange)), if_neg (mt hmem.mp (not_not.mpr hfresh)),
          if_pos hallowed]
        simp [Except.toOption, saidOf, hfield]
      · simp only
        rw [if_neg (mt hlast.mp (not_not.mpr hrange)), if_pos (hmem.mpr hfresh),
          if_neg fun hallowed : Allowed chain call => hfresh hallowed.2.2]
        rfl
    · simp only
      rw [if_pos (hlast.mpr hrange), if_neg fun hallowed : Allowed chain call =>
        hrange hallowed.2.1]
      rfl

/-- The ranges hold what the chains of calls have said. -/
theorem buildRanges_eq (calls : List (RangeCall Value)) :
    buildRanges calls = (chainsOf calls).map saidOf := by
  have hstep : ∀ (chains : List (List (RangeCall Value))) (call : RangeCall Value),
      addRange (chains.map saidOf) call = (extendChains chains call).map saidOf := by
    intro chains call
    unfold addRange extendChains
    rw [List.getElem?_map]
    cases hchain : chains[call.receiver]? with
    | none => rfl
    | some chain =>
      have hadd := @add_saidOf Value chain call
      simp only [map_some]
      split_ifs at hadd ⊢ with hallowed
      · cases hnext : (saidOf chain).add call with
        | error message =>
          rw [hnext] at hadd
          cases hadd
        | ok next =>
          rw [hnext] at hadd
          cases hadd
          simp
      · cases hnext : (saidOf chain).add call with
        | error message => rfl
        | ok next =>
          rw [hnext] at hadd
          cases hadd
  have hfold : ∀ chains : List (List (RangeCall Value)),
      calls.foldl addRange (chains.map saidOf) = (calls.foldl extendChains chains).map saidOf := by
    induction calls with
    | nil => exact fun _ => rfl
    | cons call later ih =>
      intro chains
      rw [foldl_cons, foldl_cons, hstep, ih]
  exact hfold [[]]

/-- Different fields, all of them strings, and only the last call is a range. -/
structure WellSaid (chain : List (RangeCall Value)) : Prop where
  fields : ∀ call ∈ chain, call.field.isSome = true
  nodup : (chain.map (·.field)).Nodup
  equalities : ∀ call ∈ chain.dropLast, call.operator = .eq

theorem WellSaid.extend {chain : List (RangeCall Value)} {call : RangeCall Value}
    (hchain : WellSaid chain) (hallowed : Allowed chain call) : WellSaid (chain ++ [call]) where
  fields other hother := by
    obtain hold | hnew := mem_append.mp hother
    · exact hchain.fields other hold
    · rw [mem_singleton.mp hnew]
      exact hallowed.1
  nodup := by
    rw [map_append, nodup_append]
    refine ⟨hchain.nodup, nodup_singleton _, ?_⟩
    intro first hfirst second hsecond heq
    obtain ⟨earlier, hearlier, rfl⟩ := mem_map.mp hfirst
    obtain rfl : second = call.field := by simpa using hsecond
    exact hallowed.2.2 earlier hearlier heq
  equalities other hother := by
    rw [dropLast_concat] at hother
    cases hlast : chain.getLast? with
    | none =>
      rw [List.getLast?_eq_none_iff.mp hlast] at hother
      cases hother
    | some last =>
      have hsplit := dropLast_append_getLast? last hlast
      rw [← hsplit] at hother
      obtain hearly | hend := mem_append.mp hother
      · exact hchain.equalities other hearly
      · rw [mem_singleton.mp hend]
        exact hallowed.2.1 last hlast

theorem wellSaid_of_mem {calls : List (RangeCall Value)} :
    ∀ chain ∈ chainsOf calls, WellSaid chain := by
  have hfold : ∀ chains : List (List (RangeCall Value)), (∀ chain ∈ chains, WellSaid chain) →
      ∀ chain ∈ calls.foldl extendChains chains, WellSaid chain := by
    induction calls with
    | nil => exact fun _ hchains => hchains
    | cons call later ih =>
      intro chains hchains
      refine ih _ fun chain hchain => ?_
      unfold extendChains at hchain
      split at hchain
      · exact hchains chain hchain
      · rename_i receiver hreceiver
        split at hchain
        · rename_i hallowed
          obtain hold | hnew := mem_append.mp hchain
          · exact hchains chain hold
          · rw [mem_singleton.mp hnew]
            exact (hchains receiver (mem_of_getElem? hreceiver)).extend hallowed
        · exact hchains chain hchain
  refine hfold [[]] fun chain hchain => ?_
  rw [mem_singleton.mp hchain]
  exact ⟨by simp, nodup_nil, by simp⟩

theorem length_fields {chain : List (RangeCall Value)} (hchain : WellSaid chain) :
    (saidOf chain).fields.length = (saidOf chain).values.length := by
  have hfields := hchain.fields
  clear hchain
  induction chain with
  | nil => rfl
  | cons call later ih =>
    obtain ⟨hcall, hlater⟩ := forall_mem_cons.mp hfields
    obtain ⟨field, hfield⟩ := Option.isSome_iff_exists.mp hcall
    have hrest := ih hlater
    simp only [saidOf, filterMap_cons, hfield, length_cons, map_cons] at hrest ⊢
    rw [hrest]

/-- The order that the stages say last. -/
def saidOrder : List (QueryStage Value) → Option OrderName → Option OrderName
  | [], order => order
  | .order (some order) :: later, _ => saidOrder later (some order)
  | _ :: later, order => saidOrder later order

/-- A query has the index and the range of one of its stages, the range being
what the chain of calls to the returned range says, and the order said last. -/
def Says (table : String) (stages : List (QueryStage Value)) (query : Query Value) : Prop :=
  query.table = table ∧ query.order = saidOrder stages none ∧
    ∀ range ∈ query.range, ∃ index calls returned chain,
      .withIndex index calls (some returned) ∈ stages ∧ query.index = index ∧
      (chainsOf calls)[returned]? = some chain ∧ range = saidOf chain ∧ WellSaid chain ∧
      chain ≠ []

theorem apply_eq_ok {query next : Query Value} {stage : QueryStage Value}
    (hstep : query.apply stage = .ok next) :
    (∃ index calls returned range, stage = .withIndex index calls (some returned) ∧
      (buildRanges calls)[returned]? = some range ∧ range.fields ≠ [] ∧
      next = { query with index, range := some range }) ∨
    ∃ order, stage = .order (some order) ∧ next = { query with order := some order } := by
  unfold Query.apply at hstep
  split at hstep
  · split at hstep
    · cases hstep
    · split at hstep
      · cases hstep
      · rename_i index calls returned _ _ range hrange
        split at hstep
        · cases hstep
        · rename_i hfields
          cases hstep
          obtain ⟨place, hplace, hget⟩ := Option.bind_eq_some_iff.mp hrange
          exact .inl ⟨index, calls, place, range, by rw [hplace], hget, hfields, rfl⟩
  · cases hstep
  · rename_i order
    cases hstep
    exact .inr ⟨order, rfl, rfl⟩

theorem says_of_foldlM {table : String} {stages : List (QueryStage Value)} {query : Query Value}
    (hfold : stages.foldlM Query.apply (createQuery table) = .ok query) :
    Says table stages query := by
  have hgeneral : ∀ (before after : List (QueryStage Value)) (start : Query Value),
      after.foldlM Query.apply start = .ok query →
      start.table = table →
      (∀ range ∈ start.range, ∃ index calls returned chain,
        .withIndex index calls (some returned) ∈ before ++ after ∧ start.index = index ∧
        (chainsOf calls)[returned]? = some chain ∧ range = saidOf chain ∧ WellSaid chain ∧
        chain ≠ []) →
      query.table = table ∧ query.order = saidOrder after start.order ∧
        ∀ range ∈ query.range, ∃ index calls returned chain,
          .withIndex index calls (some returned) ∈ before ++ after ∧ query.index = index ∧
          (chainsOf calls)[returned]? = some chain ∧ range = saidOf chain ∧ WellSaid chain ∧
          chain ≠ [] := by
    intro before after
    induction after generalizing before with
    | nil =>
      intro start hrest htable hrange
      cases hrest
      exact ⟨htable, rfl, hrange⟩
    | cons stage later ih =>
      intro start hrest htable hrange
      obtain ⟨next, hstep, hlater⟩ := Fallible.bind_eq_ok.mp hrest
      have hsplit : before ++ stage :: later = (before ++ [stage]) ++ later := by simp
      rw [hsplit] at hrange ⊢
      obtain ⟨index, calls, returned, range, rfl, hget, hfields, rfl⟩ | ⟨order, rfl, rfl⟩ :=
        apply_eq_ok hstep
      · rw [buildRanges_eq, List.getElem?_map, map_eq_some_iff] at hget
        obtain ⟨chain, hchain, rfl⟩ := hget
        refine ih (before ++ [_]) { start with index, range := some (saidOf chain) } hlater
          htable fun other hother => ?_
        cases hother
        refine ⟨index, calls, returned, chain, by simp, rfl, hchain, rfl,
          wellSaid_of_mem chain (mem_of_getElem? hchain), ?_⟩
        rintro rfl
        exact hfields rfl
      · exact ih (before ++ [_]) { start with order := some order } hlater htable hrange
  exact hgeneral [] stages _ hfold rfl (by simp [createQuery])

end Said

/-- Where the limit of an operation comes from. -/
inductive LimitSource
  | unlimited
  | fixed (limit : ℤ)
  | argument
  deriving DecidableEq

/-- Everything that tells one index query from another. -/
structure QueryDescriptor where
  table : String
  index : NameValue
  fields : List String
  operators : List ConstraintOperator
  order : QueryOrder
  terminal : QueryTerminal
  limit : LimitSource
  deriving DecidableEq

def IndexQuery.limitSource (query : IndexQuery) : LimitSource :=
  match query.limitArgumentIndex, query.limit with
  | some _, _ => .argument
  | none, some limit => .fixed limit
  | none, none => .unlimited

def IndexQuery.descriptor (query : IndexQuery) : QueryDescriptor where
  table := query.table
  index := .text query.index
  fields := query.constraints.map IndexConstraint.field
  operators := query.constraints.map IndexConstraint.operator
  order := query.order
  terminal := query.terminal
  limit := query.limitSource

/-- The limit of `take` is a number in the source or known only at run time. -/
def callLimit (terminal : TerminalCall) (literal : Bool) : LimitSource :=
  match terminal, literal with
  | .take (.integer limit), true => .fixed limit
  | .take _, _ => .argument
  | _, _ => .unlimited

def callDescriptor {Value : Type} (query : Query Value) (range : RangeState Value)
    (terminal : TerminalCall) (literal : Bool) : QueryDescriptor where
  table := query.table
  index := query.index
  fields := range.fields
  operators := range.operators
  order := normalizedOrder query.order
  terminal := terminal.normalized
  limit := callLimit terminal literal

/-- A limit that may come from the source takes the value at run time. -/
def LimitSource.fits (source : LimitSource) (limit : LimitValue) : Bool :=
  match source, limit with
  | .unlimited, .null => true
  | .fixed expected, .integer value => expected == value
  | .argument, .integer value => isLimit value
  | _, _ => false

/-- A query without an index or a range performs nothing.  Else the admitted
operation of this number has everything that the call says, or no operation
that has it takes the call's limit. -/
def Faithful {Value : Type} (operations : List Operation) (query : Query Value)
    (terminal : TerminalCall) (literal : Bool) : Prop :=
  match query.operation operations terminal with
  | .ok (id, operands) => ∃ range ∈ query.range, query.index ≠ .undefined ∧
      ∃ found, ⟨id, .databaseIndexQuery found⟩ ∈ operations ∧
        found.descriptor = callDescriptor query range terminal literal ∧
        operands = range.values.map .value ++
          (if found.limitSource = .argument then [.limit terminal.limit] else []) ∧
        operands.length = directBatchArgumentCount (.databaseIndexQuery found)
  | .error _ => ∀ range ∈ query.range, query.index ≠ .undefined →
      ∀ found id, ⟨id, .databaseIndexQuery found⟩ ∈ operations →
        found.descriptor = callDescriptor query range terminal literal →
        found.limitSource.fits terminal.limit = false

/-- An operation that differs in nothing but where its limit comes from takes
the limit of a `take`, and comes before all that are the call's own. -/
def Mistaken {Value : Type} (operations : List Operation) (query : Query Value)
    (terminal : TerminalCall) (literal : Bool) : Prop :=
  terminal.isTake = true ∧ ∃ range ∈ query.range, query.index ≠ .undefined ∧
    ∃ found id, ⟨id, .databaseIndexQuery found⟩ ∈ operations ∧
      { found.descriptor with limit := callLimit terminal literal } =
        callDescriptor query range terminal literal ∧
      found.limitSource ≠ callLimit terminal literal ∧
      found.limitSource.fits terminal.limit = true ∧
      ∀ own number, ⟨number, .databaseIndexQuery own⟩ ∈ operations →
        own.descriptor = callDescriptor query range terminal literal →
        own.limitSource.fits terminal.limit = true → id < number

variable {terminal : TerminalCall} {found : IndexQuery} {id : ℤ}

section Matching

theorem limitMatches_iff {query : IndexQuery} :
    limitMatches query terminal = true ↔ query.limitSource.fits terminal.limit = true ∧
      (query.limitSource = .argument → terminal.isTake = true) := by
  unfold limitMatches IndexQuery.limitSource
  cases query.limitArgumentIndex with
  | none =>
    cases query.limit <;> cases terminal.limit <;>
      simp [LimitSource.fits, @eq_comm ℤ]
  | some index =>
    cases terminal.limit <;> simp [LimitSource.fits, and_comm]

/-- The comparisons of a branch are those of the descriptor, the limit apart. -/
theorem indexQueryMatches_iff {Value : Type} {found : IndexQuery} {query : Query Value}
    {range : RangeState Value} {terminal : TerminalCall} {literal : Bool} :
    indexQueryMatches found query.table query.index range.fields range.operators query.order
        terminal = true ↔ { found.descriptor with limit := callLimit terminal literal } =
        callDescriptor query range terminal literal ∧ limitMatches found terminal = true := by
  unfold indexQueryMatches IndexQuery.descriptor callDescriptor
  grind

variable {Value : Type} {query : Query Value} {range : RangeState Value} {literal : Bool}

theorem descriptor_eq_iff :
    found.descriptor = callDescriptor query range terminal literal ↔
      { found.descriptor with limit := callLimit terminal literal } =
          callDescriptor query range terminal literal ∧
        found.limitSource = callLimit terminal literal := by
  rw [QueryDescriptor.mk.injEq, QueryDescriptor.mk.injEq]
  tauto

theorem callLimit_argument (hargument : callLimit terminal literal = .argument) :
    terminal.isTake = true := by
  cases terminal with
  | take limit => rfl
  | collect | first | stream | unique => cases literal <;> cases hargument

/-- Only an unlimited operation takes the limit of a call that is no `take`. -/
theorem callLimit_of_not_take {source : LimitSource} (htake : terminal.isTake = false)
    (hfits : source.fits terminal.limit = true) : source = callLimit terminal literal := by
  have hnull : terminal.limit = .null := by
    cases terminal with
    | take limit => cases htake
    | collect | first | stream | unique => rfl
  have hunlimited : callLimit terminal literal = .unlimited := by
    cases terminal with
    | take limit => cases htake
    | collect | first | stream | unique => cases literal <;> rfl
  rw [hnull] at hfits
  rw [hunlimited]
  cases source with
  | unlimited => rfl
  | fixed | argument => cases hfits

/-- An operation of exactly the call's descriptor is found if it takes the limit. -/
theorem matches_of_descriptor
    (hsame : found.descriptor = callDescriptor query range terminal literal)
    (hfits : found.limitSource.fits terminal.limit = true) :
    indexQueryMatches found query.table query.index range.fields range.operators query.order
      terminal = true := by
  obtain ⟨hothers, hlimit⟩ := descriptor_eq_iff.mp hsame
  refine indexQueryMatches_iff.mpr ⟨hothers, limitMatches_iff.mpr ⟨hfits, fun hargument => ?_⟩⟩
  exact callLimit_argument (hlimit.symm.trans hargument)

variable {table : String} {index : NameValue} {fields : List String}
  {operators : List ConstraintOperator} {order : Option OrderName}

/-- The operation found is the one with the least number among those that match. -/
theorem indexQueryOperationId_eq_ok (hlisted : Listed operations) :
    indexQueryOperationId operations table index fields operators order terminal = .ok id ↔
      ∃ found, ⟨id, .databaseIndexQuery found⟩ ∈ operations ∧
        indexQueryMatches found table index fields operators order terminal = true ∧
        ∀ other number, ⟨number, .databaseIndexQuery other⟩ ∈ operations →
          indexQueryMatches other table index fields operators order terminal = true →
          id ≤ number := by
  unfold indexQueryOperationId
  have hfirst := @find?_eq_some_iff_least operations
    (indexBranch table index fields operators order terminal) hlisted.sorted hlisted.nodup
  constructor
  · intro hok
    split at hok
    · rename_i operation hfind
      cases hok
      obtain ⟨hmem, htest, hleast⟩ := hfirst.mp hfind
      obtain ⟨number, kind⟩ := operation
      cases kind with
      | databaseIndexQuery found =>
        exact ⟨found, hmem, htest, fun other number hother hmatch => hleast _ hother hmatch⟩
      | _ => cases htest
    · cases hok
  · rintro ⟨found, hmem, hmatch, hleast⟩
    have hfind := hfirst.mpr ⟨hmem, hmatch, fun other hother htest => ?_⟩
    · rw [hfind]
    · obtain ⟨number, kind⟩ := other
      cases kind with
      | databaseIndexQuery query => exact hleast query number hother htest
      | _ => cases htest

theorem indexQueryOperationId_eq_error {message : String}
    (herror : indexQueryOperationId operations table index fields operators order terminal =
      .error message) (hmem : ⟨id, .databaseIndexQuery found⟩ ∈ operations) :
    indexQueryMatches found table index fields operators order terminal = false := by
  unfold indexQueryOperationId at herror
  split at herror
  · cases herror
  · rename_i hnone
    exact Bool.eq_false_iff.mpr (List.find?_eq_none.mp hnone _ hmem)

theorem asyncBatchArgumentCount_eq (hlisted : Listed operations) {operation : Operation}
    (hmem : operation ∈ operations) :
    asyncBatchArgumentCount operations operation.id =
      .ok (directBatchArgumentCount operation.kind) := by
  have hfind : operations.find? (fun other => decide (other.id = operation.id)) =
      some operation := by
    refine (find?_eq_some_iff_least hlisted.sorted hlisted.nodup).mpr
      ⟨hmem, decide_eq_true rfl, fun other _ htest => ?_⟩
    exact (of_decide_eq_true htest).ge
  rw [asyncBatchArgumentCount, hfind]

end Matching

section Selection

variable {Value : Type}

variable {query : Query Value}

/-- The operands are those of the range, and the limit where it is an argument. -/
theorem operation_eq_ok (hlisted : Listed operations) {operands : List (Operand Value)}
    (hok : query.operation operations terminal = .ok (id, operands)) :
    ∃ range ∈ query.range, query.index ≠ .undefined ∧
      indexQueryOperationId operations query.table query.index range.fields range.operators
        query.order terminal = .ok id ∧
      ∀ found, ⟨id, .databaseIndexQuery found⟩ ∈ operations →
        operands = range.values.map .value ++
          if range.values.length < directBatchArgumentCount (.databaseIndexQuery found) then
            [.limit terminal.limit]
          else [] := by
  unfold Query.operation at hok
  split at hok
  · cases hok
  · cases hok
  · rename_i range hrange hindex
    obtain ⟨number, hnumber, hafter⟩ := Fallible.bind_eq_ok.mp hok
    obtain ⟨count, hcount, hdone⟩ := Fallible.bind_eq_ok.mp hafter
    cases hdone
    refine ⟨range, hrange, hindex, hnumber, fun found hmem => ?_⟩
    have hdeclared := asyncBatchArgumentCount_eq hlisted hmem
    rw [hcount] at hdeclared
    cases hdeclared
    rfl

theorem operation_eq_error (hlisted : Listed operations) {message : String}
    (herror : query.operation operations terminal = .error message) {range : RangeState Value}
    (hrange : range ∈ query.range) (hindex : query.index ≠ .undefined)
    (hmem : ⟨id, .databaseIndexQuery found⟩ ∈ operations) :
    indexQueryMatches found query.table query.index range.fields range.operators query.order
      terminal = false := by
  have hsome : query.range = some range := Option.mem_def.mp hrange
  cases hnumber : indexQueryOperationId operations query.table query.index range.fields
      range.operators query.order terminal with
  | error refusal => exact indexQueryOperationId_eq_error hnumber hmem
  | ok number =>
    obtain ⟨selected, hselected, -⟩ := (indexQueryOperationId_eq_ok hlisted).mp hnumber
    have hcount := asyncBatchArgumentCount_eq hlisted hselected
    unfold Query.operation at herror
    split at herror
    · exact absurd ‹_› hindex
    · rename_i hnone _
      rw [hsome] at hnone
      cases hnone
    · rename_i other hother _
      rw [hsome] at hother
      cases hother
      rw [hnumber, Fallible.ok_bind, hcount, Fallible.ok_bind] at herror
      cases herror

theorem limitSource_eq_argument :
    found.limitSource = .argument ↔ found.limitArgumentIndex ≠ none := by
  unfold IndexQuery.limitSource
  cases found.limitArgumentIndex with
  | none => cases found.limit <;> simp
  | some place => simp

variable {values : List Value}

/-- A limit that is an argument is the one operand beyond those of the range. -/
theorem operands_eq (hlength : found.constraints.length = values.length) :
    (values.map Operand.value ++
        if values.length < directBatchArgumentCount (.databaseIndexQuery found) then
          [.limit terminal.limit]
        else []) =
      values.map Operand.value ++
        if found.limitSource = LimitSource.argument then [.limit terminal.limit] else [] := by
  have hcondition : values.length < directBatchArgumentCount (.databaseIndexQuery found) ↔
      found.limitSource = .argument := by
    rw [limitSource_eq_argument, directBatchArgumentCount, hlength]
    split_ifs with hnone <;> simp [hnone]
  simp only [hcondition]

theorem length_operands (hlength : found.constraints.length = values.length) :
    (values.map Operand.value ++
      if found.limitSource = LimitSource.argument then [Operand.limit terminal.limit] else []).length =
      directBatchArgumentCount (.databaseIndexQuery found) := by
  rw [directBatchArgumentCount, hlength, length_append, length_map]
  rw [if_congr limitSource_eq_argument rfl rfl]
  cases found.limitArgumentIndex <;> rfl

/-- A query finds an operation of its own unless it is mistaken. -/
theorem faithful_iff (hlisted : Listed operations)
    (hlength : ∀ range ∈ query.range, range.fields.length = range.values.length)
    (terminal : TerminalCall) (literal : Bool) :
    Faithful operations query terminal literal ↔
      ¬Mistaken operations query terminal literal := by
  constructor
  · rintro hfaithful ⟨htake, range, hrange, hindex, found, id, hmem, hothers, hlimit, hfits, hfirst⟩
    have hmatch := indexQueryMatches_iff.mpr
      ⟨hothers, limitMatches_iff.mpr ⟨hfits, fun _ => htake⟩⟩
    unfold Faithful at hfaithful
    split at hfaithful
    · rename_i number operands hoperation
      obtain ⟨other, hother, -, hnumber, -⟩ := operation_eq_ok hlisted hoperation
      obtain ⟨same, hsame, -, selected, hselected, hdescriptor, -⟩ := hfaithful
      cases mem_unique hrange hother
      cases mem_unique hrange hsame
      obtain ⟨least, hleast, hleastMatch, hbefore⟩ :=
        (indexQueryOperationId_eq_ok hlisted).mp hnumber
      have hselectedFits : selected.limitSource.fits terminal.limit = true := by
        have heq := inj_on_of_nodup_map hlisted.nodup hselected hleast rfl
        cases heq
        have hlimit := (@indexQueryMatches_iff _ _ _ _ _ literal).mp hleastMatch
        exact (limitMatches_iff.mp hlimit.2).1
      exact absurd (hfirst selected number hselected hdescriptor hselectedFits)
        (not_lt.mpr (hbefore found id hmem hmatch))
    · rename_i message hoperation
      rw [operation_eq_error hlisted hoperation hrange hindex hmem] at hmatch
      cases hmatch
  · intro hnot
    unfold Faithful
    split
    · rename_i id operands hoperation
      obtain ⟨range, hrange, hindex, hnumber, hoperands⟩ := operation_eq_ok hlisted hoperation
      obtain ⟨found, hmem, hmatch, hleast⟩ := (indexQueryOperationId_eq_ok hlisted).mp hnumber
      obtain ⟨hothers, hlimitMatch⟩ := indexQueryMatches_iff.mp hmatch
      have hfits := (limitMatches_iff.mp hlimitMatch).1
      have hlimit : found.limitSource = callLimit terminal literal := by
        by_contra hdifferent
        cases htake : terminal.isTake with
        | false => exact hdifferent (callLimit_of_not_take htake hfits)
        | true =>
          refine hnot ⟨htake, range, hrange, hindex, found, id, hmem, hothers, hdifferent,
            hfits, fun own number hown hsame hownFits => ?_⟩
          have hle := hleast own number hown (matches_of_descriptor hsame hownFits)
          refine lt_of_le_of_ne hle fun hequal => hdifferent ?_
          have heq := inj_on_of_nodup_map hlisted.nodup hmem hown hequal
          cases heq
          exact (descriptor_eq_iff.mp hsame).2
      have hdescriptor := descriptor_eq_iff.mpr ⟨hothers, hlimit⟩
      have hconstraints : found.constraints.length = range.values.length := by
        have hfields := congrArg QueryDescriptor.fields hdescriptor
        have hcount := congrArg List.length hfields
        simp only [IndexQuery.descriptor, callDescriptor, length_map] at hcount
        rw [hcount, hlength range hrange]
      have hexact := (hoperands found hmem).trans (operands_eq hconstraints)
      refine ⟨range, hrange, hindex, found, hmem, hdescriptor, hexact, ?_⟩
      rw [hexact, length_operands hconstraints]
    · rename_i message hoperation
      intro range hrange hindex found id hmem hsame
      by_contra hfits
      have hmatch := matches_of_descriptor hsame (Bool.eq_true_of_not_eq_false hfits)
      rw [operation_eq_error hlisted hoperation hrange hindex hmem] at hmatch
      cases hmatch

end Selection

section Direct

variable {Value : Type}

/-- The operation that a call is of, if its function reference is known. -/
def DirectCall.kind : DirectCall Value → Option OperationKind
  | .getUserIdentity => some .authenticationGetUserIdentity
  | .createFunctionHandle _ => some .functionHandleCreate
  | .normalizeId table _ => some (.databaseNormalizeId table)
  | .get table _ => some (.databaseGet table)
  | .write kind table _ _ => some (.databaseWrite kind table)
  | .schedule kind functionReference _ _ => functionReference.map (.schedule kind)

/-- A call has the operation of its kind and as many operands as it declares,
or there is no such operation. -/
def DirectFaithful (operations : List Operation) (call : DirectCall Value) : Prop :=
  match performDirect operations call with
  | .ok (id, operands) => ∃ kind ∈ call.kind, ⟨id, kind⟩ ∈ operations ∧
      operands.length = directBatchArgumentCount kind
  | .error _ => ∀ kind ∈ call.kind, ∀ id, ⟨id, kind⟩ ∉ operations

variable {kind : OperationKind} {refusal : String}

theorem operationId_eq_ok {id : ℤ} (hok : operationId operations kind refusal = .ok id) :
    ⟨id, kind⟩ ∈ operations := by
  unfold operationId at hok
  split at hok
  · rename_i operation hfind
    cases hok
    have htest := List.find?_some hfind
    have hkind : operation.kind = kind := of_decide_eq_true htest
    rw [← hkind]
    exact mem_of_find?_eq_some hfind
  · cases hok

theorem operationId_eq_error {refusal message : String}
    (herror : operationId operations kind refusal = .error message) (id : ℤ) :
    ⟨id, kind⟩ ∉ operations := by
  unfold operationId at herror
  split at herror
  · cases herror
  · rename_i hnone
    intro hmem
    exact List.find?_eq_none.mp hnone _ hmem (decide_eq_true rfl)

theorem lookup_faithful {operands : List (Operand Value)}
    (hcount : operands.length = directBatchArgumentCount kind) :
    match (do
        let id ← operationId operations kind refusal
        return (id, operands) : Except String (ℤ × List (Operand Value))) with
    | .ok (id, operands) => ∃ found ∈ some kind, ⟨id, found⟩ ∈ operations ∧
        operands.length = directBatchArgumentCount found
    | .error _ => ∀ found ∈ some kind, ∀ id, ⟨id, found⟩ ∉ operations := by
  cases hid : operationId operations kind refusal with
  | ok id => exact ⟨kind, rfl, operationId_eq_ok hid, hcount⟩
  | error message =>
    intro found hfound id
    cases hfound
    exact operationId_eq_error hid id

theorem direct_faithful (operations : List Operation) (call : DirectCall Value) :
    DirectFaithful operations call := by
  cases call with
  | getUserIdentity => exact lookup_faithful rfl
  | createFunctionHandle address => exact lookup_faithful rfl
  | normalizeId table value => exact lookup_faithful rfl
  | get table id => exact lookup_faithful rfl
  | write kind table id value =>
    cases kind <;> exact lookup_faithful rfl
  | schedule kind functionReference time arguments =>
    cases functionReference with
    | some reference => exact lookup_faithful rfl
    | none => exact fun found hfound => absurd hfound (by simp [DirectCall.kind])

/-- Whatever the order of the records, every call performs an operation of its
own descriptor with the operands that it declares, or fails because there is
none that takes its limit, unless an operation with the limit of another source
takes the limit of a `take` and comes first. -/
theorem operation_dispatch {records : List OperationRecord} {operations : List Operation}
    (hok : normalizeOperations records = .ok operations) :
    (∀ others, records.Perm others → normalizeOperations others = .ok operations) ∧
      (∀ call : DirectCall Value, DirectFaithful operations call) ∧
      ∀ (table : String) (stages : List (QueryStage Value)) (query : Query Value),
        stages.foldlM Query.apply (createQuery table) = .ok query →
        Says table stages query ∧
          ∀ (terminal : TerminalCall) (literal : Bool),
            Faithful operations query terminal literal ↔
              ¬Mistaken operations query terminal literal := by
  have hlisted := listed_of_normalize hok
  refine ⟨fun others hperm => normalizeOperations_perm hok hperm,
    fun call => direct_faithful operations call, fun table stages query hquery => ?_⟩
  have hspoken := says_of_foldlM hquery
  refine ⟨hspoken, faithful_iff hlisted fun range hrange => ?_⟩
  obtain ⟨index, calls, returned, chain, -, -, -, rfl, hwell, -⟩ := hspoken.2.2 range hrange
  exact length_fields hwell

end Direct

/-- A query that collects everything and one that takes the limit of an argument. -/
def unlimitedAndLimited : List OperationRecord :=
  [{ id := 1, kind := "databaseIndexQuery", table := .given "orders", index := .given "by_owner",
     constraints := .given [some ⟨"owner", "eq"⟩], limit := .given none,
     order := .given "ascending", terminal := .given "collect" },
   { id := 2, kind := "databaseIndexQuery", table := .given "orders", index := .given "by_owner",
     constraints := .given [some ⟨"owner", "eq"⟩], limit := .given none,
     limitArgumentIndex := .given (some 1), order := .given "ascending",
     terminal := .given "collect" }]

def unlimitedAndLimitedOperations : List Operation :=
  [⟨1, .databaseIndexQuery
      ⟨"orders", "by_owner", [⟨"owner", .eq⟩], none, none, .ascending, .collect⟩⟩,
   ⟨2, .databaseIndexQuery
      ⟨"orders", "by_owner", [⟨"owner", .eq⟩], none, some 1, .ascending, .collect⟩⟩]

def ownerStages : List (QueryStage ℕ) :=
  [.withIndex (.text "by_owner") [⟨0, .eq, some "owner", 7⟩] (some 1)]

def ownerQuery : Query ℕ :=
  ⟨"orders", .text "by_owner", some ⟨["owner"], [.eq], [7]⟩, none⟩

theorem unlimitedAndLimited_normalized :
    normalizeOperations unlimitedAndLimited = .ok unlimitedAndLimitedOperations := by
  decide +kernel

/-- The dispatch theorem at these two operations. -/
theorem operation_dispatch_unlimited_and_limited :
    normalizeOperations unlimitedAndLimited = .ok unlimitedAndLimitedOperations ∧
      Says "orders" ownerStages ownerQuery ∧
      (Faithful unlimitedAndLimitedOperations ownerQuery (.take (.integer 5)) false ↔
        ¬Mistaken unlimitedAndLimitedOperations ownerQuery (.take (.integer 5)) false) := by
  have hall := @operation_dispatch ℕ _ _ unlimitedAndLimited_normalized
  have hquery := hall.2.2 "orders" ownerStages ownerQuery rfl
  exact ⟨unlimitedAndLimited_normalized, hquery.1, hquery.2 _ _⟩

/-- `take(limit)` with a limit that is null at run time performs the query that
collects everything, and passes it no limit. -/
theorem take_null_collects :
    normalizeOperations unlimitedAndLimited = .ok unlimitedAndLimitedOperations ∧
      performQuery unlimitedAndLimitedOperations "orders" ownerStages (.take .null) =
        .ok (1, [.value 7]) ∧
      ¬Faithful unlimitedAndLimitedOperations ownerQuery (.take .null) false := by
  refine ⟨unlimitedAndLimited_normalized, by decide +kernel, fun hfaithful => ?_⟩
  have hperformed : ownerQuery.operation unlimitedAndLimitedOperations (.take .null) =
      .ok (1, [.value 7]) := by decide +kernel
  unfold Faithful at hfaithful
  obtain ⟨range, hrange, -, found, hmem, hdescriptor, -⟩ := hfaithful
  have hfound : found.limitSource = .argument := congrArg QueryDescriptor.limit hdescriptor
  simp only [unlimitedAndLimitedOperations, mem_cons, Operation.mk.injEq,
    OperationKind.databaseIndexQuery.injEq, not_mem_nil, or_false] at hmem
  obtain ⟨-, rfl⟩ | ⟨hnumber, -⟩ := hmem
  · cases hfound
  · cases hnumber

end ConvexWasm.Guest
