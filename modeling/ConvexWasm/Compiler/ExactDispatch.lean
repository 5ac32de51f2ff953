import ConvexWasm.Compiler.CallableResolution

/-!
# What exact dispatch covers

Inside the modules that hold a reachable callable, exact dispatch to a target
accounts for every reference that resolves to it and can run.  Modules without
a reachable callable are not scanned, so their top-level references are the
ones that exact dispatch may miss.
-/

namespace ConvexWasm.Compiler

open ConvexWasm.Fallible List

variable {modules : LoadedModules} {reachable : ReachableUnits} {owners : List CallableOwner}

/-- The callable range of a reachable unit, if it is callable. -/
def reachableCallableRange (modules : LoadedModules) (unit : ReachableUnit) : Option SourceRange :=
  if unit.kind = "handler" then some unit.range
  else (callerUnit modules unit).bind UnitSummary.callableRange

variable {caller : ReachableUnit}

theorem callableOwner_eq_ok {owner : Option CallableOwner}
    (howner : callableOwner modules caller = .ok owner) :
    owner = (reachableCallableRange modules caller).map fun range =>
      (caller, range) := by
  unfold callableOwner at howner
  cases hmodule : modules.get? caller.module with
  | none => simp [hmodule] at howner
  | some module =>
    simp only [hmodule] at howner
    obtain ⟨callableRange, hrange, howner⟩ := bind_eq_ok.mp howner
    have hcallable : callableRange = reachableCallableRange modules caller := by
      unfold reachableCallableRange
      unfold declaredCallableRange at hrange
      by_cases hkind : caller.kind = "handler"
      · simp only [if_pos hkind] at hrange ⊢
        cases hrange
        rfl
      · simp only [if_neg hkind] at hrange ⊢
        cases hunit : module.units.get? caller.name with
        | none => simp [hunit] at hrange
        | some unit =>
          simp only [hunit] at hrange
          cases hrange
          simp [callerUnit, hmodule, hunit]
    rw [← hcallable]
    cases callableRange with
    | none =>
      cases howner
      rfl
    | some range =>
      simp only at howner
      split at howner
      · cases howner
        rfl
      · cases howner

variable {range : SourceRange}

theorem mem_callableOwners (howners : callableOwners modules reachable = .ok owners) :
    (caller, range) ∈ owners ↔ caller ∈ reachable.units ∧
      reachableCallableRange modules caller = some range := by
  obtain ⟨results, hresults, howners⟩ := bind_eq_ok.mp howners
  cases howners
  rw [reduceOption_mem_iff]
  constructor
  · intro hmem
    obtain ⟨unit, hunit, hstep⟩ := exists_item_of_mem hresults hmem
    have howner := callableOwner_eq_ok hstep
    obtain ⟨range', hrange, heq⟩ := Option.map_eq_some_iff.mp howner.symm
    cases heq
    exact ⟨hunit, hrange⟩
  · rintro ⟨hunit, hrange⟩
    obtain ⟨result, hresult, hstep⟩ := exists_result_of_mem hresults hunit
    rw [callableOwner_eq_ok hstep, hrange] at hresult
    exact hresult

variable {owner : CallableOwner}

theorem mem_ownersOf {module : String} :
    owner ∈ ownersOf owners module ↔ owner ∈ owners ∧ owner.1.module = module := by
  simp [ownersOf]

/-- Whether some reachable unit of a module is callable. -/
def HoldsReachableCallable (modules : LoadedModules) (reachable : ReachableUnits)
    (moduleKey : String) : Prop :=
  ∃ unit ∈ reachable.units, unit.module = moduleKey ∧ (reachableCallableRange modules unit).isSome

theorem mem_ownerModules (howners : callableOwners modules reachable = .ok owners)
    {moduleKey : String} :
    moduleKey ∈ ownerModules owners ↔
      HoldsReachableCallable modules reachable moduleKey := by
  simp only [ownerModules, mem_dedup, mem_map, HoldsReachableCallable]
  constructor
  · rintro ⟨⟨unit, range⟩, hmem, rfl⟩
    obtain ⟨hunit, hrange⟩ := (mem_callableOwners howners).mp hmem
    exact ⟨unit, hunit, rfl, by simp [hrange]⟩
  · rintro ⟨unit, hunit, rfl, hcallable⟩
    obtain ⟨range, hrange⟩ := Option.isSome_iff_exists.mp hcallable
    exact ⟨(unit, range), (mem_callableOwners howners).mpr ⟨hunit, hrange⟩, rfl⟩

/-- The innermost owner is one of the owners. -/
theorem selectInnermost_mem {selected result : Option (ReachableUnit × ℕ)}
    (hselect : selectInnermost range selected owner = .ok result) :
    result = selected ∨ ∃ width, result = some (owner.1, width) := by
  unfold selectInnermost at hselect
  split at hselect
  · cases hselect
    exact .inl rfl
  · cases selected with
    | none =>
      cases hselect
      exact .inr ⟨_, rfl⟩
    | some chosen =>
      simp only at hselect
      split at hselect
      · cases hselect
        exact .inl rfl
      · split at hselect
        · cases hselect
        · cases hselect
          exact .inr ⟨_, rfl⟩

theorem innermostCallableOwner_mem
    (hinnermost : innermostCallableOwner owners range = .ok (some caller)) :
    ∃ owner ∈ owners, owner.1 = caller := by
  obtain ⟨selected, hfold, hresult⟩ := bind_eq_ok.mp hinnermost
  have hselected : ∀ (rest : List CallableOwner)
      (start result : Option (ReachableUnit × ℕ)),
      rest.foldlM (selectInnermost range) start = .ok result →
        result = start ∨ ∃ owner ∈ rest, ∃ width, result = some (owner.1, width) := by
    intro rest
    induction rest with
    | nil =>
      intro start result hok
      cases hok
      exact .inl rfl
    | cons head rest ih =>
      intro start result hok
      obtain ⟨next, hnext, hok⟩ := bind_eq_ok.mp hok
      rcases ih next result hok with rfl | ⟨owner, howner, width, rfl⟩
      · rcases selectInnermost_mem hnext with rfl | ⟨width, rfl⟩
        · exact .inl rfl
        · exact .inr ⟨head, mem_cons_self, width, rfl⟩
      · exact .inr ⟨owner, mem_cons_of_mem _ howner, width, rfl⟩
  cases hresult' : selected with
  | none =>
    rw [hresult'] at hresult
    cases hresult
  | some chosen =>
    rw [hresult'] at hresult hfold
    cases hresult
    rcases hselected _ _ _ hfold with hnone | ⟨owner, howner, width, heq⟩
    · cases hnone
    · cases heq
      exact ⟨owner, howner, rfl⟩

variable {graph : GraphInput} {index : ReachableStaticCallIndex}

/-- The intermediate lists of one successful indexing. -/
structure IndexRun (graph : GraphInput) (modules : LoadedModules)
    (reachable : ReachableUnits) (index : ReachableStaticCallIndex) where
  owners : List CallableOwner
  scans : List ModuleScan
  owners_eq : callableOwners modules reachable = .ok owners
  scans_eq : (ownerModules owners).mapM (scanModule modules owners) = .ok scans
  calls_nodup : ((scans.flatMap ModuleScan.calls).map fun fact =>
    (fact.1.module, fact.2.range)).Nodup
  calls_eq : ∃ resolved, (scans.flatMap ModuleScan.calls).mapM
    (resolveCall graph modules) = .ok resolved ∧ index.calls = resolved.reduceOption
  callsites_nodup : (index.calls.map fun indexed =>
    (indexed.caller.id, indexed.call.range)).Nodup
  references_eq : ∃ resolved, (scans.flatMap ModuleScan.references).mapM
    (resolveReference graph modules (scans.flatMap ModuleScan.calls)) =
      .ok resolved ∧ index.references = resolved.reduceOption
  inexact_eq : ∃ resolved, (scans.flatMap ModuleScan.unowned).mapM
    (resolveUnowned graph modules) = .ok resolved ∧ index.inexactReferences = resolved.reduceOption

theorem exists_indexRun (hindex : indexReachableStaticCalls graph modules reachable = .ok index) :
    Nonempty (IndexRun graph modules reachable index) := by
  obtain ⟨owners, howners, hindex⟩ := bind_eq_ok.mp hindex
  obtain ⟨_, _, hindex⟩ := bind_eq_ok.mp hindex
  obtain ⟨scans, hscans, hindex⟩ := bind_eq_ok.mp hindex
  simp only at hindex
  split at hindex
  · cases hindex
  · rename_i hcalls
    split at hindex
    · cases hindex
    · obtain ⟨resolvedCalls, hresolvedCalls, hindex⟩ := bind_eq_ok.mp hindex
      split at hindex
      · cases hindex
      · rename_i hcallsites
        obtain ⟨resolvedReferences, hreferences, hindex⟩ := bind_eq_ok.mp hindex
        obtain ⟨inexact, hinexact, hindex⟩ := bind_eq_ok.mp hindex
        cases hindex
        exact ⟨{
          owners := owners
          scans := scans
          owners_eq := howners
          scans_eq := hscans
          calls_nodup := not_not.mp hcalls
          calls_eq := ⟨_, hresolvedCalls, rfl⟩
          callsites_nodup := not_not.mp hcallsites
          references_eq := ⟨_, hreferences, rfl⟩
          inexact_eq := ⟨_, hinexact, rfl⟩ }⟩

variable {moduleKey : String}

section Coverage

variable (graph : GraphInput) (modules : LoadedModules)
variable (reachable : ReachableUnits) (index : ReachableStaticCallIndex)
variable (target : StaticCallableTarget)

/-- The reference initialises an exact alias of its module. -/
def ExactAliasInitializer (summary : ModuleSummary) (reference : ReferenceOccurrence) : Prop :=
  ∃ unit ∈ summary.units.values, unit.initializedBy reference

/-- The reference lies inside a callable that is not reachable. -/
def InsideUnreachableCallable (moduleKey : String) (summary : ModuleSummary)
    (reference : ReferenceOccurrence) : Prop :=
  ∃ unit ∈ summary.units.values, ∃ range, unitCallableRange unit = some range ∧
    range.Contains reference.range ∧
      ∀ caller ∈ reachable.units, caller.module = moduleKey →
        reachableCallableRange modules caller ≠ some range

/-- The reference is the callee of a direct call that the index lists exactly
once among the calls to the target. -/
def IndexedDirectCall (moduleKey : String) (summary : ModuleSummary)
    (reference : ReferenceOccurrence) : Prop :=
  reference.write = false ∧ ∃ call ∈ summary.calls,
    call.calleeStart = reference.range.start ∧ call.callee = reference.name ∧
      ∃ indexed, indexed.call = call ∧
        (index.callsTo target).filter (fun other =>
          decide (other.caller.module = moduleKey ∧ other.call.range = call.range)) = [indexed]

/-- A reference that may reach the target when its code runs. -/
structure LiveReference (moduleKey : String) (summary : ModuleSummary)
    (reference : ReferenceOccurrence) : Prop where
  module_eq : modules.get? moduleKey = some summary
  reference_mem : reference ∈ summary.references
  resolves : resolveStaticSourceTarget graph modules moduleKey reference.name = .ok (some target)
  runs : ¬ InsideUnreachableCallable modules reachable moduleKey summary reference

/-- Exact dispatch accounts for every live reference to the target. -/
def DispatchCovers : Prop :=
  ∀ moduleKey summary reference,
    LiveReference graph modules reachable target moduleKey summary reference →
      ExactAliasInitializer summary reference ∨
        IndexedDirectCall index target moduleKey summary reference

/-- Modules without a reachable callable use the target in aliases only. -/
def UnscannedModulesOnlyAlias : Prop :=
  ∀ moduleKey summary reference,
    ¬ HoldsReachableCallable modules reachable moduleKey →
      LiveReference graph modules reachable target moduleKey summary reference →
        ExactAliasInitializer summary reference

variable {graph modules reachable index target}

theorem mem_callsTo {indexed : ResolvedStaticCall} :
    indexed ∈ index.callsTo target ↔
      indexed ∈ index.calls ∧ indexed.target = target := by
  simp [ReachableStaticCallIndex.callsTo]

/-- A successful scan lists the facts of its module. -/
theorem scanModule_eq_ok {scan : ModuleScan}
    (hscan : scanModule modules owners moduleKey = .ok scan) :
    ∃ summary, modules.get? moduleKey = some summary ∧
      (∀ fact ∈ scan.calls, fact.2 ∈ summary.calls ∧
        ∃ owner ∈ ownersOf owners moduleKey, owner.1 = fact.1) ∧
      ∀ reference ∈ summary.references,
        (∃ caller, (caller, reference) ∈ scan.references ∧
          ∃ owner ∈ ownersOf owners moduleKey, owner.1 = caller) ∨
        (moduleKey, reference) ∈ scan.unowned ∨
        ∃ range ∈ unreachableCallableRanges owners moduleKey summary,
          range.Contains reference.range := by
  unfold scanModule at hscan
  cases hmodule : modules.get? moduleKey with
  | none => simp [hmodule] at hscan
  | some summary =>
    simp only [hmodule] at hscan
    obtain ⟨calls, hcalls, hscan⟩ := bind_eq_ok.mp hscan
    obtain ⟨references, hreferences, hscan⟩ := bind_eq_ok.mp hscan
    cases hscan
    refine ⟨summary, rfl, ?_, ?_⟩
    · rintro fact hfact
      obtain ⟨⟨owner, call⟩, hmem, hsome⟩ := mem_filterMap.mp hfact
      obtain ⟨caller, rfl, rfl⟩ := Option.map_eq_some_iff.mp hsome
      obtain ⟨call', hcall', hstep⟩ := exists_item_of_mem hcalls hmem
      obtain ⟨owner, howner, heq⟩ := bind_eq_ok.mp hstep
      cases heq
      exact ⟨hcall', innermostCallableOwner_mem howner⟩
    · intro reference hreference
      obtain ⟨result, hresult, hstep⟩ := exists_result_of_mem hreferences hreference
      obtain ⟨owner, howner, heq⟩ := bind_eq_ok.mp hstep
      cases heq
      cases owner with
      | some caller =>
        refine .inl ⟨caller, ?_, innermostCallableOwner_mem howner⟩
        exact mem_filterMap.mpr ⟨_, hresult, rfl⟩
      | none =>
        refine .inr ?_
        by_cases hinside : ∃ range ∈
            unreachableCallableRanges owners moduleKey summary,
            range.Contains reference.range
        · exact .inr hinside
        · refine .inl (mem_map.mpr ⟨_, mem_filter.mpr ⟨hresult, ?_⟩, rfl⟩)
          simpa using hinside

theorem insideUnreachable_of_range (howners : callableOwners modules reachable = .ok owners)
    {summary : ModuleSummary} {reference : ReferenceOccurrence} {range : SourceRange}
    (hrange : range ∈ unreachableCallableRanges owners moduleKey summary)
    (hcontains : range.Contains reference.range) :
    InsideUnreachableCallable modules reachable moduleKey summary reference := by
  obtain ⟨hunit, hunowned⟩ := mem_filter.mp hrange
  obtain ⟨unit, hunit, hunitRange⟩ := mem_filterMap.mp hunit
  refine ⟨unit, hunit, range, hunitRange, hcontains, ?_⟩
  intro caller hcaller hmodule hcallable
  have hunowned' := of_decide_eq_true hunowned
  exact hunowned' (mem_map.mpr ⟨(caller, range), mem_ownersOf.mpr
    ⟨(mem_callableOwners howners).mpr ⟨hcaller, hcallable⟩, hmodule⟩, rfl⟩)

end Coverage

variable {target : StaticCallableTarget}

theorem mem_reduceOption_mapM {Item Result : Type}
    {step : Item → Except String (Option Result)} {items : List Item}
    {results : List (Option Result)} (hok : items.mapM step = .ok results) {result : Result} :
    result ∈ results.reduceOption ↔ ∃ item ∈ items, step item = .ok (some result) := by
  rw [reduceOption_mem_iff]
  constructor
  · exact exists_item_of_mem hok
  · rintro ⟨item, hitem, hstep⟩
    obtain ⟨found, hfound, hstep'⟩ := exists_result_of_mem hok hitem
    rw [hstep] at hstep'
    cases hstep'
    exact hfound

theorem resolveCall_eq_ok {fact : ReachableUnit × CallCandidate} {indexed : ResolvedStaticCall} :
    resolveCall graph modules fact = .ok (some indexed) ↔
      resolveStaticSourceTarget graph modules fact.1.module fact.2.callee =
          .ok (some indexed.target) ∧
        indexed.caller = fact.1 ∧ indexed.call = fact.2 := by
  unfold resolveCall
  rw [bind_eq_ok]
  constructor
  · rintro ⟨found, hfound, heq⟩
    cases found with
    | none => cases heq
    | some found =>
      cases heq
      exact ⟨hfound, rfl, rfl⟩
  · rintro ⟨htarget, hcaller, hcall⟩
    refine ⟨_, htarget, ?_⟩
    rw [← hcaller, ← hcall]
    rfl

namespace IndexRun

variable (run : IndexRun graph modules reachable index)

include run

variable {indexed : ResolvedStaticCall}

theorem mem_calls :
    indexed ∈ index.calls ↔
      (indexed.caller, indexed.call) ∈ run.scans.flatMap ModuleScan.calls ∧
        resolveStaticSourceTarget graph modules indexed.caller.module
          indexed.call.callee = .ok (some indexed.target) := by
  obtain ⟨resolved, hresolved, hcalls⟩ := run.calls_eq
  rw [hcalls, mem_reduceOption_mapM hresolved]
  constructor
  · rintro ⟨fact, hfact, hstep⟩
    obtain ⟨htarget, hcaller, hcall⟩ := resolveCall_eq_ok.mp hstep
    rw [hcaller, hcall]
    exact ⟨hfact, htarget⟩
  · rintro ⟨hfact, htarget⟩
    exact ⟨_, hfact, resolveCall_eq_ok.mpr ⟨htarget, rfl, rfl⟩⟩

/-- Owned calls belong to a reachable callable of the scanned module. -/
theorem call_fact {fact : ReachableUnit × CallCandidate}
    (hfact : fact ∈ run.scans.flatMap ModuleScan.calls) :
    fact.1 ∈ reachable.units ∧
      HoldsReachableCallable modules reachable fact.1.module ∧
        ∃ summary, modules.get? fact.1.module = some summary ∧
          fact.2 ∈ summary.calls := by
  obtain ⟨scan, hscan, hfact⟩ := mem_flatMap.mp hfact
  obtain ⟨moduleKey, hmoduleKey, hscanned⟩ := exists_item_of_mem run.scans_eq hscan
  obtain ⟨summary, hsummary, hcalls, _⟩ := scanModule_eq_ok hscanned
  obtain ⟨hcall, owner, howner, heq⟩ := hcalls fact hfact
  obtain ⟨hownerMem, hmodule⟩ := mem_ownersOf.mp howner
  have hunit := ((mem_callableOwners run.owners_eq).mp hownerMem).1
  rw [heq] at hmodule hunit
  refine ⟨hunit, ?_, summary, ?_, hcall⟩
  · rw [hmodule]
    exact (mem_ownerModules run.owners_eq).mp hmoduleKey
  · rw [hmodule]
    exact hsummary

/-- Two indexed calls at one place of one module are one call. -/
theorem call_eq {first second : ResolvedStaticCall} (hfirst : first ∈ index.calls)
    (hsecond : second ∈ index.calls) (hmodule : first.caller.module = second.caller.module)
    (hrange : first.call.range = second.call.range) : first = second := by
  obtain ⟨hfirstFact, hfirstTarget⟩ := run.mem_calls.mp hfirst
  obtain ⟨hsecondFact, hsecondTarget⟩ := run.mem_calls.mp hsecond
  have hfact : (first.caller, first.call) = (second.caller, second.call) :=
    inj_on_of_nodup_map run.calls_nodup hfirstFact hsecondFact (Prod.ext hmodule hrange)
  obtain ⟨hcaller, hcall⟩ := Prod.mk.inj hfact
  cases first
  cases second
  simp_all

theorem filter_callsTo (hindexed : indexed ∈ index.calls) :
    (index.callsTo indexed.target).filter (fun other =>
      decide (other.caller.module = indexed.caller.module ∧
        other.call.range = indexed.call.range)) = [indexed] := by
  have hnodup : (index.callsTo indexed.target).Nodup :=
    (List.Nodup.of_map _ run.callsites_nodup).filter _
  have hunique : ∀ other ∈ index.callsTo indexed.target,
      decide (other.caller.module = indexed.caller.module ∧
        other.call.range = indexed.call.range) = decide (other = indexed) := by
    intro other hother
    refine decide_eq_decide.mpr ⟨?_, ?_⟩
    · rintro ⟨hmodule, hrange⟩
      exact run.call_eq (mem_callsTo.mp hother).1 hindexed hmodule hrange
    · rintro rfl
      exact ⟨rfl, rfl⟩
  rw [filter_congr hunique]
  have hmem : indexed ∈ index.callsTo indexed.target := mem_callsTo.mpr ⟨hindexed, rfl⟩
  rw [filter_eq, count_eq_one_of_mem hnodup hmem, replicate_one]

end IndexRun

theorem dispatchIsExact_iff :
    index.dispatchIsExact target ↔
      index.inexactReferencesTo target = [] ∧ index.referencesTo target ≠ [] ∧
        ∀ indexed ∈ index.referencesTo target,
          indexed.reference.write = false ∧ indexed.directCall = true := by
  simp [ReachableStaticCallIndex.dispatchIsExact, and_assoc]

theorem resolveReference_of_target {calls : List (ReachableUnit × CallCandidate)}
    {fact : ReachableUnit × ReferenceOccurrence}
    (hinitialized : ((callerUnit modules fact.1).any fun unit =>
      unit.initializedBy fact.2) = false)
    (htarget : resolveStaticSourceTarget graph modules fact.1.module fact.2.name =
      .ok (some target)) :
    resolveReference graph modules calls fact =
      .ok (some ⟨target, fact.1, fact.2, isDirectCall calls fact⟩) := by
  simp only [resolveReference, hinitialized, htarget]
  rfl

theorem resolveUnowned_of_target {fact : String × ReferenceOccurrence}
    (hinitialized : ((modules.get? fact.1).any fun module =>
      module.units.values.any fun unit => unit.initializedBy fact.2) = false)
    (htarget : resolveStaticSourceTarget graph modules fact.1 fact.2.name = .ok (some target)) :
    resolveUnowned graph modules fact = .ok (some ⟨target, fact.1, fact.2⟩) := by
  simp only [resolveUnowned, hinitialized, htarget]
  rfl

theorem mem_values_of_callerUnit {caller : ReachableUnit} {summary : ModuleSummary}
    {unit : UnitSummary} (hmodule : modules.get? caller.module = some summary)
    (hunit : callerUnit modules caller = some unit) : unit ∈ summary.units.values := by
  rw [callerUnit, hmodule, Option.bind_some] at hunit
  exact KeyedMap.mem_values_of_get? hunit

namespace IndexRun

variable (run : IndexRun graph modules reachable index)

include run

variable {summary : ModuleSummary} {reference : ReferenceOccurrence}

section

variable (hexact : index.dispatchIsExact target)
include hexact

/-- An owned reference to an exactly dispatched target is an alias initialiser
or the callee of an indexed call. -/
theorem covers_owned {caller : ReachableUnit}
    (hfact : (caller, reference) ∈ run.scans.flatMap ModuleScan.references)
    (hcaller : caller ∈ reachable.units) (hmodule : modules.get? caller.module = some summary)
    (htarget : resolveStaticSourceTarget graph modules caller.module
      reference.name = .ok (some target)) :
    ExactAliasInitializer summary reference ∨
      IndexedDirectCall index target caller.module summary reference := by
  cases hinitialized : (callerUnit modules caller).any fun unit =>
      unit.initializedBy reference with
  | true =>
    obtain ⟨unit, hunit, hinitializes⟩ := (Option.any_eq_true _ _).mp hinitialized
    exact .inl ⟨unit, mem_values_of_callerUnit hmodule hunit, hinitializes⟩
  | false =>
    obtain ⟨resolved, hresolved, hreferences⟩ := run.references_eq
    have hindexed := (mem_reduceOption_mapM hresolved).mpr
      ⟨_, hfact, resolveReference_of_target hinitialized htarget⟩
    rw [← hreferences] at hindexed
    obtain ⟨hwrite, hdirect⟩ := (dispatchIsExact_iff.mp hexact).2.2 _
      (mem_filter.mpr ⟨hindexed, decide_eq_true rfl⟩)
    -- The callee belongs to a call of the same caller.
    obtain ⟨call, hcall, hcallee⟩ := any_eq_true.mp hdirect
    obtain ⟨hid, hstart, hname⟩ := of_decide_eq_true hcallee
    obtain ⟨hunit, _, callSummary, hcallModule, hcallMem⟩ := run.call_fact hcall
    have hsame : call.1 = caller := ReachableUnits.eq_of_id hunit hcaller hid
    rw [hsame, hmodule] at hcallModule
    cases hcallModule
    have hcallIndexed : ⟨target, call.1, call.2⟩ ∈ index.calls := by
      refine run.mem_calls.mpr ⟨hcall, ?_⟩
      simp only [hsame, hname, htarget]
    have hfilter := run.filter_callsTo hcallIndexed
    rw [hsame] at hfilter
    exact .inr ⟨hwrite, call.2, hcallMem, hstart, hname, _, rfl, hfilter⟩

theorem covers_unowned (hfact : (moduleKey, reference) ∈ run.scans.flatMap ModuleScan.unowned)
    (hmodule : modules.get? moduleKey = some summary)
    (htarget : resolveStaticSourceTarget graph modules moduleKey
      reference.name = .ok (some target)) : ExactAliasInitializer summary reference := by
  cases hinitialized : (modules.get? moduleKey).any fun module =>
      module.units.values.any fun unit => unit.initializedBy reference with
  | true =>
    rw [hmodule, Option.any_some] at hinitialized
    exact any_eq_true.mp hinitialized
  | false =>
    obtain ⟨resolved, hresolved, hinexact⟩ := run.inexact_eq
    have hindexed := (mem_reduceOption_mapM hresolved).mpr
      ⟨_, hfact, resolveUnowned_of_target hinitialized htarget⟩
    rw [← hinexact] at hindexed
    have hmem : (⟨target, moduleKey, reference⟩ : InexactStaticReference) ∈
        index.inexactReferencesTo target :=
      mem_filter.mpr ⟨hindexed, decide_eq_true rfl⟩
    rw [(dispatchIsExact_iff.mp hexact).1] at hmem
    cases hmem

/-- Inside a module that holds a reachable callable nothing is missed. -/
theorem covers_scanned (hscanned : HoldsReachableCallable modules reachable moduleKey)
    (hlive : LiveReference graph modules reachable target moduleKey summary reference) :
    ExactAliasInitializer summary reference ∨
      IndexedDirectCall index target moduleKey summary reference := by
  have hmoduleKey := (mem_ownerModules run.owners_eq).mpr hscanned
  obtain ⟨scan, hscan, hstep⟩ := exists_result_of_mem run.scans_eq hmoduleKey
  obtain ⟨summary', hsummary, _, hreferences⟩ := scanModule_eq_ok hstep
  have heq : summary' = summary := by
    rw [hlive.module_eq] at hsummary
    exact (Option.some.inj hsummary).symm
  rw [heq] at hreferences
  rcases hreferences reference hlive.reference_mem with
    ⟨caller, hfact, owner, howner, hownerCaller⟩ | hfact | ⟨range, hrange, hinside⟩
  · obtain ⟨hownerMem, hmodule⟩ := mem_ownersOf.mp howner
    have hcaller := ((mem_callableOwners run.owners_eq).mp hownerMem).1
    rw [hownerCaller] at hcaller hmodule
    have hcovered := run.covers_owned hexact
      (mem_flatMap.mpr ⟨scan, hscan, hfact⟩) hcaller
      (hmodule ▸ hlive.module_eq) (hmodule ▸ hlive.resolves)
    rwa [hmodule] at hcovered
  · exact .inl (run.covers_unowned hexact
      (mem_flatMap.mpr ⟨scan, hscan, hfact⟩) hlive.module_eq hlive.resolves)
  · exact absurd (insideUnreachable_of_range run.owners_eq hrange hinside) hlive.runs

end

/-- A module without a reachable callable has no indexed call. -/
theorem not_indexed_of_unscanned
    (hunscanned : ¬ HoldsReachableCallable modules reachable moduleKey) :
    ¬ IndexedDirectCall index target moduleKey summary reference := by
  rintro ⟨_, call, _, _, _, indexed, _, hfilter⟩
  have hmem : indexed ∈ [indexed] := mem_singleton_self indexed
  rw [← hfilter] at hmem
  obtain ⟨hcallsTo, hplace⟩ := mem_filter.mp hmem
  have hmodule := (of_decide_eq_true hplace).1
  have hfact := (run.mem_calls.mp (mem_callsTo.mp hcallsTo).1).1
  have hholds := (run.call_fact hfact).2.1
  rw [hmodule] at hholds
  exact hunscanned hholds

end IndexRun

/-- `function f() {}` and a handler that calls it. -/
def helperModule : ModuleSummary where
  units := ⟨[("f", ⟨"f", some ⟨10, 20⟩, [], none, none, none⟩)], by decide⟩
  imports := .empty
  exports := ⟨[("f", "f")], by decide⟩
  calls := [⟨"f", 32, 33, ⟨32, 35⟩, [], [], []⟩]
  references := [⟨"f", ⟨32, 33⟩, true, false⟩]
  operations := []
  effects := []
  bindings_unique := by decide

/-- `import { f } from "./a"; const y = f()` outside any callable. -/
def topLevelModule : ModuleSummary where
  units := ⟨[("y", ⟨"y", none, [], none, none, none⟩)], by decide⟩
  imports := ⟨[("f", ⟨"f", "./a", false⟩)], by decide⟩
  exports := .empty
  calls := [⟨"f", 50, 51, ⟨50, 53⟩, [], [], []⟩]
  references := [⟨"f", ⟨50, 51⟩, true, false⟩]
  operations := []
  effects := []
  bindings_unique := by decide

def topLevelGraph : GraphInput where
  effectExecutionMode := .blockingFiber
  inputs := ⟨[("b.ts", [⟨"a.ts", "import-statement", some "./a", false⟩])], by decide⟩

def topLevelModules : LoadedModules :=
  ⟨[("a.ts", helperModule), ("b.ts", topLevelModule)], by decide⟩

def topLevelHandler : ReachableUnit :=
  ⟨"a.ts#run:handler", "a.ts", "run", ⟨25, 45⟩, "handler", ["a.ts#run"]⟩

def topLevelReachable : ReachableUnits where
  units := [topLevelHandler, ⟨"a.ts#f", "a.ts", "f", ⟨10, 20⟩, "function",
    ["a.ts#run", "a.ts#f"]⟩]
  ids_nodup := by decide

def topLevelIndex : ReachableStaticCallIndex where
  calls := [⟨("a.ts", "f"), topLevelHandler, ⟨"f", 32, 33, ⟨32, 35⟩, [], [], []⟩⟩]
  references := [⟨("a.ts", "f"), topLevelHandler, ⟨"f", ⟨32, 33⟩, true, false⟩, true⟩]
  inexactReferences := []

theorem topLevelIndex_eq :
    indexReachableStaticCalls topLevelGraph topLevelModules topLevelReachable =
      .ok topLevelIndex := by
  rfl

theorem topLevel_exact : topLevelIndex.dispatchIsExact ("a.ts", "f") := by decide

def topLevelReference : ReferenceOccurrence := ⟨"f", ⟨50, 51⟩, true, false⟩

theorem topLevel_live : LiveReference topLevelGraph topLevelModules
    topLevelReachable ("a.ts", "f") "b.ts" topLevelModule topLevelReference where
  module_eq := rfl
  reference_mem := by decide
  resolves := rfl
  runs := by
    rintro ⟨unit, hunit, range, hrange, _⟩
    obtain rfl := mem_singleton.mp hunit
    cases hrange

theorem topLevel_not_alias : ¬ ExactAliasInitializer topLevelModule topLevelReference := by
  rintro ⟨unit, hunit, hinitialized⟩
  obtain rfl := mem_singleton.mp hunit
  cases hinitialized

theorem topLevel_unscanned : ¬ HoldsReachableCallable topLevelModules topLevelReachable "b.ts" := by
  rintro ⟨unit, hunit, hmodule, _⟩
  have hmodules : ∀ unit ∈ topLevelReachable.units, unit.module ≠ "b.ts" := by
    decide
  exact hmodules unit hunit hmodule

/-- Resolution always returns, and exact dispatch covers every live reference
exactly when the modules it does not scan only alias the target. -/
theorem dispatchIsExact_covers_iff
    (hindex : indexReachableStaticCalls graph modules reachable = .ok index)
    (hexact : index.dispatchIsExact target) :
    (∀ callerModule callee fuel, resolutionFuel modules ≤ fuel →
      resolveStaticSourceTargetInner graph modules fuel callerModule callee [] =
        some (resolveStaticSourceTarget graph modules callerModule callee)) ∧
    (DispatchCovers graph modules reachable index target ↔
      UnscannedModulesOnlyAlias graph modules reachable target) := by
  obtain ⟨run⟩ := exists_indexRun hindex
  refine ⟨fun callerModule callee fuel hfuel =>
    resolveStaticSourceTarget_total callerModule callee hfuel, ?_⟩
  constructor
  · intro hcovers moduleKey summary reference hunscanned hlive
    rcases hcovers moduleKey summary reference hlive with halias | hdirect
    · exact halias
    · exact absurd hdirect (run.not_indexed_of_unscanned hunscanned)
  · intro honly moduleKey summary reference hlive
    by_cases hscanned : HoldsReachableCallable modules reachable moduleKey
    · exact run.covers_scanned hexact hscanned hlive
    · exact .inl (honly moduleKey summary reference hscanned hlive)

/-- A call at the top level of a module without a reachable callable is
missed. -/
theorem topLevel_call_missed :
    ¬ DispatchCovers topLevelGraph topLevelModules topLevelReachable topLevelIndex
      ("a.ts", "f") := by
  rw [(dispatchIsExact_covers_iff topLevelIndex_eq topLevel_exact).2]
  intro honly
  exact topLevel_not_alias (honly _ _ _ topLevel_unscanned topLevel_live)

theorem dispatchIsExact_not_covering :
    ¬ ∀ (graph : GraphInput) (modules : LoadedModules) (reachable : ReachableUnits)
      (index : ReachableStaticCallIndex) (target : StaticCallableTarget),
      indexReachableStaticCalls graph modules reachable = .ok index →
        index.dispatchIsExact target →
          DispatchCovers graph modules reachable index target := by
  intro hclaim
  obtain ⟨run⟩ := exists_indexRun topLevelIndex_eq
  rcases hclaim _ _ _ _ _ topLevelIndex_eq topLevel_exact _ _ _ topLevel_live with
    halias | hdirect
  · exact topLevel_not_alias halias
  · exact run.not_indexed_of_unscanned topLevel_unscanned hdirect

end ConvexWasm.Compiler
