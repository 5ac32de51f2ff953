import ConvexWasm.Core.ConjunctiveSearch
import ConvexWasm.Compiler.ControlPlans

/-!
# Closing guest effects

A guest effect may start its host operation only if its value surely reaches its
consumer: every way through the control skeleton comes to the block of the
consumer, and every activation of the callable is owned by an authenticated
root.
-/

namespace ConvexWasm.Compiler.GuestClosure

open ConjunctiveSearch ControlPlans List
open CallableEffects (CallPosition)

section Continuations

variable (skeleton : CallableControlSkeletonCandidate)

/-- `blocks.iter().find(|block| block.id == current)` -/
def blockAt (current : ℕ) : Option CallableControlBlockCandidate :=
  skeleton.blocks.find? fun block => decide (block.id = current)

/-- The successors along edges not marked unreachable. -/
def followed (block : CallableControlBlockCandidate) : List ℕ :=
  (block.successors.filter fun edge => decide (edge.kind ≠ .unreachable)).map (·.target)

/-- A block in progress is a cycle that may never reach the sink.  The block is
taken out of `visiting` on the way back, so each successor sees the same set. -/
def reachesSink (sink : ℕ) : ℕ → ℕ → List ℕ → Bool
  | 0, _, _ => false
  | fuel + 1, current, visiting =>
    if current = sink then true
    else if current ∈ visiting then false
    else
      (blockAt skeleton current).any fun block =>
        if block.unreachable then false
        else
          !(followed block).isEmpty && (followed block).all fun target =>
            reachesSink sink fuel target (current :: visiting)

/-- Each nested search enters another block, so there are at most as many as
blocks, and one for a target without a block. -/
def guestCfgContinuationsReachSink (sourceBlock sinkBlock : ℕ) : Bool :=
  decide (sourceBlock ≠ sinkBlock) &&
    reachesSink skeleton sinkBlock (skeleton.blocks.length + 1) sourceBlock []

/-- The blocks to which control may go on from a block. -/
def continuations (current : ℕ) : List ℕ :=
  match blockAt skeleton current with
  | none => []
  | some block => followed block

def MarkedUnreachable (current : ℕ) : Prop :=
  ∃ block, blockAt skeleton current = some block ∧ block.unreachable = true

variable {skeleton}

theorem reachesSink_iff {sink fuel current : ℕ} {visiting : List ℕ}
    (hvisiting : ∀ ancestor ∈ visiting, Relation.TransGen
      (Requires (mustReach (continuations skeleton) (MarkedUnreachable skeleton) sink))
      ancestor current) (hnodup : visiting.Nodup)
    (hblocks : ∀ ancestor ∈ visiting, ancestor ∈ skeleton.blocks.map (·.id))
    (hfuel : skeleton.blocks.length + 1 ≤ fuel + visiting.length) :
    reachesSink skeleton sink fuel current visiting = true ↔
      Derived (mustReach (continuations skeleton) (MarkedUnreachable skeleton) sink) current := by
  induction fuel generalizing current visiting with
  | zero =>
    have hlength : visiting.length ≤ (skeleton.blocks.map (·.id)).length :=
      (hnodup.subperm hblocks).length_le
    rw [length_map] at hlength
    omega
  | succ fuel ih =>
    rw [reachesSink]
    by_cases hsink : current = sink
    · rw [if_pos hsink]
      exact iff_of_true rfl (derived_mustReach_iff.mpr (.inl hsink))
    rw [if_neg hsink]
    by_cases hcycle : current ∈ visiting
    · have hnot : ¬ Derived (mustReach (continuations skeleton) (MarkedUnreachable skeleton)
          sink) current := fun hderived => hderived.acyclic (hvisiting current hcycle)
      simp [hcycle, hnot]
    rw [if_neg hcycle, derived_mustReach_iff, or_iff_right hsink]
    cases hblock : blockAt skeleton current with
    | none =>
      have hnone : continuations skeleton current = [] := by simp [continuations, hblock]
      simp [hnone]
    | some block =>
      have hnext : continuations skeleton current = followed block := by
        simp [continuations, hblock]
      have hmem : block ∈ skeleton.blocks := mem_of_find?_eq_some hblock
      have hid : block.id = current := by simpa using List.find?_some hblock
      have hmarked : MarkedUnreachable skeleton current ↔ block.unreachable = true := by
        simp [MarkedUnreachable, hblock]
      have hstep : ∀ target ∈ followed block,
          (reachesSink skeleton sink fuel target (current :: visiting) = true ↔
            Derived (mustReach (continuations skeleton) (MarkedUnreachable skeleton) sink)
              target) := by
        intro target htarget
        have hrequires : Requires (mustReach (continuations skeleton)
            (MarkedUnreachable skeleton) sink) current target := by
          simpa [Requires, mustReach, hsink, hnext] using htarget
        apply ih _ (nodup_cons.mpr ⟨hcycle, hnodup⟩)
        · intro ancestor hancestor
          cases mem_cons.mp hancestor with
          | inl heq => exact heq ▸ mem_map.mpr ⟨block, hmem, hid⟩
          | inr hold => exact hblocks ancestor hold
        · simp only [length_cons]
          omega
        · intro ancestor hancestor
          cases mem_cons.mp hancestor with
          | inl heq => exact heq ▸ .single hrequires
          | inr hold => exact (hvisiting ancestor hold).tail hrequires
      have hall : (followed block).all (fun target =>
            reachesSink skeleton sink fuel target (current :: visiting)) = true ↔
          ∀ target ∈ followed block, Derived (mustReach (continuations skeleton)
            (MarkedUnreachable skeleton) sink) target := by
        rw [all_eq_true]
        exact forall₂_congr hstep
      rw [hmarked, hnext, Option.any_some]
      by_cases hunreachable : block.unreachable = true
      · simp [hunreachable]
      · rw [if_neg hunreachable, Bool.and_eq_true, hall]
        simp [hunreachable]

/-- The search answers whether every maximal path comes to the sink, with no block
marked unreachable before it. -/
theorem guestCfgContinuationsReachSink_iff (sourceBlock sinkBlock : ℕ) :
    guestCfgContinuationsReachSink skeleton sourceBlock sinkBlock = true ↔
      sourceBlock ≠ sinkBlock ∧
        ∀ path, MaximalPath (continuations skeleton) sourceBlock path →
          Visits (MarkedUnreachable skeleton) sinkBlock path := by
  rw [guestCfgContinuationsReachSink, Bool.and_eq_true, decide_eq_true_eq,
    reachesSink_iff (by simp) nodup_nil (by simp) (by simp), derived_iff_paths]

end Continuations

section Activations

inductive AuthenticatedStaticActivationCaller
  | callable (key : CallableKey)
  | unknown
  deriving DecidableEq

inductive AuthenticatedStaticActivationTarget
  | callable (key : CallableKey)
  | unknown
  deriving DecidableEq

structure AuthenticatedStaticActivationCall where
  caller : AuthenticatedStaticActivationCaller
  target : AuthenticatedStaticActivationTarget
  callsite : SourceAnchor
  position : Option CallPosition
  dispatchExact : Bool
  deriving DecidableEq

structure AuthenticatedGuestPromiseAllChild where
  callsite : SourceAnchor
  target : CallableKey
  deriving DecidableEq

structure AuthenticatedGuestPromiseAllRoot where
  caller : CallableKey
  children : List AuthenticatedGuestPromiseAllChild
  deriving DecidableEq

/-- What the search for owned callables reads. -/
structure ActivationGraph where
  controlSkeletons : KeyedMap CallableKey CallableControlSkeletonCandidate
  handlerCallables : List CallableKey
  calls : List AuthenticatedStaticActivationCall
  runtimeAwaitedCallables : List CallableKey
  aggregateRoots : List AuthenticatedGuestPromiseAllRoot

def guestControlHasFinalization (skeleton : CallableControlSkeletonCandidate) : Bool :=
  skeleton.blocks.any fun block => block.successors.any fun edge => decide (edge.kind = .finalize)

variable (graph : ActivationGraph)

variable (callable : CallableKey)

/-- `activation_calls.calls_to(..)` -/
def callsTo : List AuthenticatedStaticActivationCall :=
  graph.calls.filter fun call => decide (call.target = .callable callable)

/-- The call is awaited, returned by a callable without finalization, or the child
of an aggregate root. -/
def ownsActivation (call : AuthenticatedStaticActivationCall) : Bool :=
  match call.position, call.caller with
  | some .sequentialAwait, _ => true
  | some .tailReturn, .callable caller =>
    (graph.controlSkeletons.get? caller).any fun skeleton =>
      !guestControlHasFinalization skeleton
  | some .synchronous, .callable caller =>
    graph.aggregateRoots.any fun root =>
      decide (root.caller = caller) && root.children.any fun child =>
        decide (child.callsite = call.callsite) && decide (child.target = callable)
  | _, _ => false

/-- The caller whose activations decide about this one, if the call is admissible. -/
def activationObligation (call : AuthenticatedStaticActivationCall) : Option CallableKey :=
  if call.dispatchExact && decide (call.target = .callable callable) &&
      ownsActivation graph callable call then
    match call.caller with
    | .callable caller => some caller
    | .unknown => none
  else none

def activationRules : Rules CallableKey where
  admits callable := graph.controlSkeletons.containsKey callable
  obligations callable := (callsTo graph callable).map (activationObligation graph callable)
  concludes callable :=
    decide (callable ∈ graph.handlerCallables) ||
      decide (callable ∈ graph.runtimeAwaitedCallables) || !(callsTo graph callable).isEmpty

/-- Each nested search enters another callable with a skeleton. -/
def guestCallableRooted (cache : Answers CallableKey) : Bool × Answers CallableKey :=
  answer (activationRules graph) (graph.controlSkeletons.keys.length + 1) [] callable cache

/-- The queries share one cache; the first refused callable ends the pass. -/
def guestCallablesRooted : List CallableKey → Answers CallableKey → Bool
  | [], _ => true
  | callable :: rest, cache =>
    match guestCallableRooted graph callable cache with
    | (true, cache) => guestCallablesRooted rest cache
    | (false, _) => false

/-- `guest_routes_are_rooted`, on the callable paths of the routes. -/
def guestRoutesAreRooted (callablePaths : List (List CallableKey)) : Bool :=
  guestCallablesRooted graph callablePaths.flatten .empty

variable (queries : List CallableKey)

/-- The cache after some queries. -/
def cacheAfter : Answers CallableKey :=
  queries.foldl (fun cache callable => (guestCallableRooted graph callable cache).2) .empty

/-- The call is exact and owned, and its caller belongs to the set. -/
structure OwnedActivation (rooted : Set CallableKey) (callable : CallableKey)
    (call : AuthenticatedStaticActivationCall) : Prop where
  exact : call.dispatchExact = true
  owned : ownsActivation graph callable call = true
  caller : ∃ caller ∈ rooted, call.caller = .callable caller

/-- A set of callables is closed when it holds each callable with a skeleton that is
a handler, awaited by the runtime or called, and whose activations are all owned by
the set. -/
def ClosedUnderOwnership (rooted : Set CallableKey) : Prop :=
  ∀ callable, graph.controlSkeletons.containsKey callable = true →
    (∀ call ∈ callsTo graph callable, OwnedActivation graph rooted callable call) →
    (callable ∈ graph.handlerCallables ∨ callable ∈ graph.runtimeAwaitedCallables ∨
      callsTo graph callable ≠ []) → callable ∈ rooted

/-- The least closed set. -/
def rootedCallables : Set CallableKey :=
  {callable | ∀ rooted, ClosedUnderOwnership graph rooted → callable ∈ rooted}

variable {graph}

theorem activationObligation_eq_some_iff {callable caller : CallableKey}
    {call : AuthenticatedStaticActivationCall} (hcall : call ∈ callsTo graph callable) :
    activationObligation graph callable call = some caller ↔
      call.dispatchExact = true ∧ ownsActivation graph callable call = true ∧
        call.caller = .callable caller := by
  have htarget : call.target = .callable callable := by
    rw [callsTo, mem_filter] at hcall
    simpa using hcall.2
  unfold activationObligation
  by_cases howned : (call.dispatchExact && decide (call.target = .callable callable) &&
      ownsActivation graph callable call) = true
  · rw [if_pos howned]
    simp only [htarget, Bool.and_eq_true, decide_true, and_true] at howned
    cases hcaller : call.caller with
    | callable key => simp [howned.1, howned.2]
    | unknown => simp
  · rw [if_neg howned]
    simp only [htarget, Bool.and_eq_true, decide_true, and_true] at howned
    constructor
    · simp
    · intro h
      exact absurd ⟨h.1, h.2.1⟩ howned

/-- Each activation is owned by the derived callables when no obligation is refused
and all are derived. -/
theorem obligations_iff (rooted : Set CallableKey) :
    (none ∉ (activationRules graph).obligations callable ∧
        ∀ caller, some caller ∈ (activationRules graph).obligations callable → caller ∈ rooted) ↔
      ∀ call ∈ callsTo graph callable, OwnedActivation graph rooted callable call := by
  simp only [activationRules, mem_map, not_exists, not_and]
  constructor
  · intro h call hcall
    cases hobligation : activationObligation graph callable call with
    | none => exact absurd hobligation (h.1 call hcall)
    | some caller =>
      obtain ⟨hexact, howned, hcaller⟩ := (activationObligation_eq_some_iff hcall).mp hobligation
      exact ⟨hexact, howned, caller, h.2 caller ⟨call, hcall, hobligation⟩, hcaller⟩
  · intro h
    have hsome : ∀ call ∈ callsTo graph callable, ∃ caller ∈ rooted,
        activationObligation graph callable call = some caller := by
      intro call hcall
      obtain ⟨hexact, howned, caller, hmem, hcaller⟩ := h call hcall
      exact ⟨caller, hmem, (activationObligation_eq_some_iff hcall).mpr ⟨hexact, howned, hcaller⟩⟩
    constructor
    · intro call hcall hnone
      obtain ⟨caller, -, hobligation⟩ := hsome call hcall
      simp [hnone] at hobligation
    · intro caller hcaller
      obtain ⟨call, hcall, hobligation⟩ := hcaller
      obtain ⟨other, hmem, hother⟩ := hsome call hcall
      rw [hobligation] at hother
      exact Option.some.inj hother ▸ hmem

theorem concludes_iff :
    (activationRules graph).concludes callable = true ↔
      callable ∈ graph.handlerCallables ∨ callable ∈ graph.runtimeAwaitedCallables ∨
        callsTo graph callable ≠ [] := by
  simp [activationRules, or_assoc]

/-- What the rules derive is the least closed set. -/
theorem derived_iff_rooted :
    Derived (activationRules graph) callable ↔ callable ∈ rootedCallables graph := by
  constructor
  · intro hderived rooted hclosed
    induction hderived with
    | intro callable hadmits hrefused _ hconcludes ih =>
      apply hclosed callable hadmits _ ((concludes_iff callable).mp hconcludes)
      exact (obligations_iff callable rooted).mp ⟨hrefused, ih⟩
  · intro hmem
    apply hmem {callable | Derived (activationRules graph) callable}
    intro callable hadmits howned hreached
    obtain ⟨hrefused, hpremises⟩ := (obligations_iff callable _).mpr howned
    exact .intro callable hadmits hrefused hpremises ((concludes_iff callable).mpr hreached)

theorem guestCallableRooted_spec {cache : Answers CallableKey}
    (htruthful : Truthful (activationRules graph) cache) :
    Right (activationRules graph) callable (guestCallableRooted graph callable cache) := by
  apply answer_spec graph.controlSkeletons.keys _ (by simp) nodup_nil (by simp) (by simp) htruthful
  intro node hadmits
  exact KeyedMap.containsKey_iff.mp hadmits

theorem truthful_cacheAfter : Truthful (activationRules graph) (cacheAfter graph queries) := by
  induction queries using List.reverseRecOn with
  | nil => exact truthful_empty
  | append_singleton queries callable ih =>
    rw [cacheAfter, foldl_append]
    exact (guestCallableRooted_spec callable ih).2

theorem guestCallablesRooted_iff {cache : Answers CallableKey}
    (htruthful : Truthful (activationRules graph) cache) :
    guestCallablesRooted graph queries cache = true ↔
      ∀ callable ∈ queries, callable ∈ rootedCallables graph := by
  induction queries generalizing cache with
  | nil => simp [guestCallablesRooted]
  | cons callable rest ih =>
    obtain ⟨hanswer, hkept⟩ := guestCallableRooted_spec callable htruthful
    rw [derived_iff_rooted] at hanswer
    rw [guestCallablesRooted, forall_mem_cons]
    split
    · next cache' hrooted =>
        rw [hrooted] at hanswer hkept
        rw [ih hkept, and_iff_right (hanswer.mp rfl)]
    · next hrooted =>
        rw [hrooted] at hanswer
        simp [← hanswer]

end Activations

/-- Both searches are exact, the second one whatever was asked before. -/
theorem guestClosure_exact (skeleton : CallableControlSkeletonCandidate)
    (sourceBlock sinkBlock : ℕ) (graph : ActivationGraph) (queries : List CallableKey)
    (callable : CallableKey) (callablePaths : List (List CallableKey)) :
    (guestCfgContinuationsReachSink skeleton sourceBlock sinkBlock = true ↔
      sourceBlock ≠ sinkBlock ∧
        ∀ path, MaximalPath (continuations skeleton) sourceBlock path →
          Visits (MarkedUnreachable skeleton) sinkBlock path) ∧
    ((guestCallableRooted graph callable (cacheAfter graph queries)).1 = true ↔
      callable ∈ rootedCallables graph) ∧
    (guestRoutesAreRooted graph callablePaths = true ↔
      ∀ path ∈ callablePaths, ∀ callable ∈ path, callable ∈ rootedCallables graph) := by
  refine ⟨guestCfgContinuationsReachSink_iff sourceBlock sinkBlock, ?_, ?_⟩
  · rw [(guestCallableRooted_spec callable (truthful_cacheAfter queries)).1, derived_iff_rooted]
  · rw [guestRoutesAreRooted, guestCallablesRooted_iff _ truthful_empty]
    simp only [mem_flatten]
    constructor
    · exact fun h path hpath callable hcallable => h callable ⟨path, hpath, hcallable⟩
    · intro h callable hcallable
      obtain ⟨path, hpath, hmem⟩ := hcallable
      exact h path hpath callable hmem

/-- Block 0 leads to 1 and 1 to 2, but block 1 is marked unreachable. -/
def markedChain : CallableControlSkeletonCandidate where
  callableStart := 0
  callableStop := 9
  entryBlock := 0
  blocks := [⟨0, false, [], [⟨1, .normal⟩]⟩, ⟨1, true, [], [⟨2, .normal⟩]⟩, ⟨2, false, [], []⟩]
  points := []

def handlerKey : CallableKey := ⟨"module", "handler"⟩

/-- A handler without a control skeleton that nothing calls. -/
def bareHandler : ActivationGraph := ⟨.empty, [handlerKey], [], [], []⟩

/-- Every maximal path from block 0 visits block 2, and the handler has no activation
that is not owned; both are refused. -/
theorem guestClosure_refuses :
    (∀ path, MaximalPath (continuations markedChain) 0 path →
        ∃ position, path position = some 2) ∧
      guestCfgContinuationsReachSink markedChain 0 2 = false ∧
      handlerKey ∈ bareHandler.handlerCallables ∧ callsTo bareHandler handlerKey = [] ∧
      (guestCallableRooted bareHandler handlerKey .empty).1 = false := by
  refine ⟨?_, by decide +kernel, by decide +kernel, by decide +kernel, by decide +kernel⟩
  intro path hpath
  have hfirst : continuations markedChain 0 = [1] := by decide +kernel
  have hsecond : continuations markedChain 1 = [2] := by decide +kernel
  obtain ⟨one, hone, hmoved⟩ := hpath.goesOn 0 0 hpath.starts (by simp [hfirst])
  rw [hfirst, mem_singleton] at hone
  subst hone
  obtain ⟨two, htwo, hmoved'⟩ := hpath.goesOn 1 1 hmoved (by simp [hsecond])
  rw [hsecond, mem_singleton] at htwo
  subst htwo
  exact ⟨2, hmoved'⟩

end ConvexWasm.Compiler.GuestClosure
