import ConvexWasm.Compiler.CallableEffects
import ConvexWasm.Compiler.CapabilityFlow

/-!
# Control plans

A control plan lists the calls of one callable with their exact targets.  The
value graphs look a call up by its caller and its place in the source; it is
exact when it is the only call there, its target is known and its arguments
are safe to substitute.
-/

namespace ConvexWasm.Compiler.ControlPlans

open CallableEffects (CallPosition)

structure SourceAnchor where
  module : String
  sourceSha256 : String
  start : ℕ
  stop : ℕ
  sliceSha256 : String
  deriving DecidableEq

inductive CallableValueFlowCandidate
  | parameter (index : ℕ)
  | capturedBinding (name : String) (declarationStart : ℕ)
  | literalString (value : String)
  | expression (range : SourceRange)
  deriving DecidableEq

structure CallableControlCallArgument where
  value : CallableValueFlowCandidate
  provenance : SourceAnchor
  deriving DecidableEq

structure CallableControlCallPlan where
  callsite : SourceAnchor
  target : CallableKey
  targetSource : SourceAnchor
  block : ℕ
  position : CallPosition
  dispatchExact : Bool
  argumentsSafe : Bool
  arguments : List CallableControlCallArgument
  deriving DecidableEq

inductive CallableControlInstructionKind
  | statement | condition | return | returnUndefined | throw | break | continue
  | iterateIn | iterateOf | implicitReturn | unreachable
  deriving DecidableEq

structure CallableControlInstructionCandidate where
  kind : CallableControlInstructionKind
  start : Option ℕ
  stop : Option ℕ
  valueStart : Option ℕ
  valueStop : Option ℕ
  deriving DecidableEq

inductive CallableControlEdgeKind
  | normal | jump | backedge | finalize | implicitError | explicitError | join | unreachable
  deriving DecidableEq

structure CallableControlEdgeCandidate where
  target : ℕ
  kind : CallableControlEdgeKind
  deriving DecidableEq

structure CallableControlBlockCandidate where
  id : ℕ
  unreachable : Bool
  instructions : List CallableControlInstructionCandidate
  successors : List CallableControlEdgeCandidate
  deriving DecidableEq

inductive CallableControlPointKind
  | await | call
  deriving DecidableEq

structure CallableControlPointCandidate where
  kind : CallableControlPointKind
  start : ℕ
  stop : ℕ
  block : ℕ
  valueStart : Option ℕ
  valueStop : Option ℕ
  deriving DecidableEq

structure CallableControlSkeletonCandidate where
  callableStart : ℕ
  callableStop : ℕ
  entryBlock : ℕ
  blocks : List CallableControlBlockCandidate
  points : List CallableControlPointCandidate
  deriving DecidableEq

/-- The source of an effect, without its operands. -/
structure AuthenticatedEffectValueSource where
  targetCallable : CallableKey
  targetCallableSource : SourceAnchor
  targetEffect : SourceAnchor
  targetCallee : SourceAnchor
  capabilityReference : SourceAnchor
  capabilityBinding : SourceAnchor
  capabilityName : String
  deriving DecidableEq

structure SemanticEffectProvenance extends AuthenticatedEffectValueSource where
  callerCallsite : Option SourceAnchor
  deriving DecidableEq

structure CallableEffectPlan where
  callable : CallableKey
  callableSource : SourceAnchor
  provenance : SemanticEffectProvenance
  deriving DecidableEq

def AuthenticatedEffectValueSource.matchesEffectPlan (source : AuthenticatedEffectValueSource)
    (plan : CallableEffectPlan) : Bool :=
  decide (source = plan.provenance.toAuthenticatedEffectValueSource)

structure CallableControlSourceEffect where
  source : AuthenticatedEffectValueSource
  block : ℕ
  deriving DecidableEq

structure CallableControlPlan where
  callable : CallableKey
  callableSource : SourceAnchor
  skeleton : CallableControlSkeletonCandidate
  sourceEffects : List CallableControlSourceEffect
  effects : List CallableEffectPlan
  calls : List CallableControlCallPlan
  deriving DecidableEq

/-- Two anchors at one place; the index of the calls does not compare the digests. -/
def SourceAnchor.SamePlace (anchor other : SourceAnchor) : Prop :=
  anchor.module = other.module ∧ anchor.start = other.start ∧ anchor.stop = other.stop

instance (anchor other : SourceAnchor) : Decidable (anchor.SamePlace other) :=
  inferInstanceAs (Decidable (_ ∧ _ ∧ _))

/-- The calls of all plans with their callers. -/
def plannedCalls (plans : List CallableControlPlan) :
    List (CallableKey × CallableControlCallPlan) :=
  plans.flatMap fun plan => plan.calls.map fun call => (plan.callable, call)

/-- The entry of the call index for a caller and a place. -/
def callsAt (plans : List CallableControlPlan) (caller : CallableKey) (callsite : SourceAnchor) :
    List (CallableKey × CallableControlCallPlan) :=
  (plannedCalls plans).filter fun planned =>
    decide (planned.1 = caller ∧ planned.2.callsite.SamePlace callsite)

def exactCallAt (plans : List CallableControlPlan) (caller : CallableKey)
    (callsite : SourceAnchor) : Option CallableControlCallPlan :=
  match callsAt plans caller callsite with
  | [(_, call)] => if call.dispatchExact && call.argumentsSafe then some call else none
  | _ => none

section Lookup

variable {plans plans' : List CallableControlPlan} {caller : CallableKey}
  {callsite : SourceAnchor} {call : CallableControlCallPlan}

theorem mem_callsAt {planned : CallableKey × CallableControlCallPlan} :
    planned ∈ callsAt plans caller callsite ↔
      planned ∈ plannedCalls plans ∧ planned.1 = caller ∧
        planned.2.callsite.SamePlace callsite := by
  simp [callsAt]

/-- An exact call is the only one at its place. -/
theorem exactCallAt_eq_some_iff :
    exactCallAt plans caller callsite = some call ↔
      callsAt plans caller callsite = [(caller, call)] ∧
        call.dispatchExact = true ∧ call.argumentsSafe = true := by
  have hcaller : ∀ planned ∈ callsAt plans caller callsite, planned.1 = caller :=
    fun planned hplanned => (mem_callsAt.mp hplanned).2.1
  unfold exactCallAt
  split
  · next other found hcalls =>
      have hother : other = caller := hcaller (other, found) (by rw [hcalls]; simp)
      rw [hcalls, hother]
      by_cases hsafe : (found.dispatchExact && found.argumentsSafe) = true
      · simp only [hsafe, if_true, Option.some.injEq, List.cons.injEq, Prod.mk.injEq, true_and,
          and_true]
        rw [Bool.and_eq_true] at hsafe
        constructor
        · rintro rfl
          exact ⟨rfl, hsafe⟩
        · exact fun h => h.1
      · simp only [hsafe]
        rw [Bool.and_eq_true] at hsafe
        constructor
        · simp
        · intro h
          obtain ⟨hsame, hexact⟩ := h
          obtain rfl : found = call := by simpa using hsame
          exact absurd hexact hsafe
  · next hmany =>
      constructor
      · simp
      · intro h
        exact absurd h.1 (hmany _ _)

theorem exactCallAt_mem (hcall : exactCallAt plans caller callsite = some call) :
    (caller, call) ∈ plannedCalls plans ∧ call.callsite.SamePlace callsite := by
  have hmem : (caller, call) ∈ callsAt plans caller callsite := by
    rw [(exactCallAt_eq_some_iff.mp hcall).1]
    exact List.mem_cons_self
  obtain ⟨hplanned, -, hplace⟩ := mem_callsAt.mp hmem
  exact ⟨hplanned, hplace⟩

theorem plannedCalls_perm (hplans : plans.Perm plans') :
    (plannedCalls plans).Perm (plannedCalls plans') :=
  hplans.flatMap_right _

theorem callsAt_perm (hplans : plans.Perm plans') (caller : CallableKey) (callsite : SourceAnchor) :
    (callsAt plans caller callsite).Perm (callsAt plans' caller callsite) :=
  (plannedCalls_perm hplans).filter _

/-- The exact calls do not depend on the order of the plans. -/
theorem exactCallAt_perm (hplans : plans.Perm plans') (caller : CallableKey)
    (callsite : SourceAnchor) :
    exactCallAt plans caller callsite = exactCallAt plans' caller callsite := by
  apply Option.ext
  intro call
  rw [exactCallAt_eq_some_iff, exactCallAt_eq_some_iff]
  have hperm := callsAt_perm hplans caller callsite
  constructor
  · intro h
    exact ⟨List.perm_singleton.mp (h.1 ▸ hperm.symm), h.2⟩
  · intro h
    exact ⟨List.perm_singleton.mp (h.1 ▸ hperm), h.2⟩

end Lookup

end ConvexWasm.Compiler.ControlPlans
