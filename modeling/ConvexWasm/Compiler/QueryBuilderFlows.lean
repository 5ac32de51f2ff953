import ConvexWasm.Compiler.ControlPlans

/-!
# Query-builder flows

Each callable lists the local paths of its query builders: where a builder comes
from, the stages, constraints and choices that it passes, and where it goes.  A
callback of `withIndex` has paths of its own, for the index-range builder that
it receives.
-/

namespace ConvexWasm.Compiler.QueryBuilderFlows

open ControlPlans

inductive CallableQueryCapabilityKind
  | contextDatabase | database
  deriving DecidableEq

inductive CallableQueryConsumerKind
  | collect | first | unique | take | paginate | stream
  deriving DecidableEq

/-- The two opaque query values whose flow matters to lowering. -/
inductive CallableQueryBuilderKind
  | queryBuilder | indexRangeBuilder
  deriving DecidableEq

structure AuthenticatedQueryValueOperand where
  value : CallableValueFlowCandidate
  provenance : SourceAnchor
  deriving DecidableEq

structure AuthenticatedQuerySource where
  construction : SourceAnchor
  callee : SourceAnchor
  capabilityKind : CallableQueryCapabilityKind
  capability : CallableValueFlowCandidate
  capabilityReference : SourceAnchor
  capabilityBinding : SourceAnchor
  capabilityName : String
  table : AuthenticatedQueryValueOperand
  deriving DecidableEq

structure AuthenticatedQueryIndexConstraint where
  field : String
  operator : String
  value : AuthenticatedQueryValueOperand
  deriving DecidableEq

inductive AuthenticatedQueryStage
  | withIndex (site receiver : SourceAnchor) (index : String) (indexProvenance : SourceAnchor)
      (constraints : List AuthenticatedQueryIndexConstraint)
  | order (site receiver : SourceAnchor) (direction : AuthenticatedQueryValueOperand)
  deriving DecidableEq

structure AuthenticatedQueryBindingEdge where
  name : String
  binding : SourceAnchor
  initializer : SourceAnchor
  reference : SourceAnchor
  deriving DecidableEq

structure AuthenticatedQueryStreamReference where
  provenance : SourceAnchor
  read : Bool
  write : Bool
  deriving DecidableEq

structure AuthenticatedQueryStreamBinding where
  name : String
  binding : SourceAnchor
  references : List AuthenticatedQueryStreamReference
  deriving DecidableEq

structure AuthenticatedQueryConsumer where
  kind : CallableQueryConsumerKind
  site : SourceAnchor
  receiver : SourceAnchor
  stages : List AuthenticatedQueryStage
  arguments : List AuthenticatedQueryValueOperand
  bindingEdges : List AuthenticatedQueryBindingEdge
  choices : List SourceAnchor
  staticLimit : Option ℕ
  dynamicLimit : Bool
  streamBinding : Option AuthenticatedQueryStreamBinding
  deriving DecidableEq

inductive AuthenticatedQueryBuilderOrigin
  | queryConstruction (source : AuthenticatedQuerySource)
  | parameter (index : ℕ) (name : String) (declaration reference : SourceAnchor)
  | callResult (callsite : SourceAnchor) (callee : String) (calleeProvenance : SourceAnchor)
  deriving DecidableEq

structure AuthenticatedQueryBuilderFlowRejection where
  origin : AuthenticatedQueryBuilderOrigin
  provenance : SourceAnchor
  reason : String
  deriving DecidableEq

inductive AuthenticatedQueryBuilderStep
  | alias (edge : AuthenticatedQueryBindingEdge)
  | queryStage (stage : AuthenticatedQueryStage) (rangeCallback : Option SourceAnchor)
  | indexConstraint (site receiver : SourceAnchor)
      (constraint : AuthenticatedQueryIndexConstraint)
  | choice (site : SourceAnchor) (branch : ℕ)
  deriving DecidableEq

inductive AuthenticatedQueryBuilderSink
  | callArgument (callsite : SourceAnchor) (callee : String) (calleeProvenance : SourceAnchor)
      (argumentIndex : ℕ) (value : SourceAnchor)
  | callResult (callsite : SourceAnchor)
  | return (site value : SourceAnchor)
  | terminal (consumer : AuthenticatedQueryConsumer)
  | forAwait (site value : SourceAnchor) (binding : AuthenticatedQueryStreamBinding)
  | withIndexRangeReturn (site value withIndexSite : SourceAnchor)
  deriving DecidableEq

structure AuthenticatedQueryBuilderPath where
  valueKind : CallableQueryBuilderKind
  origin : AuthenticatedQueryBuilderOrigin
  steps : List AuthenticatedQueryBuilderStep
  sink : AuthenticatedQueryBuilderSink
  deriving DecidableEq

structure AuthenticatedCallableQueryBuilderFlow where
  callable : CallableKey
  callableSource : SourceAnchor
  parameterCount : ℕ
  isAsync : Bool
  paths : List AuthenticatedQueryBuilderPath
  rejections : List AuthenticatedQueryBuilderFlowRejection
  deriving DecidableEq

end ConvexWasm.Compiler.QueryBuilderFlows
