import Mathlib

/-!
# Tracing values through a flow graph

A node yields values of its own and takes over those of the nodes that flow
into it.  Its values can be traced when every node behind it is closed, that
is, nothing unknown enters it, and no node behind it flows back into itself.
-/

namespace ConvexWasm

open Relation

/-- `source node origin` says that the values of `origin` flow into `node`. -/
structure FlowGraph (Node Value : Type*) where
  source : Node → Node → Prop
  yields : Node → Value → Prop
  closed : Node → Prop

namespace FlowGraph

variable {Node Value : Type*} (graph : FlowGraph Node Value)

def Traceable (node : Node) : Prop :=
  ∀ origin, ReflTransGen graph.source node origin →
    graph.closed origin ∧ ¬ TransGen graph.source origin origin

/-- The values yielded behind a node. -/
def values (node : Node) : Set Value :=
  {value | ∃ origin, ReflTransGen graph.source node origin ∧ graph.yields origin value}

variable {graph} {node origin : Node} {value : Value}

theorem Traceable.closed (htrace : graph.Traceable node) : graph.closed node :=
  (htrace node .refl).1

theorem Traceable.source (htrace : graph.Traceable node)
    (hsource : graph.source node origin) : graph.Traceable origin := by
  intro further hreach
  exact htrace further (hreach.head hsource)

/-- A node on a cycle is not traceable. -/
theorem not_traceable_of_cycle (hcycle : TransGen graph.source node node) :
    ¬ graph.Traceable node := by
  intro htrace
  exact (htrace node .refl).2 hcycle

/-- Tracing succeeds at a closed node whose sources are traceable: a cycle
through the node would lead through one of them. -/
theorem traceable_iff :
    graph.Traceable node ↔
      graph.closed node ∧ ∀ origin, graph.source node origin → graph.Traceable origin := by
  constructor
  · intro htrace
    exact ⟨htrace.closed, fun origin hsource => htrace.source hsource⟩
  · intro hnode further hreach
    rcases hreach.cases_head with rfl | ⟨origin, hsource, hrest⟩
    · refine ⟨hnode.1, fun hcycle => ?_⟩
      obtain ⟨origin, hsource, hback⟩ := TransGen.head'_iff.mp hcycle
      have hcycleOrigin : TransGen graph.source origin origin :=
        TransGen.tail' hback hsource
      exact not_traceable_of_cycle hcycleOrigin (hnode.2 origin hsource)
    · exact hnode.2 origin hsource further hrest

theorem mem_values_iff :
    value ∈ graph.values node ↔ graph.yields node value ∨
      ∃ origin, graph.source node origin ∧ value ∈ graph.values origin := by
  constructor
  · rintro ⟨further, hreach, hyields⟩
    rcases hreach.cases_head with rfl | ⟨origin, hsource, hrest⟩
    · exact .inl hyields
    · exact .inr ⟨origin, hsource, further, hrest, hyields⟩
  · rintro (hyields | ⟨origin, hsource, further, hrest, hyields⟩)
    · exact ⟨node, .refl, hyields⟩
    · exact ⟨further, hrest.head hsource, hyields⟩

end FlowGraph

end ConvexWasm
