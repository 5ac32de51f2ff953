import Mathlib

/-!
# Sweeping a dependency graph in waves

A collector holds a set of present nodes.  A node pins what it depends on in
one of two ways: a strict edge pins its target as long as its source is
present, a loose edge only as long as its source is itself kept.  A wave
removes some nodes that are not kept.  Waves never remove what a root reaches,
never separate a survivor from a strict dependency, and when nothing is left to
remove the survivors of an acyclic graph are exactly what the roots reach.
-/

namespace ConvexWasm.DependencySweep

variable {Node : Type*}

/-- Roots and the two kinds of edges of a dependency graph. -/
structure Graph (Node : Type*) where
  root : Node → Prop
  strict : Node → Node → Prop
  loose : Node → Node → Prop

variable (graph : Graph Node)

def Graph.DependsOn (source target : Node) : Prop :=
  graph.strict source target ∨ graph.loose source target

/-- What one wave must not remove. -/
inductive Kept (present : Set Node) : Node → Prop
  | root {node : Node} : graph.root node → Kept present node
  | strict {source target : Node} :
      source ∈ present → graph.strict source target → Kept present target
  | loose {source target : Node} :
      source ∈ present → Kept present source → graph.loose source target → Kept present target

/-- Present nodes reached from present roots along present nodes. -/
inductive Live (present : Set Node) : Node → Prop
  | root {node : Node} : node ∈ present → graph.root node → Live present node
  | edge {source target : Node} :
      Live present source → target ∈ present → graph.DependsOn source target → Live present target

variable {graph}
variable {present survivors : Set Node} {node source target : Node}

theorem Live.mem (hlive : Live graph present node) : node ∈ present := by
  cases hlive with
  | root hpresent _ => exact hpresent
  | edge _ hpresent _ => exact hpresent

theorem Live.kept (hlive : Live graph present node) : Kept graph present node := by
  induction hlive with
  | root _ hroot => exact .root hroot
  | edge hsource _ hdepends ih =>
    rcases hdepends with hstrict | hloose
    · exact .strict hsource.mem hstrict
    · exact .loose hsource.mem ih hloose

/-- One wave: the survivors are present and everything kept survives. -/
structure Wave (graph : Graph Node) (present survivors : Set Node) : Prop where
  subset : survivors ⊆ present
  keeps : ∀ node ∈ present, Kept graph present node → node ∈ survivors

theorem Wave.live_iff (hwave : Wave graph present survivors) :
    Live graph present node ↔ Live graph survivors node := by
  constructor
  · intro hlive
    induction hlive with
    | root hpresent hroot =>
      exact .root (hwave.keeps _ hpresent (.root hroot)) hroot
    | edge hsource hpresent hdepends ih =>
      have htarget := Live.edge hsource hpresent hdepends
      exact .edge ih (hwave.keeps _ hpresent htarget.kept) hdepends
  · intro hlive
    induction hlive with
    | root hsurvives hroot => exact .root (hwave.subset hsurvives) hroot
    | edge _ hsurvives hdepends ih =>
      exact .edge ih (hwave.subset hsurvives) hdepends

/-- A survivor keeps each strict dependency that was present. -/
theorem Wave.strict_closed (hwave : Wave graph present survivors)
    (hsource : source ∈ survivors) (htarget : target ∈ present)
    (hstrict : graph.strict source target) : target ∈ survivors :=
  hwave.keeps target htarget (.strict (hwave.subset hsource) hstrict)

/-- What a run of waves preserves: the survivors were present at the start,
hold everything live at the start and every strict dependency of a survivor. -/
structure Swept (graph : Graph Node) (present survivors : Set Node) : Prop where
  subset : survivors ⊆ present
  live_iff : ∀ node, Live graph present node ↔ Live graph survivors node
  strict_closed : ∀ source ∈ survivors, ∀ target ∈ present,
    graph.strict source target → target ∈ survivors

theorem Swept.refl (present : Set Node) : Swept graph present present where
  subset := subset_rfl
  live_iff _ := Iff.rfl
  strict_closed _ _ _ htarget _ := htarget

theorem Swept.wave {initial : Set Node} (hswept : Swept graph initial present)
    (hwave : Wave graph present survivors) : Swept graph initial survivors where
  subset := hwave.subset.trans hswept.subset
  live_iff _ := (hswept.live_iff _).trans hwave.live_iff
  strict_closed source hsource target htarget hstrict :=
    hwave.strict_closed hsource (hswept.strict_closed source
      (hwave.subset hsource) target htarget hstrict) hstrict

theorem Swept.trans {initial : Set Node} (hfirst : Swept graph initial present)
    (hsecond : Swept graph present survivors) : Swept graph initial survivors where
  subset := hsecond.subset.trans hfirst.subset
  live_iff _ := (hfirst.live_iff _).trans (hsecond.live_iff _)
  strict_closed source hsource target htarget hstrict :=
    hsecond.strict_closed source hsource target
      (hfirst.strict_closed source (hsecond.subset hsource) target htarget hstrict) hstrict

/-- Roots may be given up between sweeps. -/
theorem Swept.of_roots {root : Node → Prop} (hswept : Swept graph present survivors)
    (hroots : ∀ node, root node → graph.root node) :
    Swept { graph with root } present survivors where
  subset := hswept.subset
  live_iff node := by
    constructor
    · intro hlive
      suffices Live graph survivors node ∧ Live { graph with root } survivors node from this.2
      induction hlive with
      | root hpresent hroot =>
        have hkept := (hswept.live_iff _).mp (.root hpresent (hroots _ hroot))
        exact ⟨hkept, .root hkept.mem hroot⟩
      | edge _ hpresent hdepends ih =>
        have hkept := (hswept.live_iff _).mp
          (.edge ((hswept.live_iff _).mpr ih.1) hpresent hdepends)
        exact ⟨hkept, .edge ih.2 hkept.mem hdepends⟩
    · intro hlive
      induction hlive with
      | root hsurvives hroot => exact .root (hswept.subset hsurvives) hroot
      | edge _ hsurvives hdepends ih => exact .edge ih (hswept.subset hsurvives) hdepends
  strict_closed := hswept.strict_closed

/-- Nodes closed under the edges inside `present` and holding its roots. -/
def RootClosed (graph : Graph Node) (present closed : Set Node) : Prop :=
  (∀ node ∈ present, graph.root node → node ∈ closed) ∧
    ∀ source ∈ closed, ∀ target ∈ present, graph.DependsOn source target → target ∈ closed

theorem isLeast_live :
    IsLeast { closed | RootClosed graph present closed } { node | Live graph present node } := by
  constructor
  · exact ⟨fun _ hpresent hroot => .root hpresent hroot,
      fun _ hsource _ hpresent hdepends => .edge hsource hpresent hdepends⟩
  · intro closed hclosed node hlive
    induction hlive with
    | root hpresent hroot => exact hclosed.1 _ hpresent hroot
    | edge _ hpresent hdepends ih => exact hclosed.2 _ ih _ hpresent hdepends

/-- The edges inside `present`. -/
def Graph.within (graph : Graph Node) (present : Set Node) (source target : Node) : Prop :=
  source ∈ present ∧ target ∈ present ∧ graph.DependsOn source target

/-- Whatever chains of edges reach from a present root is live. -/
theorem Live.of_reaches (hlive : Live graph present source)
    (hreaches : Relation.ReflTransGen (graph.within present) source target) :
    Live graph present target := by
  induction hreaches with
  | refl => exact hlive
  | tail _ hedge ih => exact .edge ih hedge.2.1 hedge.2.2

/-- No chain of edges inside `present` returns to its start. -/
def Graph.Acyclic (graph : Graph Node) (present : Set Node) : Prop :=
  ∀ node, ¬ Relation.TransGen (graph.within present) node node

/-- Edges that raise a rank form no cycle. -/
theorem Graph.acyclic_of_rank {Rank : Type*} [Preorder Rank] (rank : Node → Rank)
    (hrank : ∀ source target, graph.within present source target →
      rank source < rank target) : graph.Acyclic present := by
  have hchain : ∀ source target,
      Relation.TransGen (graph.within present) source target →
        rank source < rank target := by
    intro source target hchain
    induction hchain with
    | single hedge => exact hrank _ _ hedge
    | tail _ hedge ih => exact ih.trans (hrank _ _ hedge)
  exact fun node hcycle => lt_irrefl _ (hchain node node hcycle)

/-- The reversed chains of an acyclic finite graph are well founded: a chain
of dependants always ends. -/
theorem Graph.Acyclic.wellFoundedOn (hacyclic : graph.Acyclic present) (hfinite : present.Finite) :
    present.WellFoundedOn (Relation.TransGen (graph.within present)) := by
  have : Std.Irrefl (Relation.TransGen (graph.within present)) := ⟨hacyclic⟩
  have : IsStrictOrder Node (Relation.TransGen (graph.within present)) := {}
  exact hfinite.wellFoundedOn

/-- When every present node of an acyclic finite graph is kept, each one is
reached from a root. -/
theorem live_of_all_kept (hfinite : present.Finite) (hacyclic : graph.Acyclic present)
    (hkept : ∀ node ∈ present, Kept graph present node) :
    ∀ node ∈ present, Live graph present node := by
  intro node hnode
  refine (hacyclic.wellFoundedOn hfinite).induction hnode ?_
  intro node hnode ih
  -- The kept node is a root or has a dependant that comes earlier.
  have hdependant : ∀ source ∈ present, graph.DependsOn source node →
      Live graph present node := by
    intro source hsource hdepends
    have hearlier : Live graph present source :=
      ih source hsource (.single ⟨hsource, hnode, hdepends⟩)
    exact .edge hearlier hnode hdepends
  cases hkept node hnode with
  | root hroot => exact .root hnode hroot
  | strict hsource hstrict => exact hdependant _ hsource (.inl hstrict)
  | loose hsource _ hloose => exact hdependant _ hsource (.inr hloose)

/-- Edges inside a smaller set stay acyclic. -/
theorem Graph.Acyclic.mono (hacyclic : graph.Acyclic present)
    (hsubset : survivors ⊆ present) : graph.Acyclic survivors := by
  intro node hcycle
  have hwithin : graph.within survivors ≤ graph.within present :=
    fun _ _ hedge => ⟨hsubset hedge.1, hsubset hedge.2.1, hedge.2.2⟩
  exact hacyclic node (Relation.TransGen.mono hwithin _ _ hcycle)

end ConvexWasm.DependencySweep
