import Mathlib

/-!
# Depth-first search

A search for a target follows the successors of a node, never entering a node
twice.  It stops at the first edge that ends in the target.  With as much fuel
as there are nodes, it finds the target exactly when a nonempty path leads
there.
-/

namespace ConvexWasm.DepthFirst

open Finset List

variable {Node : Type*} [DecidableEq Node]

/-- The successors of one node, in order; a successor that was not visited is
explored before the next one. -/
def scan (explore : Node → List Node → Bool × List Node) (target : Node) :
    List Node → List Node → Bool × List Node
  | [], visited => (false, visited)
  | next :: rest, visited =>
    if next = target then (true, visited)
    else if next ∈ visited then scan explore target rest visited
    else
      match explore next (next :: visited) with
      | (true, visited) => (true, visited)
      | (false, visited) => scan explore target rest visited

def search (adjacent : Node → List Node) (target : Node) :
    ℕ → Node → List Node → Bool × List Node
  | 0, _, visited => (false, visited)
  | fuel + 1, current, visited =>
    scan (search adjacent target fuel) target (adjacent current) visited

/-- The edge relation of an adjacency function. -/
def Edge (adjacent : Node → List Node) (source next : Node) : Prop := next ∈ adjacent source

section Soundness

variable {adjacent : Node → List Node} {target : Node}

theorem scan_sound {explore : Node → List Node → Bool × List Node}
    (hexplore : ∀ node visited, (explore node visited).1 = true →
      Relation.TransGen (Edge adjacent) node target) {current : Node} {nexts visited : List Node}
    (hnexts : ∀ next ∈ nexts, next ∈ adjacent current)
    (hfound : (scan explore target nexts visited).1 = true) :
    Relation.TransGen (Edge adjacent) current target := by
  induction nexts generalizing visited with
  | nil => simp [scan] at hfound
  | cons next rest ih =>
    have hrest : ∀ node ∈ rest, node ∈ adjacent current := fun node hnode =>
      hnexts node (mem_cons_of_mem _ hnode)
    have hedge : Edge adjacent current next := hnexts next mem_cons_self
    rw [scan] at hfound
    split at hfound
    · next heq => exact heq ▸ Relation.TransGen.single hedge
    split at hfound
    · exact ih hrest hfound
    split at hfound
    · next hexplored =>
        exact Relation.TransGen.head hedge (hexplore next (next :: visited) (by rw [hexplored]))
    · exact ih hrest hfound

/-- A target that is found lies at the end of a nonempty path. -/
theorem search_sound {fuel : ℕ} {current : Node} {visited : List Node}
    (hfound : (search adjacent target fuel current visited).1 = true) :
    Relation.TransGen (Edge adjacent) current target := by
  induction fuel generalizing current visited with
  | zero => simp [search] at hfound
  | succ fuel ih =>
    exact scan_sound (fun node visited hnode => ih hnode) (fun _ hnext => hnext) hfound

end Soundness

section Completeness

variable (adjacent : Node → List Node) (target : Node)

/-- Every successor of the node was visited, and none is the target. -/
def Settled (visited : List Node) (node : Node) : Prop :=
  ∀ next ∈ adjacent node, next ≠ target ∧ next ∈ visited

variable {adjacent target}

omit [DecidableEq Node] in
theorem Settled.mono {visited visited' : List Node} {node : Node}
    (hsettled : Settled adjacent target visited node) (hsubset : visited ⊆ visited') :
    Settled adjacent target visited' node := fun next hnext =>
  ⟨(hsettled next hnext).1, hsubset (hsettled next hnext).2⟩

/-- What a search that fails leaves behind: it forgets nothing, and each node
that it entered is settled. -/
structure Explored (adjacent : Node → List Node) (target : Node)
    (before after : List Node) : Prop where
  subset : before ⊆ after
  settled : ∀ node ∈ after, node ∉ before → Settled adjacent target after node

omit [DecidableEq Node] in
theorem Explored.refl (visited : List Node) : Explored adjacent target visited visited where
  subset := List.Subset.refl visited
  settled := fun _ hmem hnew => absurd hmem hnew

omit [DecidableEq Node] in
theorem Explored.trans {first second third : List Node}
    (hfirst : Explored adjacent target first second)
    (hsecond : Explored adjacent target second third) : Explored adjacent target first third where
  subset := fun _ hmem => hsecond.subset (hfirst.subset hmem)
  settled := by
    intro node hmem hnew
    by_cases hold : node ∈ second
    · exact (hfirst.settled node hold hnew).mono hsecond.subset
    · exact hsecond.settled node hmem hold

variable {nodes : Finset Node}

theorem unvisited_card_lt {visited : List Node} {next : Node} (hnode : next ∈ nodes)
    (hnew : next ∉ visited) :
    (nodes \ (next :: visited).toFinset).card < (nodes \ visited.toFinset).card := by
  apply card_lt_card
  rw [ssubset_iff_of_subset]
  · exact ⟨next, by simp [hnode, hnew], by simp⟩
  · intro node hmem
    simp only [toFinset_cons, mem_sdiff, mem_insert, mem_toFinset, not_or] at hmem ⊢
    exact ⟨hmem.1, hmem.2.2⟩

theorem unvisited_card_le {visited visited' : List Node} (hsubset : visited ⊆ visited') :
    (nodes \ visited'.toFinset).card ≤ (nodes \ visited.toFinset).card := by
  apply card_le_card
  intro node hmem
  simp only [mem_sdiff, mem_toFinset] at hmem ⊢
  exact ⟨hmem.1, fun hvisited => hmem.2 (hsubset hvisited)⟩

/-- A failing exploration of every fresh node makes the scan explore them all. -/
theorem scan_complete {explore : Node → List Node → Bool × List Node} {fuel : ℕ}
    (hexplore : ∀ node visited, (nodes \ visited.toFinset).card < fuel →
      (explore node visited).1 = false →
        Explored adjacent target visited (explore node visited).2 ∧
          Settled adjacent target (explore node visited).2 node)
    {nexts visited : List Node} (hnodes : ∀ next ∈ nexts, next ∈ nodes)
    (hfuel : (nodes \ visited.toFinset).card < fuel + 1)
    (hmissed : (scan explore target nexts visited).1 = false) :
    Explored adjacent target visited (scan explore target nexts visited).2 ∧
      ∀ next ∈ nexts, next ≠ target ∧ next ∈ (scan explore target nexts visited).2 := by
  induction nexts generalizing visited with
  | nil => exact ⟨Explored.refl visited, by simp⟩
  | cons next rest ih =>
    have hrest : ∀ node ∈ rest, node ∈ nodes := fun node hnode =>
      hnodes node (mem_cons_of_mem _ hnode)
    rw [scan] at hmissed ⊢
    by_cases htarget : next = target
    · simp [htarget] at hmissed
    rw [if_neg htarget] at hmissed ⊢
    by_cases hvisited : next ∈ visited
    · rw [if_pos hvisited] at hmissed ⊢
      obtain ⟨hexplored, hcovered⟩ := ih hrest hfuel hmissed
      refine ⟨hexplored, ?_⟩
      intro node hnode
      rcases mem_cons.mp hnode with rfl | hnode
      · exact ⟨htarget, hexplored.subset hvisited⟩
      · exact hcovered node hnode
    rw [if_neg hvisited] at hmissed ⊢
    have hsmaller := unvisited_card_lt (hnodes next mem_cons_self) hvisited
    cases hrun : explore next (next :: visited) with
    | mk found after =>
      cases found with
      | true => simp [hrun] at hmissed
      | false =>
        simp only [hrun] at hmissed ⊢
        have hstep := hexplore next (next :: visited) (by omega) (by rw [hrun])
        rw [hrun] at hstep
        obtain ⟨hinner, hnext⟩ := hstep
        have hentered : Explored adjacent target visited after := by
          refine ⟨fun node hnode => hinner.subset (mem_cons_of_mem _ hnode), ?_⟩
          intro node hnode hnew
          by_cases heq : node = next
          · exact heq ▸ hnext
          · exact hinner.settled node hnode (by simp [heq, hnew])
        have hless : (nodes \ after.toFinset).card ≤ (nodes \ visited.toFinset).card :=
          unvisited_card_le hentered.subset
        obtain ⟨hexplored, hcovered⟩ := ih hrest (by omega) hmissed
        refine ⟨hentered.trans hexplored, ?_⟩
        intro node hnode
        rcases mem_cons.mp hnode with rfl | hnode
        · exact ⟨htarget, hexplored.subset (hinner.subset mem_cons_self)⟩
        · exact hcovered node hnode

theorem search_complete (hclosed : ∀ node, ∀ next ∈ adjacent node, next ∈ nodes) {fuel : ℕ}
    {current : Node} {visited : List Node} (hfuel : (nodes \ visited.toFinset).card < fuel)
    (hmissed : (search adjacent target fuel current visited).1 = false) :
    Explored adjacent target visited (search adjacent target fuel current visited).2 ∧
      Settled adjacent target (search adjacent target fuel current visited).2 current := by
  induction fuel generalizing current visited with
  | zero => omega
  | succ fuel ih =>
    exact scan_complete (fun node visited hless hnode => ih hless hnode)
      (hclosed current) hfuel hmissed

/-- With fuel for every node, the search finds the target exactly when a nonempty
path leads to it. -/
theorem search_iff (hclosed : ∀ node, ∀ next ∈ adjacent node, next ∈ nodes) {fuel : ℕ}
    (hfuel : nodes.card < fuel) (current : Node) :
    (search adjacent target fuel current []).1 = true ↔
      Relation.TransGen (Edge adjacent) current target := by
  refine ⟨search_sound, fun hpath => ?_⟩
  by_contra hmissed
  rw [Bool.not_eq_true] at hmissed
  obtain ⟨hexplored, hcurrent⟩ := search_complete hclosed (by simpa using hfuel) hmissed
  have hsettled : ∀ node, Relation.TransGen (Edge adjacent) current node →
      node ≠ target ∧ node ∈ (search adjacent target fuel current []).2 := by
    intro node hnode
    induction hnode with
    | single hedge => exact hcurrent _ hedge
    | tail _ hedge ih => exact hexplored.settled _ ih.2 (by simp) _ hedge
  exact (hsettled target hpath).1 rfl

end Completeness

end ConvexWasm.DepthFirst
