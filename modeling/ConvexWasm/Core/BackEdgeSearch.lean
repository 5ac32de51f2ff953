import Mathlib

/-!
# Back edges of an ordered depth-first search

A depth-first search from an ordered list of roots keeps the path to the node
that it is at.  Meeting a node of that path again, it marks the path from there
on.  The path on which the search first comes to a node is the least of the
simple paths that end there, so what is marked depends on the graph and the
order of its nodes alone.
-/

namespace ConvexWasm.BackEdgeSearch

open List

variable {Node : Type*} [LinearOrder Node]

/-- A node is unknown (0), on the path (1) or finished (2). -/
structure Search (Node : Type*) where
  states : Node → ℕ
  stack : List Node
  cyclic : Finset Node

namespace Search

def empty : Search Node := ⟨fun _ => 0, [], ∅⟩

def enter (search : Search Node) (node : Node) : Search Node :=
  { search with
    states := Function.update search.states node 1
    stack := search.stack ++ [node] }

def leave (search : Search Node) (node : Node) : Search Node :=
  { search with
    states := Function.update search.states node 2
    stack := search.stack.dropLast }

/-- The path is marked from the target on. -/
def mark (search : Search Node) (target : Node) : Search Node :=
  match search.stack.idxOf? target with
  | some index =>
    { search with cyclic := search.cyclic ∪ (search.stack.drop index).toFinset }
  | none => search

end Search

/-- One edge of the node on top of the path. -/
def follow (explore : Node → Search Node → Search Node) (search : Search Node)
    (target : Node) : Search Node :=
  match search.states target with
  | 0 => explore target search
  | 1 => search.mark target
  | _ => search

def visit (adjacent : Node → List Node) : ℕ → Node → Search Node → Search Node
  | 0, _, search => search
  | fuel + 1, node, search =>
    ((adjacent node).foldl (follow (visit adjacent fuel)) (search.enter node)).leave node

def run (roots : List Node) (adjacent : Node → List Node) (fuel : ℕ) : Search Node :=
  roots.foldl
    (fun search root =>
      if search.states root = 0 then visit adjacent fuel root search else search)
    Search.empty

variable {node : Node}

section Routes

variable (roots : List Node) (adjacent : Node → List Node)

/-- The nodes that may follow a path; the empty path starts at a root. -/
def nexts (path : List Node) : List Node :=
  match path.getLast? with
  | none => roots
  | some node => adjacent node

/-- A simple path from a root. -/
structure Route (path : List Node) : Prop where
  nodup : path.Nodup
  follows : ∀ before node after, path = before ++ node :: after → node ∈ nexts roots adjacent before

/-- The least simple path to the node is the one through the stack. -/
structure First (stack : List Node) (node : Node) : Prop where
  route : Route roots adjacent (stack ++ [node])
  least : ∀ other, Route roots adjacent (other ++ [node]) → stack ++ [node] ≤ other ++ [node]

/-- An edge of the node leads back to the path through the stack, at or before
the marked node. -/
def Marks (stack : List Node) (node marked : Node) : Prop :=
  ∃ target ∈ adjacent node, ∃ before after,
    stack ++ [node] = before ++ target :: after ∧ marked ∈ target :: after

/-- The node lies on a cycle that one edge closes over a first path. -/
def OnBackEdge (marked : Node) : Prop :=
  ∃ stack node, First roots adjacent stack node ∧ Marks adjacent stack node marked

variable {roots adjacent}

omit [LinearOrder Node] in
@[simp]
theorem nexts_nil : nexts roots adjacent [] = roots := rfl

omit [LinearOrder Node] in
@[simp]
theorem nexts_snoc (path : List Node) (node : Node) :
    nexts roots adjacent (path ++ [node]) = adjacent node := by
  simp [nexts]

omit [LinearOrder Node] in
theorem Route.nil : Route roots adjacent [] where
  nodup := nodup_nil
  follows := by simp

omit [LinearOrder Node] in
/-- The last node of a list that is split around some node. -/
theorem snoc_split {path before after : List Node} {last node : Node}
    (hsplit : path ++ [last] = before ++ node :: after) :
    (before = path ∧ node = last ∧ after = []) ∨
      ∃ rest, after = rest ++ [last] ∧ path = before ++ node :: rest := by
  cases after using List.reverseRecOn with
  | nil =>
    have hinj := append_inj' hsplit rfl
    exact .inl ⟨hinj.1.symm, by simpa using hinj.2.symm, rfl⟩
  | append_singleton rest other =>
    have hassoc : path ++ [last] = (before ++ node :: rest) ++ [other] := by
      simpa using hsplit
    have hinj := append_inj' hassoc rfl
    obtain rfl : last = other := by simpa using hinj.2
    exact .inr ⟨rest, rfl, hinj.1⟩

omit [LinearOrder Node] in
theorem Route.snoc {path : List Node} (hroute : Route roots adjacent path) (hnew : node ∉ path)
    (hnext : node ∈ nexts roots adjacent path) : Route roots adjacent (path ++ [node]) where
  nodup := by
    rw [nodup_append]
    exact ⟨hroute.nodup, nodup_singleton _, by
      intro left hleft right hright heq
      rw [mem_singleton] at hright
      exact hnew (hright ▸ heq ▸ hleft)⟩
  follows := by
    intro before other after hsplit
    cases snoc_split hsplit with
    | inl hlast =>
      rw [hlast.1, hlast.2.1]
      exact hnext
    | inr hinner =>
      obtain ⟨rest, -, hpath⟩ := hinner
      exact hroute.follows before other rest hpath

/-- A smaller list ends earlier or branches off to a smaller element. -/
theorem branch_of_lt {left right : List Node} (hlt : left < right) :
    left <+: right ∨ ∃ shared smaller larger leftRest rightRest,
      left = shared ++ smaller :: leftRest ∧ right = shared ++ larger :: rightRest ∧
        smaller < larger := by
  induction left generalizing right with
  | nil => exact .inl nil_prefix
  | cons head tail ih =>
    cases right with
    | nil => exact absurd hlt (not_lt_nil _)
    | cons other rest =>
      cases cons_lt_cons_iff.mp hlt with
      | inl hhead => exact .inr ⟨[], head, other, tail, rest, rfl, rfl, hhead⟩
      | inr htail =>
        obtain ⟨rfl, htail⟩ := htail
        cases ih htail with
        | inl hstart => exact .inl (cons_prefix_cons.mpr ⟨rfl, hstart⟩)
        | inr hbranch =>
          obtain ⟨shared, smaller, larger, leftRest, rightRest, rfl, rfl, hless⟩ := hbranch
          exact .inr ⟨head :: shared, smaller, larger, leftRest, rightRest, rfl, rfl, hless⟩

/-- The edge relation of an adjacency function. -/
def Edge (adjacent : Node → List Node) (source next : Node) : Prop := next ∈ adjacent source

omit [LinearOrder Node] in
theorem Route.init {path : List Node} (hroute : Route roots adjacent (path ++ [node])) :
    Route roots adjacent path where
  nodup := (nodup_append.mp hroute.nodup).1
  follows before other after hsplit :=
    hroute.follows before other (after ++ [node]) (by rw [hsplit]; simp)

omit [LinearOrder Node] in
/-- What a node of a path hands on to its successors holds of all that come after it. -/
theorem Route.handed_on {before rest : List Node} {start : Node} {holds : Node → Prop}
    (hroute : Route roots adjacent (before ++ start :: rest)) (hstart : holds start)
    (hnext : ∀ source next, holds source → next ∈ adjacent source → next ∉ before →
      holds next) : ∀ member ∈ start :: rest, holds member := by
  induction rest using List.reverseRecOn with
  | nil =>
    intro member hmember
    rw [mem_singleton] at hmember
    exact hmember ▸ hstart
  | append_singleton rest last ih =>
    have hassoc : before ++ start :: (rest ++ [last]) = (before ++ start :: rest) ++ [last] := by
      simp
    rw [hassoc] at hroute
    have hbefore := ih hroute.init
    have hlast : holds last := by
      have hfollows := hroute.follows (before ++ start :: rest) last [] rfl
      obtain ⟨front, final, hfinal⟩ : ∃ front final, start :: rest = front ++ [final] :=
        ⟨_, _, (dropLast_append_getLast (cons_ne_nil start rest)).symm⟩
      rw [hfinal, ← append_assoc, nexts_snoc] at hfollows
      refine hnext final last (hbefore final (by rw [hfinal]; simp)) hfollows fun hmem => ?_
      have hnodup := (nodup_append.mp hroute.nodup).2.2
      exact hnodup last (mem_append_left _ hmem) last (mem_singleton_self _) rfl
    intro member hmember
    have hcases : member ∈ start :: rest ∨ member = last := by
      simpa [or_assoc] using hmember
    cases hcases with
    | inl hold => exact hbefore member hold
    | inr heq => exact heq ▸ hlast

omit [LinearOrder Node] in
/-- On a path, a node leads to all that come after it. -/
theorem Route.reaches {before rest : List Node} {start : Node}
    (hroute : Route roots adjacent (before ++ start :: rest)) :
    ∀ member ∈ start :: rest, Relation.ReflTransGen (Edge adjacent) start member :=
  hroute.handed_on .refl fun _ _ hreached hnext _ => hreached.tail hnext

/-- What an edge back to the path marks lies on a cycle. -/
theorem OnBackEdge.cycle {marked : Node} (hback : OnBackEdge roots adjacent marked) :
    Relation.TransGen (Edge adjacent) marked marked := by
  obtain ⟨stack, node, hfirst, target, htarget, before, after, hsplit, hmarked⟩ := hback
  have hroute := hfirst.route
  have hdown : Relation.ReflTransGen (Edge adjacent) target marked := by
    rw [hsplit] at hroute
    exact hroute.reaches marked hmarked
  obtain ⟨front, rest, hrest⟩ := append_of_mem hmarked
  have hlower : stack ++ [node] = (before ++ front) ++ marked :: rest := by
    rw [hsplit, hrest]
    simp
  have hnode : node ∈ marked :: rest := by
    cases snoc_split hlower with
    | inl hlast => simp [hlast.2.1]
    | inr hinner =>
      obtain ⟨middle, hmiddle, -⟩ := hinner
      simp [hmiddle]
  have hup : Relation.ReflTransGen (Edge adjacent) marked node := by
    rw [hlower] at hroute
    exact hroute.reaches node hnode
  exact (Relation.TransGen.tail' hup htarget).trans_left hdown

theorem First.unique {stack stack' : List Node} (hfirst : First roots adjacent stack node)
    (hfirst' : First roots adjacent stack' node) : stack = stack' := by
  have heq : stack ++ [node] = stack' ++ [node] :=
    le_antisymm (hfirst.least stack' hfirst'.route) (hfirst'.least stack hfirst.route)
  exact append_cancel_right heq

end Routes

variable {path : List Node}

section Sweeping

variable (roots : List Node) (adjacent : Node → List Node)

/-- When the search went from the path to the node, it had already finished
everything that smaller successors lead to without touching the path. -/
structure Swept (states : Node → ℕ) (path : List Node) (node : Node)
    (region : Set Node) : Prop where
  smaller : ∀ other ∈ nexts roots adjacent path, other < node → other ∈ region ∨ other ∈ path
  closed : ∀ member ∈ region, ∀ next ∈ adjacent member, next ∈ region ∨ next ∈ path
  finished : ∀ member ∈ region, states member = 2

variable {roots adjacent}

variable {region : Set Node}

theorem Swept.mono {states states' : Node → ℕ}
    (hswept : Swept roots adjacent states path node region)
    (hfinished : ∀ member, states member = 2 → states' member = 2) :
    Swept roots adjacent states' path node region := { hswept with
  finished := fun member hmember => hfinished member (hswept.finished member hmember) }

/-- A simple path that leaves the stack for a swept region stays in it. -/
theorem Swept.stays {states : Node → ℕ} (hswept : Swept roots adjacent states path node region)
    {start : Node} {rest : List Node} (hroute : Route roots adjacent (path ++ start :: rest))
    (hstart : start ∈ region) : ∀ member ∈ start :: rest, member ∈ region :=
  hroute.handed_on hstart fun source next hsource hnext hfresh =>
    (hswept.closed source hsource next hnext).resolve_right hfresh

/-- The search comes to an unknown node on its first path. -/
theorem first_of_swept (states : Node → ℕ) {stack : List Node}
    (hroute : Route roots adjacent (stack ++ [node])) (hunknown : states node ≠ 2)
    (hswept : ∀ before other after, stack ++ [node] = before ++ other :: after →
      ∃ region, Swept roots adjacent states before other region) :
    First roots adjacent stack node where
  route := hroute
  least := by
    intro path hpath
    by_contra hless
    cases branch_of_lt (not_le.mp hless) with
    | inl hstart =>
      -- a proper start of the path would meet the node twice
      obtain ⟨rest, hrest⟩ := hstart
      cases rest using List.reverseRecOn with
      | nil => exact hless (by rw [← hrest]; simp)
      | append_singleton rest last =>
        have hinj : path ++ node :: rest = stack :=
          (append_inj' (show (path ++ node :: rest) ++ [last] = stack ++ [node] by
            rw [← hrest]; simp) rfl).1
        have hnodup := hroute.nodup
        rw [← hinj, nodup_append] at hnodup
        exact hnodup.2.2 node (by simp) node (by simp) rfl
    | inr hbranch =>
      obtain ⟨shared, smaller, larger, leftRest, rightRest, hleft, hright, hlt⟩ := hbranch
      obtain ⟨region, hregion⟩ := hswept shared larger rightRest hright
      have hnext := hpath.follows shared smaller leftRest hleft
      have hroute' : Route roots adjacent (shared ++ smaller :: leftRest) := hleft ▸ hpath
      have hoff : smaller ∉ shared := by
        intro hmem
        exact (nodup_append.mp hroute'.nodup).2.2 smaller hmem smaller (by simp) rfl
      have hinside := (hregion.smaller smaller hnext hlt).resolve_right hoff
      have hnode : node ∈ smaller :: leftRest := by
        cases snoc_split hleft with
        | inl hlast => simp [hlast.2.1]
        | inr hinner =>
          obtain ⟨rest, hrest, -⟩ := hinner
          simp [hrest]
      exact hunknown (hregion.finished node (hregion.stays hroute' hinside node hnode))

end Sweeping

variable {search : Search Node}

section Invariant

variable (roots : List Node) (adjacent : Node → List Node)

/-- What holds of a search at any moment. -/
structure Consistent (search : Search Node) : Prop where
  route : Route roots adjacent search.stack
  opened : ∀ node, search.states node = 1 ↔ node ∈ search.stack
  phases : ∀ node, search.states node ≤ 2
  closed : ∀ node, search.states node = 2 → ∀ next ∈ adjacent node, search.states next ≠ 0
  swept : ∀ before node after, search.stack = before ++ node :: after →
    ∃ region, Swept roots adjacent search.states before node region
  sound : ∀ node ∈ search.cyclic, OnBackEdge roots adjacent node
  complete : ∀ node, search.states node = 2 →
    (∃ stack, First roots adjacent stack node) ∧
      ∀ stack, First roots adjacent stack node → ∀ marked,
        Marks adjacent stack node marked → marked ∈ search.cyclic

/-- A search that goes on keeps its path and forgets nothing. -/
structure Grown (search search' : Search Node) : Prop where
  stack : search'.stack = search.stack
  known : ∀ node, search.states node ≠ 0 → search'.states node ≠ 0
  finished : ∀ node, search.states node = 2 → search'.states node = 2
  cyclic : search.cyclic ⊆ search'.cyclic

omit [LinearOrder Node] in
theorem Grown.refl (search : Search Node) : Grown search search :=
  ⟨rfl, fun _ h => h, fun _ h => h, Finset.Subset.refl _⟩

omit [LinearOrder Node] in
theorem Grown.trans {first second third : Search Node} (hfirst : Grown first second)
    (hsecond : Grown second third) : Grown first third where
  stack := hsecond.stack.trans hfirst.stack
  known := fun node h => hsecond.known node (hfirst.known node h)
  finished := fun node h => hsecond.finished node (hfirst.finished node h)
  cyclic := hfirst.cyclic.trans hsecond.cyclic

variable {roots adjacent}

theorem Consistent.empty : Consistent roots adjacent (Search.empty : Search Node) where
  route := Route.nil
  opened := by simp [Search.empty]
  phases := by simp [Search.empty]
  closed := by simp [Search.empty]
  swept := by simp [Search.empty]
  sound := by simp [Search.empty]
  complete := by simp [Search.empty]

theorem Consistent.finished_or_open (hconsistent : Consistent roots adjacent search)
    (hknown : search.states node ≠ 0) : search.states node = 2 ∨ node ∈ search.stack := by
  have hphase := hconsistent.phases node
  have hopened := hconsistent.opened node
  by_cases hopen : search.states node = 1
  · exact .inr (hopened.mp hopen)
  · exact .inl (by omega)

/-- Everything that is finished is swept when the search goes on to a node. -/
theorem Consistent.sweptNext (hconsistent : Consistent roots adjacent search)
    (hsmaller : ∀ other ∈ nexts roots adjacent search.stack, other < node →
      search.states other ≠ 0) :
    Swept roots adjacent search.states search.stack node
      {member | search.states member = 2} where
  smaller := fun other hother hlt =>
    hconsistent.finished_or_open (hsmaller other hother hlt)
  closed := fun member hmember next hnext =>
    hconsistent.finished_or_open (hconsistent.closed member hmember next hnext)
  finished := fun _ hmember => hmember

section Entering

variable (hconsistent : Consistent roots adjacent search) (hunknown : search.states node = 0)
  (hnext : node ∈ nexts roots adjacent search.stack)
  (hsmaller : ∀ other ∈ nexts roots adjacent search.stack, other < node → search.states other ≠ 0)

include hconsistent hunknown hnext

theorem Consistent.routeNext : Route roots adjacent (search.stack ++ [node]) := by
  apply hconsistent.route.snoc _ hnext
  intro hmem
  have hopen := (hconsistent.opened node).mpr hmem
  omega

include hsmaller

theorem Consistent.firstNext : First roots adjacent search.stack node := by
  apply first_of_swept search.states (hconsistent.routeNext hunknown hnext)
  · omega
  · intro before other after hsplit
    cases snoc_split hsplit with
    | inl hlast =>
      rw [hlast.1, hlast.2.1]
      exact ⟨_, hconsistent.sweptNext hsmaller⟩
    | inr hinner =>
      obtain ⟨rest, -, hstack⟩ := hinner
      exact hconsistent.swept before other rest hstack

theorem Consistent.enter : Consistent roots adjacent (search.enter node) := by
  have hfinished : ∀ member, search.states member = 2 →
      (search.enter node).states member = 2 := by
    intro member hmember
    have hother : member ≠ node := by
      rintro rfl
      omega
    simpa [Search.enter, hother] using hmember
  have hfinished' : ∀ member, (search.enter node).states member = 2 →
      search.states member = 2 := by
    intro member hmember
    by_cases hother : member = node
    · simp [Search.enter, hother] at hmember
    · simpa [Search.enter, hother] using hmember
  constructor
  · exact hconsistent.routeNext hunknown hnext
  · intro member
    by_cases hother : member = node
    · simp [Search.enter, hother]
    · simpa [Search.enter, hother] using hconsistent.opened member
  · intro member
    by_cases hother : member = node
    · simp [Search.enter, hother]
    · simpa [Search.enter, hother] using hconsistent.phases member
  · intro member hmember next hedge
    have hknown := hconsistent.closed member (hfinished' member hmember) next hedge
    by_cases hother : next = node
    · simp [Search.enter, hother]
    · simpa [Search.enter, hother] using hknown
  · intro before other after hsplit
    cases snoc_split hsplit with
    | inl hlast =>
      rw [hlast.1, hlast.2.1]
      exact ⟨_, (hconsistent.sweptNext hsmaller).mono hfinished⟩
    | inr hinner =>
      obtain ⟨rest, -, hstack⟩ := hinner
      obtain ⟨region, hregion⟩ := hconsistent.swept before other rest hstack
      exact ⟨region, hregion.mono hfinished⟩
  · exact hconsistent.sound
  · exact fun member hmember => hconsistent.complete member (hfinished' member hmember)

end Entering

variable {target : Node} {before after : List Node}

/-- A list is split at a member. -/
theorem drop_split (hnodup : path.Nodup) (hsplit : path = before ++ target :: after) :
    ∃ index, path.idxOf? target = some index ∧ path.drop index = target :: after := by
  have hbefore : target ∉ before := by
    intro hmem
    rw [hsplit, nodup_append] at hnodup
    exact hnodup.2.2 target hmem target (by simp) rfl
  refine ⟨before.length, ?_, by rw [hsplit]; simp⟩
  rw [hsplit, List.idxOf?, List.findIdx?_append]
  have hnone : before.findIdx? (· == target) = none := by
    rw [List.findIdx?_eq_none_iff]
    intro member hmember
    simpa using fun heq : member = target => hbefore (heq ▸ hmember)
  simp [hnone, List.findIdx?_cons]

/-- Marking adds the path from the target on. -/
theorem mem_mark (hconsistent : Consistent roots adjacent search)
    (hsplit : search.stack = before ++ target :: after) (marked : Node) :
    marked ∈ (search.mark target).cyclic ↔
      marked ∈ search.cyclic ∨ marked ∈ target :: after := by
  obtain ⟨index, hindex, hdrop⟩ := drop_split hconsistent.route.nodup hsplit
  simp [Search.mark, hindex, hdrop, or_left_comm]

theorem mark_states (target : Node) : (search.mark target).states = search.states := by
  unfold Search.mark
  split <;> rfl

theorem mark_stack (target : Node) : (search.mark target).stack = search.stack := by
  unfold Search.mark
  split <;> rfl

theorem grown_mark (search : Search Node) (target : Node) : Grown search (search.mark target) where
  stack := mark_stack target
  known := fun node h => by rwa [mark_states]
  finished := fun node h => by rwa [mark_states]
  cyclic := by
    unfold Search.mark
    split
    · exact Finset.subset_union_left
    · exact Finset.Subset.refl _

variable (hconsistent : Consistent roots adjacent search) (hstack : search.stack = path ++ [node])
  (hfirst : First roots adjacent path node)
include hconsistent hstack hfirst

theorem Consistent.mark (htarget : target ∈ adjacent node) (hopen : search.states target = 1) :
    Consistent roots adjacent (search.mark target) := by
  obtain ⟨before, after, hsplit⟩ := append_of_mem ((hconsistent.opened target).mp hopen)
  have hgrown := grown_mark search target
  constructor
  · rw [mark_stack]
    exact hconsistent.route
  · intro member
    rw [mark_states, mark_stack]
    exact hconsistent.opened member
  · intro member
    rw [mark_states]
    exact hconsistent.phases member
  · rw [mark_states]
    exact hconsistent.closed
  · rw [mark_states, mark_stack]
    exact hconsistent.swept
  · intro member hmember
    cases (mem_mark hconsistent hsplit member).mp hmember with
    | inl hold => exact hconsistent.sound member hold
    | inr hnew =>
      exact ⟨path, node, hfirst, target, htarget, before, after, hstack ▸ hsplit, hnew⟩
  · intro member hmember
    rw [mark_states] at hmember
    obtain ⟨hexists, hmarks⟩ := hconsistent.complete member hmember
    exact ⟨hexists, fun stack hstack marked hmarked =>
      hgrown.cyclic (hmarks stack hstack marked hmarked)⟩

/-- The node on top of the path is left when all its edges are followed. -/
theorem Consistent.leave (hknown : ∀ next ∈ adjacent node, search.states next ≠ 0)
    (hmarked : ∀ marked, Marks adjacent path node marked → marked ∈ search.cyclic) :
    Consistent roots adjacent (search.leave node) := by
  have hpath : (search.leave node).stack = path := by simp [Search.leave, hstack]
  have hnew : node ∉ path := by
    intro hmem
    have hnodup := hconsistent.route.nodup
    rw [hstack, nodup_append] at hnodup
    exact hnodup.2.2 node hmem node (by simp) rfl
  have hother : ∀ member, member ≠ node →
      (search.leave node).states member = search.states member := by
    intro member hmember
    simp [Search.leave, hmember]
  have hnode : (search.leave node).states node = 2 := by simp [Search.leave]
  have hfinished : ∀ member, search.states member = 2 →
      (search.leave node).states member = 2 := by
    intro member hmember
    by_cases heq : member = node
    · exact heq ▸ hnode
    · rw [hother member heq, hmember]
  have hstill : ∀ member, search.states member ≠ 0 →
      (search.leave node).states member ≠ 0 := by
    intro member hmember
    by_cases heq : member = node
    · rw [heq, hnode]
      exact two_ne_zero
    · rwa [hother member heq]
  constructor
  · rw [hpath]
    have hroute := hconsistent.route
    rw [hstack] at hroute
    exact hroute.init
  · intro member
    rw [hpath]
    by_cases heq : member = node
    · rw [heq, hnode]
      simp [hnew]
    · rw [hother member heq, hconsistent.opened member, hstack]
      simp [heq]
  · intro member
    by_cases heq : member = node
    · rw [heq, hnode]
    · rw [hother member heq]
      exact hconsistent.phases member
  · intro member hmember next hnext
    apply hstill
    by_cases heq : member = node
    · exact hknown next (heq ▸ hnext)
    · rw [hother member heq] at hmember
      exact hconsistent.closed member hmember next hnext
  · intro before other after hsplit
    rw [hpath] at hsplit
    obtain ⟨region, hregion⟩ :=
      hconsistent.swept before other (after ++ [node]) (by rw [hstack, hsplit]; simp)
    exact ⟨region, hregion.mono hfinished⟩
  · exact hconsistent.sound
  · intro member hmember
    by_cases heq : member = node
    · subst heq
      refine ⟨⟨path, hfirst⟩, fun stack hother marked hmark => hmarked marked ?_⟩
      rwa [hfirst.unique hother]
    · rw [hother member heq] at hmember
      exact hconsistent.complete member hmember

end Invariant

section Visiting

variable {roots : List Node} {adjacent : Node → List Node} {nodes : Finset Node}

/-- The nodes that the search has not come to. -/
def unknown (nodes : Finset Node) (search : Search Node) : Finset Node :=
  nodes.filter fun node => search.states node = 0

theorem Grown.unknown_subset (nodes : Finset Node) {search search' : Search Node} (hgrown : Grown search search') :
    unknown nodes search' ⊆ unknown nodes search := by
  intro node hnode
  rw [unknown, Finset.mem_filter] at hnode ⊢
  refine ⟨hnode.1, ?_⟩
  by_contra hknown
  exact hgrown.known node hknown hnode.2

/-- One visit: it returns to the path from which it came, with the node finished. -/
def VisitSpec (roots : List Node) (adjacent : Node → List Node) (nodes : Finset Node)
    (fuel : ℕ) : Prop :=
  ∀ node search, Consistent roots adjacent search → search.states node = 0 →
    node ∈ nexts roots adjacent search.stack →
    (∀ other ∈ nexts roots adjacent search.stack, other < node → search.states other ≠ 0) →
    (unknown nodes search).card ≤ fuel →
      Consistent roots adjacent (visit adjacent fuel node search) ∧
        Grown search (visit adjacent fuel node search) ∧
        (visit adjacent fuel node search).states node = 2

/-- The edges of the node on top that were followed: their ends are known, and
what they mark is marked. -/
structure Followed (adjacent : Node → List Node) (path : List Node) (node : Node)
    (followed : List Node) (search : Search Node) : Prop where
  known : ∀ next ∈ followed, search.states next ≠ 0
  marked : ∀ next ∈ followed, ∀ before after, path ++ [node] = before ++ next :: after →
    ∀ marked ∈ next :: after, marked ∈ search.cyclic

variable {followed : List Node}

theorem Followed.grown {search search' : Search Node}
    (hfollowed : Followed adjacent path node followed search) (hgrown : Grown search search') :
    Followed adjacent path node followed search' where
  known := fun next hnext => hgrown.known next (hfollowed.known next hnext)
  marked := fun next hnext before after hsplit marked hmarked =>
    hgrown.cyclic (hfollowed.marked next hnext before after hsplit marked hmarked)

variable {fuel : ℕ}

/-- Following one edge of the node on top. -/
theorem follow_spec (hvisit : VisitSpec roots adjacent nodes fuel) {node target : Node}
    (hconsistent : Consistent roots adjacent search) (hstack : search.stack = path ++ [node])
    (hfirst : First roots adjacent path node) (htarget : target ∈ adjacent node)
    (hsmaller : ∀ other ∈ adjacent node, other < target → other ∈ followed)
    (hfollowed : Followed adjacent path node followed search)
    (hfuel : (unknown nodes search).card ≤ fuel) :
    Consistent roots adjacent (follow (visit adjacent fuel) search target) ∧
      Grown search (follow (visit adjacent fuel) search target) ∧
      Followed adjacent path node (followed ++ [target])
        (follow (visit adjacent fuel) search target) := by
  -- an end that is not on the path marks nothing
  have hoff : ∀ after : Search Node, Grown search after → after.states target = 2 →
      search.states target ≠ 1 → Followed adjacent path node (followed ++ [target]) after := by
    intro after hgrown hfinished hclosed
    have hkept := hfollowed.grown hgrown
    refine ⟨fun next hnext => ?_, fun next hnext before rest hsplit => ?_⟩
    · cases mem_append.mp hnext with
      | inl hold => exact hkept.known next hold
      | inr hlast =>
        rw [mem_singleton.mp hlast, hfinished]
        exact two_ne_zero
    · cases mem_append.mp hnext with
      | inl hold => exact hkept.marked next hold before rest hsplit
      | inr hlast =>
        rw [mem_singleton.mp hlast] at hsplit
        refine absurd ((hconsistent.opened target).mpr ?_) hclosed
        rw [hstack, hsplit]
        simp
  have hphase := hconsistent.phases target
  obtain hphase | hphase | hphase : search.states target = 0 ∨ search.states target = 1 ∨
      search.states target = 2 := by omega
  · have hnext : target ∈ nexts roots adjacent search.stack := by
      rw [hstack, nexts_snoc]
      exact htarget
    have hknown : ∀ other ∈ nexts roots adjacent search.stack, other < target →
        search.states other ≠ 0 := by
      intro other hother hlt
      rw [hstack, nexts_snoc] at hother
      exact hfollowed.known other (hsmaller other hother hlt)
    obtain ⟨hafter, hgrown, hfinished⟩ := hvisit target search hconsistent hphase hnext hknown hfuel
    have hstep : follow (visit adjacent fuel) search target =
        visit adjacent fuel target search := by
      simp [follow, hphase]
    rw [hstep]
    exact ⟨hafter, hgrown, hoff _ hgrown hfinished (by omega)⟩
  · have hstep : follow (visit adjacent fuel) search target = search.mark target := by
      simp [follow, hphase]
    rw [hstep]
    have hgrown := grown_mark search target
    have hkept := hfollowed.grown hgrown
    refine ⟨hconsistent.mark hstack hfirst htarget hphase, hgrown, ?_, ?_⟩
    · intro next hnext
      cases mem_append.mp hnext with
      | inl hold => exact hkept.known next hold
      | inr hlast =>
        rw [mem_singleton.mp hlast, mark_states, hphase]
        exact one_ne_zero
    · intro next hnext before after hsplit marked hmarked
      cases mem_append.mp hnext with
      | inl hold => exact hkept.marked next hold before after hsplit marked hmarked
      | inr hlast =>
        rw [mem_singleton.mp hlast] at hsplit hmarked
        exact (mem_mark hconsistent (hstack ▸ hsplit) marked).mpr (.inr hmarked)
  · have hstep : follow (visit adjacent fuel) search target = search := by
      simp [follow, hphase]
    rw [hstep]
    exact ⟨hconsistent, Grown.refl search, hoff _ (Grown.refl search) hphase (by omega)⟩

variable {rest : List Node}

theorem follow_all_spec (hvisit : VisitSpec roots adjacent nodes fuel) {path : List Node}
    (hsorted : (adjacent node).Pairwise (· < ·)) (hfirst : First roots adjacent path node)
    (followed : List Node) (hsplit : adjacent node = followed ++ rest)
    (hconsistent : Consistent roots adjacent search) (hstack : search.stack = path ++ [node])
    (hfollowed : Followed adjacent path node followed search)
    (hfuel : (unknown nodes search).card ≤ fuel) :
    Consistent roots adjacent (rest.foldl (follow (visit adjacent fuel)) search) ∧
      Grown search (rest.foldl (follow (visit adjacent fuel)) search) ∧
      Followed adjacent path node (adjacent node)
        (rest.foldl (follow (visit adjacent fuel)) search) := by
  induction rest generalizing followed search with
  | nil =>
    rw [List.append_nil] at hsplit
    exact ⟨hconsistent, Grown.refl search, hsplit ▸ hfollowed⟩
  | cons target rest ih =>
    have htarget : target ∈ adjacent node := by
      rw [hsplit]
      simp
    have hsmaller : ∀ other ∈ adjacent node, other < target → other ∈ followed := by
      intro other hother hlt
      rw [hsplit] at hother hsorted
      cases mem_append.mp hother with
      | inl hbefore => exact hbefore
      | inr hafter =>
        have hrest := (pairwise_append.mp hsorted).2.1
        cases mem_cons.mp hafter with
        | inl heq => exact absurd hlt (heq ▸ lt_irrefl _)
        | inr hlater =>
          exact absurd hlt (rel_of_pairwise_cons hrest hlater).not_gt
    obtain ⟨hstepped, hgrown, hdone⟩ :=
      follow_spec hvisit hconsistent hstack hfirst htarget hsmaller hfollowed hfuel
    have hfuel' := (Finset.card_le_card (hgrown.unknown_subset nodes)).trans hfuel
    obtain ⟨hend, hgrown', hall⟩ :=
      ih (followed ++ [target]) (by rw [hsplit]; simp) hstepped (hgrown.stack.trans hstack) hdone hfuel'
    exact ⟨hend, hgrown.trans hgrown', hall⟩

theorem unknown_enter_lt (hnode : node ∈ nodes) (hunknown : search.states node = 0) :
    (unknown nodes (search.enter node)).card < (unknown nodes search).card := by
  apply Finset.card_lt_card
  rw [Finset.ssubset_iff_of_subset]
  · refine ⟨node, by simp [unknown, hnode, hunknown], ?_⟩
    rw [unknown, Finset.mem_filter]
    simp [Search.enter]
  · intro member hmember
    rw [unknown, Finset.mem_filter] at hmember ⊢
    refine ⟨hmember.1, ?_⟩
    by_cases heq : member = node
    · exact heq ▸ hunknown
    · simpa [Search.enter, heq] using hmember.2

/-- A visit that starts with an edge list in order does what it should. -/
theorem visit_spec (hroots : ∀ root ∈ roots, root ∈ nodes)
    (hadjacent : ∀ node, ∀ next ∈ adjacent node, next ∈ nodes)
    (hsorted : ∀ node, (adjacent node).Pairwise (· < ·)) (fuel : ℕ) :
    VisitSpec roots adjacent nodes fuel := by
  induction fuel with
  | zero =>
    intro node search hconsistent hunknown hnext _ hfuel
    have hnode : node ∈ nodes := by
      unfold nexts at hnext
      split at hnext
      · exact hroots node hnext
      · exact hadjacent _ node hnext
    have hmem : node ∈ unknown nodes search := by simp [unknown, hnode, hunknown]
    have hpositive := Finset.card_pos.mpr ⟨node, hmem⟩
    omega
  | succ fuel ih =>
    intro node search hconsistent hunknown hnext hsmaller hfuel
    have hnode : node ∈ nodes := by
      unfold nexts at hnext
      split at hnext
      · exact hroots node hnext
      · exact hadjacent _ node hnext
    have hfirst := hconsistent.firstNext hunknown hnext hsmaller
    have hentered := hconsistent.enter hunknown hnext hsmaller
    have hstack : (search.enter node).stack = search.stack ++ [node] := rfl
    have hless := unknown_enter_lt hnode hunknown
    have hnone : Followed adjacent search.stack node [] (search.enter node) := ⟨by simp, by simp⟩
    obtain ⟨hdone, hgrown, hfollowed⟩ :=
      follow_all_spec ih (hsorted node) hfirst [] rfl hentered hstack hnone (by omega)
    have htop := hgrown.stack.trans hstack
    have hmarked : ∀ marked, Marks adjacent search.stack node marked →
        marked ∈ ((adjacent node).foldl (follow (visit adjacent fuel))
          (search.enter node)).cyclic := by
      intro marked hmarks
      obtain ⟨target, htarget, before, after, hsplit, hmem⟩ := hmarks
      exact hfollowed.marked target htarget before after hsplit marked hmem
    have hafter := hdone.leave htop hfirst hfollowed.known hmarked
    have hleft : ∀ member, member ≠ node →
        (visit adjacent (fuel + 1) node search).states member =
          ((adjacent node).foldl (follow (visit adjacent fuel))
            (search.enter node)).states member := by
      intro member hmember
      simp [visit, Search.leave, hmember]
    have hfinished : (visit adjacent (fuel + 1) node search).states node = 2 := by
      simp [visit, Search.leave]
    have hkept : ∀ member, member ≠ node →
        (search.enter node).states member = search.states member := by
      intro member hmember
      simp [Search.enter, hmember]
    refine ⟨hafter, ⟨?_, ?_, ?_, ?_⟩, hfinished⟩
    · simp [visit, Search.leave, htop]
    · intro member hmember
      by_cases heq : member = node
      · rw [heq, hfinished]
        exact two_ne_zero
      · rw [hleft member heq]
        exact hgrown.known member (by rwa [hkept member heq])
    · intro member hmember
      by_cases heq : member = node
      · exact heq ▸ hfinished
      · rw [hleft member heq]
        exact hgrown.finished member (by rwa [hkept member heq])
    · exact hgrown.cyclic

variable (hroots : ∀ root ∈ roots, root ∈ nodes)
  (hadjacent : ∀ node, ∀ next ∈ adjacent node, next ∈ nodes)
  (hsorted : ∀ node, (adjacent node).Pairwise (· < ·))

include hroots hadjacent hsorted

theorem run_spec (hfuel : nodes.card ≤ fuel) (done : List Node) (hsplit : roots = done ++ rest)
    (hordered : roots.Pairwise (· < ·)) (hconsistent : Consistent roots adjacent search)
    (hstack : search.stack = []) (hdone : ∀ root ∈ done, search.states root = 2) :
    Consistent roots adjacent (rest.foldl
        (fun search root =>
          if search.states root = 0 then visit adjacent fuel root search else search) search) ∧
      ∀ root ∈ roots, (rest.foldl
        (fun search root =>
          if search.states root = 0 then visit adjacent fuel root search else search)
        search).states root = 2 := by
  induction rest generalizing done search with
  | nil =>
    rw [List.append_nil] at hsplit
    exact ⟨hconsistent, hsplit ▸ hdone⟩
  | cons root rest ih =>
    have hfinishedOf : ∀ member, search.states member ≠ 0 → search.states member = 2 := by
      intro member hknown
      cases hconsistent.finished_or_open hknown with
      | inl hfinished => exact hfinished
      | inr hopen => simp [hstack] at hopen
    have hsmaller : ∀ other ∈ nexts roots adjacent search.stack, other < root →
        search.states other ≠ 0 := by
      intro other hother hlt
      rw [hstack, nexts_nil, hsplit] at hother
      rw [hsplit] at hordered
      cases mem_append.mp hother with
      | inl hbefore => simp [hdone other hbefore]
      | inr hafter =>
        have hrest := (pairwise_append.mp hordered).2.1
        cases mem_cons.mp hafter with
        | inl heq => exact absurd hlt (heq ▸ lt_irrefl _)
        | inr hlater =>
          exact absurd hlt (rel_of_pairwise_cons hrest hlater).not_gt
    rw [foldl_cons]
    split
    · next hunknown =>
        have hnext : root ∈ nexts roots adjacent search.stack := by
          rw [hstack, nexts_nil, hsplit]
          simp
        have hcard : (unknown nodes search).card ≤ fuel :=
          (Finset.card_le_card (Finset.filter_subset _ _)).trans hfuel
        obtain ⟨hafter, hgrown, hfinished⟩ :=
          visit_spec hroots hadjacent hsorted fuel root search hconsistent hunknown hnext
            hsmaller hcard
        apply ih (done ++ [root]) (by rw [hsplit]; simp) hafter (hgrown.stack.trans hstack)
        intro member hmember
        cases mem_append.mp hmember with
        | inl hold => exact hgrown.finished member (hdone member hold)
        | inr hlast =>
          rw [mem_singleton.mp hlast]
          exact hfinished
    · next hknown =>
        apply ih (done ++ [root]) (by rw [hsplit]; simp) hconsistent hstack
        intro member hmember
        cases mem_append.mp hmember with
        | inl hold => exact hdone member hold
        | inr hlast =>
          rw [mem_singleton.mp hlast]
          exact hfinishedOf root hknown

/-- Among nodes that are all roots, the search marks exactly the nodes on cycles
that one edge closes over a first path. -/
theorem mem_run_cyclic_iff (hfuel : nodes.card ≤ fuel) (hordered : roots.Pairwise (· < ·))
    (hall : ∀ node ∈ nodes, node ∈ roots) (node : Node) :
    node ∈ (run roots adjacent fuel).cyclic ↔ OnBackEdge roots adjacent node := by
  have hstart : Consistent roots adjacent (Search.empty : Search Node) := Consistent.empty
  obtain ⟨hconsistent, hfinished⟩ :=
    run_spec hroots hadjacent hsorted hfuel [] rfl hordered hstart rfl (by simp)
  constructor
  · exact hconsistent.sound node
  · intro hback
    obtain ⟨stack, last, hfirst, hmarks⟩ := hback
    have hlast : last ∈ nodes := by
      have hnext := hfirst.route.follows stack last [] rfl
      unfold nexts at hnext
      split at hnext
      · exact hroots last hnext
      · exact hadjacent _ last hnext
    exact (hconsistent.complete last (hfinished last (hall last hlast))).2 stack hfirst node hmarks

end Visiting

end ConvexWasm.BackEdgeSearch
