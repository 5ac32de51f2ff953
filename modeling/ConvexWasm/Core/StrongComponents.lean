import Mathlib

/-!
# Strongly connected components

A depth-first search numbers the nodes of a graph, keeps the numbered nodes that
are in no component yet on a stack, and lowers the link of a node to the least
number it sees there.  A node that keeps its own number as its link closes a
component.  The components are the classes of mutual reachability.
-/

namespace ConvexWasm.StrongComponents

open Function List Relation

variable {Node : Type*} [LinearOrder Node]

/-- The state of the search.  The stack has the latest node first. -/
structure Search (Node : Type*) where
  nextIndex : ℕ
  indexes : Node → Option ℕ
  lowLinks : Node → ℕ
  stack : List Node
  components : List (List Node)

def emptySearch : Search Node where
  nextIndex := 0
  indexes := fun _ => none
  lowLinks := fun _ => 0
  stack := []
  components := []

/-- A node gets its number and is put on the stack. -/
def Search.enter (search : Search Node) (node : Node) : Search Node :=
  { search with
    nextIndex := search.nextIndex + 1
    indexes := update search.indexes node (some search.nextIndex)
    lowLinks := update search.lowLinks node search.nextIndex
    stack := node :: search.stack }

def Search.lower (search : Search Node) (node : Node) (link : ℕ) : Search Node :=
  { search with
    lowLinks := update search.lowLinks node (min (search.lowLinks node) link) }

/-- What is done for one dependency of a node. -/
def Search.follow (visit : Node → Search Node → Search Node) (node : Node) (search : Search Node)
    (dependency : Node) : Search Node :=
  match search.indexes dependency with
  | none =>
    let visited := visit dependency search
    visited.lower node (visited.lowLinks dependency)
  | some index => if dependency ∈ search.stack then search.lower node index else search

/-- The members of the stack down to a node, and the rest. -/
def popThrough (node : Node) : List Node → List Node × List Node
  | [] => ([], [])
  | member :: rest =>
    if member = node then ([member], rest)
    else (member :: (popThrough node rest).1, (popThrough node rest).2)

/-- A node whose link is its own number closes a component. -/
def Search.leave (search : Search Node) (node : Node) : Search Node :=
  if search.indexes node = some (search.lowLinks node) then
    { search with
      stack := (popThrough node search.stack).2
      components := search.components ++ [(popThrough node search.stack).1.insertionSort (· ≤ ·)] }
  else search

def visit (dependencies : Node → List Node) : ℕ → Node → Search Node → Search Node
  | 0, _, search => search
  | fuel + 1, node, search =>
    ((dependencies node).foldl (Search.follow (visit dependencies fuel) node)
      (search.enter node)).leave node

/-- The search from each node that has no number when its turn comes. -/
def searchAll (dependencies : Node → List Node) (fuel : ℕ) (nodes : List Node)
    (search : Search Node) : Search Node :=
  nodes.foldl (fun search node =>
    if (search.indexes node).isNone then visit dependencies fuel node search else search) search

def stronglyConnectedComponents (dependencies : Node → List Node) (nodes : List Node) :
    List (List Node) :=
  (searchAll dependencies nodes.length nodes emptySearch).components

section Reachability

variable (dependencies : Node → List Node)

/-- There is a path of dependencies from one node to another. -/
def Reaches : Node → Node → Prop := ReflTransGen fun source target => target ∈ dependencies source

def Mutual (first second : Node) : Prop :=
  Reaches dependencies first second ∧ Reaches dependencies second first

variable {dependencies} {first second third : Node}

theorem Mutual.symm (hmutual : Mutual dependencies first second) :
    Mutual dependencies second first :=
  ⟨hmutual.2, hmutual.1⟩

theorem Mutual.trans (hfirst : Mutual dependencies first second)
    (hsecond : Mutual dependencies second third) : Mutual dependencies first third :=
  ⟨hfirst.1.trans hsecond.1, hsecond.2.trans hfirst.2⟩

/-- A path that leaves a set has an edge that does. -/
theorem Reaches.exists_leaving (hreaches : Reaches dependencies first second)
    (inside : Node → Prop) (hfirst : inside first) (hsecond : ¬ inside second) :
    ∃ source target, inside source ∧ ¬ inside target ∧ Reaches dependencies first source ∧
      target ∈ dependencies source ∧ Reaches dependencies target second := by
  induction hreaches using ReflTransGen.head_induction_on with
  | refl => exact absurd hfirst hsecond
  | head hedge hrest ih =>
    rename_i source target
    by_cases htarget : inside target
    · obtain ⟨leaving, entered, hleaving, hentered, hpath, hstep, hlast⟩ := ih htarget
      exact ⟨leaving, entered, hleaving, hentered, .head hedge hpath, hstep, hlast⟩
    · exact ⟨source, target, hfirst, htarget, .refl, hedge, hrest⟩

end Reachability

variable {dependencies : Node → List Node} {path : List Node} {search search' : Search Node}
  {node other : Node}

def Search.Numbered (search : Search Node) (node : Node) : Prop :=
  (search.indexes node).isSome = true

def Search.number (search : Search Node) (node : Node) : ℕ := (search.indexes node).getD 0

/-- The invariant of the search while the nodes of a path are being visited. -/
structure Sound (dependencies : Node → List Node) (path : List Node) (search : Search Node) :
    Prop where
  numbered_lt : ∀ node, search.Numbered node → search.number node < search.nextIndex
  descending : search.stack.Pairwise fun above below => search.number below < search.number above
  placed : ∀ node, search.Numbered node ↔
    node ∈ search.stack ∨ ∃ component ∈ search.components, node ∈ component
  distinct : (search.stack ++ search.components.flatten).Nodup
  path_mem : ∀ node ∈ path, node ∈ search.stack
  upward : ∀ lower ∈ search.stack, ∀ upper ∈ search.stack,
    search.number lower ≤ search.number upper → Reaches dependencies lower upper
  rooted : ∀ node ∈ search.stack, ∃ root ∈ path,
    search.number root ≤ search.number node ∧ Reaches dependencies node root
  explored : ∀ node, search.Numbered node → node ∉ path →
    ∀ dependency ∈ dependencies node, search.Numbered dependency
  strong : ∀ component ∈ search.components, component ≠ [] ∧
    ∀ member ∈ component, ∀ node, node ∈ component ↔ Mutual dependencies member node
  sorted : ∀ component ∈ search.components, component.Pairwise (· ≤ ·)

theorem Sound.empty : Sound dependencies [] emptySearch where
  numbered_lt _ hnumbered := by cases hnumbered
  descending := List.Pairwise.nil
  placed node := by simp [emptySearch, Search.Numbered]
  distinct := nodup_nil
  path_mem _ hmem := by cases hmem
  upward _ hmem := by cases hmem
  rooted _ hmem := by cases hmem
  explored _ hnumbered := by cases hnumbered
  strong _ hmem := by cases hmem
  sorted _ hmem := by cases hmem

theorem Sound.numbered (hsound : Sound dependencies path search) (hnode : node ∈ search.stack) :
    search.Numbered node :=
  (hsound.placed node).mpr (.inl hnode)

/-- What has a number keeps it. -/
structure Extends (search search' : Search Node) : Prop where
  indexes : ∀ node, search.Numbered node → search'.indexes node = search.indexes node
  next_le : search.nextIndex ≤ search'.nextIndex

theorem Extends.refl (search : Search Node) : Extends search search := ⟨fun _ _ => rfl, le_rfl⟩

variable {search'' : Search Node}

theorem Extends.numbered (hextends : Extends search search') (hnode : search.Numbered node) :
    search'.Numbered node := by
  rw [Search.Numbered, hextends.indexes node hnode]
  exact hnode

theorem Extends.number (hextends : Extends search search') (hnode : search.Numbered node) :
    search'.number node = search.number node := by
  rw [Search.number, hextends.indexes node hnode, Search.number]

theorem Extends.trans (hfirst : Extends search search') (hsecond : Extends search' search'') :
    Extends search search'' where
  indexes node hnode :=
    (hsecond.indexes node (hfirst.numbered hnode)).trans (hfirst.indexes node hnode)
  next_le := hfirst.next_le.trans hsecond.next_le

section Steps

variable {link : ℕ}

theorem enter_numbered : (search.enter node).Numbered other ↔
    other = node ∨ search.Numbered other := by
  unfold Search.Numbered Search.enter
  by_cases hother : other = node
  · simp [hother]
  · simp [hother]

theorem enter_number_self : (search.enter node).number node = search.nextIndex := by
  simp [Search.number, Search.enter]

theorem enter_number (hother : other ≠ node) :
    (search.enter node).number other = search.number other := by
  simp [Search.number, Search.enter, hother]

theorem enter_extends (hnode : ¬ search.Numbered node) : Extends search (search.enter node) where
  indexes other hother := by
    have hne : other ≠ node := fun heq => hnode (heq ▸ hother)
    simp [Search.enter, hne]
  next_le := Nat.le_succ _

/-- A node that the path reaches joins it. -/
theorem Sound.enter (hsound : Sound dependencies path search) (hnode : ¬ search.Numbered node)
    (hpath : ∀ member ∈ path, Reaches dependencies member node) :
    Sound dependencies (node :: path) (search.enter node) := by
  have hne : ∀ other, search.Numbered other → other ≠ node := fun other hother heq =>
    hnode (heq ▸ hother)
  have hstack : ∀ other ∈ search.stack, other ≠ node := fun other hother =>
    hne other (hsound.numbered hother)
  -- Every node of the stack reaches the new one, through the path.
  have hreaches : ∀ other ∈ search.stack, Reaches dependencies other node := by
    intro other hother
    obtain ⟨root, hroot, _, hlast⟩ := hsound.rooted other hother
    exact hlast.trans (hpath root hroot)
  constructor
  · intro other hother
    rcases enter_numbered.mp hother with rfl | hold
    · rw [enter_number_self]
      exact Nat.lt_succ_self _
    · rw [enter_number (hne other hold)]
      exact (hsound.numbered_lt other hold).trans (Nat.lt_succ_self _)
  · apply List.Pairwise.cons
    · intro other hother
      rw [enter_number_self, enter_number (hstack other hother)]
      exact hsound.numbered_lt other (hsound.numbered hother)
    · apply hsound.descending.imp_of_mem
      intro above below habove hbelow hless
      rw [enter_number (hstack above habove), enter_number (hstack below hbelow)]
      exact hless
  · intro other
    rw [enter_numbered, hsound.placed other]
    simp [Search.enter, or_assoc]
  · apply nodup_cons.mpr ⟨_, hsound.distinct⟩
    intro hmem
    apply hnode
    rw [hsound.placed]
    rcases mem_append.mp hmem with hmem | hmem
    · exact .inl hmem
    · exact .inr (mem_flatten.mp hmem)
  · intro member hmember
    rcases mem_cons.mp hmember with rfl | hmember
    · exact mem_cons_self
    · exact mem_cons_of_mem _ (hsound.path_mem member hmember)
  · intro lower hlower upper hupper hle
    rcases mem_cons.mp hlower with rfl | hlowerOld
    · rcases mem_cons.mp hupper with rfl | hupperOld
      · exact .refl
      · have hless := hsound.numbered_lt upper (hsound.numbered hupperOld)
        rw [enter_number_self, enter_number (hstack upper hupperOld)] at hle
        omega
    · rcases mem_cons.mp hupper with rfl | hupperOld
      · exact hreaches lower hlowerOld
      · rw [enter_number (hstack lower hlowerOld), enter_number (hstack upper hupperOld)] at hle
        exact hsound.upward lower hlowerOld upper hupperOld hle
  · intro other hother
    rcases mem_cons.mp hother with rfl | hother
    · exact ⟨other, mem_cons_self, le_rfl, .refl⟩
    · obtain ⟨root, hroot, hle, hlast⟩ := hsound.rooted other hother
      refine ⟨root, mem_cons_of_mem _ hroot, ?_, hlast⟩
      rw [enter_number (hstack other hother), enter_number (hstack root (hsound.path_mem root hroot))]
      exact hle
  · intro other hother hoff dependency hdependency
    rcases enter_numbered.mp hother with rfl | hold
    · exact absurd mem_cons_self hoff
    · have hfound := hsound.explored other hold (fun hmem => hoff (mem_cons_of_mem _ hmem))
        dependency hdependency
      exact enter_numbered.mpr (.inr hfound)
  · exact hsound.strong
  · exact hsound.sorted

/-- The invariant does not look at the links. -/
theorem Sound.lower (hsound : Sound dependencies path search) (node : Node) (link : ℕ) :
    Sound dependencies path (search.lower node link) :=
  { hsound with }

theorem popThrough_append {new old : List Node} (hnew : node ∉ new) :
    popThrough node (new ++ node :: old) = (new ++ [node], old) := by
  induction new with
  | nil => simp [popThrough]
  | cons head rest ih =>
    have hhead : head ≠ node := fun heq => hnew (heq ▸ mem_cons_self)
    have hrest := ih fun hmem => hnew (mem_cons_of_mem _ hmem)
    rw [cons_append, popThrough, if_neg hhead, hrest]
    rfl

/-- What the visit of a node leaves. -/
structure Visited (dependencies : Node → List Node) (path : List Node) (node : Node)
    (search search' : Search Node) : Prop where
  sound : Sound dependencies path search'
  kept : Extends search search'
  numbered : search'.Numbered node
  links : ∀ other, search.Numbered other → search'.lowLinks other = search.lowLinks other
  stack : ∃ new, search'.stack = new ++ search.stack ∧
    (search.nextIndex ≤ search'.lowLinks node ∨ ∃ target ∈ search.stack,
      search.number target = search'.lowLinks node ∧ Reaches dependencies node target) ∧
    ∀ source ∈ new, ∀ target ∈ search.stack, target ∈ dependencies source →
      search'.lowLinks node ≤ search.number target

/-- What holds of a node while its dependencies are followed: `before` is the
search before the node was entered. -/
structure Following (dependencies : Node → List Node) (path : List Node) (node : Node)
    (before search : Search Node) (followed : List Node) : Prop where
  sound : Sound dependencies (node :: path) search
  kept : Extends before search
  index : search.indexes node = some before.nextIndex
  links : ∀ other, before.Numbered other → search.lowLinks other = before.lowLinks other
  link_le : search.lowLinks node ≤ before.nextIndex
  reached : ∀ dependency ∈ followed, search.Numbered dependency
  witness : ∃ target ∈ search.stack, search.number target = search.lowLinks node ∧
    Reaches dependencies node target
  stack : ∃ new, search.stack = new ++ node :: before.stack ∧
    (∀ source ∈ new, ∀ target ∈ before.stack, target ∈ dependencies source →
      search.lowLinks node ≤ before.number target) ∧
    ∀ target ∈ followed, target ∈ before.stack → search.lowLinks node ≤ before.number target

theorem enter_following (hsound : Sound dependencies path search) (hnode : ¬ search.Numbered node)
    (hpath : ∀ member ∈ path, Reaches dependencies member node) :
    Following dependencies path node search (search.enter node) [] where
  sound := hsound.enter hnode hpath
  kept := enter_extends hnode
  index := by simp [Search.enter]
  links other hother := by
    have hne : other ≠ node := fun heq => hnode (heq ▸ hother)
    simp [Search.enter, hne]
  link_le := by simp [Search.enter]
  reached _ hmem := by cases hmem
  witness := ⟨node, mem_cons_self, by rw [enter_number_self]; simp [Search.enter], .refl⟩
  stack := ⟨[], rfl, nofun, nofun⟩

variable {before : Search Node} {followed : List Node} {dependency : Node} {index : ℕ}

section

variable (hfollowing : Following dependencies path node before search followed)
include hfollowing

theorem Following.number : search.number node = before.nextIndex := by
  rw [Search.number, hfollowing.index]
  rfl

/-- The link is lowered to the number of a node of the stack, or not at all. -/
theorem Following.lower (hnode : ¬ before.Numbered node) (hnumbered : search.Numbered dependency)
    (hwitness : search.lowLinks node ≤ link ∨ ∃ target ∈ search.stack,
      search.number target = link ∧ Reaches dependencies node target)
    (hbound : dependency ∈ before.stack → link ≤ before.number dependency) :
    Following dependencies path node before (search.lower node link) (followed ++ [dependency]) := by
  have hself : (search.lower node link).lowLinks node = min (search.lowLinks node) link := by
    simp [Search.lower]
  obtain ⟨new, hstack, hnew, hold⟩ := hfollowing.stack
  constructor
  · exact hfollowing.sound.lower node link
  · exact ⟨hfollowing.kept.indexes, hfollowing.kept.next_le⟩
  · exact hfollowing.index
  · intro other hother
    have hne : other ≠ node := fun heq => hnode (heq ▸ hother)
    rw [← hfollowing.links other hother]
    simp [Search.lower, hne]
  · rw [hself]
    exact (min_le_left _ _).trans hfollowing.link_le
  · intro other hother
    rcases mem_append.mp hother with hother | hother
    · exact hfollowing.reached other hother
    · exact mem_singleton.mp hother ▸ hnumbered
  · rw [hself]
    rcases hwitness with hle | ⟨target, htarget, hnumber, hreaches⟩
    · rw [min_eq_left hle]
      exact hfollowing.witness
    · rcases le_total (search.lowLinks node) link with hle | hle
      · rw [min_eq_left hle]
        exact hfollowing.witness
      · rw [min_eq_right hle]
        exact ⟨target, htarget, hnumber, hreaches⟩
  · refine ⟨new, hstack, fun source hsource target htarget hedge => ?_, fun target htarget hmem => ?_⟩
    · rw [hself]
      exact (min_le_left _ _).trans (hnew source hsource target htarget hedge)
    · rw [hself]
      rcases mem_append.mp htarget with htarget | htarget
      · exact (min_le_left _ _).trans (hold target htarget hmem)
      · cases mem_singleton.mp htarget
        exact (min_le_right _ _).trans (hbound hmem)

section

variable (hbefore : Sound dependencies path before)
  (hnode : ¬ before.Numbered node)
  (hedge : dependency ∈ dependencies node)
include hbefore hnode hedge

/-- A dependency with a number: only the stack matters. -/
theorem Following.known (hindex : search.indexes dependency = some index) :
    Following dependencies path node before
      (if dependency ∈ search.stack then search.lower node index else search)
      (followed ++ [dependency]) := by
  have hnumbered : search.Numbered dependency := by rw [Search.Numbered, hindex]; rfl
  have hnumber : search.number dependency = index := by rw [Search.number, hindex]; rfl
  split
  · rename_i hmem
    apply hfollowing.lower hnode hnumbered
    · exact .inr ⟨dependency, hmem, hnumber, .single hedge⟩
    · intro hold
      rw [← hnumber, hfollowing.kept.number (hbefore.numbered hold)]
  · rename_i hmem
    obtain ⟨new, hstack, hnew, hold⟩ := hfollowing.stack
    exact
      { hfollowing with
        reached := fun other hother => by
          rcases mem_append.mp hother with hother | hother
          · exact hfollowing.reached other hother
          · exact mem_singleton.mp hother ▸ hnumbered
        stack := ⟨new, hstack, hnew, fun target htarget hlast => by
          rcases mem_append.mp htarget with htarget | htarget
          · exact hold target htarget hlast
          · cases mem_singleton.mp htarget
            rw [hstack] at hmem
            exact absurd (mem_append_right _ (mem_cons_of_mem _ hlast)) hmem⟩ }

/-- A dependency without a number has been visited: its link counts. -/
theorem Following.fresh (hdependency : ¬ search.Numbered dependency)
    (hvisited : Visited dependencies (node :: path) dependency search search') :
    Following dependencies path node before
      (search'.lower node (search'.lowLinks dependency)) (followed ++ [dependency]) := by
  have hsound := hfollowing.sound
  have hmem : node ∈ search.stack := hsound.path_mem node mem_cons_self
  have hlink := hvisited.links node (hsound.numbered hmem)
  have hself : (search'.lower node (search'.lowLinks dependency)).lowLinks node =
      min (search.lowLinks node) (search'.lowLinks dependency) := by
    simp [Search.lower, hlink]
  obtain ⟨fresh, hfresh, htarget, hcrossing⟩ := hvisited.stack
  obtain ⟨new, hstack, hnew, hold⟩ := hfollowing.stack
  have hin : ∀ target ∈ before.stack, target ∈ search.stack := fun target hmem => by
    rw [hstack]
    exact mem_append_right _ (mem_cons_of_mem _ hmem)
  have hnumber : ∀ target ∈ before.stack, search.number target = before.number target :=
    fun target hmem => hfollowing.kept.number (hbefore.numbered hmem)
  constructor
  · exact hvisited.sound.lower _ _
  · have hkept := hfollowing.kept.trans hvisited.kept
    exact ⟨hkept.indexes, hkept.next_le⟩
  · exact (hvisited.kept.indexes node (hsound.numbered hmem)).trans hfollowing.index
  · intro other hother
    have hne : other ≠ node := fun heq => hnode (heq ▸ hother)
    rw [← hfollowing.links other hother, ← hvisited.links other (hfollowing.kept.numbered hother)]
    simp [Search.lower, hne]
  · rw [hself]
    exact (min_le_left _ _).trans hfollowing.link_le
  · intro other hother
    rcases mem_append.mp hother with hother | hother
    · exact hvisited.kept.numbered (hfollowing.reached other hother)
    · exact mem_singleton.mp hother ▸ hvisited.numbered
  · rw [hself]
    have hsubset : ∀ target ∈ search.stack, target ∈ search'.stack := fun target hmem => by
      rw [hfresh]
      exact mem_append_right _ hmem
    have hkept : ∀ target ∈ search.stack, search'.number target = search.number target :=
      fun target hmem => hvisited.kept.number (hsound.numbered hmem)
    obtain ⟨target, hmemTarget, hnumberTarget, hreaches⟩ := hfollowing.witness
    rcases le_total (search.lowLinks node) (search'.lowLinks dependency) with hle | hle
    · rw [min_eq_left hle]
      exact ⟨target, hsubset target hmemTarget, (hkept target hmemTarget).trans hnumberTarget,
        hreaches⟩
    · rw [min_eq_right hle]
      rcases htarget with hlarge | ⟨other, hother, hnumberOther, hlast⟩
      · -- The dependency has closed a component of its own.
        have hless := hsound.numbered_lt node (hsound.numbered hmem)
        rw [hfollowing.number] at hless
        have hlinkLe := hfollowing.link_le
        omega
      · exact ⟨other, hsubset other hother, (hkept other hother).trans hnumberOther,
          .head hedge hlast⟩
  · refine ⟨fresh ++ new, ?_, fun source hsource target htarget hstep => ?_,
      fun target htarget hmem => ?_⟩
    · change search'.stack = _
      rw [hfresh, hstack, append_assoc]
    · rw [hself]
      rcases mem_append.mp hsource with hsource | hsource
      · rw [← hnumber target htarget]
        exact (min_le_right _ _).trans (hcrossing source hsource target (hin target htarget) hstep)
      · exact (min_le_left _ _).trans (hnew source hsource target htarget hstep)
    · rw [hself]
      rcases mem_append.mp htarget with htarget | htarget
      · exact (min_le_left _ _).trans (hold target htarget hmem)
      · cases mem_singleton.mp htarget
        exact absurd (hsound.numbered (hin _ hmem)) hdependency

end

/-- The nodes that a node's frame has on the stack above the old ones. -/
theorem Following.number_new {new : List Node} (hstack : search.stack = new ++ node :: before.stack)
    {member : Node} (hmember : member ∈ new ++ [node]) :
    before.nextIndex ≤ search.number member := by
  have hdescending := hfollowing.sound.descending
  rw [hstack] at hdescending
  rcases mem_append.mp hmember with hmember | hmember
  · have hless := (pairwise_append.mp hdescending).2.2 member hmember node mem_cons_self
    rw [hfollowing.number] at hless
    exact hless.le
  · rw [mem_singleton.mp hmember, hfollowing.number]

/-- All that has been put on the stack reaches the node and is reached by it. -/
theorem Following.mutual (hpath : ∀ member ∈ path, Reaches dependencies member node)
    {new : List Node} (hstack : search.stack = new ++ node :: before.stack) {member : Node}
    (hmember : member ∈ new ++ [node]) : Mutual dependencies node member := by
  have hsound := hfollowing.sound
  have hmem : member ∈ search.stack := by
    rw [hstack]
    rcases mem_append.mp hmember with hmember | hmember
    · exact mem_append_left _ hmember
    · exact mem_append_right _ (mem_singleton.mp hmember ▸ mem_cons_self)
  have hnode := hsound.path_mem node mem_cons_self
  constructor
  · apply hsound.upward node hnode member hmem
    rw [hfollowing.number]
    exact hfollowing.number_new hstack hmember
  · obtain ⟨root, hroot, _, hreaches⟩ := hsound.rooted member hmem
    rcases mem_cons.mp hroot with rfl | hroot
    · exact hreaches
    · exact hreaches.trans (hpath root hroot)

end

/-- When the link of a node is its own number, nothing outside what it has put
on the stack reaches it and is reached by it. -/
theorem Following.complete
    (hfollowing : Following dependencies path node before search (dependencies node))
    (hbefore : Sound dependencies path before)
    (hlink : search.lowLinks node = before.nextIndex) {new : List Node}
    (hstack : search.stack = new ++ node :: before.stack)
    (hcrossing : (∀ source ∈ new, ∀ target ∈ before.stack, target ∈ dependencies source →
      search.lowLinks node ≤ before.number target) ∧
      ∀ target ∈ dependencies node, target ∈ before.stack →
        search.lowLinks node ≤ before.number target)
    {last : Node} (hlast : Mutual dependencies node last) : last ∈ new ++ [node] := by
  have hsound := hfollowing.sound
  by_contra houtside
  obtain ⟨source, target, hsource, htarget, hfirst, hedge, hrest⟩ :=
    hlast.1.exists_leaving (· ∈ new ++ [node]) (mem_append_right _ mem_cons_self) houtside
  have hmutual : Mutual dependencies target node := ⟨hrest.trans hlast.2, hfirst.tail hedge⟩
  have hdistinct := hsound.distinct
  rw [hstack] at hdistinct
  have hsourceStack : source ∈ search.stack := by
    rw [hstack]
    rcases mem_append.mp hsource with hsource | hsource
    · exact mem_append_left _ hsource
    · exact mem_append_right _ (mem_singleton.mp hsource ▸ mem_cons_self)
  -- The nodes of the path are below, so the source has been explored.
  have hsourceOld : source ∉ before.stack := by
    intro hold
    have hlarge := hfollowing.number_new hstack hsource
    have hless := hbefore.numbered_lt source (hbefore.numbered hold)
    rw [← hfollowing.kept.number (hbefore.numbered hold)] at hless
    omega
  have hnumbered : search.Numbered target := by
    by_cases hnode : source = node
    · exact hfollowing.reached target (hnode ▸ hedge)
    · apply hsound.explored source (hsound.numbered hsourceStack) _ target hedge
      intro hmem
      rcases mem_cons.mp hmem with heq | hmem
      · exact hnode heq
      · exact hsourceOld (hbefore.path_mem source hmem)
  rcases (hsound.placed target).mp hnumbered with hmem | ⟨component, hcomponent, hmem⟩
  · have hold : target ∈ before.stack := by
      rw [hstack] at hmem
      rcases mem_append.mp hmem with hmem | hmem
      · exact absurd (mem_append_left _ hmem) htarget
      · rcases mem_cons.mp hmem with heq | hmem
        · exact absurd (mem_append_right _ (mem_singleton.mpr heq)) htarget
        · exact hmem
    have hless := hbefore.numbered_lt target (hbefore.numbered hold)
    have hle : search.lowLinks node ≤ before.number target := by
      rcases mem_append.mp hsource with hsource | hsource
      · exact hcrossing.1 source hsource target hold hedge
      · exact hcrossing.2 target (mem_singleton.mp hsource ▸ hedge) hold
    omega
  · -- A closed component with the target has the node as well.
    have hnode : node ∈ component := ((hsound.strong component hcomponent).2 target hmem node).mpr
      hmutual
    have hflatten : node ∈ search.components.flatten :=
      mem_flatten.mpr ⟨component, hcomponent, hnode⟩
    exact (nodup_append.mp hdistinct).2.2 node (mem_append_right _ mem_cons_self) node hflatten rfl

variable (hfollowing : Following dependencies path node before search (dependencies node))
  (hbefore : Sound dependencies path before)
include hfollowing hbefore

/-- A closed component leaves the stack as it was before the node was entered. -/
theorem Following.close (hpath : ∀ member ∈ path, Reaches dependencies member node)
    (hlink : search.lowLinks node = before.nextIndex) :
    Visited dependencies path node before (search.leave node) := by
  have hsound := hfollowing.sound
  obtain ⟨new, hstack, hcrossing⟩ := hfollowing.stack
  have hdistinct := hsound.distinct
  rw [hstack] at hdistinct
  have hfresh : node ∉ new := by
    intro hmem
    rw [append_assoc] at hdistinct
    exact (nodup_append.mp hdistinct).2.2 node hmem node mem_cons_self rfl
  have hpop : popThrough node search.stack = (new ++ [node], before.stack) := by
    rw [hstack]
    exact popThrough_append hfresh
  have hindex : search.indexes node = some (search.lowLinks node) := by
    rw [hfollowing.index, hlink]
  have hleave : search.leave node =
      { search with
        stack := before.stack
        components := search.components ++ [(new ++ [node]).insertionSort (· ≤ ·)] } := by
    rw [Search.leave, if_pos hindex, hpop]
  have hnumber : ∀ member ∈ before.stack, search.number member = before.number member :=
    fun member hmem => hfollowing.kept.number (hbefore.numbered hmem)
  rw [hleave]
  constructor
  · constructor
    · exact hsound.numbered_lt
    · apply hbefore.descending.imp_of_mem
      intro above below habove hbelow hless
      exact (hnumber below hbelow).symm ▸ (hnumber above habove).symm ▸ hless
    · intro other
      have hplaced := hsound.placed other
      rw [hstack] at hplaced
      simp only [mem_append, mem_cons, not_mem_nil, or_false] at hplaced ⊢
      apply hplaced.trans
      constructor
      · rintro ((hmem | rfl | hmem) | ⟨component, hcomponent, hmem⟩)
        · exact .inr ⟨_, .inr rfl, by simp [hmem]⟩
        · exact .inr ⟨_, .inr rfl, by simp⟩
        · exact .inl hmem
        · exact .inr ⟨component, .inl hcomponent, hmem⟩
      · rintro (hmem | ⟨component, hcomponent | rfl, hmem⟩)
        · exact .inl (.inr (.inr hmem))
        · exact .inr ⟨component, hcomponent, hmem⟩
        · rw [mem_insertionSort, mem_append, mem_singleton] at hmem
          exact .inl (hmem.imp_right .inl)
    · rw [flatten_append, flatten_singleton]
      have hperm : ((new ++ node :: before.stack) ++ search.components.flatten).Perm
          (before.stack ++ (search.components.flatten ++
            (new ++ [node]).insertionSort (· ≤ ·))) := by
        calc
          (new ++ node :: before.stack) ++ search.components.flatten =
              (new ++ [node]) ++ (before.stack ++ search.components.flatten) := by simp
          _ |>.Perm ((before.stack ++ search.components.flatten) ++ (new ++ [node])) :=
            perm_append_comm
          _ |>.Perm ((before.stack ++ search.components.flatten) ++
              (new ++ [node]).insertionSort (· ≤ ·)) :=
            (perm_insertionSort (· ≤ ·) _).symm.append_left _
          _ = _ := append_assoc _ _ _
      exact hperm.nodup_iff.mp hdistinct
    · exact hbefore.path_mem
    · intro lower hlower upper hupper hle
      apply hbefore.upward lower hlower upper hupper
      rw [← hnumber lower hlower, ← hnumber upper hupper]
      exact hle
    · intro other hother
      obtain ⟨root, hroot, hle, hreaches⟩ := hbefore.rooted other hother
      refine ⟨root, hroot, ?_, hreaches⟩
      rw [← hnumber root (hbefore.path_mem root hroot), ← hnumber other hother] at hle
      exact hle
    · intro other hother hoff dependency hdependency
      by_cases heq : other = node
      · exact hfollowing.reached dependency (heq ▸ hdependency)
      · apply hsound.explored other hother _ dependency hdependency
        intro hmem
        exact (mem_cons.mp hmem).elim heq hoff
    · intro component hcomponent
      rcases mem_append.mp hcomponent with hcomponent | hcomponent
      · exact hsound.strong component hcomponent
      · cases mem_singleton.mp hcomponent
        constructor
        · intro hempty
          have hlength := congrArg List.length hempty
          simp at hlength
        · intro member hmember other
          rw [mem_insertionSort] at hmember ⊢
          have hmutual := hfollowing.mutual hpath hstack hmember
          constructor
          · intro hother
            exact hmutual.symm.trans (hfollowing.mutual hpath hstack hother)
          · intro hother
            exact hfollowing.complete hbefore hlink hstack hcrossing (hmutual.trans hother)
    · intro component hcomponent
      rcases mem_append.mp hcomponent with hcomponent | hcomponent
      · exact hsound.sorted component hcomponent
      · cases mem_singleton.mp hcomponent
        exact pairwise_insertionSort _ _
  · exact ⟨hfollowing.kept.indexes, hfollowing.kept.next_le⟩
  · exact hsound.numbered (hsound.path_mem node mem_cons_self)
  · exact hfollowing.links
  · exact ⟨[], rfl, .inl hlink.ge, nofun⟩

/-- A node that has reached below itself stays on the stack. -/
theorem Following.stay (hlink : search.lowLinks node ≠ before.nextIndex) :
    Visited dependencies path node before (search.leave node) := by
  have hsound := hfollowing.sound
  have hless : search.lowLinks node < before.nextIndex := lt_of_le_of_ne hfollowing.link_le hlink
  have hleave : search.leave node = search := by
    rw [Search.leave, if_neg]
    rw [hfollowing.index]
    exact fun heq => hlink (Option.some.inj heq).symm
  obtain ⟨new, hstack, hnew, hold⟩ := hfollowing.stack
  obtain ⟨target, htarget, hnumber, hreaches⟩ := hfollowing.witness
  have hbelow : target ∈ before.stack := by
    have hmem := htarget
    rw [hstack, append_cons] at hmem
    rcases mem_append.mp hmem with hmem | hmem
    · have hlarge := hfollowing.number_new hstack hmem
      omega
    · exact hmem
  rw [hleave]
  constructor
  · exact
      { hsound with
        path_mem := fun member hmember => hsound.path_mem member (mem_cons_of_mem _ hmember)
        rooted := fun other hother => by
          obtain ⟨root, hroot, hle, hlast⟩ := hsound.rooted other hother
          rcases mem_cons.mp hroot with rfl | hroot
          · -- The node itself reaches a node below, which a node of the path supports.
            obtain ⟨root, hroot, hleRoot, hlastRoot⟩ := hsound.rooted target htarget
            rw [hfollowing.number] at hle
            rcases mem_cons.mp hroot with rfl | hroot
            · rw [hfollowing.number] at hleRoot
              omega
            · exact ⟨root, hroot, by omega, hlast.trans (hreaches.trans hlastRoot)⟩
          · exact ⟨root, hroot, hle, hlast⟩
        explored := fun other hother hoff dependency hdependency => by
          by_cases heq : other = node
          · exact hfollowing.reached dependency (heq ▸ hdependency)
          · apply hsound.explored other hother _ dependency hdependency
            intro hmem
            exact (mem_cons.mp hmem).elim heq hoff }
  · exact hfollowing.kept
  · exact hsound.numbered (hsound.path_mem node mem_cons_self)
  · exact hfollowing.links
  · refine ⟨new ++ [node], by rw [hstack, append_cons], ?_, ?_⟩
    · rw [hfollowing.kept.number (hbefore.numbered hbelow)] at hnumber
      exact .inr ⟨target, hbelow, hnumber, hreaches⟩
    · intro source hsource other hother hedge
      rcases mem_append.mp hsource with hsource | hsource
      · exact hnew source hsource other hother hedge
      · exact hold other (mem_singleton.mp hsource ▸ hedge) hother

end Steps

variable {nodes : List Node} {fuel : ℕ}

/-- The nodes that have no number yet. -/
def Search.fresh (search : Search Node) (nodes : List Node) : List Node :=
  nodes.filter fun node => (search.indexes node).isNone

theorem Extends.fresh_length_le (hextends : Extends search search') (nodes : List Node) :
    (search'.fresh nodes).length ≤ (search.fresh nodes).length := by
  apply List.Sublist.length_le
  apply monotone_filter_right
  intro node hnode
  cases hindex : search.indexes node with
  | none => rfl
  | some index =>
    have hnumbered : search.Numbered node := by rw [Search.Numbered, hindex]; rfl
    rw [hextends.indexes node hnumbered, hindex] at hnode
    cases hnode

theorem enter_fresh_length_lt (hmem : node ∈ nodes) (hnode : ¬ search.Numbered node) :
    ((search.enter node).fresh nodes).length < (search.fresh nodes).length := by
  have hsplit : (search.enter node).fresh nodes =
      (search.fresh nodes).filter fun other => other ≠ node := by
    rw [Search.fresh, Search.fresh, filter_filter]
    apply filter_congr
    intro other _
    by_cases hother : other = node
    · simp [hother, Search.enter]
    · simp [hother, Search.enter]
  have hfresh : node ∈ search.fresh nodes := by
    rw [Search.fresh, mem_filter]
    refine ⟨hmem, ?_⟩
    rw [Option.isNone_iff_eq_none]
    exact Option.not_isSome_iff_eq_none.mp hnode
  rw [hsplit]
  exact length_filter_lt_length_iff_exists.mpr ⟨node, hfresh, by simp⟩

/-- The dependencies of a node, one after the other. -/
theorem Following.fold {before : Search Node} (hbefore : Sound dependencies path before)
    (hnode : ¬ before.Numbered node) (hpath : ∀ member ∈ path, Reaches dependencies member node)
    (hvisit : ∀ dependency ∈ dependencies node, ∀ search : Search Node,
      Sound dependencies (node :: path) search → ¬ search.Numbered dependency →
      (∀ member ∈ node :: path, Reaches dependencies member dependency) →
      Extends (before.enter node) search →
      Visited dependencies (node :: path) dependency search (visit dependencies fuel dependency search)) :
    ∀ rest followed search, followed ++ rest = dependencies node →
      Following dependencies path node before search followed →
      Extends (before.enter node) search →
      Following dependencies path node before
        (rest.foldl (Search.follow (visit dependencies fuel) node) search) (dependencies node) := by
  intro rest
  induction rest with
  | nil =>
    intro followed search hdependencies hfollowing _
    rw [List.append_nil] at hdependencies
    exact hdependencies ▸ hfollowing
  | cons dependency rest ih =>
    intro followed search hdependencies hfollowing hextends
    have hedge : dependency ∈ dependencies node := by
      rw [← hdependencies]
      exact mem_append_right _ mem_cons_self
    have hnext : followed ++ [dependency] ++ rest = dependencies node := by
      rw [← hdependencies, append_assoc]
      rfl
    rw [foldl_cons]
    cases hindex : search.indexes dependency with
    | none =>
      have hfresh : ¬ search.Numbered dependency := by
        rw [Search.Numbered, hindex]
        nofun
      have hreach : ∀ member ∈ node :: path, Reaches dependencies member dependency := by
        intro member hmember
        rcases mem_cons.mp hmember with rfl | hmember
        · exact .single hedge
        · exact (hpath member hmember).tail hedge
      have hvisited := hvisit dependency hedge search hfollowing.sound hfresh hreach hextends
      have hstep := hfollowing.fresh hbefore hnode hedge hfresh hvisited
      have hlater := hextends.trans hvisited.kept
      rw [Search.follow, hindex]
      exact ih _ _ hnext hstep ⟨hlater.indexes, hlater.next_le⟩
    | some index =>
      have hstep := hfollowing.known hbefore hnode hedge hindex
      rw [Search.follow, hindex]
      apply ih _ _ hnext hstep
      split
      · exact ⟨hextends.indexes, hextends.next_le⟩
      · exact hextends

/-- With enough fuel for the nodes that have no number, a visit does its work. -/
theorem visit_spec (hclosed : ∀ node ∈ nodes, ∀ dependency ∈ dependencies node, dependency ∈ nodes) :
    ∀ fuel path node search, Sound dependencies path search → node ∈ nodes →
      ¬ search.Numbered node → (∀ member ∈ path, Reaches dependencies member node) →
      (search.fresh nodes).length ≤ fuel →
      Visited dependencies path node search (visit dependencies fuel node search) := by
  intro fuel
  induction fuel with
  | zero =>
    intro path node search hsound hmem hnode hpath hfuel
    have hless := enter_fresh_length_lt hmem hnode
    omega
  | succ fuel ih =>
    intro path node search hsound hmem hnode hpath hfuel
    have hless := enter_fresh_length_lt hmem hnode
    have hfollowing := Following.fold hsound hnode hpath
      (fun dependency hedge later hlater hfresh hreach hextends =>
        ih (node :: path) dependency later hlater (hclosed node hmem dependency hedge) hfresh
          hreach (by have hle := hextends.fresh_length_le nodes; omega))
      (dependencies node) [] (search.enter node) rfl (enter_following hsound hnode hpath)
      (Extends.refl _)
    by_cases hlink : ((dependencies node).foldl
        (Search.follow (visit dependencies fuel) node) (search.enter node)).lowLinks node =
          search.nextIndex
    · exact hfollowing.close hsound hpath hlink
    · exact hfollowing.stay hsound hlink

/-- Only nodes of a closed set get a number. -/
def Search.Within (search : Search Node) (nodes : List Node) : Prop :=
  ∀ node, search.Numbered node → node ∈ nodes

theorem leave_numbered (other : Node) :
    (search.leave node).Numbered other ↔ search.Numbered other := by
  unfold Search.leave
  split <;> rfl

section

variable (hclosed : ∀ node ∈ nodes, ∀ dependency ∈ dependencies node, dependency ∈ nodes)
include hclosed

theorem visit_within :
    ∀ fuel node search, node ∈ nodes → search.Within nodes →
      (visit dependencies fuel node search).Within nodes := by
  intro fuel
  induction fuel with
  | zero => exact fun _ _ _ hwithin => hwithin
  | succ fuel ih =>
    intro node search hnode hwithin
    have hfold : ∀ (rest : List Node) (search : Search Node),
        (∀ dependency ∈ rest, dependency ∈ nodes) → search.Within nodes →
        (rest.foldl (Search.follow (visit dependencies fuel) node) search).Within nodes := by
      intro rest
      induction rest with
      | nil => exact fun _ _ hwithin => hwithin
      | cons dependency rest ihRest =>
        intro search hrest hwithin
        apply ihRest _ fun other hother => hrest other (mem_cons_of_mem _ hother)
        unfold Search.follow
        split
        · exact ih dependency search (hrest dependency mem_cons_self) hwithin
        · split
          · exact hwithin
          · exact hwithin
    intro other hother
    rw [visit, leave_numbered] at hother
    apply hfold (dependencies node) (search.enter node) (hclosed node hnode) _ other hother
    intro entered hentered
    rcases enter_numbered.mp hentered with rfl | hold
    · exact hnode
    · exact hwithin entered hold

/-- The search from all nodes leaves none without a number. -/
theorem searchAll_spec :
    ∀ rest search, (∀ node ∈ rest, node ∈ nodes) → Sound dependencies [] search →
      search.Within nodes →
      Sound dependencies [] (searchAll dependencies nodes.length rest search) ∧
        Extends search (searchAll dependencies nodes.length rest search) ∧
        (searchAll dependencies nodes.length rest search).Within nodes ∧
        ∀ node ∈ rest, (searchAll dependencies nodes.length rest search).Numbered node := by
  intro rest
  induction rest with
  | nil =>
    intro search _ hsound hwithin
    exact ⟨hsound, Extends.refl search, hwithin, nofun⟩
  | cons node rest ih =>
    intro search hrest hsound hwithin
    have hlater : ∀ other ∈ rest, other ∈ nodes := fun other hother =>
      hrest other (mem_cons_of_mem _ hother)
    have hmem := hrest node mem_cons_self
    have hnext : ∃ next, Sound dependencies [] next ∧ Extends search next ∧
        next.Within nodes ∧ next.Numbered node ∧
        searchAll dependencies nodes.length (node :: rest) search =
          searchAll dependencies nodes.length rest next := by
      by_cases hnode : search.Numbered node
      · have hsome : (search.indexes node).isNone = false := by
          rw [Option.isNone_eq_false_iff]
          exact hnode
        refine ⟨search, hsound, Extends.refl search, hwithin, hnode, ?_⟩
        rw [searchAll, foldl_cons, hsome]
        rfl
      · have hnone : (search.indexes node).isNone = true := by
          rw [Option.isNone_iff_eq_none]
          exact Option.not_isSome_iff_eq_none.mp hnode
        have hvisited := visit_spec hclosed nodes.length [] node search hsound hmem hnode nofun
          (length_filter_le _ _)
        refine ⟨_, hvisited.sound, hvisited.kept,
          visit_within hclosed nodes.length node search hmem hwithin, hvisited.numbered, ?_⟩
        rw [searchAll, foldl_cons, hnone]
        rfl
    obtain ⟨next, hsoundNext, hextends, hwithinNext, hnumbered, heq⟩ := hnext
    obtain ⟨hsoundLast, hextendsLast, hwithinLast, hall⟩ := ih next hlater hsoundNext hwithinNext
    rw [heq]
    refine ⟨hsoundLast, hextends.trans hextendsLast, hwithinLast, fun other hother => ?_⟩
    rcases mem_cons.mp hother with rfl | hother
    · exact hextendsLast.numbered hnumbered
    · exact hall other hother

end

/-- A list of lists holds the classes of mutual reachability of the nodes. -/
structure Components (dependencies : Node → List Node) (nodes : List Node)
    (components : List (List Node)) : Prop where
  distinct : components.flatten.Nodup
  mem_iff : ∀ node, node ∈ components.flatten ↔ node ∈ nodes
  nonempty : ∀ component ∈ components, component ≠ []
  sorted : ∀ component ∈ components, component.Pairwise (· ≤ ·)
  strong : ∀ component ∈ components, ∀ member ∈ component, ∀ node,
    node ∈ component ↔ Mutual dependencies member node

theorem stronglyConnectedComponents_spec
    (hclosed : ∀ node ∈ nodes, ∀ dependency ∈ dependencies node, dependency ∈ nodes) :
    Components dependencies nodes (stronglyConnectedComponents dependencies nodes) := by
  obtain ⟨hsound, _, hwithin, hall⟩ := searchAll_spec hclosed nodes emptySearch
    (fun _ hnode => hnode) Sound.empty nofun
  -- Without a path there is nothing left on the stack.
  have hstack : (searchAll dependencies nodes.length nodes emptySearch).stack = [] := by
    apply eq_nil_iff_forall_not_mem.mpr
    intro node hnode
    obtain ⟨root, hroot, _⟩ := hsound.rooted node hnode
    cases hroot
  have hplaced : ∀ node, (searchAll dependencies nodes.length nodes emptySearch).Numbered node ↔
      node ∈ (stronglyConnectedComponents dependencies nodes).flatten := by
    intro node
    have hplaced := hsound.placed node
    rw [hstack] at hplaced
    rw [hplaced, mem_flatten]
    simp [stronglyConnectedComponents]
  exact
    { distinct := by
        have hdistinct := hsound.distinct
        rw [hstack] at hdistinct
        exact hdistinct
      mem_iff := fun node =>
        ⟨fun hmem => hwithin node ((hplaced node).mpr hmem),
          fun hmem => (hplaced node).mp (hall node hmem)⟩
      nonempty := fun component hcomponent => (hsound.strong component hcomponent).1
      sorted := hsound.sorted
      strong := fun component hcomponent => (hsound.strong component hcomponent).2 }

end ConvexWasm.StrongComponents
