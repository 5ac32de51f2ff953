import ConvexWasm.Core.StrongComponents

/-!
# Renamed graphs

A graph whose nodes get other names has the same paths, and its classes of
mutual reachability are the renamed ones.
-/

namespace ConvexWasm.StrongComponents

open List Relation

variable {Node Node' : Type*}

/-- The second graph is the first with other names for its nodes. -/
structure Renaming (rename : Node → Node') (nodes : List Node) (dependencies : Node → List Node)
    (dependencies' : Node' → List Node') : Prop where
  closed : ∀ node ∈ nodes, ∀ dependency ∈ dependencies node, dependency ∈ nodes
  injective : ∀ first ∈ nodes, ∀ second ∈ nodes, rename first = rename second → first = second
  mem_dependencies : ∀ node ∈ nodes, ∀ dependency,
    dependency ∈ dependencies' (rename node) ↔ dependency ∈ (dependencies node).map rename

variable {rename : Node → Node'} {nodes : List Node} {dependencies : Node → List Node}
  {dependencies' : Node' → List Node'} {first second : Node} {last : Node'}

section

variable (hrenaming : Renaming rename nodes dependencies dependencies') (hfirst : first ∈ nodes)
include hrenaming hfirst

theorem Renaming.reaches_mem (hreaches : Reaches dependencies first second) : second ∈ nodes := by
  induction hreaches with
  | refl => exact hfirst
  | tail _ hedge ih => exact hrenaming.closed _ ih _ hedge

theorem Renaming.reaches (hreaches : Reaches dependencies first second) :
    Reaches dependencies' (rename first) (rename second) := by
  induction hreaches with
  | refl => exact .refl
  | tail hpath hedge ih =>
    apply ReflTransGen.tail ih
    rw [hrenaming.mem_dependencies _ (hrenaming.reaches_mem hfirst hpath)]
    exact mem_map_of_mem hedge

/-- Each path in the renamed graph is a renamed path. -/
theorem Renaming.exists_reaches (hreaches : Reaches dependencies' (rename first) last) :
    ∃ second ∈ nodes, rename second = last ∧ Reaches dependencies first second := by
  induction hreaches with
  | refl => exact ⟨first, hfirst, rfl, .refl⟩
  | tail _ hedge ih =>
    obtain ⟨middle, hmiddle, rfl, hpath⟩ := ih
    rw [hrenaming.mem_dependencies middle hmiddle] at hedge
    obtain ⟨next, hnext, rfl⟩ := mem_map.mp hedge
    exact ⟨next, hrenaming.closed middle hmiddle next hnext, rfl, hpath.tail hnext⟩

theorem Renaming.reaches_iff (hsecond : second ∈ nodes) :
    Reaches dependencies' (rename first) (rename second) ↔ Reaches dependencies first second := by
  constructor
  · intro hreaches
    obtain ⟨found, hfound, heq, hpath⟩ := hrenaming.exists_reaches hfirst hreaches
    rwa [hrenaming.injective found hfound second hsecond heq] at hpath
  · exact hrenaming.reaches hfirst

theorem Renaming.mutual_iff (hsecond : second ∈ nodes) :
    Mutual dependencies' (rename first) (rename second) ↔ Mutual dependencies first second :=
  and_congr (hrenaming.reaches_iff hfirst hsecond) (hrenaming.reaches_iff hsecond hfirst)

end

section Classes

variable [LinearOrder Node] [LinearOrder Node'] {nodes' : List Node'}
  {components : List (List Node)} {components' : List (List Node')} {component : List Node}
  {component' : List Node'}

theorem Components.member_mem (hcomponents : Components dependencies nodes components)
    (hcomponent : component ∈ components) {member : Node} (hmember : member ∈ component) :
    member ∈ nodes :=
  (hcomponents.mem_iff member).mp (mem_flatten.mpr ⟨component, hcomponent, hmember⟩)

variable (hrenaming : Renaming rename nodes dependencies dependencies')
include hrenaming

/-- Two classes with a common member, up to its name, are one. -/
theorem Renaming.perm_of_member (hcomponents : Components dependencies nodes components)
    (hcomponents' : Components dependencies' nodes' components')
    (hcomponent : component ∈ components) (hcomponent' : component' ∈ components')
    (hmember : first ∈ component) (hmember' : rename first ∈ component') :
    component'.Perm (component.map rename) := by
  have hnodes : ∀ member ∈ component, member ∈ nodes := fun member =>
    hcomponents.member_mem hcomponent
  have hfirst := hnodes first hmember
  have hdistinct : (component.map rename).Nodup := by
    apply ((nodup_flatten.mp hcomponents.distinct).1 component hcomponent).map_on
    exact fun left hleft right hright =>
      hrenaming.injective left (hnodes left hleft) right (hnodes right hright)
  have hdistinct' := (nodup_flatten.mp hcomponents'.distinct).1 component' hcomponent'
  apply (perm_ext_iff_of_nodup hdistinct' hdistinct).mpr
  intro node
  rw [hcomponents'.strong component' hcomponent' (rename first) hmember' node, mem_map]
  constructor
  · intro hmutual
    obtain ⟨second, hsecond, rfl, _⟩ := hrenaming.exists_reaches hfirst hmutual.1
    rw [hrenaming.mutual_iff hfirst hsecond] at hmutual
    exact ⟨second, (hcomponents.strong component hcomponent first hmember second).mpr hmutual, rfl⟩
  · rintro ⟨second, hsecond, rfl⟩
    rw [hrenaming.mutual_iff hfirst (hnodes second hsecond)]
    exact (hcomponents.strong component hcomponent first hmember second).mp hsecond

section

variable (hnodes : ∀ node, node ∈ nodes' ↔ node ∈ nodes.map rename)
  (hcomponents : Components dependencies nodes components)
  (hcomponents' : Components dependencies' nodes' components')
include hnodes hcomponents hcomponents'

theorem Renaming.exists_renamed (hcomponent : component ∈ components) :
    ∃ component' ∈ components', component'.Perm (component.map rename) := by
  obtain ⟨member, hmember⟩ :=
    exists_mem_of_ne_nil _ (hcomponents.nonempty component hcomponent)
  have hrenamed := (hnodes (rename member)).mpr
    (mem_map_of_mem (hcomponents.member_mem hcomponent hmember))
  obtain ⟨component', hcomponent', hmember'⟩ :=
    mem_flatten.mp ((hcomponents'.mem_iff (rename member)).mpr hrenamed)
  exact ⟨component', hcomponent', hrenaming.perm_of_member hcomponents hcomponents' hcomponent
    hcomponent' hmember hmember'⟩

theorem Renaming.exists_original (hcomponent' : component' ∈ components') :
    ∃ component ∈ components, component'.Perm (component.map rename) := by
  obtain ⟨member', hmember'⟩ :=
    exists_mem_of_ne_nil _ (hcomponents'.nonempty component' hcomponent')
  obtain ⟨member, hmember, rfl⟩ := mem_map.mp
    ((hnodes member').mp (hcomponents'.member_mem hcomponent' hmember'))
  obtain ⟨component, hcomponent, hinside⟩ :=
    mem_flatten.mp ((hcomponents.mem_iff member).mpr hmember)
  exact ⟨component, hcomponent, hrenaming.perm_of_member hcomponents hcomponents' hcomponent
    hcomponent' hinside hmember'⟩

end

end Classes

end ConvexWasm.StrongComponents
