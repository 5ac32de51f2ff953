import ConvexWasm.Core.TopologicalOrder

/-!
# Contraction of two vertices

Two vertices of an acyclic graph become one.  An edge between them disappears;
a cycle is closed exactly when a path leads from one to the other through a third
vertex.  A search with a stack of pending vertices finds such paths.
-/

namespace ConvexWasm.Contraction

open List Relation TopologicalOrder

variable {Vertex : Type*} [DecidableEq Vertex]

section Contracting

/-- The second vertex is taken for the first. -/
def collapse (kept removed vertex : Vertex) : Vertex := if vertex = removed then kept else vertex

/-- The edges after the contraction; those inside the new vertex are dropped. -/
def Contracted (edge : Vertex → Vertex → Prop) (kept removed source target : Vertex) : Prop :=
  source ≠ target ∧ ∃ source' target', edge source' target' ∧
    collapse kept removed source' = source ∧ collapse kept removed target' = target

/-- A path through a third vertex. -/
def IndirectPath (edge : Vertex → Vertex → Prop) (source target : Vertex) : Prop :=
  ∃ middle, edge source middle ∧ middle ≠ target ∧ ReflTransGen edge middle target

variable {edge : Vertex → Vertex → Prop} {kept removed source target first second : Vertex}

@[simp]
theorem collapse_kept : collapse kept removed kept = kept := by
  unfold collapse
  split <;> rfl

@[simp]
theorem collapse_removed : collapse kept removed removed = kept := if_pos rfl

/-- Different vertices with one image are the two that are contracted. -/
theorem mem_pair_of_collapse_eq (heq : collapse kept removed first = collapse kept removed second)
    (hne : first ≠ second) :
    (first = kept ∨ first = removed) ∧ (second = kept ∨ second = removed) := by
  unfold collapse at heq
  split at heq
  · rename_i hfirst
    split at heq
    · rename_i hsecond
      exact absurd (hfirst.trans hsecond.symm) hne
    · exact ⟨.inr hfirst, .inl heq.symm⟩
  · split at heq
    · rename_i hsecond
      exact ⟨.inl heq, .inr hsecond⟩
    · exact absurd heq hne

theorem collapse_eq_iff (hdistinct : kept ≠ removed) :
    collapse kept removed first = second ↔
      second ≠ removed ∧ (first = second ∨ second = kept ∧ first = removed) := by
  unfold collapse
  split
  · rename_i hfirst
    subst hfirst
    constructor
    · rintro rfl
      exact ⟨hdistinct, .inr ⟨rfl, rfl⟩⟩
    · rintro ⟨hsecond, heq | ⟨heq, _⟩⟩
      · exact absurd heq.symm hsecond
      · exact heq.symm
  · rename_i hfirst
    constructor
    · rintro rfl
      exact ⟨hfirst, .inl rfl⟩
    · rintro ⟨_, heq | ⟨_, heq⟩⟩
      · exact heq
      · exact absurd heq hfirst

theorem map_collapse_eq_some {label : Option Vertex} (hdistinct : kept ≠ removed) :
    label.map (collapse kept removed) = some second ↔
      second ≠ removed ∧ (label = some second ∨ second = kept ∧ label = some removed) := by
  cases label with
  | none => simp
  | some vertex => simp [collapse_eq_iff hdistinct]

/-- The edges after the contraction: those of the others, and of the two. -/
theorem contracted_iff (hdistinct : kept ≠ removed) :
    Contracted edge kept removed source target ↔
      source ≠ target ∧ source ≠ removed ∧ target ≠ removed ∧
        (edge source target ∨ source = kept ∧ edge removed target ∨
          target = kept ∧ edge source removed) := by
  simp only [Contracted, collapse_eq_iff hdistinct]
  apply and_congr_right
  intro hne
  constructor
  · rintro ⟨source', target', hedge, ⟨hsource, hsource'⟩, htarget, htarget'⟩
    refine ⟨hsource, htarget, ?_⟩
    rcases hsource' with rfl | ⟨hkept, rfl⟩
    · rcases htarget' with rfl | ⟨htargetKept, rfl⟩
      · exact .inl hedge
      · exact .inr (.inr ⟨htargetKept, hedge⟩)
    · rcases htarget' with rfl | ⟨htargetKept, rfl⟩
      · exact .inr (.inl ⟨hkept, hedge⟩)
      · exact absurd (hkept.trans htargetKept.symm) hne
  · rintro ⟨hsource, htarget, hedge | ⟨hkept, hedge⟩ | ⟨hkept, hedge⟩⟩
    · exact ⟨source, target, hedge, ⟨hsource, .inl rfl⟩, htarget, .inl rfl⟩
    · exact ⟨removed, target, hedge, ⟨hsource, .inr ⟨hkept, rfl⟩⟩, htarget, .inl rfl⟩
    · exact ⟨source, removed, hedge, ⟨hsource, .inl rfl⟩, htarget, .inr ⟨hkept, rfl⟩⟩

/-- The edges between the classes of a labelling; what has no label is left out. -/
def Labelled {Label : Type*} (edge : Vertex → Vertex → Prop) (label : Vertex → Option Label)
    (source target : Label) : Prop :=
  source ≠ target ∧ ∃ first second, edge first second ∧ label first = some source ∧
    label second = some target

/-- To contract two classes is to give them one label. -/
theorem labelled_collapse {Label : Type*} [DecidableEq Label] {label : Vertex → Option Label}
    {kept removed source target : Label} :
    Labelled edge (fun vertex => (label vertex).map (collapse kept removed)) source target ↔
      Contracted (Labelled edge label) kept removed source target := by
  simp only [Labelled, Contracted, Option.map_eq_some_iff]
  apply and_congr_right
  intro hne
  constructor
  · rintro ⟨first, second, hedge, ⟨source', hsource, rfl⟩, target', htarget, rfl⟩
    have hne' : source' ≠ target' := fun heq => hne (congrArg _ heq)
    exact ⟨source', target', ⟨hne', first, second, hedge, hsource, htarget⟩, rfl, rfl⟩
  · rintro ⟨source', target', ⟨_, first, second, hedge, hsource, htarget⟩, rfl, rfl⟩
    exact ⟨first, second, hedge, ⟨source', hsource, rfl⟩, target', htarget, rfl⟩

/-- Two labellings of the vertices have the same classes. -/
structure SameClasses {Label Label' : Type*} (label : Vertex → Option Label)
    (label' : Vertex → Option Label') : Prop where
  labelled : ∀ vertex, (∃ name, label vertex = some name) ↔ ∃ name, label' vertex = some name
  same : ∀ first second name, label first = some name →
    (label second = some name ↔ label' first = label' second)

variable {Label Label' : Type*} {label' : Vertex → Option Label'}

variable {label : Vertex → Option Label}

section

variable (hsame : SameClasses label label')
include hsame

theorem SameClasses.symm : SameClasses label' label where
  labelled vertex := (hsame.labelled vertex).symm
  same first second name' hfirst := by
    obtain ⟨name, hname⟩ := (hsame.labelled first).mpr ⟨name', hfirst⟩
    rw [hname, eq_comm (a := some name), hsame.same first second name hname, hfirst,
      eq_comm (a := some name')]

theorem SameClasses.labelled_path
    {source target : Label} (hpath : TransGen (Labelled edge label) source target) :
    ∃ first second source' target', label first = some source ∧ label second = some target ∧
      label' first = some source' ∧ label' second = some target' ∧
      TransGen (Labelled edge label') source' target' := by
  have hstep : ∀ {first second : Vertex} {source target : Label}, edge first second →
      label first = some source → label second = some target → source ≠ target →
      ∃ source' target', label' first = some source' ∧ label' second = some target' ∧
        Labelled edge label' source' target' := by
    intro first second source target hedge hsource htarget hne
    obtain ⟨source', hsource'⟩ := (hsame.labelled first).mp ⟨source, hsource⟩
    obtain ⟨target', htarget'⟩ := (hsame.labelled second).mp ⟨target, htarget⟩
    refine ⟨source', target', hsource', htarget', fun heq => hne ?_, first, second, hedge,
      hsource', htarget'⟩
    have hboth := (hsame.same first second source hsource).mpr
      (hsource'.trans (heq ▸ htarget'.symm))
    exact Option.some_injective _ (hboth.symm.trans htarget)
  induction hpath with
  | single hlast =>
    obtain ⟨hne, first, second, hedge, hsource, htarget⟩ := hlast
    obtain ⟨source', target', hsource', htarget', hlabelled⟩ := hstep hedge hsource htarget hne
    exact ⟨first, second, source', target', hsource, htarget, hsource', htarget', .single hlabelled⟩
  | tail _ hlast ih =>
    obtain ⟨first, middle, source', middle', hsource, hmiddle, hsource', hmiddle', hpath'⟩ := ih
    obtain ⟨hne, third, last, hedge, hthird, hlastLabel⟩ := hlast
    obtain ⟨third', last', hthird', hlast', hlabelled⟩ := hstep hedge hthird hlastLabel hne
    have hjoin : some middle' = some third' := by
      rw [← hmiddle', ← hthird']
      exact (hsame.same middle third _ hmiddle).mp hthird
    cases hjoin
    exact ⟨first, last, source', last', hsource, hlastLabel, hsource', hlast',
      hpath'.tail hlabelled⟩

theorem SameClasses.acyclic
    (hacyclic : Acyclic (Labelled edge label')) : Acyclic (Labelled edge label) := by
  intro vertex hcycle
  obtain ⟨first, second, source', target', hfirst, hsecond, hsource', htarget', hpath⟩ :=
    hsame.labelled_path hcycle
  have hjoin : some source' = some target' := by
    rw [← hsource', ← htarget']
    exact (hsame.same first second _ hfirst).mp hsecond
  cases hjoin
  exact hacyclic source' hpath

/-- The names of the classes make no difference. -/
theorem SameClasses.acyclic_iff :
    Acyclic (Labelled edge label) ↔ Acyclic (Labelled edge label') :=
  ⟨hsame.symm.acyclic, hsame.acyclic⟩

end

theorem collapse_eq_collapse_iff : collapse kept removed first = collapse kept removed second ↔
    first = second ∨ (first = kept ∨ first = removed) ∧ (second = kept ∨ second = removed) := by
  constructor
  · intro heq
    by_cases hsame : first = second
    · exact .inl hsame
    · exact .inr (mem_pair_of_collapse_eq heq hsame)
  · rintro (rfl | ⟨rfl | rfl, rfl | rfl⟩)
    all_goals simp

/-- The same classes stay the same when the same two of them are contracted. -/
theorem SameClasses.collapse [DecidableEq Label] [DecidableEq Label']
    {label : Vertex → Option Label} (hsame : SameClasses label label') {target source : Vertex}
    {kept removed : Label} {kept' removed' : Label'} (htarget : label target = some kept)
    (htarget' : label' target = some kept') (hsource : label source = some removed)
    (hsource' : label' source = some removed') :
    SameClasses (fun vertex => (label vertex).map (Contraction.collapse kept removed))
      (fun vertex => (label' vertex).map (Contraction.collapse kept' removed')) where
  labelled vertex := by
    have hlabelled := hsame.labelled vertex
    cases hlabel : label vertex with
    | none => simpa [hlabel] using hlabelled
    | some name => simpa [hlabel] using hlabelled
  same first second name hfirst := by
    obtain ⟨found, hfound, rfl⟩ := Option.map_eq_some_iff.mp hfirst
    obtain ⟨found', hfound'⟩ := (hsame.labelled first).mp ⟨found, hfound⟩
    cases hother : label second with
    | none =>
      have hnone : label' second = none := by
        rw [← Option.not_isSome_iff_eq_none, Option.isSome_iff_exists, ← hsame.labelled, hother]
        simp
      simp [hnone, hfound']
    | some other =>
      obtain ⟨other', hother'⟩ := (hsame.labelled second).mp ⟨other, hother⟩
      have heq : other = found ↔ found' = other' := by
        have hclass := hsame.same first second found hfound
        rwa [hother, hfound', hother', Option.some_inj, Option.some_inj] at hclass
      have hmoved : ∀ vertex before before', label vertex = some before →
          label' vertex = some before' →
          ((before = kept ↔ before' = kept') ∧ (before = removed ↔ before' = removed')) := by
        intro vertex before before' hbefore hbefore'
        have hclassKept := hsame.same target vertex kept htarget
        have hclassRemoved := hsame.same source vertex removed hsource
        rw [hbefore, htarget', hbefore', Option.some_inj, Option.some_inj] at hclassKept
        rw [hbefore, hsource', hbefore', Option.some_inj, Option.some_inj] at hclassRemoved
        exact ⟨hclassKept.trans eq_comm, hclassRemoved.trans eq_comm⟩
      obtain ⟨hfoundKept, hfoundRemoved⟩ := hmoved first found found' hfound hfound'
      obtain ⟨hotherKept, hotherRemoved⟩ := hmoved second other other' hother hother'
      simp only [hfound', hother', Option.map_some, Option.some_inj, collapse_eq_collapse_iff,
        heq, hfoundKept, hfoundRemoved, hotherKept, hotherRemoved]
      tauto

/-- The edges that survive: not between the two vertices. -/
def Surviving (edge : Vertex → Vertex → Prop) (kept removed source target : Vertex) : Prop :=
  edge source target ∧ collapse kept removed source ≠ collapse kept removed target

theorem surviving_le : Surviving edge kept removed ≤ edge := fun _ _ hsurviving => hsurviving.1

/-- A path of edges that survive from one of the two vertices to one of them. -/
def Closes (edge : Vertex → Vertex → Prop) (kept removed : Vertex) : Prop :=
  ∃ source target, (source = kept ∨ source = removed) ∧ (target = kept ∨ target = removed) ∧
    TransGen (Surviving edge kept removed) source target

/-- A path after the contraction comes from one path, or passes the new vertex. -/
theorem Contracted.lift (hpath : TransGen (Contracted edge kept removed) source target) :
    ∃ source' target', collapse kept removed source' = source ∧
      collapse kept removed target' = target ∧
      (TransGen (Surviving edge kept removed) source' target' ∨
        ∃ enter leave, (enter = kept ∨ enter = removed) ∧ (leave = kept ∨ leave = removed) ∧
          TransGen (Surviving edge kept removed) source' enter ∧
          TransGen (Surviving edge kept removed) leave target') := by
  induction hpath with
  | single hlast =>
    obtain ⟨hne, source', target', hedge, hsource, htarget⟩ := hlast
    have hsurviving : Surviving edge kept removed source' target' :=
      ⟨hedge, by rw [hsource, htarget]; exact hne⟩
    exact ⟨source', target', hsource, htarget, .inl (.single hsurviving)⟩
  | tail _ hlast ih =>
    obtain ⟨source', middle, hsource, hmiddle, hrest⟩ := ih
    obtain ⟨hne, middle', target', hedge, hmiddle', htarget⟩ := hlast
    have hsurviving : Surviving edge kept removed middle' target' :=
      ⟨hedge, by rw [hmiddle', htarget]; exact hne⟩
    refine ⟨source', target', hsource, htarget, ?_⟩
    by_cases heq : middle = middle'
    · subst heq
      rcases hrest with hpath | ⟨enter, leave, henter, hleave, hto, hfrom⟩
      · exact .inl (hpath.tail hsurviving)
      · exact .inr ⟨enter, leave, henter, hleave, hto, hfrom.tail hsurviving⟩
    · -- The path enters the new vertex at one of the two and leaves it at the other.
      have hpair := mem_pair_of_collapse_eq (hmiddle.trans hmiddle'.symm) heq
      rcases hrest with hpath | ⟨enter, leave, henter, hleave, hto, hfrom⟩
      · exact .inr ⟨middle, middle', hpair.1, hpair.2, hpath, .single hsurviving⟩
      · exact .inr ⟨enter, middle', henter, hpair.2, hto, .single hsurviving⟩

theorem acyclic_contracted_of_not_closes (hacyclic : Acyclic edge)
    (hcloses : ¬ Closes edge kept removed) : Acyclic (Contracted edge kept removed) := by
  intro vertex hcycle
  obtain ⟨source, target, hsource, htarget, hpath⟩ := Contracted.lift hcycle
  have hsame := hsource.trans htarget.symm
  by_cases heq : source = target
  · subst heq
    rcases hpath with hpath | ⟨enter, leave, henter, hleave, hto, hfrom⟩
    · exact hacyclic source (TransGen.mono surviving_le _ _ hpath)
    · exact hcloses ⟨leave, enter, hleave, henter, hfrom.trans hto⟩
  · have hpair := mem_pair_of_collapse_eq hsame heq
    rcases hpath with hpath | ⟨enter, leave, henter, _, hto, _⟩
    · exact hcloses ⟨source, target, hpair.1, hpair.2, hpath⟩
    · exact hcloses ⟨source, enter, hpair.1, henter, hto⟩

/-- A path maps to a path, where some edges may disappear. -/
theorem reflTransGen_collapse (hpath : ReflTransGen edge source target) :
    ReflTransGen (Contracted edge kept removed) (collapse kept removed source)
      (collapse kept removed target) := by
  induction hpath with
  | refl => exact .refl
  | @tail middle last _ hlast ih =>
    by_cases heq : collapse kept removed middle = collapse kept removed last
    · exact heq ▸ ih
    · exact ih.tail ⟨heq, middle, last, hlast, rfl, rfl⟩

theorem not_indirectPath_of_acyclic (hacyclic : Acyclic edge)
    (hcontracted : Acyclic (Contracted edge kept removed))
    (hsource : collapse kept removed source = kept)
    (htarget : ∀ vertex, collapse kept removed vertex = kept ↔ vertex = source ∨ vertex = target) :
    ¬ IndirectPath edge source target := by
  rintro ⟨middle, hfirst, hne, hrest⟩
  have hmiddle : middle ≠ source := by
    rintro rfl
    exact hacyclic middle (.single hfirst)
  have houtside : collapse kept removed middle ≠ kept := fun heq =>
    ((htarget middle).mp heq).elim hmiddle hne
  have hpath := @reflTransGen_collapse _ _ _ kept removed _ _ hrest
  rw [(htarget target).mpr (.inr rfl)] at hpath
  exact hcontracted kept (.head' ⟨Ne.symm houtside, source, middle, hfirst, hsource, rfl⟩ hpath)

theorem collapse_eq_kept (vertex : Vertex) :
    collapse kept removed vertex = kept ↔ vertex = kept ∨ vertex = removed := by
  unfold collapse
  by_cases hremoved : vertex = removed
  · simp [hremoved]
  · simp [hremoved]

theorem not_closes (hacyclic : Acyclic edge) (hforward : ¬ IndirectPath edge kept removed)
    (hbackward : ¬ IndirectPath edge removed kept) : ¬ Closes edge kept removed := by
  rintro ⟨source, target, hsource, htarget, hpath⟩
  by_cases heq : source = target
  · subst heq
    exact hacyclic source (TransGen.mono surviving_le _ _ hpath)
  · obtain ⟨middle, hfirst, hrest⟩ := TransGen.head'_iff.mp hpath
    have hmiddle : middle ≠ target := by
      rintro rfl
      apply hfirst.2
      rw [(collapse_eq_kept source).mpr hsource, (collapse_eq_kept middle).mpr htarget]
    have hindirect : IndirectPath edge source target :=
      ⟨middle, hfirst.1, hmiddle, ReflTransGen.mono surviving_le _ _ hrest⟩
    rcases hsource with rfl | rfl
    · rcases htarget with rfl | rfl
      · exact heq rfl
      · exact hforward hindirect
    · rcases htarget with rfl | rfl
      · exact hbackward hindirect
      · exact heq rfl

/-- Contracting two vertices of an acyclic graph closes a cycle exactly when an
indirect path connects them. -/
theorem acyclic_contracted_iff (hacyclic : Acyclic edge) :
    Acyclic (Contracted edge kept removed) ↔
      ¬ IndirectPath edge kept removed ∧ ¬ IndirectPath edge removed kept := by
  constructor
  · intro hcontracted
    constructor
    · exact not_indirectPath_of_acyclic hacyclic hcontracted collapse_kept collapse_eq_kept
    · apply not_indirectPath_of_acyclic hacyclic hcontracted collapse_removed
      intro vertex
      rw [collapse_eq_kept, or_comm]
  · rintro ⟨hforward, hbackward⟩
    exact acyclic_contracted_of_not_closes hacyclic (not_closes hacyclic hforward hbackward)

end Contracting

section Pending

/-- The search for a vertex from those that are pending.  A vertex is expanded
once; the latest pending vertex comes first. -/
def searchPending (adjacent : Vertex → List Vertex) (goal : Vertex) :
    ℕ → List Vertex → List Vertex → Bool
  | 0, _, _ => false
  | _ + 1, _, [] => false
  | fuel + 1, visited, vertex :: pending =>
    if vertex = goal then true
    else if vertex ∈ visited then searchPending adjacent goal fuel visited pending
    else
      searchPending adjacent goal fuel (vertex :: visited)
        (((adjacent vertex).filter (· ∉ vertex :: visited)).reverse ++ pending)

/-- Whether a path of at least two edges leads to the goal. -/
def hasIndirectPath (adjacent : Vertex → List Vertex) (fuel : ℕ) (start goal : Vertex) : Bool :=
  searchPending adjacent goal fuel [start] ((adjacent start).filter (· ≠ goal)).reverse

variable {adjacent : Vertex → List Vertex} {goal start vertex : Vertex} {visited pending : List Vertex}
  {fuel : ℕ}

/-- An adjacency list as a relation. -/
def Adjacent (adjacent : Vertex → List Vertex) (source target : Vertex) : Prop :=
  target ∈ adjacent source

theorem searchPending_sound (hfound : searchPending adjacent goal fuel visited pending = true) :
    ∃ vertex ∈ pending, ReflTransGen (Adjacent adjacent) vertex goal := by
  induction fuel generalizing visited pending with
  | zero => cases hfound
  | succ fuel ih =>
    cases pending with
    | nil => cases hfound
    | cons vertex pending =>
      rw [searchPending] at hfound
      split at hfound
      · rename_i heq
        exact ⟨vertex, mem_cons_self, heq ▸ .refl⟩
      · split at hfound
        · obtain ⟨other, hother, hpath⟩ := ih hfound
          exact ⟨other, mem_cons_of_mem _ hother, hpath⟩
        · obtain ⟨other, hother, hpath⟩ := ih hfound
          rcases mem_append.mp hother with hother | hother
          · have hedge : other ∈ adjacent vertex := mem_of_mem_filter (mem_reverse.mp hother)
            exact ⟨vertex, mem_cons_self, .head hedge hpath⟩
          · exact ⟨other, mem_cons_of_mem _ hother, hpath⟩

/-- The rounds that the search may still take: what is pending, and the edges of
the vertices that have not been expanded. -/
def rounds (adjacent : Vertex → List Vertex) (vertices visited pending : List Vertex) : ℕ :=
  pending.length + ((vertices.filter (· ∉ visited)).map fun vertex => (adjacent vertex).length).sum

theorem rounds_visit {vertices : List Vertex} (hvertices : vertices.Nodup)
    (hmem : vertex ∈ vertices) (hvertex : vertex ∉ visited) :
    rounds adjacent vertices (vertex :: visited)
        (((adjacent vertex).filter (· ∉ vertex :: visited)).reverse ++ pending) <
      rounds adjacent vertices visited (vertex :: pending) := by
  have hfound : vertex ∈ vertices.filter (· ∉ visited) := by
    simpa [mem_filter] using ⟨hmem, hvertex⟩
  have hrest : vertices.filter (· ∉ vertex :: visited) =
      (vertices.filter (· ∉ visited)).erase vertex := by
    rw [(hvertices.filter _).erase_eq_filter, filter_filter]
    apply filter_congr
    intro other _
    by_cases hother : other = vertex
    · simp [hother]
    · simp [hother]
  have hsum := ((perm_cons_erase hfound).map fun vertex => (adjacent vertex).length).sum_eq
  have hlength := length_filter_le (fun other => decide (other ∉ vertex :: visited))
    (adjacent vertex)
  rw [map_cons, sum_cons] at hsum
  unfold rounds
  rw [hrest, hsum, length_append, length_reverse, length_cons]
  omega

/-- A search that fails with enough fuel has been everywhere it could go, except
from the vertex that it started at. -/
theorem searchPending_complete {vertices : List Vertex} (hvertices : vertices.Nodup)
    (hclosed : ∀ vertex ∈ vertices, ∀ next ∈ adjacent vertex, next ∈ vertices)
    (hpending : ∀ vertex ∈ pending, vertex ∈ vertices)
    (hfuel : rounds adjacent vertices visited pending < fuel)
    (hfrontier : ∀ vertex ∈ visited, vertex ≠ start → ∀ next ∈ adjacent vertex,
      next ∈ visited ∨ next ∈ pending) (hgoal : goal ∉ visited)
    (hfailed : searchPending adjacent goal fuel visited pending = false) :
    ∃ reached : List Vertex, pending ⊆ reached ∧ goal ∉ reached ∧
      ∀ vertex ∈ reached, vertex ≠ start → adjacent vertex ⊆ reached := by
  suffices hreached : ∃ reached : List Vertex, visited ⊆ reached ∧ pending ⊆ reached ∧
      goal ∉ reached ∧ ∀ vertex ∈ reached, vertex ≠ start → adjacent vertex ⊆ reached by
    obtain ⟨reached, _, hrest⟩ := hreached
    exact ⟨reached, hrest⟩
  induction fuel generalizing visited pending with
  | zero => omega
  | succ fuel ih =>
    cases pending with
    | nil =>
      refine ⟨visited, List.Subset.refl _, nil_subset _, hgoal, ?_⟩
      intro vertex hvertex hne next hnext
      exact (hfrontier vertex hvertex hne next hnext).resolve_right not_mem_nil
    | cons vertex pending =>
      have hvertex := hpending vertex mem_cons_self
      rw [searchPending] at hfailed
      split at hfailed
      · cases hfailed
      · rename_i hne
        split at hfailed
        · rename_i hvisited
          have hless : rounds adjacent vertices visited pending <
              rounds adjacent vertices visited (vertex :: pending) := by
            simp [rounds]
          obtain ⟨reached, hold, hrest, hlast⟩ := ih
            (fun other hother => hpending other (mem_cons_of_mem _ hother)) (by omega)
            (fun other hother hstart next hnext => by
              rcases hfrontier other hother hstart next hnext with hmem | hmem
              · exact .inl hmem
              · rcases mem_cons.mp hmem with rfl | hmem
                · exact .inl hvisited
                · exact .inr hmem) hgoal hfailed
          exact ⟨reached, hold, cons_subset.mpr ⟨hold hvisited, hrest⟩, hlast⟩
        · rename_i hfresh
          have hless := @rounds_visit _ _ adjacent vertex visited pending vertices hvertices
            hvertex hfresh
          obtain ⟨reached, hold, hrest, hlast⟩ := ih
            (fun other hother => by
              rcases mem_append.mp hother with hmem | hmem
              · exact hclosed vertex hvertex other (mem_of_mem_filter (mem_reverse.mp hmem))
              · exact hpending other (mem_cons_of_mem _ hmem)) (by omega)
            (fun other hother hstart next hnext => by
              by_cases hmem : next ∈ vertex :: visited
              · exact .inl hmem
              · right
                rw [mem_append]
                rcases mem_cons.mp hother with rfl | hother
                · left
                  rw [mem_reverse, mem_filter]
                  exact ⟨hnext, decide_eq_true hmem⟩
                · right
                  rcases hfrontier other hother hstart next hnext with hold | hold
                  · exact absurd (mem_cons_of_mem _ hold) hmem
                  · rcases mem_cons.mp hold with rfl | hold
                    · exact absurd mem_cons_self hmem
                    · exact hold)
            (fun hmem => (mem_cons.mp hmem).elim (fun heq => hne heq.symm) hgoal) hfailed
          obtain ⟨hvertexReached, hvisited⟩ := cons_subset.mp hold
          have hpendingReached := (append_subset.mp hrest).2
          exact ⟨reached, hvisited, cons_subset.mpr ⟨hvertexReached, hpendingReached⟩, hlast⟩

/-- In an acyclic graph, the search finds exactly the indirect paths. -/
theorem hasIndirectPath_iff {vertices : List Vertex} (hvertices : vertices.Nodup)
    (hclosed : ∀ vertex ∈ vertices, ∀ next ∈ adjacent vertex, next ∈ vertices)
    (hacyclic : Acyclic (Adjacent adjacent)) (hstart : start ∈ vertices) (hne : start ≠ goal)
    (hfuel : (vertices.map fun vertex => (adjacent vertex).length).sum < fuel) :
    hasIndirectPath adjacent fuel start goal = true ↔
      IndirectPath (Adjacent adjacent) start goal := by
  have hpending : ∀ middle, middle ∈ ((adjacent start).filter (· ≠ goal)).reverse ↔
      middle ∈ adjacent start ∧ middle ≠ goal := by
    intro middle
    rw [mem_reverse, mem_filter, decide_eq_true_iff]
  constructor
  · intro hfound
    obtain ⟨middle, hmiddle, hpath⟩ := searchPending_sound hfound
    obtain ⟨hedge, hother⟩ := (hpending middle).mp hmiddle
    exact ⟨middle, hedge, hother, hpath⟩
  · rintro ⟨middle, hedge, hother, hpath⟩
    by_contra hfailed
    have hrounds : rounds adjacent vertices [start] ((adjacent start).filter (· ≠ goal)).reverse ≤
        (vertices.map fun vertex => (adjacent vertex).length).sum := by
      have hsum := ((perm_cons_erase hstart).map fun vertex => (adjacent vertex).length).sum_eq
      have hlength := length_filter_le (fun middle => decide (middle ≠ goal)) (adjacent start)
      have hrest : vertices.filter (· ∉ [start]) = vertices.erase start := by
        rw [hvertices.erase_eq_filter]
        apply filter_congr
        intro other _
        by_cases hother : other = start
        · simp [hother]
        · simp [hother]
      rw [map_cons, sum_cons] at hsum
      unfold rounds
      rw [hrest, hsum, length_reverse]
      omega
    obtain ⟨reached, hreached, hmissing, hexpanded⟩ := @searchPending_complete _ _ adjacent goal
      start _ _ fuel vertices hvertices hclosed
      (fun other hmem => hclosed start hstart other ((hpending other).mp hmem).1)
      (hrounds.trans_lt hfuel)
      (fun other hmem hnot => absurd (mem_singleton.mp hmem) hnot)
      (fun hmem => hne (mem_singleton.mp hmem).symm) (Bool.eq_false_iff.mpr hfailed)
    -- The path never comes back to the start.
    have hall : ∀ vertex, ReflTransGen (Adjacent adjacent) middle vertex → vertex ∈ reached := by
      intro vertex hto
      induction hto with
      | refl => exact hreached ((hpending middle).mpr ⟨hedge, hother⟩)
      | @tail before after hto hlast ih =>
        have hnot : before ≠ start := by
          rintro rfl
          exact hacyclic before (.head' hedge hto)
        exact hexpanded before ih hnot hlast
    exact hmissing (hall goal hpath)

end Pending

end ConvexWasm.Contraction
