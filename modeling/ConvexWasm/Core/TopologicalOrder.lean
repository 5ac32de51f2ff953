import Mathlib

/-!
# Topological orders

Vertices whose dependencies have all been taken are ready; the first of them is
taken, and each dependent has one dependency less to wait for.  What is taken
comes after its dependencies, and everything is taken exactly when there is no
cycle.
-/

namespace ConvexWasm.TopologicalOrder

open Function List Relation

variable {Vertex : Type*} [DecidableEq Vertex]

/-- One dependent has a dependency less; it is released when there is none left. -/
def release (state : (Vertex → ℤ) × List Vertex) (dependent : Vertex) :
    (Vertex → ℤ) × List Vertex :=
  let remaining := state.1 dependent - 1
  (update state.1 dependent remaining,
    if remaining = 0 then state.2 ++ [dependent] else state.2)

/-- The loop over the vertices that are ready.  `enqueue` puts those that a
vertex has released beside the other ready ones. -/
def drain (dependents : Vertex → List Vertex) (enqueue : List Vertex → List Vertex → List Vertex) :
    ℕ → (Vertex → ℤ) → List Vertex → List Vertex → List Vertex
  | 0, _, _, order => order
  | _ + 1, _, [], order => order
  | fuel + 1, counts, vertex :: ready, order =>
    let released := (dependents vertex).foldl release (counts, [])
    drain dependents enqueue fuel released.1 (enqueue ready released.2) (order ++ [vertex])

variable {dependencies : Vertex → List Vertex} {order : List Vertex} {vertex : Vertex}

section Acyclicity

/-- No path leads back to where it starts. -/
def Acyclic (edge : Vertex → Vertex → Prop) : Prop := ∀ vertex, ¬ TransGen edge vertex vertex

/-- Every vertex of a list comes after its dependencies. -/
def DependencyFirst (dependencies : Vertex → List Vertex) (order : List Vertex) : Prop :=
  ∀ before vertex after, order = before ++ vertex :: after →
    ∀ dependency ∈ dependencies vertex, dependency ∈ before

theorem DependencyFirst.nil : DependencyFirst dependencies [] := by
  intro before vertex after hsplit
  simp at hsplit

section

variable (hfirst : DependencyFirst dependencies order)
include hfirst

theorem DependencyFirst.snoc (hvertex : ∀ dependency ∈ dependencies vertex, dependency ∈ order) :
    DependencyFirst dependencies (order ++ [vertex]) := by
  intro before other after hsplit dependency hdependency
  rcases eq_nil_or_concat after with rfl | ⟨rest, last, rfl⟩
  · obtain ⟨hbefore, hother⟩ := append_inj' hsplit rfl
    cases hother
    exact hbefore ▸ hvertex dependency hdependency
  · have hsplit' : order ++ [vertex] = (before ++ other :: rest) ++ [last] := by
      simpa using hsplit
    obtain ⟨hbefore, _⟩ := append_inj' hsplit' rfl
    exact hfirst before other rest hbefore dependency hdependency

/-- The first occurrence of a dependency has a smaller position. -/
theorem DependencyFirst.idxOf_lt (hvertex : vertex ∈ order) {dependency : Vertex}
    (hdependency : dependency ∈ dependencies vertex) :
    order.idxOf dependency < order.idxOf vertex := by
  obtain ⟨before, after, rfl, hfresh⟩ := eq_append_cons_of_mem hvertex
  have hbefore := hfirst before vertex after rfl dependency hdependency
  rw [idxOf_append_of_mem hbefore, idxOf_append_of_notMem hfresh, idxOf_cons_self]
  exact Nat.lt_add_right _ (idxOf_lt_length_of_mem hbefore)

/-- An order that has all vertices rules out cycles. -/
theorem DependencyFirst.acyclic {edge : Vertex → Vertex → Prop}
    (hedge : ∀ source target, edge source target →
      source ∈ order ∧ target ∈ dependencies source) : Acyclic edge := by
  have hless : ∀ source target, TransGen edge source target →
      order.idxOf target < order.idxOf source := by
    intro source target hpath
    induction hpath with
    | single hlast =>
      obtain ⟨hsource, htarget⟩ := hedge _ _ hlast
      exact hfirst.idxOf_lt hsource htarget
    | tail _ hlast ih =>
      obtain ⟨hsource, htarget⟩ := hedge _ _ hlast
      exact (hfirst.idxOf_lt hsource htarget).trans ih
  intro vertex hcycle
  exact lt_irrefl _ (hless vertex vertex hcycle)

end

/-- A nonempty finite set in which every vertex has an edge into the set has a
cycle. -/
theorem Acyclic.exists_sink {edge : Vertex → Vertex → Prop} (hacyclic : Acyclic edge)
    {vertices : List Vertex} (hnonempty : vertices ≠ []) :
    ∃ vertex ∈ vertices, ∀ target ∈ vertices, ¬ edge vertex target := by
  let below : {vertex // vertex ∈ vertices} → {vertex // vertex ∈ vertices} → Prop :=
    fun target source => TransGen edge source.1 target.1
  haveI : Std.Irrefl below := ⟨fun vertex hcycle => hacyclic vertex.1 hcycle⟩
  have hfounded : WellFounded below := Finite.wellFounded_of_trans_of_irrefl below
  obtain ⟨first, hfirst⟩ := exists_mem_of_ne_nil vertices hnonempty
  obtain ⟨sink, _, hleast⟩ := hfounded.has_min Set.univ ⟨⟨first, hfirst⟩, trivial⟩
  exact ⟨sink.1, sink.2, fun target htarget hedge =>
    hleast ⟨target, htarget⟩ trivial (.single hedge)⟩

end Acyclicity

variable {counts : Vertex → ℤ}

section Counting

variable {released dependents : List Vertex}

theorem foldl_release (hdistinct : dependents.Nodup) :
    dependents.foldl release (counts, released) =
      (fun vertex => if vertex ∈ dependents then counts vertex - 1 else counts vertex,
        released ++ dependents.filter fun vertex => counts vertex = 1) := by
  induction dependents generalizing counts released with
  | nil => simp
  | cons head rest ih =>
    obtain ⟨hhead, hrest⟩ := nodup_cons.mp hdistinct
    rw [foldl_cons, release, ih hrest]
    apply Prod.ext
    · funext vertex
      by_cases hvertex : vertex = head
      · subst hvertex
        simp [hhead]
      · simp [hvertex]
    · have hfilter : rest.filter (fun vertex =>
          decide (update counts head (counts head - 1) vertex = 1)) =
            rest.filter fun vertex => decide (counts vertex = 1) := by
        apply filter_congr
        intro vertex hvertex
        have hne : vertex ≠ head := fun heq => hhead (heq ▸ hvertex)
        rw [update_of_ne hne]
      have hone : counts head - 1 = 0 ↔ counts head = 1 := by omega
      rw [hfilter, filter_cons]
      by_cases hcount : counts head = 1
      · simp [hcount]
      · simp [hone, hcount]

/-- Another dependency that is taken leaves one less. -/
theorem filter_notMem_snoc {dependencies order : List Vertex} {vertex : Vertex}
    (hdistinct : dependencies.Nodup) (hvertex : vertex ∉ order) :
    ((dependencies.filter (· ∉ order ++ [vertex])).length : ℤ) =
      (dependencies.filter (· ∉ order)).length - if vertex ∈ dependencies then 1 else 0 := by
  have hfiltered := hdistinct.filter (· ∉ order)
  have hsplit : dependencies.filter (· ∉ order ++ [vertex]) =
      (dependencies.filter (· ∉ order)).erase vertex := by
    rw [hfiltered.erase_eq_filter, filter_filter]
    apply filter_congr
    intro other _
    by_cases hother : other = vertex
    · simp [hother]
    · simp [hother]
  rw [hsplit]
  split_ifs with hmem
  · have hfound : vertex ∈ dependencies.filter (· ∉ order) := by
      simpa [mem_filter] using ⟨hmem, hvertex⟩
    have hpos := length_pos_of_mem hfound
    rw [length_erase_of_mem hfound]
    omega
  · have hmissing : vertex ∉ dependencies.filter (· ∉ order) := fun hfound =>
      hmem (mem_of_mem_filter hfound)
    rw [erase_eq_self_iff.mpr hmissing]
    omega

end Counting

section Correctness

/-- The vertices with their dependencies and dependents, each without
repetitions. -/
structure Graph (vertices : List Vertex) (dependencies dependents : Vertex → List Vertex) :
    Prop where
  vertices_distinct : vertices.Nodup
  dependencies_distinct : ∀ vertex ∈ vertices, (dependencies vertex).Nodup
  dependencies_mem : ∀ vertex ∈ vertices, ∀ dependency ∈ dependencies vertex, dependency ∈ vertices
  dependents_distinct : ∀ vertex ∈ vertices, (dependents vertex).Nodup
  mem_dependents : ∀ vertex ∈ vertices, ∀ dependent,
    dependent ∈ dependents vertex ↔ dependent ∈ vertices ∧ vertex ∈ dependencies dependent

/-- The edges between the vertices. -/
def Edge (vertices : List Vertex) (dependencies : Vertex → List Vertex) (source target : Vertex) :
    Prop :=
  source ∈ vertices ∧ target ∈ dependencies source

/-- What holds between the rounds of the loop. -/
structure Draining (vertices : List Vertex) (dependencies : Vertex → List Vertex)
    (counts : Vertex → ℤ) (ready order : List Vertex) : Prop where
  distinct : (order ++ ready).Nodup
  mem : ∀ vertex ∈ order ++ ready, vertex ∈ vertices
  counts_eq : ∀ vertex ∈ vertices, counts vertex = ((dependencies vertex).filter (· ∉ order)).length
  ready_iff : ∀ vertex ∈ vertices, vertex ∈ order ++ ready ↔ counts vertex = 0
  first : DependencyFirst dependencies order

variable {vertices ready : List Vertex} {dependents : Vertex → List Vertex}
  {enqueue : List Vertex → List Vertex → List Vertex}

theorem Draining.start (hgraph : Graph vertices dependencies dependents)
    (hcounts : ∀ vertex ∈ vertices, counts vertex = (dependencies vertex).length)
    (hready : ready.Perm (vertices.filter fun vertex => counts vertex = 0)) :
    Draining vertices dependencies counts ready [] where
  distinct := hready.nodup_iff.mpr (hgraph.vertices_distinct.filter _)
  mem vertex hmem := mem_of_mem_filter (hready.mem_iff.mp hmem)
  counts_eq vertex hvertex := by
    rw [hcounts vertex hvertex]
    simp
  ready_iff vertex hvertex := by
    rw [nil_append, hready.mem_iff, mem_filter]
    simp [hvertex]
  first := .nil

section

variable (hgraph : Graph vertices dependencies dependents)
  (henqueue : ∀ rest released, (enqueue rest released).Perm (rest ++ released))
include hgraph henqueue

theorem Draining.step (hdraining : Draining vertices dependencies counts (vertex :: ready) order) :
    Draining vertices dependencies
      (fun other => if other ∈ dependents vertex then counts other - 1 else counts other)
      (enqueue ready ((dependents vertex).filter fun other => counts other = 1))
      (order ++ [vertex]) := by
  have hmem := hdraining.mem vertex (mem_append_right _ mem_cons_self)
  have hdistinct := hdraining.distinct
  have hfresh : vertex ∉ order := fun hold =>
    (nodup_append.mp hdistinct).2.2 vertex hold vertex mem_cons_self rfl
  have hcounts : ∀ other ∈ vertices,
      (if other ∈ dependents vertex then counts other - 1 else counts other) =
        (((dependencies other).filter (· ∉ order ++ [vertex])).length : ℤ) := by
    intro other hother
    rw [filter_notMem_snoc (hgraph.dependencies_distinct other hother) hfresh,
      ← hdraining.counts_eq other hother]
    by_cases hdependent : other ∈ dependents vertex
    · have hdependency := ((hgraph.mem_dependents vertex hmem other).mp hdependent).2
      rw [if_pos hdependent, if_pos hdependency]
    · have hdependency : vertex ∉ dependencies other := fun hfound =>
        hdependent ((hgraph.mem_dependents vertex hmem other).mpr ⟨hother, hfound⟩)
      rw [if_neg hdependent, if_neg hdependency, sub_zero]
  have hperm := henqueue ready ((dependents vertex).filter fun other => counts other = 1)
  have hwhole : ((order ++ [vertex]) ++ enqueue ready
      ((dependents vertex).filter fun other => counts other = 1)).Perm
        ((order ++ vertex :: ready) ++
          (dependents vertex).filter fun other => counts other = 1) := by
    calc
      (order ++ [vertex]) ++ enqueue ready
          ((dependents vertex).filter fun other => counts other = 1) |>.Perm
          ((order ++ [vertex]) ++ (ready ++
            (dependents vertex).filter fun other => counts other = 1)) := hperm.append_left _
      _ = _ := by simp
  have hreleased : ∀ other ∈ (dependents vertex).filter fun other => counts other = 1,
      other ∈ vertices ∧ counts other = 1 ∧ other ∈ dependents vertex := by
    intro other hother
    obtain ⟨hdependent, hone⟩ := mem_filter.mp hother
    exact ⟨((hgraph.mem_dependents vertex hmem other).mp hdependent).1, of_decide_eq_true hone,
      hdependent⟩
  constructor
  · rw [hwhole.nodup_iff, nodup_append]
    refine ⟨hdistinct, (hgraph.dependents_distinct vertex hmem).filter _, ?_⟩
    rintro other hother found hfound rfl
    obtain ⟨hvertices, hone, _⟩ := hreleased other hfound
    rw [(hdraining.ready_iff other hvertices).mp hother] at hone
    omega
  · intro other hother
    rcases mem_append.mp (hwhole.mem_iff.mp hother) with hold | hnew
    · exact hdraining.mem other hold
    · exact (hreleased other hnew).1
  · exact hcounts
  · intro other hother
    rw [hwhole.mem_iff, mem_append, hdraining.ready_iff other hother, mem_filter]
    by_cases hdependent : other ∈ dependents vertex
    · -- A dependent was not ready, for it waited for the vertex.
      have hdependency := ((hgraph.mem_dependents vertex hmem other).mp hdependent).2
      have hpositive : counts other ≠ 0 := by
        rw [hdraining.counts_eq other hother]
        have hfound : vertex ∈ (dependencies other).filter (· ∉ order) := by
          simpa [mem_filter] using ⟨hdependency, hfresh⟩
        have hlength := length_pos_of_mem hfound
        omega
      rw [if_pos hdependent]
      simp only [hpositive, false_or, hdependent, true_and, decide_eq_true_eq]
      omega
    · simp [hdependent]
  · apply hdraining.first.snoc
    intro dependency hdependency
    by_contra hmissing
    have hzero := (hdraining.ready_iff vertex hmem).mp (mem_append_right _ mem_cons_self)
    rw [hdraining.counts_eq vertex hmem] at hzero
    have hfound : dependency ∈ (dependencies vertex).filter (· ∉ order) := by
      simpa [mem_filter] using ⟨hdependency, hmissing⟩
    have hlength := length_pos_of_mem hfound
    omega

/-- With enough fuel the loop ends because nothing is ready. -/
theorem drain_spec :
    ∀ fuel counts ready order, Draining vertices dependencies counts ready order →
      vertices.length ≤ fuel + order.length →
      ∃ counts', Draining vertices dependencies counts' []
        (drain dependents enqueue fuel counts ready order) := by
  intro fuel
  induction fuel with
  | zero =>
    intro counts ready order hdraining hfuel
    have hlength : (order ++ ready).length ≤ vertices.length :=
      (hdraining.distinct.subperm hdraining.mem).length_le
    rw [length_append] at hlength
    have hempty : ready = [] := length_eq_zero_iff.mp (by omega)
    exact ⟨counts, hempty ▸ hdraining⟩
  | succ fuel ih =>
    intro counts ready order hdraining hfuel
    cases ready with
    | nil => exact ⟨counts, hdraining⟩
    | cons vertex ready =>
      have hmem := hdraining.mem vertex (mem_append_right _ mem_cons_self)
      have hstep := hdraining.step hgraph henqueue
      rw [drain, foldl_release (hgraph.dependents_distinct vertex hmem)]
      apply ih _ _ _ hstep
      rw [length_append, length_singleton]
      omega

end

/-- The order that the loop returns: every vertex after its dependencies, and
all vertices exactly when there is no cycle. -/
structure Ordered (vertices : List Vertex) (dependencies : Vertex → List Vertex)
    (order : List Vertex) : Prop where
  distinct : order.Nodup
  mem : ∀ vertex ∈ order, vertex ∈ vertices
  first : DependencyFirst dependencies order
  complete_iff : order.length = vertices.length ↔ Acyclic (Edge vertices dependencies)

theorem Ordered.perm (hordered : Ordered vertices dependencies order)
    (hlength : order.length = vertices.length) : order.Perm vertices :=
  (hordered.distinct.subperm hordered.mem).perm_of_length_le hlength.ge

theorem drain_ordered (hgraph : Graph vertices dependencies dependents)
    (henqueue : ∀ rest released, (enqueue rest released).Perm (rest ++ released))
    (hcounts : ∀ vertex ∈ vertices, counts vertex = (dependencies vertex).length)
    (hready : ready.Perm (vertices.filter fun vertex => counts vertex = 0)) :
    Ordered vertices dependencies (drain dependents enqueue vertices.length counts ready []) := by
  obtain ⟨counts', hdraining⟩ := drain_spec hgraph henqueue vertices.length counts ready []
    (.start hgraph hcounts hready) (by simp)
  generalize drain dependents enqueue vertices.length counts ready [] = order at hdraining ⊢
  have hdistinct : order.Nodup := by simpa using hdraining.distinct
  have hmem : ∀ vertex ∈ order, vertex ∈ vertices := fun vertex hvertex =>
    hdraining.mem vertex (mem_append_left _ hvertex)
  refine ⟨hdistinct, hmem, hdraining.first, fun hlength => ?_, fun hacyclic => ?_⟩
  · have hperm : order.Perm vertices := (hdistinct.subperm hmem).perm_of_length_le hlength.ge
    apply hdraining.first.acyclic
    intro source target hedge
    exact ⟨hperm.mem_iff.mpr hedge.1, hedge.2⟩
  · -- What is left over would have a vertex that waits for nothing left over.
    by_contra hlength
    have hrest : vertices.filter (· ∉ order) ≠ [] := by
      intro hempty
      have hsubset : vertices ⊆ order := by
        intro vertex hvertex
        by_contra hmissing
        have hfound : vertex ∈ vertices.filter (· ∉ order) := by
          simpa [mem_filter] using ⟨hvertex, hmissing⟩
        rw [hempty] at hfound
        cases hfound
      have hle := (hgraph.vertices_distinct.subperm hsubset).length_le
      have hge := (hdistinct.subperm hmem).length_le
      omega
    obtain ⟨sink, hsink, hleast⟩ := hacyclic.exists_sink hrest
    obtain ⟨hvertices, hmissing⟩ := mem_filter.mp hsink
    have hnone : (dependencies sink).filter (· ∉ order) = [] := by
      apply filter_eq_nil_iff.mpr
      intro dependency hdependency hleft
      have hfound : dependency ∈ vertices.filter (· ∉ order) :=
        mem_filter.mpr ⟨hgraph.dependencies_mem sink hvertices dependency hdependency, hleft⟩
      exact hleast dependency hfound ⟨hvertices, hdependency⟩
    have hzero : counts' sink = 0 := by
      rw [hdraining.counts_eq sink hvertices, hnone]
      rfl
    have htaken := (hdraining.ready_iff sink hvertices).mpr hzero
    rw [List.append_nil] at htaken
    exact of_decide_eq_true hmissing htaken

end Correctness

end ConvexWasm.TopologicalOrder
