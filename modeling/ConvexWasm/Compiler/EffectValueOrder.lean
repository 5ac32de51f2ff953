import ConvexWasm.Compiler.EffectValuePropagation

/-!
# The order of flows, paths and plans

Listing the plans, the flows or the paths of a flow in another order renumbers
the local routes.  When each callable has one flow and no path is listed twice,
the composition of routes commutes with the renumbering, so completeness, the
routes up to their numbers, and every answer stay the same.
-/

namespace ConvexWasm.Compiler.EffectValueGraph

open BoundedClosure ControlPlans List

section PlanAgreement

/-- The plans describe one control flow for each callable. -/
structure PlansAgree (plans : List CallableControlPlan) : Prop where
  fits : ∀ plan ∈ plans, skeletonFits plan = true
  matched : ∀ plan ∈ plans, effectsMatch plan = true
  skeleton : ∀ plan ∈ plans, ∀ other ∈ plans, plan.callable = other.callable →
    plan.skeleton = other.skeleton
  source : ∀ plan ∈ plans, ∀ other ∈ plans, plan.callable = other.callable →
    plan.callableSource = other.callableSource

/-- What the loop has recorded after the given plans. -/
structure Records (plans : List CallableControlPlan) (records : PlanRecords) : Prop where
  skeletons : ∀ callable skeleton, records.controlSkeletons.get? callable = some skeleton ↔
    ∃ plan ∈ plans, plan.callable = callable ∧ plan.skeleton = skeleton
  sources : ∀ callable source, records.controlSources.get? callable = some source ↔
    ∃ plan ∈ plans, plan.callable = callable ∧ plan.callableSource = source
  blocks : records.sourceBlocks = plans.flatMap (·.sourceEffects)

variable {plans plans' : List CallableControlPlan} {plan : CallableControlPlan}
  {records : PlanRecords}

theorem recordPlan_incomplete (hincomplete : records.incomplete = true) :
    (recordPlan records plan).incomplete = true := by
  unfold recordPlan
  split
  · rfl
  split
  · rfl
  simp only
  split
  · rfl
  · simp [hincomplete]

/-- Whether a recorded entry differs from the plan's own. -/
theorem any_ne_eq_false {Value : Type} [DecidableEq Value] {recorded : Option Value}
    {value : Value} (hagrees : ∀ previous, recorded = some previous → previous = value) :
    (recorded.any fun previous => decide (previous ≠ value)) = false := by
  cases recorded with
  | none => rfl
  | some previous => simp [hagrees previous rfl]

theorem eq_of_any_ne_eq_false {Value : Type} [DecidableEq Value] {recorded : Option Value}
    {value previous : Value} (hany : ¬(recorded.any fun other => decide (other ≠ value)) = true)
    (hrecorded : recorded = some previous) : previous = value := by
  by_contra hne
  exact hany (by simp [hrecorded, hne])

/-- The map after the first plan of a callable, or an agreeing later one, is recorded. -/
theorem get?_record {Value : Type} {map : KeyedMap CallableKey Value}
    {field : CallableControlPlan → Value} (hmap : ∀ callable value, map.get? callable = some value ↔
      ∃ plan ∈ plans, plan.callable = callable ∧ field plan = value)
    (hagrees : ∀ previous, map.get? plan.callable = some previous → previous = field plan)
    (callable : CallableKey) (value : Value) :
    (if map.containsKey plan.callable then map
      else map.insert plan.callable (field plan)).get? callable = some value ↔
      ∃ other ∈ plans ++ [plan], other.callable = callable ∧ field other = value := by
  have hsplit : (∃ other ∈ plans ++ [plan], other.callable = callable ∧ field other = value) ↔
      (∃ other ∈ plans, other.callable = callable ∧ field other = value) ∨
        plan.callable = callable ∧ field plan = value := by
    simp only [mem_append, mem_singleton]
    constructor
    · intro h
      obtain ⟨other, hother | rfl, hfound⟩ := h
      · exact Or.inl ⟨other, hother, hfound⟩
      · exact Or.inr hfound
    · intro h
      rcases h with ⟨other, hother, hfound⟩ | hfound
      · exact ⟨other, Or.inl hother, hfound⟩
      · exact ⟨plan, Or.inr rfl, hfound⟩
  rw [hsplit, ← hmap]
  by_cases hcontains : map.containsKey plan.callable = true
  · rw [if_pos hcontains]
    obtain ⟨previous, hprevious⟩ :=
      KeyedMap.mem_keys_iff.mp (KeyedMap.containsKey_iff.mp hcontains)
    constructor
    · exact Or.inl
    · intro h
      rcases h with hfound | ⟨rfl, rfl⟩
      · exact hfound
      · rw [hprevious, hagrees previous hprevious]
  · rw [if_neg hcontains]
    have hnone : map.get? plan.callable = none :=
      KeyedMap.get?_eq_none_iff.mpr fun hmem => hcontains (KeyedMap.containsKey_iff.mpr hmem)
    by_cases hkey : callable = plan.callable
    · subst hkey
      rw [KeyedMap.get?_insert_self, hnone]
      simp
    · rw [KeyedMap.get?_insert_of_ne hkey]
      simp [Ne.symm hkey]

/-- A plan that agrees with the recorded ones is recorded, and any other makes
the records incomplete. -/
theorem Records.step (hrecords : Records plans records) (hagree : PlansAgree plans)
    (hcomplete : records.incomplete = false) :
    ((recordPlan records plan).incomplete = false ↔ PlansAgree (plans ++ [plan])) ∧
      (PlansAgree (plans ++ [plan]) → Records (plans ++ [plan]) (recordPlan records plan)) := by
  have hmem : plan ∈ plans ++ [plan] := mem_append_right _ (mem_singleton_self plan)
  have hskeletons : (∀ previous, records.controlSkeletons.get? plan.callable = some previous →
      previous = plan.skeleton) ↔ ∀ other ∈ plans, other.callable = plan.callable →
        other.skeleton = plan.skeleton := by
    constructor
    · intro h other hother hcallable
      exact h _ ((hrecords.skeletons _ _).mpr ⟨other, hother, hcallable, rfl⟩)
    · intro h previous hprevious
      obtain ⟨other, hother, hcallable, rfl⟩ := (hrecords.skeletons _ _).mp hprevious
      exact h other hother hcallable
  have hsources : (∀ previous, records.controlSources.get? plan.callable = some previous →
      previous = plan.callableSource) ↔ ∀ other ∈ plans, other.callable = plan.callable →
        other.callableSource = plan.callableSource := by
    constructor
    · intro h other hother hcallable
      exact h _ ((hrecords.sources _ _).mpr ⟨other, hother, hcallable, rfl⟩)
    · intro h previous hprevious
      obtain ⟨other, hother, hcallable, rfl⟩ := (hrecords.sources _ _).mp hprevious
      exact h other hother hcallable
  have hextended : PlansAgree (plans ++ [plan]) ↔ skeletonFits plan = true ∧
      effectsMatch plan = true ∧
      (∀ other ∈ plans, other.callable = plan.callable → other.skeleton = plan.skeleton) ∧
      ∀ other ∈ plans, other.callable = plan.callable →
        other.callableSource = plan.callableSource := by
    constructor
    · intro h
      exact ⟨h.fits plan hmem, h.matched plan hmem,
        fun other hother => h.skeleton other (mem_append_left _ hother) plan hmem,
        fun other hother => h.source other (mem_append_left _ hother) plan hmem⟩
    · intro h
      obtain ⟨hfits, hmatched, hskeleton, hsource⟩ := h
      refine ⟨?_, ?_, ?_, ?_⟩
      · intro other hother
        rcases mem_append.mp hother with hother | hother
        · exact hagree.fits other hother
        · rwa [mem_singleton.mp hother]
      · intro other hother
        rcases mem_append.mp hother with hother | hother
        · exact hagree.matched other hother
        · rwa [mem_singleton.mp hother]
      · intro first hfirst second hsecond hcallable
        rcases mem_append.mp hfirst with hfirst | hfirst <;>
          rcases mem_append.mp hsecond with hsecond | hsecond
        · exact hagree.skeleton first hfirst second hsecond hcallable
        · rw [mem_singleton.mp hsecond] at hcallable ⊢
          exact hskeleton first hfirst hcallable
        · rw [mem_singleton.mp hfirst] at hcallable ⊢
          exact (hskeleton second hsecond hcallable.symm).symm
        · rw [mem_singleton.mp hfirst, mem_singleton.mp hsecond]
      · intro first hfirst second hsecond hcallable
        rcases mem_append.mp hfirst with hfirst | hfirst <;>
          rcases mem_append.mp hsecond with hsecond | hsecond
        · exact hagree.source first hfirst second hsecond hcallable
        · rw [mem_singleton.mp hsecond] at hcallable ⊢
          exact hsource first hfirst hcallable
        · rw [mem_singleton.mp hfirst] at hcallable ⊢
          exact (hsource second hsecond hcallable.symm).symm
        · rw [mem_singleton.mp hfirst, mem_singleton.mp hsecond]
  by_cases hfits : skeletonFits plan = true
  swap
  · have hstep : (recordPlan records plan).incomplete = true := by
      unfold recordPlan
      rw [if_pos (by simpa using hfits)]
    simp [hstep, hextended, hfits]
  by_cases hskeleton : ((records.controlSkeletons.get? plan.callable).any
      fun previous => decide (previous ≠ plan.skeleton)) = true
  · have hstep : (recordPlan records plan).incomplete = true := by
      unfold recordPlan
      rw [if_neg (by simp [hfits]), if_pos hskeleton]
    have hdiffer : ¬∀ other ∈ plans, other.callable = plan.callable →
        other.skeleton = plan.skeleton := by
      intro h
      rw [any_ne_eq_false (hskeletons.mpr h)] at hskeleton
      simp at hskeleton
    simp [hstep, hextended, hdiffer]
  have hskeletonAgrees : ∀ previous,
      records.controlSkeletons.get? plan.callable = some previous → previous = plan.skeleton :=
    fun _ => eq_of_any_ne_eq_false hskeleton
  by_cases hsource : ((records.controlSources.get? plan.callable).any
      fun previous => decide (previous ≠ plan.callableSource)) = true
  · have hstep : (recordPlan records plan).incomplete = true := by
      unfold recordPlan
      rw [if_neg (by simp [hfits]), if_neg hskeleton]
      simp only [hsource, if_true]
    have hdiffer : ¬∀ other ∈ plans, other.callable = plan.callable →
        other.callableSource = plan.callableSource := by
      intro h
      rw [any_ne_eq_false (hsources.mpr h)] at hsource
      simp at hsource
    simp [hstep, hextended, hdiffer]
  have hsourceAgrees : ∀ previous,
      records.controlSources.get? plan.callable = some previous → previous = plan.callableSource :=
    fun _ => eq_of_any_ne_eq_false hsource
  have hstep : recordPlan records plan =
      { incomplete := records.incomplete || !effectsMatch plan
        controlSkeletons :=
          if records.controlSkeletons.containsKey plan.callable then records.controlSkeletons
          else records.controlSkeletons.insert plan.callable plan.skeleton
        controlSources :=
          if records.controlSources.containsKey plan.callable then records.controlSources
          else records.controlSources.insert plan.callable plan.callableSource
        sourceBlocks := records.sourceBlocks ++ plan.sourceEffects } := by
    unfold recordPlan
    rw [if_neg (by simp [hfits]), if_neg hskeleton]
    exact if_neg hsource
  rw [hextended, hstep]
  constructor
  · simp only [hcomplete, Bool.false_or, Bool.not_eq_false', hfits, true_and]
    exact ⟨fun h => ⟨h, hskeletons.mp hskeletonAgrees, hsources.mp hsourceAgrees⟩, fun h => h.1⟩
  · intro _
    exact ⟨get?_record hrecords.skeletons hskeletonAgrees,
      get?_record hrecords.sources hsourceAgrees, by simp [hrecords.blocks]⟩

theorem PlansAgree.of_append {rest : List CallableControlPlan}
    (hagree : PlansAgree (plans ++ rest)) : PlansAgree plans where
  fits := fun plan hplan => hagree.fits plan (mem_append_left _ hplan)
  matched := fun plan hplan => hagree.matched plan (mem_append_left _ hplan)
  skeleton := fun plan hplan other hother =>
    hagree.skeleton plan (mem_append_left _ hplan) other (mem_append_left _ hother)
  source := fun plan hplan other hother =>
    hagree.source plan (mem_append_left _ hplan) other (mem_append_left _ hother)

theorem records_foldl (plans : List CallableControlPlan) :
    ((plans.foldl recordPlan .empty).incomplete = false ↔ PlansAgree plans) ∧
      (PlansAgree plans → Records plans (plans.foldl recordPlan .empty)) := by
  induction plans using List.reverseRecOn with
  | nil =>
    constructor
    · constructor
      · intro _
        exact ⟨by simp, by simp, by simp, by simp⟩
      · intro _
        rfl
    · intro _
      exact ⟨by simp [PlanRecords.empty, KeyedMap.empty, KeyedMap.get?],
        by simp [PlanRecords.empty, KeyedMap.empty, KeyedMap.get?], rfl⟩
  | append_singleton plans plan ih =>
    rw [foldl_append, foldl_cons, foldl_nil]
    by_cases hagree : PlansAgree plans
    · exact (ih.2 hagree).step hagree (ih.1.mpr hagree)
    · have hincomplete : (plans.foldl recordPlan .empty).incomplete = true := by
        rw [← Bool.not_eq_false]
        exact fun hcomplete => hagree (ih.1.mp hcomplete)
      have hdisagree : ¬PlansAgree (plans ++ [plan]) := fun h => hagree h.of_append
      simp [recordPlan_incomplete hincomplete, hdisagree]

/-- Each source effect lies in a block of its callable's skeleton. -/
def BlocksExist (plans : List CallableControlPlan) : Prop :=
  ∀ plan ∈ plans, ∀ source ∈ plan.sourceEffects, ∃ other ∈ plans,
    other.callable = source.source.targetCallable ∧
      (other.skeleton.blocks.any fun block => decide (block.id = source.block)) = true

theorem plansIncomplete_eq_false_iff :
    plansIncomplete plans = false ↔ PlansAgree plans ∧ BlocksExist plans := by
  obtain ⟨hcomplete, hrecords⟩ := records_foldl plans
  rw [plansIncomplete, Bool.or_eq_false_iff, hcomplete, Bool.not_eq_false']
  refine and_congr_right fun hagree => ?_
  have hrecorded := hrecords hagree
  simp only [blocksExist, hrecorded.blocks, all_eq_true, mem_flatMap,
    Option.any_eq_true, hrecorded.skeletons]
  constructor
  · intro h plan hplan source hsource
    obtain ⟨skeleton, ⟨other, hother, hcallable, rfl⟩, hblock⟩ :=
      h source ⟨plan, hplan, hsource⟩
    exact ⟨other, hother, hcallable, hblock⟩
  · intro h source hsource
    obtain ⟨plan, hplan, hsource⟩ := hsource
    obtain ⟨other, hother, hcallable, hblock⟩ := h plan hplan source hsource
    exact ⟨other.skeleton, ⟨other, hother, hcallable, rfl⟩, hblock⟩

theorem PlansAgree.perm (hplans : plans.Perm plans') (hagree : PlansAgree plans) :
    PlansAgree plans' where
  fits := fun plan hplan => hagree.fits plan (hplans.mem_iff.mpr hplan)
  matched := fun plan hplan => hagree.matched plan (hplans.mem_iff.mpr hplan)
  skeleton := fun plan hplan other hother =>
    hagree.skeleton plan (hplans.mem_iff.mpr hplan) other (hplans.mem_iff.mpr hother)
  source := fun plan hplan other hother =>
    hagree.source plan (hplans.mem_iff.mpr hplan) other (hplans.mem_iff.mpr hother)

theorem BlocksExist.perm (hplans : plans.Perm plans') (hblocks : BlocksExist plans) :
    BlocksExist plans' := by
  intro plan hplan source hsource
  obtain ⟨other, hother, hfound⟩ := hblocks plan (hplans.mem_iff.mpr hplan) source hsource
  exact ⟨other, hplans.mem_iff.mp hother, hfound⟩

/-- Whether the plans leave the graph incomplete does not depend on their order. -/
theorem plansIncomplete_perm (hplans : plans.Perm plans') :
    plansIncomplete plans' = plansIncomplete plans := by
  rw [Bool.eq_iff_iff, ← Bool.not_eq_false, ← Bool.not_eq_false, not_iff_not,
    plansIncomplete_eq_false_iff, plansIncomplete_eq_false_iff]
  exact ⟨fun h => ⟨h.1.perm hplans.symm, h.2.perm hplans.symm⟩,
    fun h => ⟨h.1.perm hplans, h.2.perm hplans⟩⟩

end PlanAgreement

end ConvexWasm.Compiler.EffectValueGraph
