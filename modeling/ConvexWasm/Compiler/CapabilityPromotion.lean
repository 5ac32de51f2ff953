import ConvexWasm.Compiler.CapabilityRules

/-!
# The counters of the promotion worklist

The counter of a candidate agrees with the requirements it still waits for, so
it never underflows, and a candidate whose counter reaches zero has all it
requires.
-/

namespace ConvexWasm.Compiler

open Function KeyedMap List

/-- Requirements a key still waits for. -/
def PromotionInput.waitingCount (input : PromotionInput) (state : Promotion)
    (key : CapabilityBindingKey) : ℕ :=
  (input.requirementsOf key).countP fun requirement =>
    decide (key ∈ state.waiting requirement)

open PromotionInput

variable {input : PromotionInput} {state : Promotion}
  {key : CapabilityBindingKey} {requirement : CapabilityRequirement}

def Promotion.ownedKeys (state : Promotion) : Set CapabilityBindingKey :=
  {key | key ∈ state.owned.keys}

/-- Owned keys hold their owners, and the owned references are the owners'. -/
structure Promotion.OwnersRecorded (input : PromotionInput) (state : Promotion) : Prop where
  owner : ∀ key owner, state.owned.get? key = some owner → input.ownerOf key = some owner
  reference : ∀ reference, reference ∈ state.ownedReferences ↔
    ∃ key owner, state.owned.get? key = some owner ∧ reference ∈ owner.referenceKeys

theorem Promotion.OwnersRecorded.satisfies_iff (hrecorded : state.OwnersRecorded input) :
    state.satisfies requirement = true ↔
      input.rules.Satisfied state.ownedKeys requirement := by
  cases requirement with
  | reference reference =>
    simp only [Promotion.satisfies, capabilityRequirementIsSatisfied,
      decide_eq_true_eq, hrecorded.reference]
    constructor
    · rintro ⟨key, owner, hget, hreference⟩
      exact ⟨key, mem_keys_of_get? hget, owner, hrecorded.owner key owner hget,
        .inr ⟨reference, hreference, rfl⟩⟩
    · rintro ⟨key, hkey, owner, howner, hprovides⟩
      obtain ⟨found, hget⟩ := KeyedMap.mem_keys_iff.mp hkey
      have hsame : found = owner :=
        Option.some.inj ((hrecorded.owner key found hget).symm.trans howner)
      subst hsame
      rcases hprovides with hprojection | ⟨other, hother, hsame⟩
      · cases hprojection
      · cases hsame
        exact ⟨key, found, hget, hother⟩
  | parameterProjection projected =>
    simp only [Promotion.satisfies, capabilityRequirementIsSatisfied, containsKey_iff]
    constructor
    · intro hkey
      obtain ⟨owner, hget⟩ := KeyedMap.mem_keys_iff.mp hkey
      exact ⟨projected, hkey, owner, hrecorded.owner projected owner hget, .inl rfl⟩
    · rintro ⟨key, hkey, owner, _, hprovides⟩
      rcases hprovides with hprojection | ⟨_, _, hsame⟩
      · cases hprojection
        exact hkey
      · cases hsame

/-- The worklist agrees with its counters while the requirements in `settling`
are being settled, the keys in `owed` are still to be decremented, and the keys
in `popped` are being promoted. -/
structure Promotion.Consistent (input : PromotionInput)
    (settling : List CapabilityRequirement) (owed popped : List CapabilityBindingKey)
    (state : Promotion) : Prop where
  settling_satisfied : ∀ requirement ∈ settling, state.satisfies requirement = true
  counted : ∀ key remaining, state.remaining key = some remaining →
    remaining = input.waitingCount state key + owed.count key
  counter_candidate : ∀ key, (state.remaining key).isSome → key ∈ input.requirements.keys
  waiting_counted : ∀ key requirement, key ∈ state.waiting requirement →
    requirement ∈ input.requirementsOf key ∧ (state.remaining key).isSome
  owed_counted : ∀ key ∈ owed, (state.remaining key).isSome
  waiting_nodup : ∀ requirement, (state.waiting requirement).Nodup
  waiting_settling : ∀ key requirement, key ∈ state.waiting requirement →
    state.satisfies requirement = true → requirement ∈ settling
  unsatisfied_waiting : ∀ key ∈ input.requirements.keys,
    ∀ requirement ∈ input.requirementsOf key,
      state.satisfies requirement = false → key ∈ state.waiting requirement
  ready_satisfied : ∀ key ∈ state.ready, key ∈ input.requirements.keys ∧
    ∀ requirement ∈ input.requirementsOf key, state.satisfies requirement = true
  ready_drained : ∀ key ∈ state.ready, ∀ remaining, state.remaining key ≠ some (remaining + 1)
  ready_nodup : state.ready.Nodup
  covered : ∀ key ∈ input.requirements.keys, key ∈ popped ∨ key ∈ state.owned.keys ∨
    key ∈ state.ready ∨ ∃ remaining, state.remaining key = some (remaining + 1)

/-- Candidates with a positive counter and candidates that are ready. -/
def Promotion.load (input : PromotionInput) (state : Promotion) : ℕ :=
  (input.requirements.keys.filter fun key =>
    (state.remaining key).any fun remaining => decide (0 < remaining)).length +
    state.ready.length

variable {settling : List CapabilityRequirement}
  {owed popped : List CapabilityBindingKey}

/-- A list without repetition loses one element with the value filtered out. -/
theorem length_filter_update {Item : Type} [DecidableEq Item] {items : List Item}
    (hnodup : items.Nodup) (before after : Item → Bool) {item : Item}
    (hitem : item ∈ items) (hbefore : before item = true) (hafter : after item = false)
    (hsame : ∀ other, other ≠ item → after other = before other) :
    (items.filter after).length + 1 = (items.filter before).length := by
  have hfilter : items.filter after = (items.filter before).erase item := by
    rw [List.Nodup.erase_eq_filter (hnodup.filter _), filter_filter]
    refine filter_congr fun other _ => ?_
    by_cases hother : other = item
    · simp [hother, hafter]
    · simp [hother, hsame other hother]
  have hmem : item ∈ items.filter before := mem_filter.mpr ⟨hitem, hbefore⟩
  rw [hfilter, length_erase_of_mem hmem]
  have := length_pos_of_mem hmem
  omega

/-- A key that is owed a decrement has a positive counter. -/
theorem Promotion.Consistent.release
    (hstate : state.Consistent input settling (key :: owed) popped) :
    ∃ next, state.release key = .ok next ∧ next.owned = state.owned ∧
      next.ownedReferences = state.ownedReferences ∧
      next.Consistent input settling owed popped ∧
      next.load input ≤ state.load input := by
  obtain ⟨counter, hcounter⟩ := Option.isSome_iff_exists.mp (hstate.owed_counted key mem_cons_self)
  have hcounted := hstate.counted key counter hcounter
  rw [count_cons_self] at hcounted
  obtain ⟨remaining, rfl⟩ : ∃ remaining, counter = remaining + 1 :=
    ⟨input.waitingCount state key + owed.count key, by omega⟩
  have hcandidate : key ∈ input.requirements.keys :=
    hstate.counter_candidate key (by simp [hcounter])
  have hnotReady : key ∉ state.ready := fun hready =>
    hstate.ready_drained key hready remaining hcounter
  let next : Promotion := { state with
    remaining := update state.remaining key (some remaining)
    ready := if remaining = 0 then state.ready.insert key else state.ready }
  have hother : ∀ other, other ≠ key → next.remaining other = state.remaining other :=
    fun other hne => update_of_ne hne _ _
  have hself : next.remaining key = some remaining := update_self ..
  have hmemReady : ∀ other, other ∈ next.ready ↔
      (other = key ∧ remaining = 0) ∨ other ∈ state.ready := by
    intro other
    by_cases hzero : remaining = 0
    · simp [next, hzero]
    · simp [next, hzero]
  -- with its counter at zero the key waits for nothing that is unsatisfied
  have hsatisfied : remaining = 0 → ∀ requirement ∈ input.requirementsOf key,
      state.satisfies requirement = true := by
    intro hzero requirement hrequirement
    by_contra hunsatisfied
    have hwaiting := hstate.unsatisfied_waiting key hcandidate requirement hrequirement
      (Bool.eq_false_iff.mpr hunsatisfied)
    have hpositive : 0 < input.waitingCount state key :=
      countP_pos_iff.mpr ⟨requirement, hrequirement, decide_eq_true hwaiting⟩
    omega
  refine ⟨next, ?_, rfl, rfl, ?_, ?_⟩
  · rw [Promotion.release, hcounter]
  · refine
      { hstate with
        counted := ?_
        counter_candidate := ?_
        waiting_counted := ?_
        owed_counted := ?_
        ready_satisfied := ?_
        ready_drained := ?_
        ready_nodup := ?_
        covered := ?_ }
    · intro other count hcount
      by_cases hkey : other = key
      · subst hkey
        rw [hself] at hcount
        have hcount : remaining = count := Option.some.inj hcount
        change count = input.waitingCount state other + owed.count other
        omega
      · rw [hother other hkey] at hcount
        have hcounted := hstate.counted other count hcount
        rw [count_cons_of_ne (Ne.symm hkey)] at hcounted
        exact hcounted
    · intro other hsome
      by_cases hkey : other = key
      · exact hkey ▸ hcandidate
      · rw [hother other hkey] at hsome
        exact hstate.counter_candidate other hsome
    · intro other requirement hwaiting
      obtain ⟨hrequirement, hsome⟩ := hstate.waiting_counted other requirement hwaiting
      refine ⟨hrequirement, ?_⟩
      by_cases hkey : other = key
      · simp [hkey, hself]
      · rwa [hother other hkey]
    · intro other howed
      by_cases hkey : other = key
      · simp [hkey, hself]
      · rw [hother other hkey]
        exact hstate.owed_counted other (mem_cons_of_mem _ howed)
    · intro other hready
      rcases (hmemReady other).mp hready with ⟨rfl, hzero⟩ | hready
      · exact ⟨hcandidate, hsatisfied hzero⟩
      · exact hstate.ready_satisfied other hready
    · intro other hready count hcount
      rcases (hmemReady other).mp hready with ⟨rfl, hzero⟩ | hready
      · rw [hself, hzero] at hcount
        cases hcount
      · by_cases hkey : other = key
        · exact hnotReady (hkey ▸ hready)
        · rw [hother other hkey] at hcount
          exact hstate.ready_drained other hready count hcount
    · by_cases hzero : remaining = 0
      · simp only [next, hzero, if_true]
        exact hstate.ready_nodup.insert
      · simp only [next, hzero, if_false]
        exact hstate.ready_nodup
    · intro other hcandidateOther
      rcases hstate.covered other hcandidateOther with
        hpopped | howned | hready | ⟨count, hcount⟩
      · exact .inl hpopped
      · exact .inr (.inl howned)
      · exact .inr (.inr (.inl ((hmemReady other).mpr (.inr hready))))
      · by_cases hkey : other = key
        · subst hkey
          cases remaining with
          | zero => exact .inr (.inr (.inl ((hmemReady other).mpr (.inl ⟨rfl, rfl⟩))))
          | succ less => exact .inr (.inr (.inr ⟨less, hself⟩))
        · exact .inr (.inr (.inr ⟨count, by rw [hother other hkey, hcount]⟩))
  · by_cases hzero : remaining = 0
    · have hnodup : input.requirements.keys.Nodup := input.requirements.keys_nodup
      have hlength := length_filter_update hnodup
        (fun other => (state.remaining other).any fun count => decide (0 < count))
        (fun other => (next.remaining other).any fun count => decide (0 < count))
        hcandidate (by simp [hcounter]) (by simp [hself, hzero])
        (fun other hne => by simp only [hother other hne])
      have hready : next.ready.length = state.ready.length + 1 := by
        simp only [next, hzero, if_true]
        exact length_insert_of_not_mem hnotReady
      simp only [Promotion.load, hready]
      omega
    · have hfilter : ∀ other, ((next.remaining other).any fun n => decide (0 < n)) =
          (state.remaining other).any fun n => decide (0 < n) := by
        intro other
        by_cases hkey : other = key
        · have : 0 < remaining := Nat.pos_of_ne_zero hzero
          simp [hkey, hself, hcounter, this]
        · rw [hother other hkey]
      have hready : next.ready = state.ready := if_neg hzero
      simp [Promotion.load, hfilter, hready]

/-- Where a fold of worklist steps leads from a state. -/
structure Promotion.LeadsTo (input : PromotionInput)
    (settling : List CapabilityRequirement) (popped : List CapabilityBindingKey)
    (state next : Promotion) : Prop where
  owned : next.owned = state.owned
  ownedReferences : next.ownedReferences = state.ownedReferences
  consistent : next.Consistent input settling [] popped
  load : next.load input ≤ state.load input

theorem Promotion.Consistent.foldlM_release (hstate : state.Consistent input settling owed popped) :
    ∃ next, owed.foldlM Promotion.release state = .ok next ∧
      state.LeadsTo input settling popped next := by
  induction owed generalizing state with
  | nil => exact ⟨state, rfl, rfl, rfl, hstate, le_refl _⟩
  | cons key rest ih =>
    obtain ⟨middle, hmiddle, howned, hreferences, hconsistent, hload⟩ := hstate.release
    obtain ⟨next, hnext, hleads⟩ := ih hconsistent
    refine ⟨next, ?_, ?_⟩
    · rw [foldlM_cons, hmiddle]
      exact hnext
    · exact
        { owned := hleads.owned.trans howned
          ownedReferences := hleads.ownedReferences.trans hreferences
          consistent := hleads.consistent
          load := hleads.load.trans hload }

/-- Emptying a waiting list leaves its keys owed one decrement each. -/
theorem waitingCount_update (hnodup : (input.requirementsOf key).Nodup)
    (hwaiting : ∀ key, key ∈ state.waiting requirement → requirement ∈ input.requirementsOf key)
    (hwaitingNodup : (state.waiting requirement).Nodup) :
    input.waitingCount state key =
      input.waitingCount { state with
        waiting := update state.waiting requirement [] } key +
      (state.waiting requirement).count key := by
  let emptied := update state.waiting requirement []
  have hself : emptied requirement = [] := update_self ..
  have hother : ∀ other, other ≠ requirement → emptied other = state.waiting other :=
    fun other hne => update_of_ne hne _ _
  simp only [waitingCount, countP_eq_length_filter]
  by_cases hkey : key ∈ state.waiting requirement
  · rw [count_eq_one_of_mem hwaitingNodup hkey]
    have hlength := length_filter_update hnodup
      (fun other => decide (key ∈ state.waiting other))
      (fun other => decide (key ∈ emptied other)) (hwaiting key hkey)
      (decide_eq_true hkey) (by simp [hself])
      (fun other hne => by simp only [hother other hne])
    exact hlength.symm
  · rw [count_eq_zero_of_not_mem hkey, Nat.add_zero]
    congr 1
    refine filter_congr fun other _ => ?_
    by_cases hsame : other = requirement
    · subst hsame
      simp [hkey]
    · simp [hsame]

theorem Promotion.Consistent.settle (hwell : input.WellFormed)
    (hstate : state.Consistent input (requirement :: settling) [] popped) :
    ∃ next, state.settle requirement = .ok next ∧
      state.LeadsTo input settling popped next := by
  let emptied : Promotion := { state with
    waiting := update state.waiting requirement [] }
  have hself : emptied.waiting requirement = [] := update_self ..
  have hother : ∀ other, other ≠ requirement →
      emptied.waiting other = state.waiting other :=
    fun other hne => update_of_ne hne _ _
  have hsubset : ∀ other key, key ∈ emptied.waiting other →
      other ≠ requirement ∧ key ∈ state.waiting other := by
    intro other key hkey
    by_cases hsame : other = requirement
    · subst hsame
      rw [hself] at hkey
      cases hkey
    · rw [hother other hsame] at hkey
      exact ⟨hsame, hkey⟩
  have hemptied : emptied.Consistent input settling (state.waiting requirement) popped := by
    refine
      { hstate with
        settling_satisfied := fun other hmem =>
          hstate.settling_satisfied other (mem_cons_of_mem _ hmem)
        counted := ?_
        waiting_counted := fun key other hkey =>
          hstate.waiting_counted key other (hsubset other key hkey).2
        owed_counted := fun key hkey => (hstate.waiting_counted key requirement hkey).2
        waiting_nodup := ?_
        waiting_settling := ?_
        unsatisfied_waiting := ?_
        covered := hstate.covered }
    · intro key remaining hremaining
      have hcounted := hstate.counted key remaining hremaining
      rw [hcounted]
      exact waitingCount_update (hwell.nodup key)
        (fun key hkey => (hstate.waiting_counted key requirement hkey).1)
        (hstate.waiting_nodup requirement)
    · intro other
      by_cases hsame : other = requirement
      · rw [hsame, hself]
        exact nodup_nil
      · rw [hother other hsame]
        exact hstate.waiting_nodup other
    · intro key other hkey hsatisfied
      obtain ⟨hne, hkey⟩ := hsubset other key hkey
      rcases mem_cons.mp (hstate.waiting_settling key other hkey hsatisfied) with
        hsame | hsettling
      · exact absurd hsame hne
      · exact hsettling
    · intro key hkey other hother' hunsatisfied
      have hne : other ≠ requirement := by
        rintro rfl
        have hsatisfied := hstate.settling_satisfied other mem_cons_self
        exact Bool.false_ne_true (hunsatisfied.symm.trans hsatisfied)
      rw [hother other hne]
      exact hstate.unsatisfied_waiting key hkey other hother' hunsatisfied
  obtain ⟨next, hnext, hleads⟩ := hemptied.foldlM_release
  exact ⟨next, hnext, hleads.owned, hleads.ownedReferences, hleads.consistent, hleads.load⟩

theorem Promotion.Consistent.foldlM_settle (hwell : input.WellFormed)
    (hstate : state.Consistent input settling [] popped) :
    ∃ next, settling.foldlM Promotion.settle state = .ok next ∧
      state.LeadsTo input [] popped next := by
  induction settling generalizing state with
  | nil => exact ⟨state, rfl, rfl, rfl, hstate, le_refl _⟩
  | cons requirement rest ih =>
    obtain ⟨middle, hmiddle, hfirst⟩ := hstate.settle hwell
    obtain ⟨next, hnext, hleads⟩ := ih hfirst.consistent
    refine ⟨next, ?_, ?_⟩
    · rw [foldlM_cons, hmiddle]
      exact hnext
    · exact
        { owned := hleads.owned.trans hfirst.owned
          ownedReferences := hleads.ownedReferences.trans hfirst.ownedReferences
          consistent := hleads.consistent
          load := hleads.load.trans hfirst.load }

theorem mem_insertReferences {references : List CapabilityReferenceKey}
    {owner : CapabilityOwner} {reference : CapabilityReferenceKey} :
    (reference ∈ (insertReferences references owner).1 ↔
      reference ∈ references ∨ reference ∈ owner.referenceKeys) ∧
    (reference ∈ (insertReferences references owner).2 ↔
      reference ∈ owner.referenceKeys ∧ reference ∉ references) := by
  have hinserted : reference ∈ (insertReferences references owner).2 ↔
      reference ∈ owner.referenceKeys ∧ reference ∉ references := by
    simp [insertReferences]
  refine ⟨?_, hinserted⟩
  have hsplit : reference ∈ (insertReferences references owner).1 ↔
      reference ∈ references ∨ reference ∈ (insertReferences references owner).2 := by
    simp [insertReferences]
  rw [hsplit, hinserted]
  by_cases hmem : reference ∈ references
  · simp [hmem]
  · simp [hmem]

theorem mem_foldl_recordOwner (entries : List (CapabilityBindingKey × CapabilityOwner)) :
    ∀ recorded : List CapabilityReferenceKey × List CapabilityRequirement,
      (∀ reference, reference ∈ (entries.foldl Promotion.recordOwner recorded).1 ↔
        reference ∈ recorded.1 ∨ ∃ entry ∈ entries, reference ∈ entry.2.referenceKeys) ∧
      (∀ requirement, requirement ∈ (entries.foldl Promotion.recordOwner recorded).2 ↔
        requirement ∈ recorded.2 ∨
          (∃ entry ∈ entries, requirement = .parameterProjection entry.1) ∨
          ∃ reference, requirement = .reference reference ∧
            reference ∈ (entries.foldl Promotion.recordOwner recorded).1 ∧
            reference ∉ recorded.1) := by
  induction entries with
  | nil =>
    intro recorded
    refine ⟨by simp, fun requirement => ?_⟩
    constructor
    · exact .inl
    · rintro (hmem | ⟨_, hmem, _⟩ | ⟨_, _, hmem, hnot⟩)
      · exact hmem
      · cases hmem
      · exact absurd hmem hnot
  | cons entry rest ih =>
    intro recorded
    obtain ⟨hreferences, hrequirements⟩ := ih (Promotion.recordOwner recorded entry)
    have hfirst : ∀ reference, reference ∈ (Promotion.recordOwner recorded entry).1 ↔
        reference ∈ recorded.1 ∨ reference ∈ entry.2.referenceKeys :=
      fun reference => mem_insertReferences.1
    have hsecond : ∀ requirement,
        requirement ∈ (Promotion.recordOwner recorded entry).2 ↔
          requirement ∈ recorded.2 ∨ requirement = .parameterProjection entry.1 ∨
            ∃ reference, requirement = .reference reference ∧
              reference ∈ entry.2.referenceKeys ∧ reference ∉ recorded.1 := by
      intro requirement
      simp only [Promotion.recordOwner, mem_append, mem_cons, mem_map, mem_insertReferences]
      constructor
      · rintro (hmem | hmem | ⟨reference, hmem, rfl⟩)
        · exact .inl hmem
        · exact .inr (.inl hmem)
        · exact .inr (.inr ⟨reference, rfl, hmem⟩)
      · rintro (hmem | hmem | ⟨reference, rfl, hmem⟩)
        · exact .inl hmem
        · exact .inr (.inl hmem)
        · exact .inr (.inr ⟨reference, hmem, rfl⟩)
    rw [foldl_cons]
    refine ⟨fun reference => ?_, fun requirement => ?_⟩
    · rw [hreferences, hfirst]
      simp [or_assoc]
    · rw [hrequirements, hsecond]
      constructor
      · rintro ((hmem | rfl | ⟨reference, rfl, hmem, hnot⟩) | ⟨later, hlater, rfl⟩ |
          ⟨reference, rfl, hmem, hnot⟩)
        · exact .inl hmem
        · exact .inr (.inl ⟨entry, mem_cons_self, rfl⟩)
        · refine .inr (.inr ⟨reference, rfl, ?_, hnot⟩)
          exact (hreferences reference).mpr (.inl ((hfirst reference).mpr (.inr hmem)))
        · exact .inr (.inl ⟨later, mem_cons_of_mem _ hlater, rfl⟩)
        · exact .inr (.inr ⟨reference, rfl, hmem, fun hold =>
            hnot ((hfirst reference).mpr (.inl hold))⟩)
      · rintro (hmem | ⟨found, hfound, rfl⟩ | ⟨reference, rfl, hmem, hnot⟩)
        · exact .inl (.inl hmem)
        · rcases mem_cons.mp hfound with rfl | hlater
          · exact .inl (.inr (.inl rfl))
          · exact .inr (.inl ⟨found, hlater, rfl⟩)
        · by_cases hnew : reference ∈ (Promotion.recordOwner recorded entry).1
          · rcases (hfirst reference).mp hnew with hold | hown
            · exact absurd hold hnot
            · exact .inl (.inr (.inr ⟨reference, rfl, hown, hnot⟩))
          · exact .inr (.inr ⟨reference, rfl, hmem, hnew⟩)

theorem foldlM_ownEntry {entries : List (CapabilityBindingKey × CapabilityOwner)}
    (hnodup : (entries.map Prod.fst).Nodup) :
    ∀ owned : CapabilityOwners, (∀ entry ∈ entries, entry.1 ∉ owned.keys) →
      ∃ next, entries.foldlM Promotion.ownEntry owned = .ok next ∧
        ∀ key owner, next.get? key = some owner ↔
          owned.get? key = some owner ∨ (key, owner) ∈ entries := by
  induction entries with
  | nil => exact fun owned _ => ⟨owned, rfl, by simp⟩
  | cons entry rest ih =>
    intro owned hfresh
    obtain ⟨hentry, hnodup⟩ := nodup_cons.mp hnodup
    have hne : ∀ later ∈ rest, later.1 ≠ entry.1 := fun later hlater heq =>
      hentry (heq ▸ mem_map_of_mem hlater)
    have hhead : entry.1 ∉ owned.keys := hfresh entry mem_cons_self
    have hfreshNext : ∀ later ∈ rest, later.1 ∉ (owned.insert entry.1 entry.2).keys := by
      intro later hlater hmem
      rcases KeyedMap.mem_keys_insert.mp hmem with heq | hmem
      · exact hne later hlater heq
      · exact hfresh later (mem_cons_of_mem _ hlater) hmem
    obtain ⟨next, hnext, hget⟩ := ih hnodup _ hfreshNext
    refine ⟨next, ?_, fun key owner => ?_⟩
    · have hcontains : ¬ owned.containsKey entry.1 = true := fun hcontains =>
        hhead (KeyedMap.containsKey_iff.mp hcontains)
      rw [foldlM_cons, Promotion.ownEntry, if_neg hcontains]
      exact hnext
    · rw [hget, mem_cons, Prod.ext_iff]
      by_cases hkey : key = entry.1
      · subst hkey
        rw [KeyedMap.get?_insert_self, KeyedMap.get?_eq_none_iff.mpr hhead]
        simp [eq_comm]
      · rw [KeyedMap.get?_insert_of_ne hkey]
        simp [hkey]

variable {keys : List CapabilityBindingKey}

theorem mapM_candidateEntry (hcandidates : ∀ key ∈ keys, key ∈ input.candidates.keys) :
    ∃ entries, keys.mapM input.candidateEntry = .ok entries ∧
      entries.map Prod.fst = keys ∧
      ∀ entry ∈ entries, input.candidates.get? entry.1 = some entry.2 := by
  induction keys with
  | nil => exact ⟨[], rfl, rfl, by simp⟩
  | cons key rest ih =>
    obtain ⟨owner, howner⟩ := KeyedMap.mem_keys_iff.mp (hcandidates key mem_cons_self)
    obtain ⟨entries, hentries, hkeys, hgets⟩ :=
      ih fun later hlater => hcandidates later (mem_cons_of_mem _ hlater)
    have hentry : input.candidateEntry key = .ok (key, owner) := by
      rw [candidateEntry, howner]
    refine ⟨(key, owner) :: entries, ?_, ?_, ?_⟩
    · rw [mapM_cons, hentry, hentries]
      rfl
    · rw [map_cons, hkeys]
    · intro entry hmem
      rcases mem_cons.mp hmem with rfl | hmem
      · exact howner
      · exact hgets entry hmem

/-- Promoting candidates that are not owned yet never fails. -/
theorem Promotion.Consistent.promote (hwell : input.WellFormed)
    (hstate : state.Consistent input [] [] popped) (hrecorded : state.OwnersRecorded input)
    (hnodup : keys.Nodup)
    (hkeys : ∀ key ∈ keys, key ∈ input.requirements.keys ∧ key ∉ state.owned.keys)
    (hpopped : ∀ key ∈ popped, key ∈ keys) :
    ∃ next, input.promoteCapabilityParameters keys state = .ok next ∧
      next.OwnersRecorded input ∧
      next.ownedKeys = state.ownedKeys ∪ {key | key ∈ keys} ∧
      next.Consistent input [] [] [] ∧ next.load input ≤ state.load input := by
  have hfilter : keys.filter (fun key => !state.owned.containsKey key) = keys := by
    rw [filter_eq_self]
    intro key hkey
    have hcontains : ¬ state.owned.containsKey key = true := fun hcontains =>
      (hkeys key hkey).2 (KeyedMap.containsKey_iff.mp hcontains)
    simpa using hcontains
  obtain ⟨entries, hentries, hentryKeys, hgets⟩ :=
    mapM_candidateEntry fun key hkey => hwell.candidate key (hkeys key hkey).1
  have hentryMem : ∀ entry ∈ entries, entry.1 ∈ keys := fun entry hentry =>
    hentryKeys ▸ mem_map_of_mem hentry
  obtain ⟨owned, howned, hownedGet⟩ :=
    foldlM_ownEntry (hentryKeys ▸ hnodup) state.owned
      fun entry hentry => (hkeys entry.1 (hentryMem entry hentry)).2
  let recorded := entries.foldl Promotion.recordOwner (state.ownedReferences, [])
  obtain ⟨hreferences, hinserted⟩ :
      (∀ reference, reference ∈ recorded.1 ↔ reference ∈ state.ownedReferences ∨
        ∃ entry ∈ entries, reference ∈ entry.2.referenceKeys) ∧
      (∀ requirement, requirement ∈ recorded.2 ↔ requirement ∈ [] ∨
        (∃ entry ∈ entries, requirement = .parameterProjection entry.1) ∨
          ∃ reference, requirement = .reference reference ∧
            reference ∈ recorded.1 ∧ reference ∉ state.ownedReferences) :=
    mem_foldl_recordOwner entries (state.ownedReferences, [])
  let grown : Promotion :=
    { state with owned := owned, ownedReferences := recorded.1 }
  have hmemOwned : ∀ key, key ∈ owned.keys ↔ key ∈ state.owned.keys ∨ key ∈ keys := by
    intro key
    rw [mem_keys_iff, mem_keys_iff, ← hentryKeys]
    simp [hownedGet, exists_or]
  have hgrownRecorded : grown.OwnersRecorded input := by
    refine ⟨fun key owner hget => ?_, fun reference => ?_⟩
    · rcases (hownedGet key owner).mp hget with hold | hnew
      · exact hrecorded.owner key owner hold
      · exact ownerOf_candidate (hwell.not_root key (hkeys key (hentryMem _ hnew)).1) (hgets _ hnew)
    · rw [hreferences, hrecorded.reference]
      constructor
      · rintro (⟨key, owner, hget, hmem⟩ | ⟨entry, hentry, hmem⟩)
        · exact ⟨key, owner, (hownedGet key owner).mpr (.inl hget), hmem⟩
        · exact ⟨entry.1, entry.2, (hownedGet _ _).mpr (.inr hentry), hmem⟩
      · rintro ⟨key, owner, hget, hmem⟩
        rcases (hownedGet key owner).mp hget with hold | hnew
        · exact .inl ⟨key, owner, hold, hmem⟩
        · exact .inr ⟨(key, owner), hnew, hmem⟩
  have hsatisfied : ∀ requirement, grown.satisfies requirement = true ↔
      state.satisfies requirement = true ∨ requirement ∈ recorded.2 := by
    intro requirement
    rw [hinserted]
    cases requirement with
    | reference reference =>
      simp only [Promotion.satisfies, capabilityRequirementIsSatisfied,
        decide_eq_true_eq, CapabilityRequirement.reference.injEq, exists_eq_left',
        not_mem_nil, false_or, reduceCtorEq, and_false, exists_false]
      change reference ∈ recorded.1 ↔ _
      by_cases hold : reference ∈ state.ownedReferences
      · simp [hold, (hreferences reference).mpr (.inl hold)]
      · simp [hold]
    | parameterProjection projected =>
      simp only [Promotion.satisfies, capabilityRequirementIsSatisfied,
        containsKey_iff, CapabilityRequirement.parameterProjection.injEq,
        not_mem_nil, false_or, reduceCtorEq, false_and, exists_false, or_false]
      change projected ∈ owned.keys ↔ _
      rw [hmemOwned, ← hentryKeys, mem_map]
      simp
  have hgrown : grown.Consistent input recorded.2 [] [] := by
    refine
      { hstate with
        settling_satisfied := fun requirement hmem =>
          (hsatisfied requirement).mpr (.inr hmem)
        waiting_settling := ?_
        unsatisfied_waiting := ?_
        ready_satisfied := ?_
        covered := ?_ }
    · intro key requirement hkey hnow
      rcases (hsatisfied requirement).mp hnow with hold | hnew
      · exact absurd (hstate.waiting_settling key requirement hkey hold) not_mem_nil
      · exact hnew
    · intro key hkey requirement hrequirement hunsatisfied
      refine hstate.unsatisfied_waiting key hkey requirement hrequirement ?_
      by_contra hold
      have hnow := (hsatisfied requirement).mpr (.inl (by simpa using hold))
      exact Bool.false_ne_true (hunsatisfied.symm.trans hnow)
    · intro key hready
      obtain ⟨hcandidate, hall⟩ := hstate.ready_satisfied key hready
      exact ⟨hcandidate, fun requirement hrequirement =>
        (hsatisfied requirement).mpr (.inl (hall requirement hrequirement))⟩
    · intro key hkey
      rcases hstate.covered key hkey with hpop | hold | hrest
      · exact .inr (.inl ((hmemOwned key).mpr (.inr (hpopped key hpop))))
      · exact .inr (.inl ((hmemOwned key).mpr (.inl hold)))
      · exact .inr (.inr hrest)
  obtain ⟨next, hnext, hleads⟩ := hgrown.foldlM_settle hwell
  refine ⟨next, ?_, ⟨?_, ?_⟩, ?_, hleads.consistent, hleads.load⟩
  · rw [promoteCapabilityParameters, hfilter, hentries]
    change (entries.foldlM Promotion.ownEntry state.owned >>= fun owned =>
      recorded.2.foldlM Promotion.settle
        { state with owned := owned, ownedReferences := recorded.1 }) = _
    rw [howned]
    exact hnext
  · rw [hleads.owned]
    exact hgrownRecorded.owner
  · rw [hleads.owned, hleads.ownedReferences]
    exact hgrownRecorded.reference
  · ext key
    simp only [Promotion.ownedKeys, hleads.owned]
    exact hmemOwned key

end ConvexWasm.Compiler
