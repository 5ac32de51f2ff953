import ConvexWasm.Compiler.DiagnosticCensus

/-!
# The census does not depend on the order of the results

Whatever order the results arrive in, the ordinals list the diagnostics seen,
the entries count them, and each result's membership lists its ordinals.  The
final census is then a function of the diagnostics of each result alone.
-/

namespace ConvexWasm.Compiler.DiagnosticCensus

open Attempt Function List

theorem set_map_range {Value : Type} {count index : ℕ} {slot : ℕ → Value} {value : Value} :
    ((List.range count).map slot).set index value =
      (List.range count).map (update slot index value) := by
  apply ext_getElem
  · simp
  · intro position hset hmap
    by_cases hindex : index = position
    · subst hindex
      simp
    · simp [hindex, update_of_ne (Ne.symm hindex)]

theorem idxOf_of_initial {keys later : List DiagnosticCensusKey} (hgrows : keys <+: later)
    {key : DiagnosticCensusKey} (hkey : key ∈ keys) : later.idxOf key = keys.idxOf key := by
  obtain ⟨more, rfl⟩ := hgrows
  exact idxOf_append_of_mem hkey

/-- The entries are the keys seen, under their ordinals, with their counts. -/
structure Tallies (entries : KeyedMap DiagnosticCensusKey ProvisionalDiagnosticCensusEntry)
    (keysByOrdinal : List DiagnosticCensusKey)
    (occurrences exports : DiagnosticCensusKey → ℕ) : Prop where
  keys_nodup : keysByOrdinal.Nodup
  listed : ∀ key ∈ keysByOrdinal,
    entries.get? key = some ⟨keysByOrdinal.idxOf key, ⟨occurrences key, exports key⟩⟩
  unlisted : ∀ key ∉ keysByOrdinal, entries.get? key = none ∧ occurrences key = 0 ∧ exports key = 0

namespace Tallies

variable {entries : KeyedMap DiagnosticCensusKey ProvisionalDiagnosticCensusEntry}
  {keysByOrdinal : List DiagnosticCensusKey} {occurrences exports : DiagnosticCensusKey → ℕ}
  {key : DiagnosticCensusKey}

variable (htallies : Tallies entries keysByOrdinal occurrences exports)
include htallies

theorem mem_keys_iff : key ∈ entries.keys ↔ key ∈ keysByOrdinal := by
  rw [KeyedMap.mem_keys_iff]
  constructor
  · rintro ⟨entry, hentry⟩
    by_contra hkey
    rw [(htallies.unlisted key hkey).1] at hentry
    cases hentry
  · exact fun hkey => ⟨_, htallies.listed key hkey⟩

theorem keys_perm : entries.keys.Perm keysByOrdinal :=
  (perm_ext_iff_of_nodup entries.keys_nodup htallies.keys_nodup).mpr fun _ => htallies.mem_keys_iff

theorem length_entries : entries.entries.length = keysByOrdinal.length := by
  rw [← htallies.keys_perm.length_eq, KeyedMap.keys, length_map]

/-- A key already listed gets new counts. -/
theorem recount (hkey : key ∈ keysByOrdinal) (occurrence reach : ℕ) :
    Tallies (entries.insert key ⟨keysByOrdinal.idxOf key, ⟨occurrence, reach⟩⟩) keysByOrdinal
      (update occurrences key occurrence) (update exports key reach) where
  keys_nodup := htallies.keys_nodup
  listed := by
    intro other hother
    by_cases heq : other = key
    · subst heq
      rw [KeyedMap.get?_insert_self, update_self, update_self]
    · rw [KeyedMap.get?_insert_of_ne heq, update_of_ne heq, update_of_ne heq]
      exact htallies.listed other hother
  unlisted := by
    intro other hother
    have hne : other ≠ key := fun heq => hother (heq ▸ hkey)
    rw [KeyedMap.get?_insert_of_ne hne, update_of_ne hne, update_of_ne hne]
    exact htallies.unlisted other hother

/-- A new key gets the next ordinal and one occurrence. -/
theorem enlist (hkey : key ∉ keysByOrdinal) :
    Tallies (entries.insert key ⟨keysByOrdinal.length, ⟨1, 0⟩⟩) (keysByOrdinal ++ [key])
      (update occurrences key 1) exports where
  keys_nodup := by
    rw [nodup_append]
    refine ⟨htallies.keys_nodup, nodup_singleton _, ?_⟩
    rintro first hfirst second hsecond rfl
    rw [mem_singleton] at hsecond
    exact hkey (hsecond ▸ hfirst)
  listed := by
    intro other hother
    by_cases heq : other = key
    · subst heq
      have hexports := (htallies.unlisted other hkey).2.2
      rw [KeyedMap.get?_insert_self, update_self, hexports, idxOf_append_of_notMem hkey]
      simp
    · have hlisted : other ∈ keysByOrdinal := by
        simpa [heq] using hother
      rw [KeyedMap.get?_insert_of_ne heq, update_of_ne heq, idxOf_append_of_mem hlisted]
      exact htallies.listed other hlisted
  unlisted := by
    intro other hother
    rw [mem_append, mem_singleton, not_or] at hother
    rw [KeyedMap.get?_insert_of_ne hother.2, update_of_ne hother.2]
    exact htallies.unlisted other hother.1

end Tallies

section Note

variable {noted : NotedDiagnostics}

/-- A diagnostic is listed once it is noted, its occurrence is counted, and its
ordinal joins the membership. -/
theorem noteDiagnostic_spec (diagnostic : DiagnosticCensusKey)
    (htallies : Tallies noted.entries noted.keysByOrdinal occurrences exports) :
    let after := noteDiagnostic noted diagnostic
    Tallies after.entries after.keysByOrdinal
        (update occurrences diagnostic (occurrences diagnostic + 1)) exports ∧
      noted.keysByOrdinal <+: after.keysByOrdinal ∧
      (∀ key, key ∈ after.keysByOrdinal ↔ key ∈ noted.keysByOrdinal ∨ key = diagnostic) ∧
      after.provisionalMembership =
        insert (after.keysByOrdinal.idxOf diagnostic) noted.provisionalMembership := by
  intro after
  by_cases hlisted : diagnostic ∈ noted.keysByOrdinal
  · have hentry := htallies.listed diagnostic hlisted
    have hafter : after = ⟨noted.entries.insert diagnostic
        ⟨noted.keysByOrdinal.idxOf diagnostic,
          ⟨occurrences diagnostic + 1, exports diagnostic⟩⟩, noted.keysByOrdinal,
        insert (noted.keysByOrdinal.idxOf diagnostic) noted.provisionalMembership⟩ := by
      simp only [after, noteDiagnostic, hentry]
    rw [hafter]
    refine ⟨?_, prefix_rfl, ?_, rfl⟩
    · have hrecount := htallies.recount hlisted (occurrences diagnostic + 1) (exports diagnostic)
      rwa [update_eq_self diagnostic exports] at hrecount
    · exact fun key => ⟨.inl, fun hkey => hkey.elim id fun heq => heq ▸ hlisted⟩
  · obtain ⟨hentry, hzero, -⟩ := htallies.unlisted diagnostic hlisted
    have hafter : after = ⟨noted.entries.insert diagnostic
        ⟨noted.keysByOrdinal.length, ⟨1, 0⟩⟩, noted.keysByOrdinal ++ [diagnostic],
        insert noted.keysByOrdinal.length noted.provisionalMembership⟩ := by
      simp only [after, noteDiagnostic, hentry, htallies.length_entries]
    rw [hafter]
    refine ⟨?_, prefix_append _ _, ?_, ?_⟩
    · rw [hzero]
      exact htallies.enlist hlisted
    · intro key
      rw [mem_append, mem_singleton]
    · show insert _ _ = insert _ _
      rw [idxOf_append_of_notMem hlisted]
      simp

theorem foldl_noteDiagnostic_spec {diagnostics : List DiagnosticCensusKey}
    {members : Finset DiagnosticCensusKey}
    (htallies : Tallies noted.entries noted.keysByOrdinal occurrences exports)
    (hmembers : ∀ key ∈ members, key ∈ noted.keysByOrdinal)
    (hordinals : noted.provisionalMembership = members.image noted.keysByOrdinal.idxOf) :
    let after := diagnostics.foldl noteDiagnostic noted
    Tallies after.entries after.keysByOrdinal
        (fun key => occurrences key + diagnostics.count key) exports ∧
      noted.keysByOrdinal <+: after.keysByOrdinal ∧
      (∀ key, key ∈ after.keysByOrdinal ↔ key ∈ noted.keysByOrdinal ∨ key ∈ diagnostics) ∧
      after.provisionalMembership =
        (members ∪ diagnostics.toFinset).image after.keysByOrdinal.idxOf := by
  induction diagnostics generalizing noted occurrences members with
  | nil => exact ⟨by simpa using htallies, prefix_rfl, by simp, by simpa using hordinals⟩
  | cons diagnostic later ih =>
    obtain ⟨hnoted, hgrows, hkeys, hmembership⟩ := noteDiagnostic_spec diagnostic htallies
    have hmembers' : ∀ key ∈ insert diagnostic members,
        key ∈ (noteDiagnostic noted diagnostic).keysByOrdinal := by
      intro key hkey
      rw [hkeys]
      exact (Finset.mem_insert.mp hkey).symm.imp_left (hmembers key)
    have hordinals' : (noteDiagnostic noted diagnostic).provisionalMembership =
        (insert diagnostic members).image
          (noteDiagnostic noted diagnostic).keysByOrdinal.idxOf := by
      rw [hmembership, Finset.image_insert, hordinals]
      congr 1
      exact Finset.image_congr fun key hkey =>
        (idxOf_of_initial hgrows (hmembers key hkey)).symm
    obtain ⟨hafter, hafterGrows, hafterKeys, hafterMembership⟩ := ih hnoted hmembers' hordinals'
    refine ⟨?_, hgrows.trans hafterGrows, ?_, ?_⟩
    · have hcounts : (fun key => update occurrences diagnostic
          (occurrences diagnostic + 1) key + later.count key) =
          fun key => occurrences key + (diagnostic :: later).count key := by
        funext key
        by_cases hkey : key = diagnostic
        · subst hkey
          rw [update_self, count_cons_self]
          omega
        · rw [update_of_ne hkey, count_cons_of_ne (Ne.symm hkey)]
      rw [hcounts] at hafter
      exact hafter
    · intro key
      rw [foldl_cons, hafterKeys, hkeys, mem_cons, or_assoc]
    · rw [foldl_cons, hafterMembership, toFinset_cons, Finset.insert_union, Finset.union_insert]

end Note

variable {census : DiagnosticCensusAccumulator}

section Record

variable (htallies : Tallies census.entries census.keysByOrdinal occurrences exports)
include htallies

theorem countExport_spec {ordinal : ℕ} (hordinal : ordinal < census.keysByOrdinal.length) :
    let key := census.keysByOrdinal.get ⟨ordinal, hordinal⟩
    ∃ entries, DiagnosticCensusAccumulator.countExport ordinal census =
        ({ census with entries := entries }, .ok ()) ∧
      Tallies entries census.keysByOrdinal occurrences
        (update exports key (exports key + 1)) := by
  intro key
  have hkey : census.keysByOrdinal[ordinal]? = some key := List.getElem?_eq_getElem hordinal
  have hmem : key ∈ census.keysByOrdinal := getElem_mem hordinal
  refine ⟨census.entries.insert key ⟨census.keysByOrdinal.idxOf key,
    ⟨occurrences key, exports key + 1⟩⟩, ?_, ?_⟩
  · rw [DiagnosticCensusAccumulator.countExport, read_bind, context_bind_some hkey,
      context_bind_some (htallies.listed key hmem)]
    rfl
  · have hrecount := htallies.recount hmem (occurrences key) (exports key + 1)
    rwa [update_eq_self key occurrences] at hrecount

/-- One export more for every key whose ordinal the pass goes over. -/
theorem each_countExport_spec {ordinals : List ℕ}
    (hordinals : ∀ ordinal ∈ ordinals, ordinal < census.keysByOrdinal.length) :
    ∃ entries, each ordinals DiagnosticCensusAccumulator.countExport census =
        ({ census with entries := entries }, .ok ()) ∧
      Tallies entries census.keysByOrdinal occurrences
        fun key => exports key + ordinals.count (census.keysByOrdinal.idxOf key) := by
  let Holds (before : List ℕ) (state : DiagnosticCensusAccumulator) : Prop :=
    ∃ entries, state = { census with entries := entries } ∧
      Tallies entries census.keysByOrdinal occurrences
        fun key => exports key + before.count (census.keysByOrdinal.idxOf key)
  have hinitial : Holds [] census := ⟨census.entries, rfl, by simpa using htallies⟩
  have hstep : ∀ before ordinal later state, ordinals = before ++ ordinal :: later →
      Holds before state → ∃ after,
        DiagnosticCensusAccumulator.countExport ordinal state = (after, .ok ()) ∧
          Holds (before ++ [ordinal]) after := by
    rintro before ordinal later state hitems ⟨entries, rfl, hbefore⟩
    have hordinal : ordinal < census.keysByOrdinal.length := hordinals ordinal (by simp [hitems])
    let middle : DiagnosticCensusAccumulator := { census with entries := entries }
    have hmiddle : Tallies middle.entries middle.keysByOrdinal occurrences _ := hbefore
    obtain ⟨counted, hcount, hcounted⟩ := countExport_spec hmiddle hordinal
    refine ⟨_, hcount, counted, rfl, ?_⟩
    have hcounts : (fun key => exports key +
        (before ++ [ordinal]).count (census.keysByOrdinal.idxOf key)) =
        update (fun key => exports key + before.count (census.keysByOrdinal.idxOf key))
          (census.keysByOrdinal.get ⟨ordinal, hordinal⟩)
          (exports (census.keysByOrdinal.get ⟨ordinal, hordinal⟩) +
            before.count (census.keysByOrdinal.idxOf
              (census.keysByOrdinal.get ⟨ordinal, hordinal⟩)) + 1) := by
      funext key
      have hidx : census.keysByOrdinal.idxOf (census.keysByOrdinal.get ⟨ordinal, hordinal⟩) =
          ordinal := List.Nodup.idxOf_getElem htallies.keys_nodup ordinal hordinal
      by_cases hkey : key = census.keysByOrdinal.get ⟨ordinal, hordinal⟩
      · rw [hkey, update_self, hidx, count_append, count_singleton_self]
        omega
      · have hne : ordinal ≠ census.keysByOrdinal.idxOf key := by
          intro heq
          have hlt : census.keysByOrdinal.idxOf key < census.keysByOrdinal.length := heq ▸ hordinal
          apply hkey
          have hget := getElem_idxOf hlt
          simp only [← heq] at hget
          exact hget.symm
        rw [update_of_ne hkey, count_append, count_singleton, if_neg (by simpa using hne)]
        omega
    rw [hcounts]
    exact hcounted
  obtain ⟨after, hrun, entries, rfl, htallied⟩ := each_of_step hstep hinitial
  exact ⟨entries, hrun, htallied⟩

end Record

section Describe

variable (diagnosticsOf : ℕ → List DiagnosticCensusKey)

def occurrences (seen : List ℕ) (key : DiagnosticCensusKey) : ℕ :=
  (seen.flatMap diagnosticsOf).count key

def exportsWith (seen : List ℕ) (key : DiagnosticCensusKey) : ℕ :=
  seen.countP fun index => decide (key ∈ diagnosticsOf index)

/-- The positions of a result's diagnostics among the listed keys. -/
def membersAmong (keys : List DiagnosticCensusKey) (index : ℕ) : List ℕ :=
  ((diagnosticsOf index).toFinset.image keys.idxOf).sort

/-- What the accumulator holds once the results `seen` are recorded. -/
structure Describes (count : ℕ) (capture : Bool) (seen : List ℕ)
    (census : DiagnosticCensusAccumulator) : Prop where
  tallies : Tallies census.entries census.keysByOrdinal
    (occurrences diagnosticsOf seen) (exportsWith diagnosticsOf seen)
  mem_keys : ∀ key, key ∈ census.keysByOrdinal ↔ ∃ index ∈ seen, key ∈ diagnosticsOf index
  recorded : census.recordedResults = (List.range count).map fun index => decide (index ∈ seen)
  membership : census.membershipByResultIndex = if capture then
    some ((List.range count).map fun index =>
      if index ∈ seen then some (membersAmong diagnosticsOf census.keysByOrdinal index) else none)
    else none
  occurrence_count : census.occurrenceCount = (seen.flatMap diagnosticsOf).length
  max_diagnostics : census.maxDiagnosticsPerExport =
    (seen.map fun index => (diagnosticsOf index).length).foldl max 0
  reference_count : census.membershipReferenceCount =
    (seen.map fun index => (diagnosticsOf index).toFinset.card).sum

variable {diagnosticsOf} {count : ℕ} {capture : Bool} {seen : List ℕ}

theorem describes_new :
    Describes diagnosticsOf count capture [] (DiagnosticCensusAccumulator.new count capture) where
  tallies := {
    keys_nodup := nodup_nil
    listed := fun _ hkey => absurd hkey not_mem_nil
    unlisted := fun _ _ => ⟨rfl, rfl, rfl⟩ }
  mem_keys := by simp [DiagnosticCensusAccumulator.new]
  recorded := by simp [DiagnosticCensusAccumulator.new, map_const']
  membership := by simp [DiagnosticCensusAccumulator.new, map_const']
  occurrence_count := rfl
  max_diagnostics := rfl
  reference_count := rfl

theorem membersAmong_of_initial {keys later : List DiagnosticCensusKey} (hgrows : keys <+: later)
    {index : ℕ} (hkeys : ∀ key ∈ diagnosticsOf index, key ∈ keys) :
    membersAmong diagnosticsOf later index = membersAmong diagnosticsOf keys index := by
  have himage : (diagnosticsOf index).toFinset.image later.idxOf =
      (diagnosticsOf index).toFinset.image keys.idxOf :=
    Finset.image_congr fun key hkey => idxOf_of_initial hgrows (hkeys key (mem_toFinset.mp hkey))
  rw [membersAmong, himage, membersAmong]

theorem count_membersAmong {keys : List DiagnosticCensusKey} {index : ℕ}
    (hkeys : ∀ key ∈ diagnosticsOf index, key ∈ keys) (key : DiagnosticCensusKey) :
    (membersAmong diagnosticsOf keys index).count (keys.idxOf key) =
      if key ∈ diagnosticsOf index then 1 else 0 := by
  rw [membersAmong, List.Nodup.count (Finset.sort_nodup _ _)]
  congr 1
  rw [Finset.mem_sort, Finset.mem_image, eq_iff_iff]
  constructor
  · rintro ⟨other, hother, heq⟩
    rw [mem_toFinset] at hother
    rwa [← (idxOf_inj (hkeys other hother)).mp heq]
  · exact fun hkey => ⟨key, mem_toFinset.mpr hkey, rfl⟩

theorem storeMembership_spec (census : DiagnosticCensusAccumulator) (members : List ℕ)
    {index : ℕ} {slot : ℕ → Option (List ℕ)} (hindex : index < count) (hfree : slot index = none)
    (hmembership : census.membershipByResultIndex =
      if capture then some ((List.range count).map slot) else none) :
    DiagnosticCensusAccumulator.storeMembership index members census =
      ({ census with membershipByResultIndex := (if capture then
          some ((List.range count).map (update slot index (some members)))
        else none) }, .ok ()) := by
  rw [DiagnosticCensusAccumulator.storeMembership, read_bind, hmembership]
  cases capture with
  | false =>
    obtain ⟨⟩ := census
    cases hmembership
    rfl
  | true =>
    have hslot : ((List.range count).map slot)[index]? = some none := by
      simp [hindex, hfree]
    simp only [if_true]
    rw [context_bind_some hslot, modify_bind, set_map_range]
    rfl

/-- Recording a result not recorded before keeps the description. -/
theorem recordResult_spec {index : ℕ} (hdescribes : Describes diagnosticsOf count capture seen census)
    (hindex : index < count) (hfresh : index ∉ seen) :
    ∃ after, census.recordResult index (diagnosticsOf index) = (after, .ok ()) ∧
      Describes diagnosticsOf count capture (seen ++ [index]) after := by
  have hslot : census.recordedResults[index]? = some false := by
    simp [hdescribes.recorded, hindex, hfresh]
  let diagnostics := diagnosticsOf index
  let noted := diagnostics.foldl noteDiagnostic ⟨census.entries, census.keysByOrdinal, ∅⟩
  obtain ⟨htallies, hgrows, hkeys, hordinals⟩ :
      Tallies noted.entries noted.keysByOrdinal
          (fun key => occurrences diagnosticsOf seen key + diagnostics.count key)
          (exportsWith diagnosticsOf seen) ∧
        census.keysByOrdinal <+: noted.keysByOrdinal ∧
        (∀ key, key ∈ noted.keysByOrdinal ↔ key ∈ census.keysByOrdinal ∨ key ∈ diagnostics) ∧
        noted.provisionalMembership =
          (∅ ∪ diagnostics.toFinset).image noted.keysByOrdinal.idxOf := by
    have hcensus : Tallies (⟨census.entries, census.keysByOrdinal, ∅⟩ : NotedDiagnostics).entries
        census.keysByOrdinal _ _ := hdescribes.tallies
    exact foldl_noteDiagnostic_spec hcensus (fun _ hkey => absurd hkey (Finset.notMem_empty _)) rfl
  rw [Finset.empty_union] at hordinals
  have hlisted : ∀ key ∈ diagnostics, key ∈ noted.keysByOrdinal :=
    fun key hkey => (hkeys key).mpr (.inr hkey)
  have hmembers : noted.provisionalMembership.sort =
      membersAmong diagnosticsOf noted.keysByOrdinal index := by
    rw [hordinals, membersAmong]
  have hbound : ∀ ordinal ∈ membersAmong diagnosticsOf noted.keysByOrdinal index,
      ordinal < noted.keysByOrdinal.length := by
    intro ordinal hordinal
    rw [membersAmong, Finset.mem_sort, Finset.mem_image] at hordinal
    obtain ⟨key, hkey, rfl⟩ := hordinal
    exact idxOf_lt_length_of_mem (hlisted key (mem_toFinset.mp hkey))
  let marked : DiagnosticCensusAccumulator := { census with
    entries := noted.entries
    keysByOrdinal := noted.keysByOrdinal
    recordedResults := census.recordedResults.set index true
    occurrenceCount := census.occurrenceCount + diagnostics.length
    maxDiagnosticsPerExport := max census.maxDiagnosticsPerExport diagnostics.length }
  have hmarked : Tallies marked.entries marked.keysByOrdinal _ _ := htallies
  obtain ⟨entries, heach, hcounted⟩ := each_countExport_spec hmarked hbound
  have hmembership : census.membershipByResultIndex = if capture then
      some ((List.range count).map fun other => if other ∈ seen then
        some (membersAmong diagnosticsOf noted.keysByOrdinal other) else none) else none := by
    rw [hdescribes.membership]
    congr 2
    apply map_congr_left
    intro other _
    by_cases hother : other ∈ seen
    · rw [if_pos hother, if_pos hother, membersAmong_of_initial hgrows
        fun key hkey => (hdescribes.mem_keys key).mpr ⟨other, hother, hkey⟩]
    · rw [if_neg hother, if_neg hother]
  let counted : DiagnosticCensusAccumulator := { marked with
    entries := entries
    membershipReferenceCount := census.membershipReferenceCount +
      (membersAmong diagnosticsOf noted.keysByOrdinal index).length }
  have hstore := storeMembership_spec counted
    (membersAmong diagnosticsOf noted.keysByOrdinal index) hindex (if_neg hfresh) hmembership
  have hslots : update (fun other => if other ∈ seen then
      some (membersAmong diagnosticsOf noted.keysByOrdinal other) else none) index
        (some (membersAmong diagnosticsOf noted.keysByOrdinal index)) =
      fun other => if other ∈ seen ++ [index] then
        some (membersAmong diagnosticsOf noted.keysByOrdinal other) else none := by
    funext other
    by_cases hother : other = index
    · simp [hother]
    · simp [hother]
  rw [hslots] at hstore
  have hrun : census.recordResult index diagnostics =
      DiagnosticCensusAccumulator.storeMembership index
        (membersAmong diagnosticsOf noted.keysByOrdinal index) counted := by
    rw [DiagnosticCensusAccumulator.recordResult, read_bind, context_bind_some hslot]
    simp only [ensure_bind, Bool.not_false, if_true, modify_bind]
    rw [hmembers, bind_of_ok heach]
    rfl
  rw [hstore] at hrun
  refine ⟨_, hrun, ?_⟩
  constructor
  case tallies =>
    have hoccurrences : (fun key => occurrences diagnosticsOf seen key + diagnostics.count key) =
        occurrences diagnosticsOf (seen ++ [index]) := by
      funext key
      simp [occurrences, diagnostics]
    have hexports : (fun key => exportsWith diagnosticsOf seen key +
        (membersAmong diagnosticsOf noted.keysByOrdinal index).count
          (noted.keysByOrdinal.idxOf key)) = exportsWith diagnosticsOf (seen ++ [index]) := by
      funext key
      rw [count_membersAmong hlisted]
      simp [exportsWith]
    rw [← hoccurrences, ← hexports]
    exact hcounted
  case mem_keys =>
    intro key
    rw [show counted.keysByOrdinal = noted.keysByOrdinal from rfl, hkeys, hdescribes.mem_keys]
    simp [diagnostics]
  case recorded =>
    show census.recordedResults.set index true = _
    rw [hdescribes.recorded, set_map_range]
    apply map_congr_left
    intro other _
    by_cases hother : other = index
    · simp [hother]
    · simp [hother]
  case membership => rfl
  case occurrence_count =>
    simp [counted, marked, hdescribes.occurrence_count, diagnostics]
  case max_diagnostics =>
    simp [counted, marked, hdescribes.max_diagnostics, diagnostics]
  case reference_count =>
    have hlength : (membersAmong diagnosticsOf noted.keysByOrdinal index).length =
        diagnostics.toFinset.card := by
      rw [membersAmong, Finset.length_sort, Finset.card_image_of_injOn]
      intro key hkey other _ heq
      exact (idxOf_inj (hlisted key (mem_toFinset.mp hkey))).mp heq
    simp [counted, hdescribes.reference_count, hlength, diagnostics]

end Describe

end ConvexWasm.Compiler.DiagnosticCensus
