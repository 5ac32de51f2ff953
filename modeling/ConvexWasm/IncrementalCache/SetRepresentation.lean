import ConvexWasm.IncrementalCache.LastWrite

/-!
# What a set of slots holds

After any operations each record is hinted under its own key and takes one slot of its
set.  An insertion makes another key go only from a set that is full of other keys, so
that a set keeps its keys while they are no more than its ways.
-/

namespace ConvexWasm.IncrementalCache

open List

variable {cache : Cache} {store : Store} {operations done : List Operation}
  {key other : Digest} {value : List UInt8} {tier tier' : ℕ} {layout layout' : CacheTier}

/-- Two windows that share a hint are the windows of one set. -/
theorem windows_disjoint {key' : Digest} (hlayout : tiers[tier]? = some layout)
    (hlayout' : tiers[tier']? = some layout')
    (hne : (tier, setOf key layout.sets) ≠ (tier', setOf key' layout'.sets)) :
    indexSetOffset key tier layout + layout.ways * 32 ≤ indexSetOffset key' tier' layout' ∨
      indexSetOffset key' tier' layout' + layout'.ways * 32 ≤ indexSetOffset key tier layout := by
  have hpositive := ways_pos hlayout
  have hpositive' := ways_pos hlayout'
  by_contra hshared
  rw [not_or, not_le, not_le, indexSetOffset, indexSetOffset] at hshared
  set first := precedingSlots tiers tier + setOf key layout.sets * layout.ways with hfirst
  set first' := precedingSlots tiers tier' + setOf key' layout'.sets * layout'.ways with hfirst'
  -- The later of the two starts is in both windows.
  have hsame : slotNumber tiers tier layout (setOf key layout.sets) (first' - first) =
      slotNumber tiers tier' layout' (setOf key' layout'.sets) (first - first') := by
    rw [slotNumber, slotNumber, ← hfirst, ← hfirst']
    omega
  obtain ⟨rfl, hset, -⟩ := slotNumber_inj hlayout hlayout' (setOf_lt hlayout key)
    (setOf_lt hlayout' key') (by omega) (by omega) hsame
  exact hne (by rw [hset])

/-- What makes way is of the same set, and the set is full of other keys. -/
theorem full_of_displaced (hwell : WellFormed cache store) (hlayout : tiers[tier]? = some layout)
    (hdisplaced : store.displaced key tier layout = some other) :
    setOf other layout.sets = setOf key layout.sets ∧ ∀ way < layout.ways, ∃ owner kept,
      owner ≠ key ∧ setOf owner layout.sets = setOf key layout.sets ∧
        Holds cache store (slotOf key tier layout way) owner kept := by
  obtain ⟨hne, kept, hholds⟩ := (displaced_eq_some_iff hwell hlayout).mp hdisplaced
  have hsets : ∀ {way : ℕ} {owner : Digest} {kept : List UInt8},
      Holds cache store (slotOf key tier layout way) owner kept →
        setOf owner layout.sets = setOf key layout.sets := by
    rintro way owner kept ⟨file, hfile, hdata⟩
    obtain ⟨owner', kept', hdata', hfits, -⟩ := hwell.record hlayout hfile
    obtain ⟨rfl, -⟩ := record_injective (hdata.symm.trans hdata')
    exact hfits.set.symm
  refine ⟨hsets hholds, fun way hway => ?_⟩
  rcases (select_cases store key tier (ways_pos hlayout)).2 with ⟨-, havailable⟩ | hall
  · obtain ⟨file, hfile, hdata⟩ := hholds
    rcases havailable with hnone | ⟨found, hfound, hkey⟩
    · cases hnone.symm.trans hfile
    · cases hfound.symm.trans hfile
      rw [hdata, holdsKey_record, decide_eq_true_eq] at hkey
      exact absurd hkey hne
  · obtain ⟨file, hfile, hother⟩ := hall way hway
    obtain ⟨owner, kept, hdata, -⟩ := hwell.record hlayout hfile
    rw [hdata, holdsKey_record, decide_eq_false_iff_not] at hother
    exact ⟨owner, kept, hother, hsets ⟨file, hfile, hdata⟩, file, hfile, hdata⟩

/-- The operation puts the key into the tier. -/
def Cache.Inserts (cache : Cache) (tier : ℕ) (key : Digest) : Operation → Prop
  | .get _ => False
  | .insert name value _ => (∃ layout, tierFor value = some (layout, tier)) ∧ cache.key name = key

def Cache.Inserted (cache : Cache) (operations : List Operation) (tier : ℕ) (key : Digest) : Prop :=
  ∃ operation ∈ operations, cache.Inserts tier key operation

/-- No more keys than ways were put into the set. -/
def Cache.Fitting (cache : Cache) (operations : List Operation) (tier : ℕ) (layout : CacheTier)
    (set : ℕ) : Prop :=
  ∀ keys : Finset Digest, (∀ key ∈ keys, cache.Inserted operations tier key ∧
    setOf key layout.sets = set) → keys.card ≤ layout.ways

/-- An operation puts the key into the tier, leaves what the tier has of it, or makes it go. -/
theorem held_snoc (hlayout : tiers[tier]? = some layout) (operation : Operation) :
    cache.Inserts tier key operation ∧
        cache.held (cache.run (done ++ [operation])) tier layout key ≠ none ∨
      ¬ cache.Inserts tier key operation ∧
        cache.held (cache.run (done ++ [operation])) tier layout key =
          cache.held (cache.run done) tier layout key ∨
      ∃ added, cache.Inserts tier added operation ∧
        (cache.run done).displaced added tier layout = some key ∧
        cache.held (cache.run (done ++ [operation])) tier layout key = none := by
  have hwell := wellFormed_run cache done
  rw [run_snoc]
  cases operation with
  | get name => exact .inr (.inl ⟨id, rfl⟩)
  | insert name value time =>
    simp only [Cache.Inserts, Cache.perform, Cache.insert]
    cases htier : tierFor value with
    | none => exact .inr (.inl ⟨by simp, rfl⟩)
    | some found =>
      obtain ⟨layout', tier'⟩ := found
      obtain ⟨hlayout', hroom⟩ := tierFor_eq_some htier
      by_cases hne : tier = tier'
      · subst hne
        obtain rfl := Option.some.inj (hlayout.symm.trans hlayout')
        rw [held_publish hwell hlayout hroom]
        by_cases hkey : cache.key name = key
        · rw [if_pos hkey.symm]
          exact .inl ⟨⟨⟨layout, rfl⟩, hkey⟩, Option.some_ne_none _⟩
        · rw [if_neg (Ne.symm hkey)]
          split
          case isTrue hdisplaced =>
            exact .inr (.inr ⟨cache.key name, ⟨⟨layout, rfl⟩, rfl⟩, hdisplaced, rfl⟩)
          case isFalse => exact .inr (.inl ⟨fun hlast => hkey hlast.2, rfl⟩)
      · refine .inr (.inl ⟨?_, held_publish_of_ne hwell hlayout' hroom hlayout hne key⟩)
        rintro ⟨⟨_, hsame⟩, -⟩
        cases hsame
        exact hne rfl

theorem inserted_snoc {operation : Operation} : cache.Inserted (done ++ [operation]) tier key ↔
    cache.Inserted done tier key ∨ cache.Inserts tier key operation := by
  simp [Cache.Inserted, or_and_right, exists_or]

section

variable (hlayout : tiers[tier]? = some layout)
include hlayout

/-- A tier holds only what was put into it. -/
theorem inserted_of_held (hheld : cache.held (cache.run operations) tier layout key = some value) :
    cache.Inserted operations tier key := by
  induction operations using List.reverseRecOn with
  | nil =>
    obtain ⟨_, _, _, hfile, _⟩ := (held_eq_some_iff wellFormed_empty hlayout).mp hheld
    cases hfile
  | append_singleton done operation ih =>
    rw [inserted_snoc]
    rcases held_snoc hlayout operation with ⟨hlast, -⟩ | ⟨-, hsame⟩ | ⟨-, -, -, hnone⟩
    · exact .inr hlast
    · exact .inl (ih (hsame.symm.trans hheld))
    · cases hnone.symm.trans hheld

/-- What makes way is one key too many for the ways. -/
theorem not_fitting_of_displaced
    (hdisplaced : (cache.run done).displaced key tier layout = some other)
    (hmore : ∀ owner, cache.Inserted done tier owner → cache.Inserted operations tier owner)
    (hkey : cache.Inserted operations tier key) :
    ¬ cache.Fitting operations tier layout (setOf key layout.sets) := by
  intro hfitting
  have hwell := wellFormed_run cache done
  choose owner kept hne hset hholds using
    fun way : Fin layout.ways => (full_of_displaced hwell hlayout hdisplaced).2 way way.2
  have hinjective : Function.Injective owner := by
    intro way way' hsame
    have hholds' := hholds way'
    rw [← hsame] at hholds'
    exact Fin.ext (congrArg Slot.way (hwell.unique _ _ _ _ _ (hholds way) hholds' rfl))
  have hcard := hfitting (insert key (Finset.univ.image owner)) fun found hfound => ?_
  · rw [Finset.card_insert_of_notMem (by simpa using hne),
      Finset.card_image_of_injective _ hinjective, Finset.card_univ, Fintype.card_fin] at hcard
    omega
  · rcases Finset.mem_insert.mp hfound with rfl | hfound
    · exact ⟨hkey, rfl⟩
    · obtain ⟨way, -, rfl⟩ := Finset.mem_image.mp hfound
      have hheld := (held_eq_some_iff hwell hlayout).mpr ⟨way, way.2, by
        rw [slotOf, hset way]
        exact hholds way⟩
      exact ⟨hmore _ (inserted_of_held hlayout hheld), hset way⟩

/-- A set keeps its keys while they are no more than its ways. -/
theorem held_of_fitting (hfitting : cache.Fitting operations tier layout (setOf key layout.sets))
    (hinserted : cache.Inserted operations tier key) :
    cache.held (cache.run operations) tier layout key ≠ none := by
  induction operations using List.reverseRecOn with
  | nil =>
    obtain ⟨_, hmem, _⟩ := hinserted
    cases hmem
  | append_singleton done operation ih =>
    have hmore : ∀ owner, cache.Inserted done tier owner →
        cache.Inserted (done ++ [operation]) tier owner :=
      fun owner hdone => inserted_snoc.mpr (.inl hdone)
    have ih := ih fun keys hkeys => hfitting keys fun found hfound =>
      ⟨hmore found (hkeys found hfound).1, (hkeys found hfound).2⟩
    rcases held_snoc hlayout operation with
      ⟨-, hheld⟩ | ⟨hnot, hsame⟩ | ⟨added, hadded, hdisplaced, -⟩
    · exact hheld
    · rw [hsame]
      exact ih ((inserted_snoc.mp hinserted).resolve_right hnot)
    · rw [(full_of_displaced (wellFormed_run cache done) hlayout hdisplaced).1] at hfitting
      exact absurd hfitting (not_fitting_of_displaced hlayout hdisplaced hmore
        (inserted_snoc.mpr (.inr hadded)))

end

def Store.recordBytes (store : Store) (slot : Slot) : ℕ :=
  ((store.files slot).map fun file => file.data.length).getD 0

/-- The bytes of the records of all tiers. -/
def Store.totalBytes (store : Store) : ℕ :=
  (tiers.zipIdx.map fun tier => ∑ set ∈ Finset.range tier.1.sets,
    ∑ way ∈ Finset.range tier.1.ways, store.recordBytes ⟨tier.2, set, way⟩).sum

theorem totalBytes_le (hwell : WellFormed cache store) : store.totalBytes ≤
    (tiers.zipIdx.map fun tier => tier.1.sets * (tier.1.ways * tier.1.recordLimit)).sum := by
  refine List.sum_le_sum fun ⟨layout, tier⟩ hentry => ?_
  have hrecord : ∀ set way, store.recordBytes ⟨tier, set, way⟩ ≤ layout.recordLimit := by
    intro set way
    rw [Store.recordBytes]
    cases hfile : store.files ⟨tier, set, way⟩ with
    | none => exact Nat.zero_le _
    | some file =>
      obtain ⟨layout', owner, kept, hfits, hdata, -⟩ := hwell.records _ file hfile
      cases (mem_zipIdx_iff_getElem?.mp hentry).symm.trans hfits.tier
      rw [Option.map_some, Option.getD_some, hdata, length_record]
      exact hfits.room
  have hset : ∀ set, ∑ way ∈ Finset.range layout.ways, store.recordBytes ⟨tier, set, way⟩ ≤
      layout.ways * layout.recordLimit := fun set => by
    simpa using Finset.sum_le_card_nsmul (Finset.range layout.ways) _ _ fun way _ =>
      hrecord set way
  simpa using Finset.sum_le_card_nsmul (Finset.range layout.sets) _ _ fun set _ => hset set

/-- The sets of a directory after any operations. -/
theorem sets_of_run (cache : Cache) (operations : List Operation) :
    WellFormed cache (cache.run operations) ∧
    (∀ tier tier' layout layout' key key', tiers[tier]? = some layout →
      tiers[tier']? = some layout' →
        (tier, setOf key layout.sets) ≠ (tier', setOf key' layout'.sets) →
          indexSetOffset key tier layout + layout.ways * 32 ≤ indexSetOffset key' tier' layout' ∨
          indexSetOffset key' tier' layout' + layout'.ways * 32 ≤
            indexSetOffset key tier layout) ∧
    (∀ name value time layout tier, tierFor value = some (layout, tier) → ∀ slot other kept,
      other ≠ cache.key name → Holds cache (cache.run operations) slot other kept →
        ¬ Holds cache (cache.insert (cache.run operations) name value time).2 slot other kept →
          ∀ way < layout.ways, ∃ owner kept, owner ≠ cache.key name ∧ Holds cache
            (cache.run operations) (slotOf (cache.key name) tier layout way) owner kept) ∧
    (∀ tier layout name, tiers[tier]? = some layout →
      cache.Inserted operations tier (cache.key name) →
        cache.Fitting operations tier layout (setOf (cache.key name) layout.sets) →
          ∃ found, cache.get (cache.run operations) name = .ok (some found)) ∧
    (cache.run operations).totalBytes ≤
      (tiers.zipIdx.map fun tier => tier.1.sets * (tier.1.ways * tier.1.recordLimit)).sum := by
  have hwell := wellFormed_run cache operations
  refine ⟨hwell, fun _ _ _ _ _ _ hlayout hlayout' => windows_disjoint hlayout hlayout',
    fun name value time layout tier htier slot other kept hne hholds hgone way hway => ?_,
    fun tier layout name hlayout hinserted hfitting => ?_, totalBytes_le hwell⟩
  · rw [Cache.insert, htier, holds_publish_iff] at hgone
    split at hgone
    case isFalse => exact absurd hholds hgone
    case isTrue hslot =>
      have hlayout := (tierFor_eq_some htier).1
      obtain ⟨owner, kept, howner, -, hfull⟩ := (full_of_displaced hwell hlayout
        ((displaced_eq_some_iff hwell hlayout).mpr ⟨hne, kept, hslot ▸ hholds⟩)).2 way hway
      exact ⟨owner, kept, howner, hfull⟩
  · obtain ⟨found, hheld⟩ :=
      Option.ne_none_iff_exists'.mp (held_of_fitting hlayout hfitting hinserted)
    rw [Cache.get, lookup_eq hwell]
    cases hread : (cache.layers (cache.run operations)).read (cache.key name) with
    | some value => exact ⟨value, rfl⟩
    | none =>
      have hnone := List.findSome?_eq_none_iff.mp hread _
        (mem_map_of_mem (mem_zipIdx_iff_getElem? (x := (layout, tier)) |>.mpr hlayout))
      cases hnone.symm.trans hheld

end ConvexWasm.IncrementalCache
