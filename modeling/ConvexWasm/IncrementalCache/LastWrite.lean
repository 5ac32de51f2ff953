import ConvexWasm.IncrementalCache.Publication

/-!
# Reading the last insertion

A lookup returns the value that was inserted last, or none, as long as no insertion is
hidden by a record of a tier that is searched earlier, and none displaces the record
that hid an older one.
-/

namespace ConvexWasm.IncrementalCache

open Function List

variable {cache : Cache} {store : Store} {operations done : List Operation}
  {operation : Operation} {value : List UInt8} {tier time : ℕ} {layout : CacheTier}
  {keys : Set (List UInt8)} {key : List UInt8}

theorem tierFor_eq_some (htier : tierFor value = some (layout, tier)) :
    tiers[tier]? = some layout ∧ headerBytes + value.length ≤ layout.recordLimit := by
  have hmem := mem_zipIdx_iff_getElem?.mp (mem_of_find?_eq_some htier)
  have hfound := List.find?_some htier
  have hroom : value.length ≤ layout.recordLimit - headerBytes := of_decide_eq_true hfound
  have hheader : headerBytes ≤ layout.recordLimit := headerBytes_lt_limit hmem
  exact ⟨hmem, by omega⟩

theorem run_snoc : cache.run (done ++ [operation]) = cache.perform (cache.run done) operation :=
  foldl_concat ..

theorem latestBy_get {Name : Type} [DecidableEq Name] (name : List UInt8 → Name) :
    latestBy name (done ++ [.get key]) = latestBy name done :=
  foldl_concat ..

theorem latestBy_insert {Name : Type} [DecidableEq Name] (name : List UInt8 → Name) :
    latestBy name (done ++ [.insert key value time]) =
      if (tierFor value).isSome then
        update (latestBy name done) (name key) (some value)
      else latestBy name done :=
  foldl_concat ..

/-- What an operation does to the directory and to the last insertions. -/
theorem operation_cases (operation : Operation) :
    (∀ (cache : Cache) (store : Store), cache.perform store operation = store) ∧
        (∀ {Name : Type} [DecidableEq Name] (name : List UInt8 → Name) (done : List Operation),
          latestBy name (done ++ [operation]) = latestBy name done) ∨
      ∃ key value time layout tier, operation = .insert key value time ∧
        tierFor value = some (layout, tier) ∧
        (∀ (cache : Cache) (store : Store), cache.perform store operation =
          (cache.publish store (cache.key key) value tier layout time).1) ∧
        ∀ {Name : Type} [DecidableEq Name] (name : List UInt8 → Name) (done : List Operation),
          latestBy name (done ++ [operation]) =
            update (latestBy name done) (name key) (some value) := by
  cases operation with
  | get key => exact .inl ⟨fun _ _ => rfl, fun name done => latestBy_get name⟩
  | insert key value time =>
    cases htier : tierFor value with
    | none =>
      refine .inl ⟨fun cache store => ?_, fun name done => ?_⟩
      · rw [Cache.perform, Cache.insert, htier]
      · rw [latestBy_insert, htier]
        rfl
    | some found =>
      refine .inr ⟨key, value, time, found.1, found.2, rfl, htier,
        fun cache store => ?_, fun name done => ?_⟩
      · rw [Cache.perform, Cache.insert, htier]
      · rw [latestBy_insert, htier]
        rfl

theorem wellFormed_run (cache : Cache) (operations : List Operation) :
    WellFormed cache (cache.run operations) := by
  induction operations using List.reverseRecOn with
  | nil => exact wellFormed_empty
  | append_singleton done operation ih =>
    rw [run_snoc]
    rcases operation_cases operation with
      ⟨hsame, _⟩ | ⟨key, value, time, layout, tier, _, htier, hpublish, _⟩
    · rwa [hsame]
    · obtain ⟨hlayout, hroom⟩ := tierFor_eq_some htier
      rw [hpublish]
      exact ih.publish hlayout hroom

/-- The hashes of the keys that were inserted are told apart like the keys. -/
theorem latestBy_key (hcollision : Set.InjOn cache.key keys)
    (hkeys : ∀ operation ∈ operations, operation.key ∈ keys) (hkey : key ∈ keys) :
    latestBy cache.key operations (cache.key key) = latest operations key := by
  induction operations using List.reverseRecOn with
  | nil => rfl
  | append_singleton done operation ih =>
    obtain ⟨hdone, hlast⟩ := forall_mem_append.mp hkeys
    rcases operation_cases operation with
      ⟨_, hsame⟩ | ⟨other, value, time, layout, tier, rfl, _, _, hinsert⟩
    · rw [latest, hsame, hsame]
      exact ih hdone
    · have hother : other ∈ keys := hlast _ mem_cons_self
      rw [latest, hinsert, hinsert]
      by_cases hsame : key = other
      · rw [hsame, update_self, id, update_self]
      · have hhash : cache.key key ≠ cache.key other := fun heq =>
          hsame (hcollision hkey hother heq)
        rw [update_of_ne hhash, id, update_of_ne hsame]
        exact ih hdone

/-- Only inserted keys are found. -/
theorem exists_key_of_latestBy {Name : Type} [DecidableEq Name] {name : List UInt8 → Name}
    {wanted : Name} (hlatest : latestBy name operations wanted ≠ none) :
    ∃ operation ∈ operations, name operation.key = wanted := by
  induction operations using List.reverseRecOn with
  | nil => exact absurd rfl hlatest
  | append_singleton done operation ih =>
    rcases operation_cases operation with
      ⟨_, hsame⟩ | ⟨other, value, time, layout, tier, rfl, _, _, hinsert⟩
    · rw [hsame] at hlatest
      obtain ⟨earlier, hmem, hname⟩ := ih hlatest
      exact ⟨earlier, mem_append_left _ hmem, hname⟩
    · rw [hinsert, update_apply] at hlatest
      split at hlatest
      case isTrue hwanted => exact ⟨_, mem_append_right _ mem_cons_self, hwanted.symm⟩
      case isFalse =>
        obtain ⟨earlier, hmem, hname⟩ := ih hlatest
        exact ⟨earlier, mem_append_left _ hmem, hname⟩

/-- The operation neither is hidden nor uncovers an old value: every tier that is searched
before the one that the value goes to has no record of the key or the same value, and
the tiers behind a displaced record that is the one found have no other value of its key. -/
def Cache.CleanAt (cache : Cache) (store : Store) : Operation → Prop
  | .get _ => True
  | .insert key value _ => ∀ layout tier, tierFor value = some (layout, tier) →
      (cache.layers store).Clean tier (cache.key key) value
        (store.displaced (cache.key key) tier layout)

/-- Whatever is looked up after whichever operations, the value that is returned is the
last one inserted. -/
def Cache.ReadsLastWrite (cache : Cache) (keys : Set (List UInt8))
    (operations : List Operation) : Prop :=
  ∀ done later, operations = done ++ later → ∀ key ∈ keys, ∀ value,
    cache.get (cache.run done) key = .ok (some value) → latest done key = some value

theorem displaced_ne_self {digest : Digest} : store.displaced digest tier layout ≠ some digest := by
  intro hdisplaced
  have hne := (Option.filter_eq_some_iff.mp hdisplaced).2
  rw [decide_eq_true_eq] at hne
  exact hne rfl

theorem tier_lt_layers (hlayout : tiers[tier]? = some layout) :
    tier < (cache.layers store).length := by
  exact (List.getElem?_eq_some_iff.mp hlayout).1

/-- An operation keeps the reads fresh exactly when it is clean. -/
theorem fresh_perform_iff (hfresh : (cache.layers (cache.run done)).Fresh (latestBy cache.key done))
    (operation : Operation) :
    (cache.layers (cache.run (done ++ [operation]))).Fresh
        (latestBy cache.key (done ++ [operation])) ↔
      cache.CleanAt (cache.run done) operation := by
  rw [run_snoc]
  cases operation with
  | get key =>
    rw [latestBy_get]
    exact iff_of_true hfresh trivial
  | insert key value time =>
    rw [latestBy_insert, Cache.perform, Cache.insert]
    cases htier : tierFor value with
    | none =>
      refine iff_of_true hfresh fun layout tier hsome => ?_
      rw [htier] at hsome
      cases hsome
    | some found =>
      obtain ⟨hlayout, hroom⟩ := tierFor_eq_some htier
      rw [Option.isSome_some, if_pos rfl]
      rw [layers_publish (wellFormed_run cache done) hlayout hroom,
        Layers.fresh_write_iff hfresh (tier_lt_layers hlayout) displaced_ne_self]
      refine ⟨fun hclean layout tier hsome => ?_, fun hclean => hclean _ _ htier⟩
      obtain rfl := Option.some.inj (htier.symm.trans hsome)
      exact hclean

/-- A key that was not inserted is not found. -/
theorem read_eq_none {digest : Digest} (hlatest : latestBy cache.key done digest = none) :
    (cache.layers (cache.run done)).read digest = none := by
  induction done using List.reverseRecOn with
  | nil =>
    cases hread : (cache.layers .empty).read digest with
    | none => exact hread
    | some value =>
      obtain ⟨holds, hmem, hheld⟩ := exists_of_findSome?_eq_some hread
      obtain ⟨tier, htier, rfl⟩ := mem_map.mp hmem
      obtain ⟨way, _, file, hfile, _⟩ :=
        (held_eq_some_iff wellFormed_empty (mem_zipIdx_iff_getElem?.mp htier)).mp hheld
      cases hfile
  | append_singleton done operation ih =>
    rw [run_snoc]
    rcases operation_cases operation with
      ⟨hsame, hlatest'⟩ | ⟨key, value, time, layout, tier, _, htier, hpublish, hinsert⟩
    · rw [hsame]
      exact ih (hlatest' cache.key done ▸ hlatest)
    · obtain ⟨hlayout, hroom⟩ := tierFor_eq_some htier
      rw [hinsert] at hlatest
      have hne : digest ≠ cache.key key := by
        rintro rfl
        rw [update_self] at hlatest
        cases hlatest
      rw [update_of_ne hne] at hlatest
      rw [hpublish, layers_publish (wellFormed_run cache done) hlayout hroom]
      exact Layers.read_write_eq_none (tier_lt_layers hlayout) hne (ih hlatest)

/-- The layers are fresh when lookups of the keys that are used are. -/
theorem fresh_iff (hcollision : Set.InjOn cache.key keys)
    (hkeys : ∀ operation ∈ done, operation.key ∈ keys) :
    (cache.layers (cache.run done)).Fresh (latestBy cache.key done) ↔
      ∀ key ∈ keys, ∀ value, cache.get (cache.run done) key = .ok (some value) →
        latest done key = some value := by
  have hget : ∀ key value, cache.get (cache.run done) key = .ok (some value) ↔
      (cache.layers (cache.run done)).read (cache.key key) = some value := by
    intro key value
    rw [Cache.get, lookup_eq (wellFormed_run cache done)]
    exact ⟨fun heq => Except.ok.inj heq, congrArg Except.ok⟩
  constructor
  · intro hfresh key hkey value hvalue
    rw [← latestBy_key hcollision hkeys hkey]
    exact hfresh _ _ ((hget key value).mp hvalue)
  · intro hreads digest value hread
    have hlatest : latestBy cache.key done digest ≠ none := by
      intro hnone
      rw [read_eq_none hnone] at hread
      cases hread
    obtain ⟨operation, hmem, rfl⟩ := exists_key_of_latestBy hlatest
    rw [latestBy_key hcollision hkeys (hkeys operation hmem)]
    exact hreads _ (hkeys operation hmem) value ((hget _ value).mpr hread)

/-- Lookups return the last insertion in every state of a run exactly when every operation
of the run is clean. -/
theorem reads_last_write_iff (hcollision : Set.InjOn cache.key keys)
    (hkeys : ∀ operation ∈ operations, operation.key ∈ keys) :
    cache.ReadsLastWrite keys operations ↔
      ∀ done operation later, operations = done ++ operation :: later →
        cache.CleanAt (cache.run done) operation := by
  constructor
  · rintro hreads done operation later rfl
    have hfirst := fun other hmem => hkeys other (mem_append_left _ hmem)
    have hboth : ∀ other ∈ done ++ [operation], other.key ∈ keys := by
      intro other hmem
      refine hkeys other ?_
      rw [append_cons]
      exact mem_append_left _ hmem
    have hfresh := (fresh_iff hcollision hfirst).mpr (hreads done _ rfl)
    refine (fresh_perform_iff hfresh operation).mp ((fresh_iff hcollision hboth).mpr ?_)
    exact hreads (done ++ [operation]) later (append_cons ..)
  · rintro hclean done later rfl
    have hfirst := fun other hmem => hkeys other (mem_append_left _ hmem)
    refine (fresh_iff hcollision hfirst).mp ?_
    clear hkeys hfirst
    induction done using List.reverseRecOn generalizing later with
    | nil =>
      intro digest value hread
      have hnone : (cache.layers (cache.run [])).read digest = none := read_eq_none rfl
      cases hread
    | append_singleton done operation ih =>
      refine (fresh_perform_iff (ih (operation :: later) fun before other after heq => ?_)
        operation).mpr (hclean done operation later (append_cons ..).symm)
      exact hclean before other after (by rw [← heq, append_assoc, singleton_append])

/-- The key and the authentication codes of the two records below. -/
def functionHashes : Hashes where
  sha256 := fun _ =>
    ⟨[155, 61, 0, 101, 240, 247, 181, 103, 142, 4, 20, 197, 129, 144, 151, 153, 16, 125, 228, 169,
      226, 206, 149, 38, 209, 46, 5, 34, 239, 223, 223, 188], rfl⟩
  hmac := fun _ message =>
    if message.length = 41 then
      ⟨[201, 31, 35, 63, 230, 122, 227, 93, 211, 254, 210, 21, 19, 124, 232, 125, 126, 78, 19, 92,
        111, 30, 15, 197, 115, 164, 80, 75, 166, 36, 169, 155], rfl⟩
    else
      ⟨[131, 205, 168, 79, 176, 128, 203, 141, 48, 80, 239, 162, 206, 174, 164, 247, 77, 185, 89,
        16, 223, 86, 29, 183, 226, 148, 221, 88, 166, 249, 134, 21], rfl⟩

theorem length_functionOwner : (List.replicate 32 (1 : UInt8)).length = 32 := rfl

theorem length_functionSecret : (List.replicate 32 (7 : UInt8)).length = 32 := rfl

def functionCache : Cache where
  hashes := functionHashes
  owner := ⟨List.replicate 32 1, length_functionOwner⟩
  secret := ⟨List.replicate 32 7, length_functionSecret⟩

def functionKey : List UInt8 := "function".toList.map fun char => UInt8.ofNat char.toNat

theorem reads_last_write_iff_function :
    functionCache.ReadsLastWrite {functionKey} [.insert functionKey [1] 0] := by
  refine (reads_last_write_iff (Set.injOn_singleton _ _) fun operation hmem => ?_).mpr
    fun done operation later heq => ?_
  · rw [mem_singleton.mp hmem]
    rfl
  · cases done with
    | cons first rest =>
      have hlength := congrArg List.length heq
      simp at hlength
    | nil =>
      cases heq
      intro layout tier htier
      cases htier
      exact
        { seen := by
            rintro ⟨found, hfound, _⟩
            cases hfound
          lost := fun other hdisplaced => by cases hdisplaced }

/-- A value that has grown into the next tier leaves the old one in front of it. -/
theorem not_reads_last_write_of_growth :
    ¬ functionCache.ReadsLastWrite {functionKey}
      [.insert functionKey [1] 0, .insert functionKey (List.replicate 5000 2) 1] := by
  intro hreads
  have hsmall : tierFor [1] = some (⟨384, 64, 4096⟩, 0) := rfl
  have hlarge : tierFor (List.replicate 5000 2) = some (⟨64, 64, 8192⟩, 1) := by
    rw [tierFor, length_replicate]
    rfl
  have hfirst : functionCache.layers (functionCache.run [.insert functionKey [1] 0]) =
      Layers.write 0 (functionCache.key functionKey) [1] _ (functionCache.layers .empty) :=
    layers_publish wellFormed_empty (tierFor_eq_some hsmall).1 (tierFor_eq_some hsmall).2
  have hread : functionCache.get (functionCache.run [.insert functionKey [1] 0,
      .insert functionKey (List.replicate 5000 2) 1]) functionKey = .ok (some [1]) := by
    rw [Cache.get, lookup_eq (wellFormed_run _ _),
      show functionCache.run [.insert functionKey [1] 0,
        .insert functionKey (List.replicate 5000 2) 1] = functionCache.perform
          (functionCache.run [.insert functionKey [1] 0]) (.insert functionKey
            (List.replicate 5000 2) 1) from rfl,
      Cache.perform, Cache.insert, hlarge]
    rfl
  have hlatest := hreads _ [] (List.append_nil _).symm functionKey rfl [1] hread
  rw [latest, show [Operation.insert functionKey [1] 0,
    .insert functionKey (List.replicate 5000 2) 1] = [.insert functionKey [1] 0] ++
      [.insert functionKey (List.replicate 5000 2) 1] from rfl, latestBy_insert, hlarge,
    Option.isSome_some, if_pos rfl, id, update_self] at hlatest
  have hlengths := congrArg List.length (Option.some.inj hlatest)
  rw [length_replicate] at hlengths
  cases hlengths

end ConvexWasm.IncrementalCache
