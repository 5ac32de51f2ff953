import ConvexWasm.Core.Fallible

/-!
# Finite maps with listed entries

An ordered map is read in the order of its keys.  The model keeps the entries
as a list without repeated keys; results that hold for every listing hold for
the sorted one.
-/

namespace ConvexWasm

open List

structure KeyedMap (Key Value : Type) where
  entries : List (Key × Value)
  keys_nodup : (entries.map Prod.fst).Nodup

namespace KeyedMap

variable {Key Value : Type}

def keys (map : KeyedMap Key Value) : List Key :=
  map.entries.map Prod.fst

def values (map : KeyedMap Key Value) : List Value :=
  map.entries.map Prod.snd

def empty : KeyedMap Key Value := ⟨[], nodup_nil⟩

variable [DecidableEq Key] (map : KeyedMap Key Value)

def get? (key : Key) : Option Value :=
  (map.entries.find? fun entry => decide (entry.1 = key)).map Prod.snd

def containsKey (key : Key) : Bool :=
  map.entries.any fun entry => decide (entry.1 = key)

/-- The entry replaces the one that holds its key. -/
def insert (key : Key) (value : Value) : KeyedMap Key Value where
  entries := map.entries.filter (fun entry => decide (entry.1 ≠ key)) ++ [(key, value)]
  keys_nodup := by
    rw [map_append, nodup_append]
    refine ⟨(map.keys_nodup.sublist (filter_sublist.map _)), nodup_singleton _, ?_⟩
    rintro first hfirst second hsecond rfl
    obtain ⟨entry, hentry, rfl⟩ := mem_map.mp hfirst
    have hne : entry.1 ≠ key := by simpa using (mem_filter.mp hentry).2
    exact hne (by simpa using hsecond)

/-- The map without a key. -/
def erase (key : Key) : KeyedMap Key Value where
  entries := map.entries.filter fun entry => decide (entry.1 ≠ key)
  keys_nodup := map.keys_nodup.sublist (filter_sublist.map _)

/-- The values a pass over the entries keeps, under the same keys. -/
def filterMapM {Failure Result : Type} (keep : Key → Value → Except Failure (Option Result)) :
    Except Failure (KeyedMap Key Result) :=
  map.entries.foldlM (fun kept entry => do
    match ← keep entry.1 entry.2 with
    | none => return kept
    | some result => return kept.insert entry.1 result) .empty

variable {map} {key : Key} {value : Value}

theorem get?_eq_some_iff : map.get? key = some value ↔ (key, value) ∈ map.entries := by
  constructor
  · intro hget
    obtain ⟨entry, hfind, rfl⟩ := Option.map_eq_some_iff.mp hget
    have hkey : entry.1 = key := by simpa using List.find?_some hfind
    rw [← hkey]
    exact mem_of_find?_eq_some hfind
  · intro hmem
    have hfound : (map.entries.find? fun entry => decide (entry.1 = key)).isSome := by
      rw [List.find?_isSome]
      exact ⟨(key, value), hmem, decide_eq_true rfl⟩
    obtain ⟨entry, hfind⟩ := Option.isSome_iff_exists.mp hfound
    have hkey : entry.1 = key := by simpa using List.find?_some hfind
    have heq : entry = (key, value) := inj_on_of_nodup_map map.keys_nodup
      (mem_of_find?_eq_some hfind) hmem hkey
    rw [get?, hfind, heq]
    rfl

theorem mem_keys_iff : key ∈ map.keys ↔ ∃ value, map.get? key = some value := by
  simp only [get?_eq_some_iff, keys, mem_map]
  constructor
  · rintro ⟨⟨_, value⟩, hmem, rfl⟩
    exact ⟨value, hmem⟩
  · rintro ⟨value, hmem⟩
    exact ⟨(key, value), hmem, rfl⟩

theorem mem_values_of_get? (hget : map.get? key = some value) : value ∈ map.values :=
  mem_map.mpr ⟨(key, value), get?_eq_some_iff.mp hget, rfl⟩

theorem mem_values_iff : value ∈ map.values ↔ ∃ key, map.get? key = some value := by
  simp only [get?_eq_some_iff, values, mem_map]
  constructor
  · rintro ⟨⟨key, _⟩, hmem, rfl⟩
    exact ⟨key, hmem⟩
  · rintro ⟨key, hmem⟩
    exact ⟨(key, value), hmem, rfl⟩

theorem containsKey_iff : map.containsKey key ↔ key ∈ map.keys := by
  simp [containsKey, keys]

theorem get?_insert_self : (map.insert key value).get? key = some value :=
  get?_eq_some_iff.mpr (mem_append_right _ (mem_singleton.mpr rfl))

theorem get?_insert_of_ne {other : Key} (hne : other ≠ key) :
    (map.insert key value).get? other = map.get? other := by
  refine Option.ext fun found => ?_
  rw [get?_eq_some_iff, get?_eq_some_iff]
  simp [insert, hne]

theorem get?_erase_self : (map.erase key).get? key = none := by
  refine Option.ext fun found => ?_
  rw [get?_eq_some_iff]
  simp [erase]

theorem get?_erase_of_ne {other : Key} (hne : other ≠ key) :
    (map.erase key).get? other = map.get? other := by
  refine Option.ext fun found => ?_
  rw [get?_eq_some_iff, get?_eq_some_iff]
  simp [erase, hne]

theorem get?_empty : (empty : KeyedMap Key Value).get? key = none := rfl

theorem eq_empty_of_entries (hentries : map.entries = []) : map = empty := by
  obtain ⟨entries, hnodup⟩ := map
  cases hentries
  rfl

theorem entries_eq_nil_iff : map.entries = [] ↔ ∀ key, map.get? key = none := by
  constructor
  · intro hempty key
    refine Option.ext fun found => ?_
    rw [get?_eq_some_iff, hempty]
    simp
  · intro hnone
    refine eq_nil_iff_forall_not_mem.mpr fun entry hentry => ?_
    have hget := hnone entry.1
    rw [get?_eq_some_iff.mpr hentry] at hget
    cases hget

theorem get?_eq_none_iff : map.get? key = none ↔ key ∉ map.keys := by
  rw [mem_keys_iff, Option.eq_none_iff_forall_ne_some]
  simp

theorem ext_entries {map' : KeyedMap Key Value} (hentries : map.entries = map'.entries) :
    map = map' := by
  obtain ⟨entries, hnodup⟩ := map
  obtain ⟨entries', hnodup'⟩ := map'
  subst hentries
  rfl

theorem filter_of_fresh (hfresh : key ∉ map.keys) :
    map.entries.filter (fun entry => decide (entry.1 ≠ key)) = map.entries := by
  rw [filter_eq_self]
  intro entry hentry
  rw [decide_eq_true_eq]
  exact fun heq => hfresh (heq ▸ mem_map_of_mem hentry)

/-- A new key is listed last. -/
theorem insert_entries_of_fresh (hfresh : key ∉ map.keys) :
    (map.insert key value).entries = map.entries ++ [(key, value)] :=
  congrArg (· ++ [(key, value)]) (filter_of_fresh hfresh)

theorem insert_insert {value' : Value} :
    (map.insert key value).insert key value' = map.insert key value' := by
  apply ext_entries
  simp [insert, filter_append]

theorem erase_insert_of_fresh (hfresh : key ∉ map.keys) :
    (map.insert key value).erase key = map := by
  apply ext_entries
  have hentries := @insert_entries_of_fresh _ _ _ _ _ value hfresh
  simp only [erase, hentries, filter_append, filter_of_fresh hfresh]
  simp

theorem mem_keys_insert {other : Key} :
    other ∈ (map.insert key value).keys ↔ other = key ∨ other ∈ map.keys := by
  rw [mem_keys_iff, mem_keys_iff]
  by_cases hkey : other = key
  · subst hkey
    simp [get?_insert_self]
  · simp [get?_insert_of_ne hkey, hkey]

theorem mem_keys_of_get? (hget : map.get? key = some value) : key ∈ map.keys :=
  mem_keys_iff.mpr ⟨value, hget⟩

theorem mem_keys_erase {other : Key} :
    other ∈ (map.erase key).keys ↔ other ∈ map.keys ∧ other ≠ key := by
  rw [mem_keys_iff, mem_keys_iff]
  by_cases hkey : other = key
  · subst hkey
    simp [get?_erase_self]
  · simp [get?_erase_of_ne hkey, hkey]

section Matches

variable {Key' Value' : Type} [DecidableEq Key'] {rename : Key → Key'}
  {Related Related' : Value → Value' → Prop} {image : KeyedMap Key' Value'} {key' : Key'}
  {value' : Value'}

/-- The image has the entries of the map, under new keys and with related values. -/
structure Matches (rename : Key → Key') (Related : Value → Value' → Prop)
    (map : KeyedMap Key Value) (image : KeyedMap Key' Value') : Prop where
  related : ∀ key value, map.get? key = some value →
    ∃ value', image.get? (rename key) = some value' ∧ Related value value'
  known : ∀ key' ∈ image.keys, ∃ key ∈ map.keys, rename key = key'
  injective : ∀ first ∈ map.keys, ∀ second ∈ map.keys,
    rename first = rename second → first = second

theorem Matches.mono (hmatches : Matches rename Related map image)
    (hrelated : ∀ found found', Related found found' → Related' found found') :
    Matches rename Related' map image :=
  { hmatches with
    related := fun key found hget =>
      (hmatches.related key found hget).imp fun found' => And.imp_right (hrelated found found') }

theorem Matches.of_empty (hmap : map.entries = []) (himage : image.entries = []) :
    Matches rename Related map image where
  related _ _ hget := by
    rw [entries_eq_nil_iff.mp hmap] at hget
    cases hget
  known _ hkey' := by
    rw [keys, himage] at hkey'
    cases hkey'
  injective _ hfirst := by
    rw [keys, hmap] at hfirst
    cases hfirst

section

variable (hmatches : Matches rename Related map image)
include hmatches

theorem Matches.entries_eq_nil (hmap : map.entries = []) : image.entries = [] := by
  refine eq_nil_iff_forall_not_mem.mpr fun entry hentry => ?_
  obtain ⟨key, hkey, _⟩ := hmatches.known entry.1 (mem_map_of_mem hentry)
  rw [keys, hmap] at hkey
  cases hkey

variable (hkept : ∀ other found found', other ≠ key → map.get? other = some found →
  Related found found' → Related' found found')
include hkept

/-- An entry is added, or the one with its key replaced, on both sides. -/
theorem Matches.insert (hkey : key ∈ map.keys → rename key = key')
    (hfresh : ∀ other ∈ map.keys, other ≠ key → rename other ≠ key')
    (hvalue : Related' value value') :
    Matches (Function.update rename key key') Related' (map.insert key value)
      (image.insert key' value') where
  related other found hget := by
    by_cases heq : other = key
    · subst heq
      obtain rfl := Option.some.inj (get?_insert_self.symm.trans hget)
      exact ⟨value', by rw [Function.update_self, get?_insert_self], hvalue⟩
    · rw [get?_insert_of_ne heq] at hget
      obtain ⟨found', hfound', hrelated⟩ := hmatches.related other found hget
      refine ⟨found', ?_, hkept other found found' heq hget hrelated⟩
      rw [Function.update_of_ne heq, get?_insert_of_ne (hfresh other (mem_keys_of_get? hget) heq),
        hfound']
  known other' hother' := by
    obtain rfl | hold := mem_keys_insert.mp hother'
    · exact ⟨key, mem_keys_insert.mpr (.inl rfl), Function.update_self ..⟩
    · obtain ⟨other, hother, rfl⟩ := hmatches.known other' hold
      refine ⟨other, mem_keys_insert.mpr (.inr hother), ?_⟩
      by_cases heq : other = key
      · subst heq
        rw [Function.update_self, hkey hother]
      · rw [Function.update_of_ne heq]
  injective first hfirst second hsecond hsame := by
    have hold : ∀ other ∈ (map.insert key value).keys, other ≠ key → other ∈ map.keys :=
      fun other hother hne => (mem_keys_insert.mp hother).resolve_left hne
    by_cases heq : first = key <;> by_cases heq' : second = key
    · rw [heq, heq']
    · rw [heq, Function.update_self, Function.update_of_ne heq'] at hsame
      exact absurd hsame.symm (hfresh second (hold second hsecond heq') heq')
    · rw [heq', Function.update_self, Function.update_of_ne heq] at hsame
      exact absurd hsame (hfresh first (hold first hfirst heq) heq)
    · rw [Function.update_of_ne heq, Function.update_of_ne heq'] at hsame
      exact hmatches.injective first (hold first hfirst heq) second (hold second hsecond heq') hsame

theorem Matches.replace (hkey : key ∈ map.keys) (hvalue : Related' value value') :
    Matches rename Related' (map.insert key value) (image.insert (rename key) value') := by
  have hinsert := hmatches.insert hkept (fun _ => rfl) (fun other hother hne hsame =>
    hne (hmatches.injective other hother key hkey hsame)) hvalue
  rwa [Function.update_eq_self] at hinsert

/-- An entry is dropped on both sides. -/
theorem Matches.erase (hkey : key ∈ map.keys) :
    Matches rename Related' (map.erase key) (image.erase (rename key)) where
  related other found hget := by
    obtain ⟨hother, hne⟩ := mem_keys_erase.mp (mem_keys_of_get? hget)
    rw [get?_erase_of_ne hne] at hget
    obtain ⟨found', hfound', hrelated⟩ := hmatches.related other found hget
    refine ⟨found', ?_, hkept other found found' hne hget hrelated⟩
    rw [get?_erase_of_ne fun hsame => hne (hmatches.injective other hother key hkey hsame), hfound']
  known other' hother' := by
    obtain ⟨hold, hne⟩ := mem_keys_erase.mp hother'
    obtain ⟨other, hother, rfl⟩ := hmatches.known other' hold
    exact ⟨other, mem_keys_erase.mpr ⟨hother, fun heq => hne (congrArg rename heq)⟩, rfl⟩
  injective first hfirst second hsecond :=
    hmatches.injective first (mem_keys_erase.mp hfirst).1 second (mem_keys_erase.mp hsecond).1

end

end Matches

section FilterMapM

variable {Failure Result : Type}
  {keep : Key → Value → Except Failure (Option Result)}

/-- The entries kept so far are those already there and those passed. -/
theorem foldlM_keep {entries : List (Key × Value)}
    {kept result : KeyedMap Key Result} (hnodup : (entries.map Prod.fst).Nodup)
    (hfresh : ∀ entry ∈ entries, entry.1 ∉ kept.keys) (hok : entries.foldlM (fun kept entry => do
      match ← keep entry.1 entry.2 with
      | none => return kept
      | some result => return kept.insert entry.1 result) kept = .ok result)
    {key : Key} {found : Result} :
    result.get? key = some found ↔ kept.get? key = some found ∨
      ∃ value, (key, value) ∈ entries ∧ keep key value = .ok (some found) := by
  induction entries generalizing kept with
  | nil =>
    cases hok
    simp
  | cons entry rest ih =>
    obtain ⟨hentry, hnodup⟩ := nodup_cons.mp hnodup
    obtain ⟨next, hnext, hok⟩ := Fallible.bind_eq_ok.mp hok
    obtain ⟨outcome, houtcome, hnext⟩ := Fallible.bind_eq_ok.mp hnext
    have hrest : ∀ later ∈ rest, later.1 ≠ entry.1 := fun later hlater heq =>
      hentry (heq ▸ mem_map_of_mem hlater)
    have hold : ∀ later ∈ rest, later.1 ∉ kept.keys := fun later hlater =>
      hfresh later (mem_cons_of_mem _ hlater)
    have hhead : ∀ value, (key, value) ∈ entry :: rest ↔
        (key = entry.1 ∧ value = entry.2) ∨ (key, value) ∈ rest := by
      intro value
      rw [mem_cons, Prod.ext_iff]
    cases outcome with
    | none =>
      cases hnext
      rw [ih hnodup hold hok]
      simp only [hhead]
      constructor
      · rintro (hkept | ⟨value, hvalue, hkeep⟩)
        · exact .inl hkept
        · exact .inr ⟨value, .inr hvalue, hkeep⟩
      · rintro (hkept | ⟨value, ⟨rfl, rfl⟩ | hvalue, hkeep⟩)
        · exact .inl hkept
        · rw [houtcome] at hkeep
          cases hkeep
        · exact .inr ⟨value, hvalue, hkeep⟩
    | some first =>
      cases hnext
      have hfreshNext : ∀ later ∈ rest, later.1 ∉ (kept.insert entry.1 first).keys := by
        intro later hlater hmem
        rcases mem_keys_insert.mp hmem with heq | hmem
        · exact hrest later hlater heq
        · exact hold later hlater hmem
      rw [ih hnodup hfreshNext hok]
      simp only [hhead]
      by_cases hkey : key = entry.1
      · subst hkey
        have hkept : kept.get? entry.1 = none :=
          get?_eq_none_iff.mpr (hfresh entry mem_cons_self)
        rw [get?_insert_self, hkept]
        constructor
        · rintro (hfirst | ⟨value, hvalue, _⟩)
          · exact .inr ⟨entry.2, .inl ⟨rfl, rfl⟩, by rw [houtcome, hfirst]⟩
          · exact absurd rfl (hrest (entry.1, value) hvalue)
        · rintro (hkept | ⟨value, ⟨_, rfl⟩ | hvalue, hkeep⟩)
          · cases hkept
          · rw [houtcome] at hkeep
            exact .inl (Except.ok.inj hkeep)
          · exact absurd rfl (hrest (entry.1, value) hvalue)
      · rw [get?_insert_of_ne hkey]
        simp [hkey]

theorem filterMapM_get? {result : KeyedMap Key Result}
    (hok : map.filterMapM keep = .ok result) {key : Key} {found : Result} :
    result.get? key = some found ↔
      ∃ value, map.get? key = some value ∧ keep key value = .ok (some found) := by
  have hempty : (empty : KeyedMap Key Result).get? key ≠ some found := by
    simp [get?, empty]
  rw [foldlM_keep map.keys_nodup (by simp [keys, empty]) hok]
  simp [hempty, get?_eq_some_iff]

end FilterMapM

end KeyedMap

end ConvexWasm
