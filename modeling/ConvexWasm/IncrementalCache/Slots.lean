import ConvexWasm.Core.LayeredStore
import ConvexWasm.IncrementalCache.Store

/-!
# The slots of a directory

Every slot has hints of its own in the index.  In a directory that only one process
uses, every record is hinted, the ways of a set fill up in order, and a tier holds a key
at most once, so that a lookup reads the tiers as layers.
-/

namespace ConvexWasm.IncrementalCache

open List

variable {layout : CacheTier} {tier way : ℕ}

variable {layouts : List CacheTier} {layout' : CacheTier} {tier' set set' way' : ℕ}

def slotNumber (layouts : List CacheTier) (tier : ℕ) (layout : CacheTier) (set way : ℕ) : ℕ :=
  precedingSlots layouts tier + set * layout.ways + way

theorem precedingSlots_succ (hlayout : layouts[tier]? = some layout) :
    precedingSlots layouts (tier + 1) =
      precedingSlots layouts tier + layout.sets * layout.ways := by
  rw [precedingSlots, take_add_one, hlayout, map_append, sum_append]
  simp [precedingSlots]

theorem precedingSlots_mono (hle : tier ≤ tier') :
    precedingSlots layouts tier ≤ precedingSlots layouts tier' := by
  obtain ⟨more, rfl⟩ := Nat.exists_eq_add_of_le hle
  rw [precedingSlots, precedingSlots, take_add, map_append, sum_append]
  exact Nat.le_add_right _ _

theorem slotNumber_lt (hlayout : layouts[tier]? = some layout) (hset : set < layout.sets)
    (hway : way < layout.ways) :
    slotNumber layouts tier layout set way < precedingSlots layouts (tier + 1) := by
  have hsets : (set + 1) * layout.ways ≤ layout.sets * layout.ways :=
    Nat.mul_le_mul_right _ hset
  rw [precedingSlots_succ hlayout, slotNumber]
  rw [Nat.add_mul] at hsets
  omega

/-- Slots with the same number are the same. -/
theorem slotNumber_inj (hlayout : layouts[tier]? = some layout)
    (hlayout' : layouts[tier']? = some layout') (hset : set < layout.sets)
    (hset' : set' < layout'.sets) (hway : way < layout.ways) (hway' : way' < layout'.ways)
    (heq : slotNumber layouts tier layout set way =
      slotNumber layouts tier' layout' set' way') : tier = tier' ∧ set = set' ∧ way = way' := by
  have hle : precedingSlots layouts tier ≤ slotNumber layouts tier layout set way :=
    (Nat.le_add_right _ _).trans (Nat.le_add_right _ _)
  have hle' : precedingSlots layouts tier' ≤ slotNumber layouts tier' layout' set' way' :=
    (Nat.le_add_right _ _).trans (Nat.le_add_right _ _)
  have hlt := slotNumber_lt hlayout hset hway
  have hlt' := slotNumber_lt hlayout' hset' hway'
  rcases lt_trichotomy tier tier' with hless | rfl | hmore
  · exact absurd heq (hlt.trans_le ((precedingSlots_mono hless).trans hle')).ne
  · obtain rfl := Option.some.inj (hlayout.symm.trans hlayout')
    have hwithin : layout.ways * set + way = layout.ways * set' + way' := by
      rw [slotNumber, slotNumber] at heq
      rw [Nat.mul_comm, Nat.mul_comm layout.ways]
      omega
    have hpositive : 0 < layout.ways := Nat.zero_lt_of_lt hway
    have hsets : set = set' := by
      calc set = (layout.ways * set + way) / layout.ways := by
            rw [Nat.mul_add_div hpositive, Nat.div_eq_of_lt hway, Nat.add_zero]
        _ = (layout.ways * set' + way') / layout.ways := by rw [hwithin]
        _ = set' := by rw [Nat.mul_add_div hpositive, Nat.div_eq_of_lt hway', Nat.add_zero]
    subst hsets
    exact ⟨rfl, rfl, Nat.add_left_cancel hwithin⟩
  · exact absurd heq (hlt'.trans_le ((precedingSlots_mono hmore).trans hle)).ne'

variable {cache : Cache} {store : Store} {key other : Digest} {value : List UInt8}

/-- The slot has a record of the key. -/
def Holds (cache : Cache) (store : Store) (slot : Slot) (key : Digest) (value : List UInt8) :
    Prop :=
  ∃ file, store.files slot = some file ∧ file.data = cache.record key value

/-- The key belongs in the slot, and the value has room there. -/
structure Fits (slot : Slot) (layout : CacheTier) (key : Digest) (value : List UInt8) : Prop where
  tier : tiers[slot.tier]? = some layout
  way : slot.way < layout.ways
  set : slot.set = setOf key layout.sets
  room : headerBytes + value.length ≤ layout.recordLimit

/-- A directory that one process has used. -/
structure WellFormed (cache : Cache) (store : Store) : Prop where
  index : store.index.length = indexBytes
  records : ∀ slot file, store.files slot = some file →
    ∃ layout key value, Fits slot layout key value ∧ file.data = cache.record key value ∧
      slice (slotNumber tiers slot.tier layout slot.set slot.way * 32) 32 store.index = key.bytes
  filled : ∀ tier set way way', store.files ⟨tier, set, way⟩ ≠ none → way' < way →
    store.files ⟨tier, set, way'⟩ ≠ none
  unique : ∀ slot slot' key value value', Holds cache store slot key value →
    Holds cache store slot' key value' → slot.tier = slot'.tier → slot = slot'

section

variable (hlayout : tiers[tier]? = some layout)
include hlayout

theorem sets_pos : 0 < layout.sets := by
  have hall : ∀ layout ∈ tiers, 0 < layout.sets := by decide
  exact hall layout (mem_of_getElem? hlayout)

theorem ways_pos : 0 < layout.ways := by
  have hall : ∀ layout ∈ tiers, 0 < layout.ways := by decide
  exact hall layout (mem_of_getElem? hlayout)

theorem headerBytes_lt_limit : headerBytes ≤ layout.recordLimit := by
  have hall : ∀ layout ∈ tiers, headerBytes ≤ layout.recordLimit := by decide
  exact hall layout (mem_of_getElem? hlayout)

theorem setOf_lt (key : Digest) : setOf key layout.sets < layout.sets :=
  Nat.mod_lt _ (sets_pos hlayout)

end

theorem Fits.set_lt {slot : Slot} (hfits : Fits slot layout key value) : slot.set < layout.sets :=
  hfits.set ▸ setOf_lt hfits.tier key

theorem indexBytes_eq : indexBytes = precedingSlots tiers tiers.length * 32 := by decide

/-- A hint lies within the index. -/
theorem hint_within (hlayout : tiers[tier]? = some layout) {set : ℕ} (hset : set < layout.sets)
    (hway : way < layout.ways) : slotNumber tiers tier layout set way * 32 + 32 ≤ indexBytes := by
  have hlt := slotNumber_lt hlayout hset hway
  have htier : tier < tiers.length := (List.getElem?_eq_some_iff.mp hlayout).1
  have htotal : precedingSlots tiers (tier + 1) ≤ precedingSlots tiers tiers.length :=
    precedingSlots_mono htier
  rw [indexBytes_eq]
  omega

theorem wellFormed_empty : WellFormed cache .empty where
  index := length_replicate
  records := fun _ _ hfile => by cases hfile
  filled := fun _ _ _ _ hfile => absurd rfl hfile
  unique := fun _ _ _ _ _ ⟨_, hfile, _⟩ => by cases hfile

theorem record_injective {value' : List UInt8}
    (heq : cache.record key value = cache.record other value') : key = other ∧ value = value' := by
  have hheaders := congrArg (List.take headerBytes) heq
  rw [Cache.record, Cache.record, take_left' length_header,
    take_left' length_header] at hheaders
  have hvalues := congrArg (List.drop headerBytes) heq
  rw [Cache.record, Cache.record, drop_left' length_header,
    drop_left' length_header] at hvalues
  have hkey : namesKey other (cache.header key value) = true := by
    rw [hheaders, namesKey_header, decide_eq_true rfl]
  rw [namesKey_header] at hkey
  exact ⟨of_decide_eq_true hkey, hvalues⟩

/-- What a tier holds of a key, whatever the hints say. -/
def Cache.held (cache : Cache) (store : Store) (tier : ℕ) (layout : CacheTier) (key : Digest) :
    Option (List UInt8) :=
  (List.range layout.ways).findSome? fun way => cache.lookupWay store key tier layout way

/-- The tiers as the layers that a lookup searches. -/
def Cache.layers (cache : Cache) (store : Store) : Layers Digest (List UInt8) :=
  tiers.zipIdx.map fun tier => cache.held store tier.2 tier.1

section

variable (hwell : WellFormed cache store) (hlayout : tiers[tier]? = some layout)
include hwell hlayout

/-- The file of a slot is a record that belongs there. -/
theorem WellFormed.record {file : RecordFile}
    (hfile : store.files (slotOf key tier layout way) = some file) :
    ∃ owner value, file.data = cache.record owner value ∧
      Fits (slotOf key tier layout way) layout owner value ∧
      slice (slotNumber tiers tier layout (setOf key layout.sets) way * 32) 32 store.index =
        owner.bytes := by
  obtain ⟨layout', owner, value, hfits, hdata, hhint⟩ := hwell.records _ file hfile
  obtain rfl := Option.some.inj (hlayout.symm.trans hfits.tier)
  exact ⟨owner, value, hdata, hfits, hhint⟩

theorem lookupWay_eq_some_iff :
    cache.lookupWay store key tier layout way = some value ↔
      Holds cache store (slotOf key tier layout way) key value := by
  constructor
  · intro hfound
    obtain ⟨file, hfile, hread⟩ := Option.bind_eq_some_iff.mp hfound
    obtain ⟨owner, kept, hdata, hfits, _⟩ := hwell.record hlayout hfile
    rw [hdata, readRecord_record hfits.room] at hread
    split at hread
    case isTrue howner =>
      obtain rfl := Option.some.inj hread
      exact ⟨file, hfile, howner ▸ hdata⟩
    · cases hread
  · rintro ⟨file, hfile, hdata⟩
    obtain ⟨owner, kept, hdata', hfits, _⟩ := hwell.record hlayout hfile
    obtain ⟨rfl, rfl⟩ := record_injective (hdata.symm.trans hdata')
    rw [Cache.lookupWay, hfile, Option.bind_some, hdata, readRecord_record hfits.room, if_pos rfl]

/-- A tier holds what one of its slots holds. -/
theorem held_eq_some_iff :
    cache.held store tier layout key = some value ↔
      ∃ way < layout.ways, Holds cache store (slotOf key tier layout way) key value := by
  constructor
  · intro hheld
    obtain ⟨way, hmem, hfound⟩ := exists_of_findSome?_eq_some hheld
    exact ⟨way, mem_range.mp hmem, (lookupWay_eq_some_iff hwell hlayout).mp hfound⟩
  · rintro ⟨way, hway, hholds⟩
    have hfound := (lookupWay_eq_some_iff hwell hlayout).mpr hholds
    cases hheld : cache.held store tier layout key with
    | none =>
      have hnone := List.findSome?_eq_none_iff.mp hheld way (mem_range.mpr hway)
      rw [hfound] at hnone
      cases hnone
    | some first =>
      obtain ⟨way', _, hfound'⟩ := exists_of_findSome?_eq_some hheld
      have hholds' := (lookupWay_eq_some_iff hwell hlayout).mp hfound'
      have hslots := hwell.unique _ _ key _ _ hholds hholds' rfl
      have hways : way = way' := congrArg Slot.way hslots
      rw [← hfound, ← hfound', hways]

end

theorem findSome?_congr {first second : ℕ → Option (List UInt8)} {ways : List ℕ}
    (hsame : ∀ way ∈ ways, first way = second way) :
    ways.findSome? first = ways.findSome? second := by
  induction ways with
  | nil => rfl
  | cons way ways ih =>
    obtain ⟨hway, hways⟩ := forall_mem_cons.mp hsame
    rw [List.findSome?_cons, List.findSome?_cons, hway, ih hways]

/-- The hints do not hide a record. -/
theorem lookupTier_eq (hwell : WellFormed cache store) (hlayout : tiers[tier]? = some layout) :
    cache.lookupTier store key tier layout = .ok (cache.held store tier layout key) := by
  have hset := setOf_lt hlayout key
  have hwindow : indexSetOffset key tier layout + layout.ways * 32 ≤ store.index.length := by
    have hlast := hint_within hlayout hset (Nat.sub_one_lt_of_lt (ways_pos hlayout))
    rw [hwell.index, indexSetOffset]
    rw [slotNumber] at hlast
    omega
  rw [Cache.lookupTier, readExactAt, if_pos hwindow]
  refine congrArg Except.ok (findSome?_congr fun way hmem => ?_)
  have hway := mem_range.mp hmem
  have hhint : hintOf way (slice (indexSetOffset key tier layout) (layout.ways * 32) store.index) =
      slice (slotNumber tiers tier layout (setOf key layout.sets) way * 32) 32 store.index := by
    rw [hintOf, slice_slice (by omega), indexSetOffset, slotNumber]
    ring
  rw [hhint]
  split
  case isTrue hne =>
    cases hfound : cache.lookupWay store key tier layout way with
    | none => rfl
    | some found =>
      obtain ⟨file, hfile, hdata⟩ := (lookupWay_eq_some_iff hwell hlayout).mp hfound
      obtain ⟨owner, kept, hdata', _, hbytes⟩ := hwell.record hlayout hfile
      obtain ⟨rfl, _⟩ := record_injective (hdata.symm.trans hdata')
      exact absurd hbytes hne
  · rfl

/-- A lookup reads the layers. -/
theorem lookup_eq (hwell : WellFormed cache store) (key : Digest) :
    cache.lookup store key = .ok ((cache.layers store).read key) := by
  have hall : ∀ entries : List (CacheTier × ℕ),
      (∀ entry ∈ entries, tiers[entry.2]? = some entry.1) →
      cache.lookupTiers store key entries =
        .ok (Layers.read (entries.map fun tier => cache.held store tier.2 tier.1) key) := by
    intro entries hentries
    induction entries with
    | nil => rfl
    | cons entry later ih =>
      obtain ⟨hentry, hlater⟩ := forall_mem_cons.mp hentries
      rw [Cache.lookupTiers, lookupTier_eq hwell hentry, map_cons, Layers.read_cons]
      cases cache.held store entry.2 entry.1 key with
      | none => exact ih hlater
      | some found => rfl
  exact hall tiers.zipIdx fun entry hmem => mem_zipIdx_iff_getElem?.mp hmem

end ConvexWasm.IncrementalCache
