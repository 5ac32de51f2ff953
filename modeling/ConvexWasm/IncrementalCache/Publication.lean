import ConvexWasm.IncrementalCache.Slots

/-!
# Publishing a record

A publication takes a slot of its set, no other slot of the tier then holds the key,
and the directory stays well formed: it is a write to one layer, which displaces what
the slot held.
-/

namespace ConvexWasm.IncrementalCache

open List Option

variable {cache : Cache} {store : Store} {key other : Digest} {value : List UInt8}
  {tier way time : ℕ} {layout : CacheTier}

/-- The slot has a record of another key. -/
def Occupied (store : Store) (key : Digest) (slot : Slot) : Prop :=
  ∃ file, store.files slot = some file ∧ holdsKey key file.data = false

/-- The slot is free or has a record of the key. -/
def Available (store : Store) (key : Digest) (slot : Slot) : Prop :=
  store.files slot = none ∨ ∃ file, store.files slot = some file ∧ holdsKey key file.data = true

/-- The first available way is taken; without one, any way may be. -/
theorem selectWay_cases (store : Store) (key : Digest) (tier : ℕ) (layout : CacheTier)
    (ways : List ℕ) (oldest : Option ℕ) (selection : Selection) :
    (∃ front back, ways =
        front ++ (selectWay store key tier layout ways oldest selection).selected :: back ∧
      (∀ way ∈ front, Occupied store key (slotOf key tier layout way)) ∧
      Available store key (slotOf key tier layout
        (selectWay store key tier layout ways oldest selection).selected)) ∨
    (∀ way ∈ ways, Occupied store key (slotOf key tier layout way)) ∧
      ((selectWay store key tier layout ways oldest selection).selected ∈ ways ∨
        (selectWay store key tier layout ways oldest selection).selected = selection.selected) := by
  induction ways generalizing oldest selection with
  | nil => exact .inr ⟨fun _ hmem => absurd hmem not_mem_nil, .inr rfl⟩
  | cons way ways ih =>
    rw [selectWay]
    split
    case h_1 hfile => exact .inl ⟨[], ways, rfl, fun _ hmem => absurd hmem not_mem_nil,
      .inl hfile⟩
    case h_2 file hfile =>
      by_cases hholds : holdsKey key file.data = true
      · rw [if_pos hholds]
        exact .inl ⟨[], ways, rfl, fun _ hmem => absurd hmem not_mem_nil,
          .inr ⟨file, hfile, hholds⟩⟩
      · have hoccupied : Occupied store key (slotOf key tier layout way) :=
          ⟨file, hfile, Bool.not_eq_true _ ▸ hholds⟩
        rw [if_neg hholds]
        split
        · rcases ih (some file.modified) { selection with
              selected := way, displacedRecordBytes := some file.data.length } with
            ⟨front, back, hsplit, hfront, havailable⟩ | ⟨hall, hselected⟩
          · exact .inl ⟨way :: front, back, congrArg (way :: ·) hsplit,
              forall_mem_cons.mpr ⟨hoccupied, hfront⟩, havailable⟩
          · refine .inr ⟨forall_mem_cons.mpr ⟨hoccupied, hall⟩, .inl ?_⟩
            rcases hselected with hmem | heq
            · exact mem_cons_of_mem _ hmem
            · rw [heq]
              exact mem_cons_self
        · rcases ih oldest selection with
            ⟨front, back, hsplit, hfront, havailable⟩ | ⟨hall, hselected⟩
          · exact .inl ⟨way :: front, back, congrArg (way :: ·) hsplit,
              forall_mem_cons.mpr ⟨hoccupied, hfront⟩, havailable⟩
          · exact .inr ⟨forall_mem_cons.mpr ⟨hoccupied, hall⟩,
              hselected.imp_left (mem_cons_of_mem _)⟩

theorem range_split {count : ℕ} {front back : List ℕ}
    (hsplit : List.range count = front ++ way :: back) :
    way < count ∧ ∀ other < way, other ∈ front := by
  have hat : ∀ {index : ℕ}, index < count → (front ++ way :: back)[index]? = some index :=
    fun hlt => hsplit ▸ List.getElem?_range hlt
  have hlength : front.length < count := by
    have hlengths := congrArg List.length hsplit
    rw [length_range, length_append, length_cons] at hlengths
    omega
  have hway : way = front.length := by
    have hmiddle := hat hlength
    rw [List.getElem?_append_right (Nat.le_refl _), Nat.sub_self] at hmiddle
    exact Option.some.inj hmiddle
  refine ⟨hway ▸ hlength, fun other hlt => ?_⟩
  have hother := hat (hlt.trans (hway ▸ hlength))
  rw [List.getElem?_append_left (hway ▸ hlt)] at hother
  exact mem_of_getElem? hother

/-- The selected way, with the ways before it occupied or all of them. -/
theorem select_cases (store : Store) (key : Digest) (tier : ℕ) (hways : 0 < layout.ways) :
    (store.select key tier layout).selected < layout.ways ∧
      ((∀ way < (store.select key tier layout).selected,
          Occupied store key (slotOf key tier layout way)) ∧
        Available store key (slotOf key tier layout (store.select key tier layout).selected) ∨
        ∀ way < layout.ways, Occupied store key (slotOf key tier layout way)) := by
  rcases selectWay_cases store key tier layout (List.range layout.ways) none
      { selected := 0, replacing := true, displacedRecordBytes := none } with
    ⟨front, back, hsplit, hfront, havailable⟩ | ⟨hall, hselected⟩
  · obtain ⟨hway, hbefore⟩ := range_split hsplit
    exact ⟨hway, .inl ⟨fun way hlt => hfront way (hbefore way hlt), havailable⟩⟩
  · rw [← Store.select] at hselected
    refine ⟨?_, .inr fun way hlt => hall way (mem_range.mpr hlt)⟩
    rcases hselected with hmem | hzero
    · exact mem_range.mp hmem
    · rw [hzero]
      exact hways

/-- The slot that a publication takes. -/
def Store.slotFor (store : Store) (key : Digest) (tier : ℕ) (layout : CacheTier) : Slot :=
  slotOf key tier layout (store.select key tier layout).selected

theorem holdsKey_record : holdsKey key (cache.record other value) = decide (other = key) := by
  have hheader : (cache.record other value).take headerBytes = cache.header other value :=
    take_left' length_header
  rw [holdsKey, hheader, hasMagic_header, namesKey_header, length_record,
    decide_eq_true (Nat.le_add_right _ _)]
  rfl

theorem not_holds_of_occupied {slot : Slot} (hoccupied : Occupied store key slot)
    (value : List UInt8) : ¬ Holds cache store slot key value := by
  rintro ⟨file, hfile, hdata⟩
  obtain ⟨file', hfile', hholds⟩ := hoccupied
  obtain rfl := Option.some.inj (hfile.symm.trans hfile')
  rw [hdata, holdsKey_record, decide_eq_true rfl] at hholds
  cases hholds

/-- Only the slot that is taken may hold the key in its tier. -/
theorem WellFormed.eq_slotFor (hwell : WellFormed cache store)
    (hlayout : tiers[tier]? = some layout) {slot : Slot} (htier : slot.tier = tier)
    (hholds : Holds cache store slot key value) : slot = store.slotFor key tier layout := by
  obtain ⟨hselected, hcases⟩ := select_cases store key tier (ways_pos hlayout)
  obtain ⟨file, hfile, hdata⟩ := hholds
  obtain ⟨layout', owner, kept, hfits, hdata', _⟩ := hwell.records slot file hfile
  obtain ⟨rfl, rfl⟩ := record_injective (hdata.symm.trans hdata')
  have hsame : layout = layout' := Option.some.inj (hlayout.symm.trans (htier ▸ hfits.tier))
  subst hsame
  have hslot : slot = slotOf key tier layout slot.way := by
    rw [slotOf, ← hfits.set, ← htier]
  rw [hslot] at hfile ⊢
  have hnot : ¬ Occupied store key (slotOf key tier layout slot.way) := fun hoccupied =>
    not_holds_of_occupied hoccupied _ ⟨file, hfile, hdata⟩
  rcases hcases with ⟨hbefore, hnone | ⟨file', hfile', hkey⟩⟩ | hall
  · refine congrArg (slotOf key tier layout) ?_
    rcases lt_trichotomy slot.way (store.select key tier layout).selected with
      hless | heq | hmore
    · exact absurd (hbefore _ hless) hnot
    · exact heq
    · -- the ways are filled in order, so that none after a free one is taken
      have hsome : store.files (slotOf key tier layout slot.way) ≠ none := by
        rw [hfile]
        exact some_ne_none _
      exact absurd hnone (hwell.filled _ _ _ _ hsome hmore)
  · obtain ⟨owner, kept', hdata'', _, _⟩ := hwell.record hlayout hfile'
    rw [hdata'', holdsKey_record, decide_eq_true_eq] at hkey
    subst hkey
    exact hwell.unique _ _ owner _ _ ⟨file, hfile, hdata⟩ ⟨file', hfile', hdata''⟩ rfl
  · exact absurd (hall _ hfits.way) hnot

theorem publish_files (slot : Slot) :
    (cache.publish store key value tier layout time).1.files slot =
      if slot = store.slotFor key tier layout then
        some { data := cache.record key value, modified := time }
      else store.files slot :=
  Function.update_apply _ _ _ _

theorem publish_index :
    (cache.publish store key value tier layout time).1.index =
      writeAllAt (slotNumber tiers tier layout (setOf key layout.sets)
        (store.select key tier layout).selected * 32) key.bytes store.index := by
  have hoffset : indexSetOffset key tier layout + (store.select key tier layout).selected * 32 =
      slotNumber tiers tier layout (setOf key layout.sets)
        (store.select key tier layout).selected * 32 := by
    rw [indexSetOffset, slotNumber, Nat.add_mul _ (store.select key tier layout).selected]
  exact congrArg (writeAllAt · key.bytes store.index) hoffset

/-- The hint that is written leaves those of other slots. -/
theorem slice_hint_of_ne {index bytes : List UInt8} {number number' : ℕ}
    (hbytes : bytes.length = 32) (hwithin : number * 32 + 32 ≤ index.length)
    (hne : number' ≠ number) :
    slice (number' * 32) 32 (writeAllAt (number * 32) bytes index) =
      slice (number' * 32) 32 index := by
  rcases Nat.lt_or_gt_of_ne hne with hless | hmore
  · exact slice_writeAllAt_before (by omega) (by omega)
  · exact slice_writeAllAt_after (by omega) (by omega)

theorem holds_publish_iff {slot : Slot} {owner : Digest} {kept : List UInt8} :
    Holds cache (cache.publish store key value tier layout time).1 slot owner kept ↔
      if slot = store.slotFor key tier layout then key = owner ∧ value = kept
      else Holds cache store slot owner kept := by
  rw [Holds, publish_files]
  split
  · constructor
    · rintro ⟨file, hfile, hdata⟩
      obtain rfl := Option.some.inj hfile
      exact record_injective hdata
    · rintro ⟨rfl, rfl⟩
      exact ⟨_, rfl, rfl⟩
  · rfl

theorem WellFormed.publish (hwell : WellFormed cache store) (hlayout : tiers[tier]? = some layout)
    (hroom : headerBytes + value.length ≤ layout.recordLimit) :
    WellFormed cache (cache.publish store key value tier layout time).1 := by
  obtain ⟨hselected, hcases⟩ := select_cases store key tier (ways_pos hlayout)
  have hset := setOf_lt hlayout key
  have hwithin := hint_within hlayout hset hselected
  rw [← hwell.index] at hwithin
  have hwrites : slotNumber tiers tier layout (setOf key layout.sets)
      (store.select key tier layout).selected * 32 + key.bytes.length ≤ store.index.length := by
    rw [key.length_eq]
    exact hwithin
  exact
    { index := by rw [publish_index, length_writeAllAt hwrites, hwell.index]
      records := fun slot file hfile => by
        rw [publish_files] at hfile
        rw [publish_index]
        split at hfile
        case isTrue hslot =>
          obtain rfl := Option.some.inj hfile
          subst hslot
          refine ⟨layout, key, value, ⟨hlayout, hselected, rfl, hroom⟩, rfl, ?_⟩
          have hself := slice_writeAllAt_self hwrites
          rw [key.length_eq] at hself
          exact hself
        case isFalse hslot =>
          obtain ⟨layout', owner, kept, hfits, hdata, hhint⟩ := hwell.records slot file hfile
          refine ⟨layout', owner, kept, hfits, hdata, ?_⟩
          rw [slice_hint_of_ne key.length_eq hwithin, hhint]
          intro hnumber
          obtain ⟨htier, hsets, hway⟩ := slotNumber_inj hfits.tier hlayout hfits.set_lt hset
            hfits.way hselected hnumber
          refine hslot ?_
          calc slot = ⟨slot.tier, slot.set, slot.way⟩ := rfl
            _ = store.slotFor key tier layout := by rw [htier, hsets, hway]; rfl
      filled := fun tier' set way way' hfile hless => by
        rw [publish_files] at hfile ⊢
        split
        · exact some_ne_none _
        · split at hfile
          case isFalse => exact hwell.filled _ _ _ _ hfile hless
          case isTrue hslot =>
            cases hslot
            rcases hcases with ⟨hbefore, _⟩ | hall
            · obtain ⟨found, hfound, _⟩ := hbefore way' hless
              rw [slotOf] at hfound
              rw [hfound]
              exact some_ne_none _
            · obtain ⟨found, hfound, _⟩ := hall way' (hless.trans hselected)
              rw [slotOf] at hfound
              rw [hfound]
              exact some_ne_none _
      unique := fun slot slot' owner kept kept' hholds hholds' htier => by
        rw [holds_publish_iff] at hholds hholds'
        split at hholds
        case isTrue hslot =>
          split at hholds'
          case isTrue hslot' => rw [hslot, hslot']
          case isFalse =>
            obtain ⟨rfl, rfl⟩ := hholds
            rw [hslot] at htier ⊢
            exact (hwell.eq_slotFor hlayout htier.symm hholds').symm
        case isFalse =>
          split at hholds'
          case isTrue hslot' =>
            obtain ⟨rfl, rfl⟩ := hholds'
            rw [hslot'] at htier ⊢
            exact hwell.eq_slotFor hlayout htier hholds
          case isFalse => exact hwell.unique _ _ _ _ _ hholds hholds' htier }

/-- The key that a record names. -/
def ownerOf (data : List UInt8) : Option Digest :=
  if h : (slice 8 32 data).length = 32 then some ⟨slice 8 32 data, h⟩ else none

/-- The other key whose record makes way. -/
def Store.displaced (store : Store) (key : Digest) (tier : ℕ) (layout : CacheTier) :
    Option Digest :=
  ((store.files (store.slotFor key tier layout)).bind fun file => ownerOf file.data).filter
    fun owner => owner ≠ key

theorem ownerOf_record : ownerOf (cache.record key value) = some key := by
  have hbytes : slice 8 32 (cache.record key value) = key.bytes := by
    rw [slice, Cache.record, Cache.header, named, append_assoc, append_assoc,
      drop_left' length_magic, take_left' key.length_eq]
  rw [ownerOf, dif_pos (hbytes ▸ key.length_eq)]
  exact congrArg some (Digest.bytes_injective hbytes)

theorem displaced_eq_some_iff (hwell : WellFormed cache store)
    (hlayout : tiers[tier]? = some layout) :
    store.displaced key tier layout = some other ↔
      other ≠ key ∧ ∃ kept, Holds cache store (store.slotFor key tier layout) other kept := by
  rw [Store.displaced, filter_eq_some_iff, decide_eq_true_eq]
  constructor
  · rintro ⟨howner, hne⟩
    obtain ⟨file, hfile, howner⟩ := Option.bind_eq_some_iff.mp howner
    obtain ⟨owner, kept, hdata, _⟩ := hwell.record hlayout hfile
    rw [hdata, ownerOf_record] at howner
    obtain rfl := Option.some.inj howner
    exact ⟨hne, kept, file, hfile, hdata⟩
  · rintro ⟨hne, kept, file, hfile, hdata⟩
    exact ⟨Option.bind_eq_some_iff.mpr ⟨file, hfile, hdata ▸ ownerOf_record⟩, hne⟩

section Layers

variable {tier' : ℕ} {layout' : CacheTier}

variable (hwell : WellFormed cache store) (hlayout : tiers[tier]? = some layout)
  (hroom : headerBytes + value.length ≤ layout.recordLimit)
include hwell hlayout hroom

/-- The other tiers are left alone. -/
theorem held_publish_of_ne (hlayout' : tiers[tier']? = some layout') (hne : tier' ≠ tier)
    (other : Digest) :
    cache.held (cache.publish store key value tier layout time).1 tier' layout' other =
      cache.held store tier' layout' other := by
  refine Option.ext fun kept => ?_
  rw [held_eq_some_iff (hwell.publish hlayout hroom) hlayout', held_eq_some_iff hwell hlayout']
  refine exists_congr fun way => and_congr_right fun _ => ?_
  rw [holds_publish_iff, if_neg]
  intro hslot
  exact hne (congrArg Slot.tier hslot)

/-- The tier of the publication holds the value and not what it displaced. -/
theorem held_publish (other : Digest) :
    cache.held (cache.publish store key value tier layout time).1 tier layout other =
      if other = key then some value
      else if store.displaced key tier layout = some other then none
      else cache.held store tier layout other := by
  obtain ⟨hselected, _⟩ := select_cases store key tier (ways_pos hlayout)
  refine Option.ext fun kept => ?_
  rw [held_eq_some_iff (hwell.publish hlayout hroom) hlayout]
  split
  case isTrue hkey =>
    subst hkey
    constructor
    · rintro ⟨way, _, hholds⟩
      rw [holds_publish_iff] at hholds
      split at hholds
      · exact congrArg some hholds.2
      case isFalse hslot => exact absurd (hwell.eq_slotFor hlayout rfl hholds) hslot
    · intro hvalue
      obtain rfl := Option.some.inj hvalue
      exact ⟨_, hselected, holds_publish_iff.mpr (by
        rw [Store.slotFor, if_pos rfl]
        exact ⟨rfl, rfl⟩)⟩
  case isFalse hkey =>
    split
    case isTrue hdisplaced =>
      obtain ⟨_, old, hold⟩ := (displaced_eq_some_iff hwell hlayout).mp hdisplaced
      refine ⟨?_, fun hnone => by cases hnone⟩
      rintro ⟨way, _, hholds⟩
      rw [holds_publish_iff] at hholds
      split at hholds
      · exact absurd hholds.1.symm hkey
      case isFalse hslot => exact absurd (hwell.unique _ _ other _ _ hholds hold rfl) hslot
    case isFalse hdisplaced =>
      rw [held_eq_some_iff hwell hlayout]
      refine exists_congr fun way => and_congr_right fun _ => ?_
      rw [holds_publish_iff]
      split
      case isTrue hslot =>
        refine ⟨fun hnew => absurd hnew.1.symm hkey, fun hholds => absurd ?_ hdisplaced⟩
        exact (displaced_eq_some_iff hwell hlayout).mpr ⟨hkey, kept, hslot ▸ hholds⟩
      case isFalse => rfl

/-- A publication is a write to the layer of its tier. -/
theorem layers_publish :
    cache.layers (cache.publish store key value tier layout time).1 =
      (cache.layers store).write tier key value (store.displaced key tier layout) := by
  refine ext_getElem? fun index => ?_
  rw [Layers.write, List.getElem?_modify, Cache.layers, Cache.layers, List.getElem?_map,
    List.getElem?_map, List.getElem?_zipIdx]
  cases hindex : tiers[index]? with
  | none => simp
  | some layout' =>
    simp only [map_some, Nat.zero_add]
    refine congrArg some (funext fun other => ?_)
    split
    case isTrue htier =>
      subst htier
      obtain rfl := Option.some.inj (hlayout.symm.trans hindex)
      exact held_publish hwell hlayout hroom other
    case isFalse htier =>
      exact held_publish_of_ne hwell hlayout hroom hindex (Ne.symm htier) other

end Layers

end ConvexWasm.IncrementalCache
