import ConvexWasm.Core.Interleaving
import ConvexWasm.Core.KeyedMap

/-!
# Replaying reads and writes by epochs

What was recorded falls into epochs, each with reads in no particular order and a
write at its end.  A read is answered by a conversation of one or several events,
and the conversations of an epoch may overlap.  Here is what it takes to keep track
of them, over arbitrary reads, writes and events.
-/

namespace ConvexWasm

open List

/-- Reads, and the write that ends them; the last epoch has none. -/
structure Epoch (Read Write : Type) where
  reads : List Read
  write : Option Write

variable {Read Write Event Handle Talk : Type}

section Replays

variable (converses : Read → List Event → Prop) (performs : Write → Event → Prop)

/-- The events are one conversation for each read, in some interleaving. -/
def Covers (reads : List Read) (events : List Event) : Prop :=
  ∃ parts, List.Forall₂ converses reads parts ∧ Interleaving parts events

/-- The events are the conversations of each epoch and its write, epoch by epoch. -/
inductive Replays : List (Epoch Read Write) → List Event → Prop
  | last {reads : List Read} {events : List Event} :
      Covers converses reads events → Replays [⟨reads, none⟩] events
  | write {reads : List Read} {write : Write} {epochs : List (Epoch Read Write)}
      {during after : List Event} {event : Event} :
      Covers converses reads during → performs write event → Replays epochs after →
      Replays (⟨reads, some write⟩ :: epochs) (during ++ event :: after)

/-- The epochs that a run has left behind. -/
inductive Played : List (Epoch Read Write) → List Event → Prop
  | start : Played [] []
  | write {reads : List Read} {write : Write} {epochs : List (Epoch Read Write)}
      {before during : List Event} {event : Event} :
      Played epochs before → Covers converses reads during → performs write event →
      Played (epochs ++ [⟨reads, some write⟩]) (before ++ (during ++ [event]))

variable {converses performs}

theorem Played.replays {epochs later : List (Epoch Read Write)} {before after : List Event}
    (hplayed : Played converses performs epochs before)
    (hlater : Replays converses performs later after) :
    Replays converses performs (epochs ++ later) (before ++ after) := by
  induction hplayed generalizing later after with
  | start => exact hlater
  | write _ hcovers hperforms ih =>
    have hlast := ih (.write hcovers hperforms hlater)
    simpa using hlast

end Replays

section Rearranged

variable {Left Right : Type} (same : List Left → List Right → Prop)
  (sameWrite : Left → Right → Prop)

/-- Both are interleavings of the same conversations. -/
def Reordered (lefts : List Left) (rights : List Right) : Prop :=
  ∃ parts parts', List.Forall₂ same parts parts' ∧ Interleaving parts lefts ∧
    Interleaving parts' rights

/-- The same conversations in each epoch, up to their interleaving, and the same
writes. -/
inductive Rearranged : List Left → List Right → Prop
  | last {lefts : List Left} {rights : List Right} :
      Reordered same lefts rights → Rearranged lefts rights
  | write {lefts lefts' : List Left} {rights rights' : List Right} {left : Left} {right : Right} :
      Reordered same lefts rights → sameWrite left right → Rearranged lefts' rights' →
      Rearranged (lefts ++ left :: lefts') (rights ++ right :: rights')

variable {same sameWrite} {converses : Read → List Left → Prop} {performs : Write → Left → Prop}
  {converses' : Read → List Right → Prop} {performs' : Write → Right → Prop}

variable {lefts : List Left} {rights : List Right}

section

variable (hsame : ∀ read part part', converses read part → converses' read part' → same part part')
include hsame

theorem Covers.reordered {reads : List Read} (hleft : Covers converses reads lefts)
    (hright : Covers converses' reads rights) : Reordered same lefts rights := by
  obtain ⟨parts, hparts, hlefts⟩ := hleft
  obtain ⟨parts', hparts', hrights⟩ := hright
  refine ⟨parts, parts', ?_, hlefts, hrights⟩
  clear hlefts hrights
  induction hparts generalizing parts' with
  | nil =>
    cases hparts'
    exact .nil
  | cons hpart _ ih =>
    cases hparts' with
    | cons hpart' hrest => exact .cons (hsame _ _ _ hpart hpart') (ih _ hrest)

/-- Two replays of the same epochs. -/
theorem Replays.rearranged {epochs : List (Epoch Read Write)}
    (hwrite : ∀ write left right, performs write left → performs' write right →
      sameWrite left right) (hleft : Replays converses performs epochs lefts)
    (hright : Replays converses' performs' epochs rights) :
    Rearranged same sameWrite lefts rights := by
  induction hleft generalizing rights with
  | last hcovers =>
    cases hright with
    | last hcovers' => exact .last (hcovers.reordered hsame hcovers')
  | write hcovers hperforms _ ih =>
    cases hright with
    | write hcovers' hperforms' hrest =>
      exact .write (hcovers.reordered hsame hcovers') (hwrite _ _ _ hperforms hperforms') (ih hrest)

end

section

variable (hlength : ∀ part part', same part part' → part.length = part'.length)
include hlength

theorem Reordered.length_eq
    (hreordered : Reordered same lefts rights) : lefts.length = rights.length := by
  obtain ⟨parts, parts', hparts, hlefts, hrights⟩ := hreordered
  rw [hlefts.perm.length_eq, hrights.perm.length_eq, length_flatten, length_flatten]
  clear hlefts hrights
  induction hparts with
  | nil => rfl
  | cons hpart _ ih =>
    rw [map_cons, sum_cons, map_cons, sum_cons, ih, hlength _ _ hpart]

theorem Rearranged.length_eq {lefts : List Left} {rights : List Right}
    (hrearranged : Rearranged same sameWrite lefts rights) : lefts.length = rights.length := by
  induction hrearranged with
  | last hreordered => exact hreordered.length_eq hlength
  | write hreordered _ _ ih =>
    rw [length_append, length_append, length_cons, length_cons, hreordered.length_eq hlength, ih]

end

end Rearranged

section Conversations

/-- How far the conversation of a read is. -/
inductive Progress (Handle Talk : Type)
  | waiting
  | talking (handle : Handle) (talk : Talk)
  | ended

structure Slot (Read Event Handle Talk : Type) where
  read : Read
  progress : Progress Handle Talk
  part : List Event

def Slot.waiting : Slot Read Event Handle Talk → Option Read
  | ⟨read, .waiting, _⟩ => some read
  | _ => none

def Slot.talking : Slot Read Event Handle Talk → Option (Handle × Talk)
  | ⟨_, .talking handle talk, _⟩ => some (handle, talk)
  | _ => none

/-- The part of a conversation fits its progress. -/
def Slot.Fits (opened : Read → Handle → Talk → List Event → Prop)
    (converses : Read → List Event → Prop) : Slot Read Event Handle Talk → Prop
  | ⟨_, .waiting, part⟩ => part = []
  | ⟨read, .talking handle talk, part⟩ => opened read handle talk part
  | ⟨read, .ended, part⟩ => converses read part

/-- Of the reads some wait, some are in conversation and the others are answered. -/
structure Tracked (opened : Read → Handle → Talk → List Event → Prop)
    (converses : Read → List Event → Prop) (reads waiting : List Read)
    (talking : KeyedMap Handle Talk) (events : List Event)
    (slots : List (Slot Read Event Handle Talk)) : Prop where
  reads : slots.map (·.read) = reads
  waiting : slots.filterMap Slot.waiting = waiting
  talking : talking.entries.Perm (slots.filterMap Slot.talking)
  fits : ∀ slot ∈ slots, slot.Fits opened converses
  events : Interleaving (slots.map (·.part)) events

variable {opened : Read → Handle → Talk → List Event → Prop}
  {converses : Read → List Event → Prop} {reads waiting before after : List Read}
  {talking : KeyedMap Handle Talk} {events : List Event}
  {slots : List (Slot Read Event Handle Talk)} {read : Read} {handle : Handle} {talk : Talk}
  {event : Event}

theorem exists_tracked (reads : List Read) :
    ∃ slots, Tracked opened converses reads reads (KeyedMap.empty : KeyedMap Handle Talk) []
      slots := by
  refine ⟨reads.map fun read => ⟨read, .waiting, []⟩, ?_, ?_, ?_, ?_, ?_⟩
  · exact map_map.trans (map_id' reads)
  · exact filterMap_map.trans filterMap_some
  · have hnone : (reads.map fun read =>
        (⟨read, .waiting, []⟩ : Slot Read Event Handle Talk)).filterMap Slot.talking = [] :=
      filterMap_map.trans (filterMap_eq_nil_iff.mpr fun _ _ => rfl)
    rw [hnone]
    exact List.Perm.refl _
  · intro slot hslot
    obtain ⟨read, _, rfl⟩ := mem_map.mp hslot
    rfl
  · refine .done fun part hpart => ?_
    rw [map_map] at hpart
    obtain ⟨_, _, rfl⟩ := mem_map.mp hpart
    rfl

/-- A slot that moves on is followed by the parts of all. -/
theorem Tracked.move {front back : List (Slot Read Event Handle Talk)}
    {progress : Progress Handle Talk} {part : List Event} {waiting' : List Read}
    {talking' : KeyedMap Handle Talk}
    (htracked : Tracked opened converses reads waiting talking events
      (front ++ ⟨read, progress, part⟩ :: back)) (progress' : Progress Handle Talk)
    (hwaiting : (front ++ (⟨read, progress', part ++ [event]⟩ :: back)).filterMap Slot.waiting =
      waiting') (htalking : talking'.entries.Perm
      ((front ++ (⟨read, progress', part ++ [event]⟩ :: back)).filterMap Slot.talking))
    (hfits : Slot.Fits opened converses
      (⟨read, progress', part ++ [event]⟩ : Slot Read Event Handle Talk)) :
    Tracked opened converses reads waiting' talking' (events ++ [event])
      (front ++ ⟨read, progress', part ++ [event]⟩ :: back) where
  reads := by
    rw [← htracked.reads]
    simp
  waiting := hwaiting
  talking := htalking
  fits := fun slot hslot => by
    rcases mem_append.mp hslot with hfront | hrest
    · exact htracked.fits slot (mem_append_left _ hfront)
    · rcases mem_cons.mp hrest with rfl | hback
      · exact hfits
      · exact htracked.fits slot (mem_append_right _ (mem_cons_of_mem _ hback))
  events := by
    have hevents := htracked.events
    rw [map_append, map_cons] at hevents ⊢
    exact hevents.snoc

section

variable (htracked : Tracked opened converses reads (before ++ read :: after) talking events slots)
include htracked

/-- A waiting read is in a slot of its own. -/
theorem Tracked.exists_waiting :
    ∃ front back, slots = front ++ ⟨read, .waiting, []⟩ :: back ∧
      front.filterMap Slot.waiting = before ∧ back.filterMap Slot.waiting = after := by
  obtain ⟨first, second, rfl, hbefore, hsecond⟩ := filterMap_eq_append_iff.mp htracked.waiting
  obtain ⟨skipped, slot, back, rfl, hskipped, hslot, hafter⟩ := filterMap_eq_cons_iff.mp hsecond
  obtain ⟨found, progress, part⟩ := slot
  cases progress with
  | waiting =>
    cases hslot
    obtain rfl : part = [] := htracked.fits ⟨read, .waiting, part⟩ (by simp)
    refine ⟨first ++ skipped, back, by simp, ?_, hafter⟩
    rw [filterMap_append, hbefore, filterMap_eq_nil_iff.mpr hskipped, List.append_nil]
  | talking _ _ => cases hslot
  | ended => cases hslot

/-- A read that is answered at once. -/
theorem Tracked.answer (hconverses : converses read [event]) :
    ∃ slots', Tracked opened converses reads (before ++ after) talking (events ++ [event])
      slots' := by
  obtain ⟨front, back, rfl, hbefore, hafter⟩ := htracked.exists_waiting
  have htalking := htracked.talking
  refine ⟨_, htracked.move .ended ?_ ?_ hconverses⟩
  · rw [filterMap_append, filterMap_cons, hbefore, hafter]
    rfl
  · rw [filterMap_append, filterMap_cons] at htalking ⊢
    exact htalking

end

section Handles

variable [DecidableEq Handle]

variable {first last : List (Handle × Talk)}

/-- Leaving a key out of a map is leaving its one entry out. -/
theorem entries_erase_perm (hentries : talking.entries.Perm (first ++ (handle, talk) :: last)) :
    (talking.erase handle).entries.Perm (first ++ last) := by
  have hnodup := (hentries.map Prod.fst).nodup_iff.mp talking.keys_nodup
  rw [map_append, map_cons, nodup_middle, nodup_cons, ← map_append] at hnodup
  have hothers : ∀ entry ∈ first ++ last, decide (entry.1 ≠ handle) = true := by
    intro entry hentry
    refine decide_eq_true fun heq => hnodup.1 ?_
    change handle ∈ (first ++ last).map Prod.fst
    rw [← heq]
    exact mem_map_of_mem hentry
  have hfilter := hentries.filter fun entry => decide (entry.1 ≠ handle)
  rw [filter_append, filter_cons] at hfilter
  refine hfilter.trans (List.Perm.of_eq ?_)
  rw [if_neg (by simp), ← filter_append]
  exact filter_eq_self.mpr hothers

variable {talk' : Talk}

theorem entries_insert_perm (hentries : talking.entries.Perm (first ++ (handle, talk) :: last)) :
    (talking.insert handle talk').entries.Perm (first ++ (handle, talk') :: last) := by
  have herase := entries_erase_perm hentries
  exact ((herase.append_right _).trans (perm_append_singleton _ _)).trans perm_middle.symm

/-- A conversation that is under way is in a slot of its own. -/
theorem Tracked.exists_talking
    (htracked : Tracked opened converses reads waiting talking events slots)
    (hget : talking.get? handle = some talk) :
    ∃ front back read part, slots = front ++ ⟨read, .talking handle talk, part⟩ :: back ∧
      opened read handle talk part := by
  have hmem := htracked.talking.mem_iff.mp (KeyedMap.get?_eq_some_iff.mp hget)
  obtain ⟨slot, hslot, htalking⟩ := mem_filterMap.mp hmem
  obtain ⟨front, back, rfl⟩ := append_of_mem hslot
  obtain ⟨read, progress, part⟩ := slot
  cases progress with
  | waiting => cases htalking
  | talking _ _ =>
    cases htalking
    exact ⟨front, back, read, part, rfl, htracked.fits _ hslot⟩
  | ended => cases htalking

/-- A read whose conversation begins, under a new handle. -/
theorem Tracked.opening
    (htracked : Tracked opened converses reads (before ++ read :: after) talking events slots)
    (hfresh : talking.get? handle = none) (hopened : opened read handle talk [event]) :
    ∃ slots', Tracked opened converses reads (before ++ after) (talking.insert handle talk)
      (events ++ [event]) slots' := by
  obtain ⟨front, back, rfl, hbefore, hafter⟩ := htracked.exists_waiting
  have htalking := htracked.talking
  have hothers : ∀ entry ∈ talking.entries, decide (entry.1 ≠ handle) = true := by
    intro entry hentry
    refine decide_eq_true fun heq => ?_
    refine KeyedMap.get?_eq_none_iff.mp hfresh ?_
    rw [← heq]
    exact mem_map_of_mem hentry
  have hinsert : (talking.insert handle talk).entries = talking.entries ++ [(handle, talk)] :=
    congrArg (· ++ [(handle, talk)]) (filter_eq_self.mpr hothers)
  refine ⟨_, htracked.move (.talking handle talk) ?_ ?_ hopened⟩
  · rw [filterMap_append, filterMap_cons, hbefore, hafter]
    rfl
  · rw [filterMap_append, filterMap_cons] at htalking ⊢
    rw [hinsert]
    exact ((htalking.append_right _).trans (perm_append_singleton _ _)).trans perm_middle.symm

variable (htracked : Tracked opened converses reads waiting talking events slots)
  (hget : talking.get? handle = some talk)
include htracked hget

/-- A conversation that goes on. -/
theorem Tracked.advance (hopened : ∀ read part, opened read handle talk part →
      opened read handle talk' (part ++ [event])) :
    ∃ slots', Tracked opened converses reads waiting (talking.insert handle talk')
      (events ++ [event]) slots' := by
  obtain ⟨front, back, read, part, rfl, hpart⟩ := htracked.exists_talking hget
  have hwaiting := htracked.waiting
  have htalking := htracked.talking
  refine ⟨_, htracked.move (.talking handle talk') ?_ ?_ (hopened read part hpart)⟩
  · rw [filterMap_append, filterMap_cons] at hwaiting ⊢
    exact hwaiting
  · rw [filterMap_append, filterMap_cons] at htalking ⊢
    exact entries_insert_perm htalking

/-- A conversation that comes to its end. -/
theorem Tracked.close
    (hconverses : ∀ read part, opened read handle talk part → converses read (part ++ [event])) :
    ∃ slots', Tracked opened converses reads waiting (talking.erase handle)
      (events ++ [event]) slots' := by
  obtain ⟨front, back, read, part, rfl, hpart⟩ := htracked.exists_talking hget
  have hwaiting := htracked.waiting
  have htalking := htracked.talking
  refine ⟨_, htracked.move .ended ?_ ?_ (hconverses read part hpart)⟩
  · rw [filterMap_append, filterMap_cons] at hwaiting ⊢
    exact hwaiting
  · rw [filterMap_append, filterMap_cons] at htalking ⊢
    exact entries_erase_perm htalking

end Handles

/-- When nothing waits and nobody talks, every read has had its conversation. -/
theorem Tracked.covers (htracked : Tracked opened converses reads [] talking events slots)
    (htalking : talking.entries = []) : Covers converses reads events := by
  refine ⟨slots.map (·.part), ?_, htracked.events⟩
  rw [← htracked.reads, List.forall₂_map_left_iff, List.forall₂_map_right_iff, List.forall₂_same]
  intro slot hslot
  have hfits := htracked.fits slot hslot
  obtain ⟨read, progress, part⟩ := slot
  cases progress with
  | waiting =>
    have hmem : read ∈ slots.filterMap Slot.waiting := mem_filterMap.mpr ⟨_, hslot, rfl⟩
    rw [htracked.waiting] at hmem
    exact absurd hmem not_mem_nil
  | talking handle talk =>
    have hmem : (handle, talk) ∈ slots.filterMap Slot.talking := mem_filterMap.mpr ⟨_, hslot, rfl⟩
    rw [← htracked.talking.mem_iff, htalking] at hmem
    exact absurd hmem not_mem_nil
  | ended => exact hfits

end Conversations

section Standing

variable [Preorder Handle]

/-- How far a replay is in its epochs: some are behind it, and of the current one the
waiting reads are left.  Handles are given out in order. -/
structure Standing (opened : Read → Handle → Talk → List Event → Prop)
    (converses : Read → List Event → Prop) (performs : Write → Event → Prop)
    (epochs : List (Epoch Read Write)) (index : ℕ) (waiting : List Read)
    (talking : KeyedMap Handle Talk) (next : Handle) (events : List Event) : Prop where
  fresh : ∀ handle ∈ talking.keys, handle < next
  tracked : ∃ played current later before during slots, epochs = played ++ current :: later ∧
    index = played.length ∧ events = before ++ during ∧ Played converses performs played before ∧
      Tracked opened converses current.reads waiting talking during slots

variable {opened : Read → Handle → Talk → List Event → Prop}
  {converses : Read → List Event → Prop} {performs : Write → Event → Prop}
  {epochs : List (Epoch Read Write)} {index : ℕ} {waiting before after : List Read}
  {talking : KeyedMap Handle Talk} {next : Handle} {events : List Event} {read : Read}
  {write : Write} {handle : Handle} {talk : Talk} {event : Event}

theorem Standing.start {first : Epoch Read Write} {later : List (Epoch Read Write)}
    (hepochs : epochs = first :: later) :
    Standing opened converses performs epochs 0 first.reads (.empty : KeyedMap Handle Talk) next
      [] where
  fresh _ hmem := absurd hmem not_mem_nil
  tracked := by
    obtain ⟨slots, hslots⟩ := exists_tracked first.reads
    exact ⟨[], first, later, [], [], slots, hepochs, rfl, rfl, .start, hslots⟩

/-- What happens within an epoch. -/
theorem Standing.move {waiting' : List Read} {talking' : KeyedMap Handle Talk} {next' : Handle}
    (hstanding : Standing opened converses performs epochs index waiting talking next events)
    (hfresh : ∀ handle ∈ talking'.keys, handle < next')
    (hmove : ∀ reads during slots, Tracked opened converses reads waiting talking during slots →
      ∃ slots', Tracked opened converses reads waiting' talking' (during ++ [event]) slots') :
    Standing opened converses performs epochs index waiting' talking' next'
      (events ++ [event]) := by
  obtain ⟨played, current, later, before, during, slots, hepochs, hindex, rfl, hplayed,
    htracked⟩ := hstanding.tracked
  obtain ⟨slots', hslots⟩ := hmove _ _ _ htracked
  exact ⟨hfresh, played, current, later, before, _, slots', hepochs, hindex, append_assoc .., hplayed,
    hslots⟩

section

variable (hstanding : Standing opened converses performs epochs index (before ++ read :: after)
  talking next events)
include hstanding

theorem Standing.exists_epoch : ∃ epoch ∈ epochs, read ∈ epoch.reads := by
  obtain ⟨played, current, later, _, _, slots, rfl, _, _, _, htracked⟩ := hstanding.tracked
  obtain ⟨front, back, rfl, _, _⟩ := htracked.exists_waiting
  refine ⟨current, mem_append_right _ mem_cons_self, ?_⟩
  rw [← htracked.reads]
  simp

theorem Standing.answer (hconverses : converses read [event]) :
    Standing opened converses performs epochs index (before ++ after) talking next
      (events ++ [event]) :=
  hstanding.move hstanding.fresh fun _ _ _ htracked => htracked.answer hconverses

variable [DecidableEq Handle]

theorem Standing.opening {next' : Handle} (hnext : next < next')
    (hopened : opened read next talk [event]) :
    Standing opened converses performs epochs index (before ++ after) (talking.insert next talk)
      next' (events ++ [event]) := by
  refine hstanding.move (fun handle hmem => ?_) fun _ _ _ htracked => htracked.opening
    (KeyedMap.get?_eq_none_iff.mpr fun hmem => lt_irrefl _ (hstanding.fresh _ hmem)) hopened
  obtain rfl | hold := KeyedMap.mem_keys_insert.mp hmem
  · exact hnext
  · exact (hstanding.fresh handle hold).trans hnext

end

section

variable [DecidableEq Handle]
  (hstanding : Standing opened converses performs epochs index waiting talking next events)
  (hget : talking.get? handle = some talk)
include hstanding hget

theorem Standing.advance {talk' : Talk} (hopened : ∀ read part, opened read handle talk part →
      opened read handle talk' (part ++ [event])) :
    Standing opened converses performs epochs index waiting (talking.insert handle talk') next
      (events ++ [event]) := by
  refine hstanding.move (fun other hmem => ?_) fun _ _ _ htracked => htracked.advance hget hopened
  obtain rfl | hold := KeyedMap.mem_keys_insert.mp hmem
  · exact hstanding.fresh _ (KeyedMap.mem_keys_of_get? hget)
  · exact hstanding.fresh other hold

theorem Standing.close
    (hconverses : ∀ read part, opened read handle talk part → converses read (part ++ [event])) :
    Standing opened converses performs epochs index waiting (talking.erase handle) next
      (events ++ [event]) :=
  hstanding.move (fun other hmem => hstanding.fresh other (KeyedMap.mem_keys_erase.mp hmem).1)
    fun _ _ _ htracked => htracked.close hget hconverses

end

section

variable (hlast : ∀ last, epochs.getLast? = some last → last.write = none)
  (hstanding : Standing opened converses performs epochs index [] talking next events)
  (htalking : talking.entries = [])
include hlast hstanding htalking

/-- A write ends the epoch, and there is one after it. -/
theorem Standing.nextEpoch [DecidableEq Handle] (hwrite : epochs[index]?.bind (·.write) = some write)
    (hperforms : performs write event) :
    Standing opened converses performs epochs (index + 1)
      ((epochs[index + 1]?.map (·.reads)).getD []) talking next (events ++ [event]) := by
  obtain ⟨played, ⟨reads, last⟩, later, before, during, slots, rfl, rfl, rfl, hplayed, htracked⟩ :=
    hstanding.tracked
  obtain rfl : last = some write := by simpa using hwrite
  cases later with
  | nil => cases hlast _ List.getLast?_concat
  | cons current others =>
    obtain ⟨slots', hslots⟩ := exists_tracked current.reads
    refine ⟨hstanding.fresh, played ++ [⟨reads, some write⟩], current, others, _, [], slots',
      by simp, by simp, by simp, hplayed.write (htracked.covers htalking) hperforms, ?_⟩
    rw [KeyedMap.eq_empty_of_entries htalking]
    simpa using hslots

/-- A replay at its end has gone through all that was recorded. -/
theorem Standing.replays (hindex : index + 1 = epochs.length) :
    Replays converses performs epochs events := by
  obtain ⟨played, ⟨reads, write⟩, later, before, during, slots, rfl, rfl, rfl, hplayed, htracked⟩ :=
    hstanding.tracked
  obtain rfl : later = [] := by
    rw [length_append, length_cons] at hindex
    exact eq_nil_of_length_eq_zero (by omega)
  obtain rfl : write = none := hlast _ List.getLast?_concat
  exact hplayed.replays (.last (htracked.covers htalking))

end

end Standing

end ConvexWasm
