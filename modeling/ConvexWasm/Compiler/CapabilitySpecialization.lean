import ConvexWasm.Compiler.CapabilityEdits

/-!
# The edits of a module made canonical

Units share source ranges, so the branches of a module may contribute an edit
more than once, or inside another.  The compiler sorts the edits and compares
each with the last one that it kept; what it keeps are the maximal edits.
-/

namespace ConvexWasm.Compiler.CapabilityEdits

open Fallible List Utf8Text

variable {edits done kept kept' : List CapabilitySourceEdit}
  {edit first second : CapabilitySourceEdit}

/-- By the start, then from the farthest end to the nearest, then by the replacement. -/
def CapabilitySourceEdit.rank (edit : CapabilitySourceEdit) : ℕ ×ₗ ℕᵒᵈ ×ₗ String :=
  toLex (edit.start, toLex (OrderDual.toDual edit.stop, edit.replacement))

/-- One edit of the sorted list, compared with the last one that was kept. -/
def keepEdit (canonical : List CapabilitySourceEdit) (edit : CapabilitySourceEdit) :
    Except String (List CapabilitySourceEdit) :=
  match canonical.getLast? with
  | none => .ok (canonical ++ [edit])
  | some previous =>
    if previous.start = edit.start ∧ previous.stop = edit.stop then
      if previous.replacement = edit.replacement then .ok canonical
      else .error "capability source edits conflict on one exact range"
    else if edit.start < previous.stop then
      if previous.start ≤ edit.start ∧ edit.stop ≤ previous.stop then .ok canonical
      else .error "capability source edits overlap without containment"
    else .ok (canonical ++ [edit])

def canonicalEdits (edits : List CapabilitySourceEdit) :
    Except String (List CapabilitySourceEdit) :=
  (edits.insertionSort fun left right => left.rank ≤ right.rank).foldlM keepEdit []

/-- A range that contains another one, and not at its end only. -/
def Covers (outer inner : SourceRange) : Prop :=
  outer.start ≤ inner.start ∧ inner.stop ≤ outer.stop ∧ inner.start < outer.stop ∧ outer ≠ inner

/-- The edit is covered by no other. -/
def Maximal (edits : List CapabilitySourceEdit) (edit : CapabilitySourceEdit) : Prop :=
  edit ∈ edits ∧ ∀ other ∈ edits, ¬Covers other.toSourceRange edit.toSourceRange

/-- Two edits that are one, or share no offset. -/
def Compatible (first second : CapabilitySourceEdit) : Prop :=
  first = second ∨
    first.toSourceRange ≠ second.toSourceRange ∧ Apart first.toSourceRange second.toSourceRange

theorem Covers.trans {outer middle inner : SourceRange} (houter : Covers outer middle)
    (hinner : Covers middle inner) : Covers outer inner := by
  obtain ⟨hstart, hstop, -, hne⟩ := houter
  obtain ⟨hstart', hstop', hlt, -⟩ := hinner
  refine ⟨hstart.trans hstart', hstop'.trans hstop, hlt.trans_le hstop, ?_⟩
  rintro rfl
  apply hne
  cases outer
  cases middle
  simp only [SourceRange.mk.injEq]
  exact ⟨le_antisymm hstart hstart', le_antisymm hstop' hstop⟩

theorem rank_le_iff : first.rank ≤ second.rank ↔ first.start < second.start ∨
    first.start = second.start ∧ (second.stop < first.stop ∨
      first.stop = second.stop ∧ first.replacement ≤ second.replacement) := by
  simp [CapabilitySourceEdit.rank, Prod.Lex.toLex_le_toLex]

theorem rank_injective (hrank : first.rank = second.rank) : first = second := by
  obtain ⟨⟨_, _⟩, _⟩ := first
  obtain ⟨⟨_, _⟩, _⟩ := second
  simpa [CapabilitySourceEdit.rank, and_assoc] using hrank

/-- What covers an edit comes before it. -/
theorem not_covers_of_rank_le (hrank : first.rank ≤ second.rank) :
    ¬Covers second.toSourceRange first.toSourceRange := by
  rintro ⟨hstart, hstop, -, hne⟩
  apply hne
  obtain hlt | ⟨heq, hlt | ⟨hsame, -⟩⟩ := rank_le_iff.mp hrank
  · omega
  · omega
  · cases hfirst : first.toSourceRange
    simp_all

/-- What is kept of the edits that are done. -/
structure Kept (done kept : List CapabilitySourceEdit) : Prop where
  mem : ∀ edit ∈ kept, edit ∈ done
  ordered : kept.Pairwise fun first second => first.rank ≤ second.rank ∧
    first.toSourceRange ≠ second.toSourceRange ∧ first.stop ≤ second.start
  covered : ∀ edit ∈ done, edit ∈ kept ∨
    ∃ other ∈ kept, Covers other.toSourceRange edit.toSourceRange

/-- No kept edit is covered. -/
theorem Kept.maximal (hkept : Kept done kept) (hedit : edit ∈ kept) : Maximal done edit := by
  have hothers : ∀ other ∈ kept, ¬Covers other.toSourceRange edit.toSourceRange := by
    intro other hother hcovers
    obtain ⟨before, after, hsplit⟩ := append_of_mem hedit
    have hordered := hkept.ordered
    rw [hsplit, pairwise_append, pairwise_cons] at hordered
    rw [hsplit, mem_append, mem_cons] at hother
    obtain hbefore | rfl | hafter := hother
    · have hle := (hordered.2.2 other hbefore edit mem_cons_self).2.2
      exact absurd hcovers.2.2.1 (not_lt.mpr hle)
    · exact hcovers.2.2.2 rfl
    · exact not_covers_of_rank_le (hordered.2.1.1 other hafter).1 hcovers
  refine ⟨hkept.mem edit hedit, fun other hother hcovers => ?_⟩
  obtain hmem | ⟨outer, houter, hover⟩ := hkept.covered other hother
  · exact hothers other hmem hcovers
  · exact hothers outer houter (hover.trans hcovers)

/-- The last edit kept reaches as far as all that are done. -/
theorem Kept.stop_le (hkept : Kept done kept) (hranges : ∀ edit ∈ done, edit.start ≤ edit.stop)
    {previous : CapabilitySourceEdit} (hlast : kept.getLast? = some previous) :
    ∀ edit ∈ done, edit.stop ≤ previous.stop := by
  have hothers : ∀ other ∈ kept, other.stop ≤ previous.stop := by
    intro other hother
    obtain ⟨front, rfl⟩ := getLast?_eq_some_iff.mp hlast
    obtain hfront | hsame := mem_append.mp hother
    · have hle := ((pairwise_append.mp hkept.ordered).2.2 other hfront previous
        mem_cons_self).2.2
      exact hle.trans (hranges previous (hkept.mem previous mem_concat_self))
    · rw [mem_singleton.mp hsame]
  intro edit hedit
  obtain hmem | ⟨outer, houter, hover⟩ := hkept.covered edit hedit
  · exact hothers edit hmem
  · exact hover.2.1.trans (hothers outer houter)

/-- Two maximal edits that the code must tell apart. -/
def Conflicting (edits : List CapabilitySourceEdit) : Prop :=
  ∃ first second, Maximal edits first ∧ Maximal edits second ∧ ¬Compatible first second

theorem Kept.skip (hkept : Kept done kept)
    (hedit : edit ∈ kept ∨ ∃ other ∈ kept, Covers other.toSourceRange edit.toSourceRange) :
    Kept (done ++ [edit]) kept where
  mem other hother := mem_append_left _ (hkept.mem other hother)
  ordered := hkept.ordered
  covered other hother := by
    obtain hdone | hsame := mem_append.mp hother
    · exact hkept.covered other hdone
    · rwa [mem_singleton.mp hsame]

theorem Kept.push (hkept : Kept done kept) (hrank : ∀ earlier ∈ done, earlier.rank ≤ edit.rank)
    (hapart : ∀ other ∈ kept, other.toSourceRange ≠ edit.toSourceRange ∧
      other.stop ≤ edit.start) : Kept (done ++ [edit]) (kept ++ [edit]) where
  mem other hother := by
    obtain hmem | hsame := mem_append.mp hother
    · exact mem_append_left _ (hkept.mem other hmem)
    · exact mem_append_right _ hsame
  ordered := by
    rw [pairwise_append]
    refine ⟨hkept.ordered, pairwise_singleton _ _, fun other hother last hlast => ?_⟩
    rw [mem_singleton.mp hlast]
    exact ⟨hrank other (hkept.mem other hother), hapart other hother⟩
  covered other hother := by
    obtain hdone | hsame := mem_append.mp hother
    · obtain hmem | ⟨outer, houter, hover⟩ := hkept.covered other hdone
      · exact .inl (mem_append_left _ hmem)
      · exact .inr ⟨outer, mem_append_left _ houter, hover⟩
    · exact .inl (mem_append_right _ hsame)

theorem conflicting_of_last {previous : CapabilitySourceEdit} (hprevious : Maximal done previous)
    (hrank : previous.rank ≤ edit.rank)
    (hedit : ∀ other ∈ done, ¬Covers other.toSourceRange edit.toSourceRange)
    (hmeet : ¬Compatible previous edit) : Conflicting (done ++ [edit]) := by
  refine ⟨previous, edit, ⟨mem_append_left _ hprevious.1, ?_⟩,
    ⟨mem_append_right _ mem_cons_self, ?_⟩, hmeet⟩
  · intro other hother
    obtain hdone | hsame := mem_append.mp hother
    · exact hprevious.2 other hdone
    · rw [mem_singleton.mp hsame]
      exact not_covers_of_rank_le hrank
  · intro other hother
    obtain hdone | hsame := mem_append.mp hother
    · exact hedit other hdone
    · rw [mem_singleton.mp hsame]
      exact fun hcovers => hcovers.2.2.2 rfl

/-- One step keeps what is kept right, or has found two edits in conflict. -/
theorem Kept.keep (hkept : Kept done kept) (hranges : ∀ edit ∈ done, edit.start ≤ edit.stop)
    (hrank : ∀ earlier ∈ done, earlier.rank ≤ edit.rank) :
    (∀ kept', keepEdit kept edit = .ok kept' → Kept (done ++ [edit]) kept') ∧
    ∀ error, keepEdit kept edit = .error error → Conflicting (done ++ [edit]) := by
  rw [keepEdit]
  cases hlast : kept.getLast? with
  | none =>
    rw [getLast?_eq_none_iff] at hlast
    subst hlast
    refine ⟨fun kept' hok => ?_, fun error hfails => nomatch hfails⟩
    cases hok
    exact hkept.push hrank (by simp)
  | some previous =>
    have hmem : previous ∈ kept := mem_of_getLast? hlast
    have hmaximal := hkept.maximal hmem
    have hbefore := hrank previous hmaximal.1
    have hstart : previous.start ≤ edit.start := by
      obtain hlt | ⟨heq, -⟩ := rank_le_iff.mp hbefore
      · exact hlt.le
      · exact heq.le
    have hreach := hkept.stop_le hranges hlast
    have hsame : previous.toSourceRange = edit.toSourceRange ↔
        previous.start = edit.start ∧ previous.stop = edit.stop := by
      rw [SourceRange.ext_iff]
    simp only
    split_ifs with hexact hreplacement hmeets hcontained
    · refine ⟨fun kept' hok => ?_, fun error hfails => nomatch hfails⟩
      cases hok
      have heq : previous = edit := by
        rw [CapabilitySourceEdit.ext_iff]
        exact ⟨hexact.1, hexact.2, hreplacement⟩
      exact hkept.skip (.inl (heq ▸ hmem))
    · refine ⟨fun kept' hok => (nomatch hok), fun error _ => ?_⟩
      apply conflicting_of_last hmaximal hbefore
      · rw [← hsame.mpr hexact]
        exact hmaximal.2
      · rintro (heq | ⟨hne, -⟩)
        · exact hreplacement (congrArg _ heq)
        · exact hne (hsame.mpr hexact)
    · refine ⟨fun kept' hok => ?_, fun error hfails => nomatch hfails⟩
      cases hok
      exact hkept.skip (.inr ⟨previous, hmem, hcontained.1, hcontained.2, hmeets,
        fun heq => hexact (hsame.mp heq)⟩)
    · refine ⟨fun kept' hok => (nomatch hok), fun error _ => ?_⟩
      have hlt : previous.stop < edit.stop := not_le.mp fun hle => hcontained ⟨hstart, hle⟩
      apply conflicting_of_last hmaximal hbefore
      · intro other hother hcovers
        exact absurd (hreach other hother) (not_le.mpr (hlt.trans_le hcovers.2.1))
      · rintro (heq | ⟨-, happart | happart⟩)
        · exact hlt.ne (congrArg (·.stop) heq)
        · exact absurd hmeets (not_lt.mpr happart)
        · omega
    · refine ⟨fun kept' hok => ?_, fun error hfails => nomatch hfails⟩
      cases hok
      apply hkept.push hrank
      intro other hother
      have hstop := hreach other (hkept.mem other hother)
      refine ⟨fun heq => ?_, hstop.trans (not_lt.mp hmeets)⟩
      have hother' := hranges other (hkept.mem other hother)
      obtain ⟨front, rfl⟩ := getLast?_eq_some_iff.mp hlast
      obtain hfront | hprevious := mem_append.mp hother
      · have hle := ((pairwise_append.mp hkept.ordered).2.2 other hfront previous
          mem_cons_self).2.2
        have hstarts := congrArg SourceRange.start heq
        have hstops := congrArg SourceRange.stop heq
        exact hexact ⟨by omega, by omega⟩
      · rw [mem_singleton.mp hprevious] at heq
        exact hexact (hsame.mp heq)

theorem Conflicting.append {later : List CapabilitySourceEdit} (hconflict : Conflicting edits)
    (hrank : ∀ first ∈ edits, ∀ second ∈ later, first.rank ≤ second.rank) :
    Conflicting (edits ++ later) := by
  have hmaximal : ∀ {edit}, Maximal edits edit → Maximal (edits ++ later) edit := by
    intro edit hedit
    refine ⟨mem_append_left _ hedit.1, fun other hother => ?_⟩
    obtain hmem | hlater := mem_append.mp hother
    · exact hedit.2 other hmem
    · exact not_covers_of_rank_le (hrank edit hedit.1 other hlater)
  obtain ⟨first, second, hfirst, hsecond, hmeet⟩ := hconflict
  exact ⟨first, second, hmaximal hfirst, hmaximal hsecond, hmeet⟩

theorem Kept.run (hkept : Kept done kept) (todo : List CapabilitySourceEdit)
    (hranges : ∀ edit ∈ done ++ todo, edit.start ≤ edit.stop)
    (hsorted : (done ++ todo).Pairwise fun first second => first.rank ≤ second.rank) :
    (∀ canonical, todo.foldlM keepEdit kept = .ok canonical → Kept (done ++ todo) canonical) ∧
    ∀ error, todo.foldlM keepEdit kept = .error error → Conflicting (done ++ todo) := by
  induction todo generalizing done kept with
  | nil =>
    rw [append_nil]
    refine ⟨fun canonical hok => ?_, fun error hfails => nomatch hfails⟩
    cases hok
    exact hkept
  | cons edit rest ih =>
    obtain ⟨-, -, hcross⟩ := pairwise_append.mp hsorted
    obtain ⟨hkeep, hconflict⟩ := hkept.keep (fun earlier hearlier =>
      hranges earlier (mem_append_left _ hearlier)) fun earlier hearlier =>
        hcross earlier hearlier edit mem_cons_self
    have hsplit : done ++ edit :: rest = done ++ [edit] ++ rest := by simp
    rw [hsplit] at hranges hsorted ⊢
    rw [foldlM_cons]
    cases hstep : keepEdit kept edit with
    | error error =>
      refine ⟨fun canonical hok => (nomatch hok), fun error' _ => ?_⟩
      exact (hconflict error hstep).append (pairwise_append.mp hsorted).2.2
    | ok next =>
      exact ih (hkeep next hstep) hranges hsorted

/-- What the canonical edits are: the maximal ones, once each and in the order of the source. -/
theorem kept_of_canonicalEdits (hranges : ∀ edit ∈ edits, edit.start ≤ edit.stop) :
    (∀ canonical, canonicalEdits edits = .ok canonical →
      (canonical.Pairwise fun first second =>
        first.toSourceRange ≠ second.toSourceRange ∧ first.stop ≤ second.start) ∧
      ∀ edit, edit ∈ canonical ↔ Maximal edits edit) ∧
    ∀ error, canonicalEdits edits = .error error → Conflicting edits := by
  set sorted := edits.insertionSort fun left right => left.rank ≤ right.rank
  have hmem : ∀ edit, edit ∈ sorted ↔ edit ∈ edits := fun edit =>
    (perm_insertionSort _ edits).mem_iff
  have hmaximal : ∀ edit, Maximal sorted edit ↔ Maximal edits edit := by
    intro edit
    simp only [Maximal, hmem]
  have hsortedRanges : ∀ edit ∈ sorted, edit.start ≤ edit.stop := fun edit hedit =>
    hranges edit ((hmem edit).mp hedit)
  have hempty : Kept [] [] := ⟨by simp, Pairwise.nil, by simp⟩
  have hrun := hempty.run sorted hsortedRanges
    (KeySort.sorted_by_key CapabilitySourceEdit.rank edits)
  constructor
  · intro canonical hok
    have hkept := hrun.1 canonical hok
    refine ⟨hkept.ordered.imp fun hpair => hpair.2, fun edit => ?_⟩
    rw [← hmaximal]
    constructor
    · exact hkept.maximal
    · intro hedit
      obtain hmem | ⟨other, hother, hcovers⟩ := hkept.covered edit hedit.1
      · exact hmem
      · exact absurd hcovers (hedit.2 other (hkept.mem other hother))
  · intro error hfails
    obtain ⟨first, second, hfirst, hsecond, hmeet⟩ := hrun.2 error hfails
    exact ⟨first, second, (hmaximal first).mp hfirst, (hmaximal second).mp hsecond, hmeet⟩

theorem canonicalEdits_perm {edits' : List CapabilitySourceEdit} (hperm : edits'.Perm edits) :
    canonicalEdits edits' = canonicalEdits edits := by
  rw [canonicalEdits, canonicalEdits, KeySort.insertionSort_eq_of_perm CapabilitySourceEdit.rank
    hperm fun _ _ _ _ => rank_injective]

/-- The canonicalisation succeeds exactly when any two maximal edits are one or share no
offset, whatever they contain; it lists the maximal edits, whatever order they come in, and the
list is accepted exactly when each of them stands in its place and fits. -/
theorem canonicalEdits_maximal (hranges : ∀ edit ∈ edits, edit.start ≤ edit.stop) :
    ((∃ canonical, canonicalEdits edits = .ok canonical) ↔
      ∀ first second, Maximal edits first → Maximal edits second → Compatible first second) ∧
    ((∀ first ∈ edits, ∀ second ∈ edits, Compatible first second ∨
        Covers first.toSourceRange second.toSourceRange ∨
        Covers second.toSourceRange first.toSourceRange) →
      ∃ canonical, canonicalEdits edits = .ok canonical) ∧
    (∀ edits', edits'.Perm edits → canonicalEdits edits' = canonicalEdits edits) ∧
    ∀ canonical, canonicalEdits edits = .ok canonical →
      (canonical.Pairwise fun first second =>
        first.toSourceRange ≠ second.toSourceRange ∧ first.stop ≤ second.start) ∧
      (∀ edit, edit ∈ canonical ↔ Maximal edits edit) ∧
      ∀ source, (∃ result, applySourceEdits source canonical = .ok result) ↔
        ∀ edit, Maximal edits edit → Placed (bytesOf source) edit.toSourceRange ∧
          Fits (between (bytesOf source) edit.start edit.stop) edit.replacement := by
  obtain ⟨hlisted, hfailed⟩ := kept_of_canonicalEdits hranges
  have hsucceeds : (∃ canonical, canonicalEdits edits = .ok canonical) ↔
      ∀ first second, Maximal edits first → Maximal edits second →
        Compatible first second := by
    constructor
    · rintro ⟨canonical, hok⟩ first second hfirst hsecond
      obtain ⟨hordered, hmem⟩ := hlisted canonical hok
      have hsymm : Std.Symm Compatible := ⟨fun first second hpair =>
        hpair.imp Eq.symm fun hapart => ⟨hapart.1.symm, hapart.2.symm⟩⟩
      by_cases heq : first = second
      · exact .inl heq
      · have hpairs : canonical.Pairwise Compatible :=
          hordered.imp fun hpair => .inr ⟨hpair.1, .inl hpair.2⟩
        exact hpairs.forall ((hmem first).mpr hfirst) ((hmem second).mpr hsecond) heq
    · intro hcompatible
      cases houtcome : canonicalEdits edits with
      | ok canonical => exact ⟨canonical, rfl⟩
      | error error =>
        obtain ⟨first, second, hfirst, hsecond, hmeet⟩ := hfailed error houtcome
        exact absurd (hcompatible first second hfirst hsecond) hmeet
  refine ⟨hsucceeds, ?_, fun edits' hperm => canonicalEdits_perm hperm, ?_⟩
  · intro hnested
    apply hsucceeds.mpr
    intro first second hfirst hsecond
    obtain hcompatible | hcovers | hcovers := hnested first hfirst.1 second hsecond.1
    · exact hcompatible
    · exact absurd hcovers (hsecond.2 first hfirst.1)
    · exact absurd hcovers (hfirst.2 second hsecond.1)
  · intro canonical hok
    obtain ⟨hordered, hmem⟩ := hlisted canonical hok
    refine ⟨hordered, hmem, fun source => ?_⟩
    rw [(applySourceEdits_spec source canonical).1]
    constructor
    · intro haccepted edit hedit
      exact ⟨haccepted.placed edit ((hmem edit).mpr hedit),
        haccepted.fits edit ((hmem edit).mpr hedit)⟩
    · intro hall
      exact ⟨fun edit hedit => (hall edit ((hmem edit).mp hedit)).1,
        hordered.imp fun hpair => .inl hpair.2,
        fun edit hedit => (hall edit ((hmem edit).mp hedit)).2⟩

/-- Two ranges that cross inside a third one. -/
def hiddenCrossing : List CapabilitySourceEdit :=
  [⟨⟨0, 100⟩, ""⟩, ⟨⟨10, 30⟩, ""⟩, ⟨⟨20, 40⟩, ""⟩]

/-- The ones that cross are not maximal, so they go unnoticed. -/
theorem canonicalEdits_hiddenCrossing :
    ¬Apart ⟨10, 30⟩ ⟨20, 40⟩ ∧ ¬Covers ⟨10, 30⟩ ⟨20, 40⟩ ∧ ¬Covers ⟨20, 40⟩ ⟨10, 30⟩ ∧
      canonicalEdits hiddenCrossing = .ok [⟨⟨0, 100⟩, ""⟩] := by
  refine ⟨by simp [Apart], by simp [Covers], by simp [Covers], ?_⟩
  decide +kernel

theorem canonicalEdits_maximal_hidden :
    (∀ edit ∈ hiddenCrossing, edit.start ≤ edit.stop) ∧
      ∀ canonical, canonicalEdits hiddenCrossing = .ok canonical →
        ∀ edit, edit ∈ canonical ↔ Maximal hiddenCrossing edit :=
  have hranges : ∀ edit ∈ hiddenCrossing, edit.start ≤ edit.stop := by decide
  ⟨hranges, fun canonical hok => ((canonicalEdits_maximal hranges).2.2.2 canonical hok).2.1⟩

end ConvexWasm.Compiler.CapabilityEdits
