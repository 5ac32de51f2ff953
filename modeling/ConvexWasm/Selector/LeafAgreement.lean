import ConvexWasm.Selector.LeafSelector

/-!
# When a leaf selector agrees with its descriptor

The text of a selector is fixed but for the symbols of the units, so that a
replacement can be read off piece by piece.  A leaf selector is what it is to be
exactly when each turn of the loop replaces the symbols of its units and nothing
else.
-/

namespace ConvexWasm.Selector

open Fallible List TextReplacement

section Pieces

theorem lines_append (before after : List String) :
    lines (before ++ after) = lines before ++ lines after :=
  flatMap_append

theorem fixed_lines {before last : List String} {final : Char} (hlast : last ≠ [])
    (hends : (lines last).getLast? = some final) (hfinal : isDelimiter final = true) :
    Fixed isDelimiter (lines (before ++ last)) := by
  have hstarts : ∀ texts : List String, texts ≠ [] →
      ∃ first rest, lines texts = first :: rest ∧ isDelimiter first = true := by
    intro texts hnonempty
    cases texts with
    | nil => exact absurd rfl hnonempty
    | cons text others => exact ⟨'\n', _, rfl, by decide⟩
  obtain ⟨start, hstart⟩ := List.getLast?_eq_some_iff.mp hends
  refine ⟨hstarts _ fun hnil => hlast (append_eq_nil_iff.mp hnil).2, ?_⟩
  rw [lines_append]
  exact append_ends ⟨start, final, hstart, hfinal⟩

theorem separated_declaration (symbol : String) :
    Separated isDelimiter (declarationPieces symbol) := by
  have hextern : Fixed isDelimiter (lines ([] ++ ["extern SHUnit *"])) :=
    @fixed_lines [] _ '*' (cons_ne_nil _ _) (by decide) (by decide)
  have hvoid : Fixed isDelimiter "(void);".toList :=
    ⟨⟨'(', _, rfl, by decide⟩, ⟨"(void)".toList, ';', rfl, by decide⟩⟩
  exact .fixed hextern (.name hvoid .nil)

theorem separated_factory (entry : String × ℕ) : Separated isDelimiter (factoryPieces entry) := by
  have hcase : Fixed isDelimiter
      (lines ([] ++ ["    case " ++ toString entry.2 ++ ": return "])) := by
    apply @fixed_lines [] _ ' ' (cons_ne_nil _ _)
    · rw [lines, flatMap_cons, flatMap_nil, List.append_nil, String.toList_append]
      exact List.getLast?_append_of_ne_nil ('\n' :: ("    case " ++ toString entry.2).toList)
        (show ": return ".toList ≠ [] by decide)
    · decide
  have hsemicolon : Fixed isDelimiter ";".toList :=
    ⟨⟨';', _, rfl, by decide⟩, ⟨[], ';', rfl, by decide⟩⟩
  exact .fixed hcase (.name hsemicolon .nil)

variable (source : SelectorSource)

/-- The symbols of the units stand between delimiters. -/
theorem separated_selectorPieces : Separated isDelimiter (selectorPieces source) := by
  have hheader : Fixed isDelimiter ("#include <stdint.h>".toList ++ lines headerLines) := by
    have hlines : Fixed isDelimiter (lines ([] ++ headerLines)) :=
      @fixed_lines [] _ ';' (cons_ne_nil _ _) (by decide) (by decide)
    exact ⟨⟨'#', _, rfl, by decide⟩, append_ends hlines.ends⟩
  have hbefore : Fixed isDelimiter (lines (linesBeforeFactories source)) :=
    @fixed_lines _ _ '\x7b' (cons_ne_nil _ _) (by decide) (by decide)
  have hafter : Fixed isDelimiter (lines (linesAfterFactories source)) :=
    @fixed_lines _ selectedLines '\n' (cons_ne_nil _ _) (by decide +kernel) (by decide)
  have hdeclarations := Separated.flatMap fun symbol (_ : symbol ∈ source.factorySymbols) =>
    separated_declaration symbol
  have hfactories := Separated.flatMap fun entry (_ : entry ∈ source.factorySymbols.zipIdx) =>
    separated_factory entry
  exact ((((Separated.fixed hheader .nil).append hdeclarations).append
    (.fixed hbefore .nil)).append hfactories).append (.fixed hafter .nil)

theorem name_mem_selectorPieces {name : String} :
    .name name ∈ selectorPieces source ↔ name ∈ source.factorySymbols := by
  rw [selectorPieces]
  simp only [mem_append, mem_flatMap, declarationPieces,
    factoryPieces, mem_cons, reduceCtorEq, false_or, or_false, Piece.name.injEq,
    not_mem_nil]
  constructor
  · rintro (⟨symbol, hsymbol, rfl⟩ | ⟨entry, hentry, rfl⟩)
    · exact hsymbol
    · exact fst_mem_of_mem_zipIdx hentry
  · exact fun hname => Or.inl ⟨name, hname, rfl⟩

/-- Other symbols change nothing else in the text. -/
theorem selectorPieces_map (rename : String → String) :
    selectorPieces { source with factorySymbols := source.factorySymbols.map rename } =
      (selectorPieces source).map (Piece.map rename) := by
  have hbefore : linesBeforeFactories
      { source with factorySymbols := source.factorySymbols.map rename } =
        linesBeforeFactories source := by
    rw [linesBeforeFactories, linesBeforeFactories, length_map]
  rw [selectorPieces, selectorPieces, hbefore, zipIdx_map, flatMap_map, flatMap_map]
  simp only [map_append, map_flatMap, map_cons, map_nil]
  rfl

end Pieces

variable {descriptor : ApplicationDescriptor} {orderedEntrySymbols : List String}
  {members : List SelectorMember} {original : SelectorSource}

/-- What a selector has of its descriptor. -/
structure TablesOf (descriptor : ApplicationDescriptor) (original : SelectorSource) : Prop where
  count : original.chunkSlotCount = descriptor.chunkSlotCount
  symbols : original.factorySymbols = descriptor.units.map (·.entrySymbol)
  rows : original.dependencyRows =
    (dependencyTables (descriptor.units.take descriptor.chunkSlotCount)).1
  ranges : original.dependencyRanges =
    (dependencyTables (descriptor.units.take descriptor.chunkSlotCount)).2

theorem render_tables
    (hrender : renderConvexWasmCapabilityChunkApplicationSelector descriptor orderedEntrySymbols
      members = .ok original) : TablesOf descriptor original := by
  rw [renderConvexWasmCapabilityChunkApplicationSelector] at hrender
  split at hrender
  · cases hrender
  obtain ⟨_, _, hrest⟩ := bind_eq_ok.mp hrender
  split at hrest
  · cases hrest
  split at hrest
  · cases hrest
  obtain ⟨cases, _, hroutes⟩ := bind_eq_ok.mp hrest
  obtain ⟨_, _, hsource⟩ := bind_eq_ok.mp hroutes
  rw [← Except.ok.inj hsource]
  exact ⟨rfl, rfl, rfl, rfl⟩

theorem hexDigit_clean {digit : Char} (hdigit : isHexDigit digit = true) :
    isDelimiter digit = false := by
  have halphanum : digit.isAlphanum = true := by
    rw [isHexDigit, Bool.or_eq_true, Bool.and_eq_true, decide_eq_true_eq, decide_eq_true_eq]
      at hdigit
    rw [Char.isAlphanum, Bool.or_eq_true]
    rcases hdigit with hnumber | ⟨hlow, hhigh⟩
    · exact Or.inr hnumber
    · have hlower : digit.isLower = true := by
        rw [Char.isLower, Bool.and_eq_true, decide_eq_true_eq, decide_eq_true_eq]
        exact ⟨hlow, hhigh.trans (show 'f'.val ≤ 'z'.val by decide)⟩
      rw [Char.isAlpha, hlower, Bool.or_true]
      exact Or.inl rfl
  rw [isDelimiter, isIdentifierCharacter, halphanum]
  rfl

theorem symbol_clean (htables : TablesOf descriptor original) {entrySymbol : String}
    (hsymbol : entrySymbol ∈ original.factorySymbols) :
    ∀ character ∈ entrySymbol.toList, isDelimiter character = false := by
  have hhead : isIdentifier "sh_export_convex_wasm_official_chunk_" = true := by decide +kernel
  rw [htables.symbols] at hsymbol
  obtain ⟨unit, hunit, rfl⟩ := mem_map.mp hsymbol
  have hidentity := descriptor.identities unit hunit
  rw [isSha256, Bool.and_eq_true, all_eq_true] at hidentity
  rw [descriptor.symbols unit hunit, String.toList_append]
  intro character hmem
  rcases mem_append.mp hmem with hbegin | hdigit
  · exact (identifier_clean hhead).2 character hbegin
  · exact hexDigit_clean (hidentity.2 character hdigit)

variable {cohortIndex : ℤ} {commonUnits before : List CommonUnit} {common : CommonUnit}
  {sourceSymbol : String}

variable {entrySymbol : String}

theorem intendedSymbol_of_none
    (hnone : ∀ common ∈ commonUnits, ¬ OccursAs cohortIndex common entrySymbol) :
    intendedSymbol cohortIndex commonUnits entrySymbol = entrySymbol := by
  have hfind : commonUnits.find? (fun common => OccursAs cohortIndex common entrySymbol) = none :=
    List.find?_eq_none.mpr fun common hmem => by simpa using hnone common hmem
  rw [intendedSymbol, hfind]

theorem intendedSymbol_of_exists
    (hexists : ∃ common ∈ commonUnits, OccursAs cohortIndex common entrySymbol) :
    ∃ common ∈ commonUnits, OccursAs cohortIndex common entrySymbol ∧
      intendedSymbol cohortIndex commonUnits entrySymbol = common.factorySymbol := by
  cases hfind : commonUnits.find? (fun common => OccursAs cohortIndex common entrySymbol) with
  | none =>
    obtain ⟨common, hmem, hoccurs⟩ := hexists
    exact absurd (decide_eq_true hoccurs) (List.find?_eq_none.mp hfind common hmem)
  | some common =>
    refine ⟨common, mem_of_find?_eq_some hfind, ?_, ?_⟩
    · simpa using List.find?_some hfind
    · rw [intendedSymbol, hfind]

theorem intendedSymbol_append_of_exists
    (hexists : ∃ earlier ∈ before, OccursAs cohortIndex earlier entrySymbol) :
    intendedSymbol cohortIndex (before ++ [common]) entrySymbol =
      intendedSymbol cohortIndex before entrySymbol := by
  obtain ⟨earlier, hmem, hoccurs⟩ := hexists
  rw [intendedSymbol, intendedSymbol, List.find?_append]
  cases hfind : before.find? (fun common => OccursAs cohortIndex common entrySymbol) with
  | none => exact absurd (decide_eq_true hoccurs) (List.find?_eq_none.mp hfind earlier hmem)
  | some found => rfl

theorem intendedSymbol_append_of_none
    (hnone : ∀ earlier ∈ before, ¬ OccursAs cohortIndex earlier entrySymbol) :
    intendedSymbol cohortIndex (before ++ [common]) entrySymbol =
      if OccursAs cohortIndex common entrySymbol then common.factorySymbol else entrySymbol := by
  have hfind : before.find? (fun common => OccursAs cohortIndex common entrySymbol) = none :=
    List.find?_eq_none.mpr fun common hmem => by simpa using hnone common hmem
  rw [intendedSymbol, List.find?_append, hfind, Option.none_or, List.find?_cons]
  by_cases hoccurs : OccursAs cohortIndex common entrySymbol
  · rw [if_pos hoccurs, decide_eq_true hoccurs]
  · rw [if_neg hoccurs, decide_eq_false hoccurs]
    rfl

theorem intendedSymbol_clean (htables : TablesOf descriptor original)
    (hsymbol : entrySymbol ∈ original.factorySymbols) :
    ∀ character ∈ (intendedSymbol cohortIndex commonUnits entrySymbol).toList,
      isDelimiter character = false := by
  by_cases hexists : ∃ common ∈ commonUnits, OccursAs cohortIndex common entrySymbol
  · obtain ⟨common, _, _, heq⟩ := intendedSymbol_of_exists hexists
    rw [heq]
    exact (identifier_clean common.factory_identifier).2
  · rw [intendedSymbol_of_none (by simpa using hexists)]
    exact symbol_clean htables hsymbol

/-- All common units that a unit is an occurrence of have the same factory. -/
def Consistent (cohortIndex : ℤ) (original : SelectorSource) (commonUnits : List CommonUnit) :
    Prop :=
  ∀ entrySymbol ∈ original.factorySymbols, ∀ common ∈ commonUnits,
    OccursAs cohortIndex common entrySymbol →
      intendedSymbol cohortIndex commonUnits entrySymbol = common.factorySymbol

/-- The tables that the intended text has. -/
def intendedSource (cohortIndex : ℤ) (original : SelectorSource)
    (commonUnits : List CommonUnit) : SelectorSource :=
  { original with
    factorySymbols := original.factorySymbols.map (intendedSymbol cohortIndex commonUnits) }

theorem selectorText_intendedSource :
    selectorText (intendedSource cohortIndex original commonUnits) =
      intendedText cohortIndex original commonUnits := by
  rw [selectorText, intendedSource, selectorPieces_map, pieceText_map]
  rfl

theorem factory_intendedSource (htables : TablesOf descriptor original) (slot : ℕ) :
    factoryByUnitSlot (intendedSource cohortIndex original commonUnits) slot =
      (descriptor.units[slot]?).map fun unit =>
        intendedSymbol cohortIndex commonUnits unit.entrySymbol := by
  rw [factoryByUnitSlot, if_neg (by omega), Int.toNat_natCast, intendedSource, htables.symbols,
    map_map, List.getElem?_map]
  rfl

/-- The intended tables agree with the descriptor, and no others do. -/
theorem agreesWith_iff (htables : TablesOf descriptor original) {source : SelectorSource} :
    AgreesWith cohortIndex descriptor commonUnits original source ↔
      source = intendedSource cohortIndex original commonUnits ∧
        Consistent cohortIndex original commonUnits := by
  constructor
  · intro hagree
    have hfactory : ∀ (slot : ℕ) (unit : ApplicationUnit), descriptor.units[slot]? = some unit →
        source.factorySymbols[slot]? =
          some (intendedSymbol cohortIndex commonUnits unit.entrySymbol) := by
      intro slot unit hunit
      have hread : factoryByUnitSlot source slot = source.factorySymbols[slot]? := by
        rw [factoryByUnitSlot, if_neg (by omega), Int.toNat_natCast]
      rw [← hread]
      by_cases hexists : ∃ common ∈ commonUnits, OccursAs cohortIndex common unit.entrySymbol
      · obtain ⟨common, hmem, hoccurs, heq⟩ := intendedSymbol_of_exists hexists
        rw [heq, hagree.common slot unit hunit common hmem hoccurs]
      · have hnone : ∀ common ∈ commonUnits, ¬ OccursAs cohortIndex common unit.entrySymbol := by
          simpa using hexists
        rw [intendedSymbol_of_none hnone, hagree.own slot unit hunit hnone]
    have hsymbols : source.factorySymbols =
        original.factorySymbols.map (intendedSymbol cohortIndex commonUnits) := by
      apply ext_getElem?
      intro slot
      rw [htables.symbols, map_map, List.getElem?_map]
      cases hunit : descriptor.units[slot]? with
      | some unit => exact hfactory slot unit hunit
      | none =>
        have houtside := hagree.outside slot
          (Or.inr (by exact_mod_cast List.getElem?_eq_none_iff.mp hunit))
        rwa [factoryByUnitSlot, if_neg (by omega), Int.toNat_natCast] at houtside
    refine ⟨?_, ?_⟩
    · rw [hagree.rest, hsymbols]
      rfl
    · intro entrySymbol hsymbol common hmem hoccurs
      rw [htables.symbols] at hsymbol
      obtain ⟨unit, hunit, rfl⟩ := mem_map.mp hsymbol
      obtain ⟨slot, hslot⟩ := mem_iff_getElem?.mp hunit
      have hcommon := hagree.common slot unit hslot common hmem hoccurs
      rw [factoryByUnitSlot, if_neg (by omega), Int.toNat_natCast, hfactory slot unit hslot]
        at hcommon
      exact Option.some.inj hcommon
  · rintro ⟨rfl, hconsistent⟩
    refine ⟨?_, ?_, ?_, rfl, fun _ => rfl, ?_⟩
    · intro slot unit hunit common hmem hoccurs
      have hsymbol : unit.entrySymbol ∈ original.factorySymbols := by
        rw [htables.symbols]
        exact mem_map_of_mem (mem_of_getElem? hunit)
      rw [factory_intendedSource htables, hunit, Option.map_some,
        hconsistent _ hsymbol common hmem hoccurs]
    · intro slot unit hunit hnone
      rw [factory_intendedSource htables, hunit, Option.map_some, intendedSymbol_of_none hnone]
    · intro slot houtside
      by_cases hnegative : slot < 0
      · rw [factoryByUnitSlot, if_pos hnegative]
      · obtain ⟨index, rfl⟩ := Int.eq_ofNat_of_zero_le (not_lt.mp hnegative)
        rw [factory_intendedSource htables, List.getElem?_eq_none (by omega), Option.map_none]
    · intro unitSlot specifier
      exact dependencyBySpecifier_eq htables.count htables.rows htables.ranges unitSlot specifier

/-- The source symbol of a common unit and its factory symbol have no delimiters. -/
theorem sourceSymbol_clean (hsource : common.sourceSymbol cohortIndex = some sourceSymbol) :
    sourceSymbol.toList ≠ [] ∧ ∀ character ∈ sourceSymbol.toList, isDelimiter character = false := by
  obtain ⟨occurrence, hfind, rfl⟩ := Option.map_eq_some_iff.mp hsource
  exact identifier_clean (common.entry_identifiers _ (mem_of_find?_eq_some hfind))

theorem replacement_clean : ∀ character ∈ expandReplacement common.factorySymbol.toList,
    isDelimiter character = false := fun character hmem =>
  (identifier_clean common.factory_identifier).2 character (expandReplacement_subset _ hmem)

/-- One turn makes the next intended text exactly when it replaces only what it is
to replace. -/
theorem replace_turn_iff (htables : TablesOf descriptor original)
    (hconsistent : Consistent cohortIndex original before)
    (hsource : common.sourceSymbol cohortIndex = some sourceSymbol) :
    replaceAll sourceSymbol.toList (expandReplacement common.factorySymbol.toList)
          (intendedText cohortIndex original before) =
        intendedText cohortIndex original (before ++ [common]) ∧
      Consistent cohortIndex original (before ++ [common]) ↔
    ReplacesOnly cohortIndex original before common sourceSymbol := by
  obtain ⟨hpattern, hclean⟩ := sourceSymbol_clean hsource
  have hspell : ∀ commonUnits : List CommonUnit, ∀ name, .name name ∈ selectorPieces original →
      ∀ character ∈ (intendedSymbol cohortIndex commonUnits name).toList,
        isDelimiter character = false := fun commonUnits name hname =>
    intendedSymbol_clean htables ((name_mem_selectorPieces original).mp hname)
  rw [intendedText, intendedText, replaceAll_pieceText_eq_iff hpattern hclean
    (separated_selectorPieces original) replacement_clean (hspell before)
    (hspell (before ++ [common]))]
  constructor
  · rintro ⟨hreplaced, hnext⟩
    have hname : ∀ entrySymbol ∈ original.factorySymbols,
        replaceAll sourceSymbol.toList (expandReplacement common.factorySymbol.toList)
            (intendedSymbol cohortIndex before entrySymbol).toList =
          (intendedSymbol cohortIndex (before ++ [common]) entrySymbol).toList :=
      fun entrySymbol hsymbol =>
        hreplaced (.name entrySymbol) ((name_mem_selectorPieces original).mpr hsymbol)
    refine ⟨?_, ?_, ?_⟩
    · intro text htext
      exact (replaceAll_eq_self_iff hpattern).mp (hreplaced (.fixed text) htext)
    · intro entrySymbol hsymbol hoccurs
      rw [hname entrySymbol hsymbol, hnext entrySymbol hsymbol common
        (mem_append_right _ mem_cons_self) hoccurs]
    · intro entrySymbol hsymbol hbefore
      apply (replaceAll_eq_self_iff hpattern).mp
      rw [hname entrySymbol hsymbol]
      by_cases hexists : ∃ earlier ∈ before, OccursAs cohortIndex earlier entrySymbol
      · rw [intendedSymbol_append_of_exists hexists]
      · have hnone : ∀ earlier ∈ before, ¬ OccursAs cohortIndex earlier entrySymbol := by
          simpa using hexists
        rw [intendedSymbol_append_of_none hnone, intendedSymbol_of_none hnone,
          if_neg fun hoccurs => hexists (hbefore hoccurs)]
  · intro honly
    have hkept : ∀ entrySymbol ∈ original.factorySymbols,
        (OccursAs cohortIndex common entrySymbol →
          ∃ earlier ∈ before, OccursAs cohortIndex earlier entrySymbol) →
        replaceAll sourceSymbol.toList (expandReplacement common.factorySymbol.toList)
            (intendedSymbol cohortIndex before entrySymbol).toList =
          (intendedSymbol cohortIndex before entrySymbol).toList :=
      fun entrySymbol hsymbol hbefore =>
        (replaceAll_eq_self_iff hpattern).mpr (honly.others entrySymbol hsymbol hbefore)
    refine ⟨?_, ?_⟩
    · intro piece hpiece
      cases piece with
      | fixed text => exact (replaceAll_eq_self_iff hpattern).mpr (honly.fixed text hpiece)
      | name entrySymbol =>
        have hsymbol := (name_mem_selectorPieces original).mp hpiece
        show replaceAll _ _ (intendedSymbol cohortIndex before entrySymbol).toList =
          (intendedSymbol cohortIndex (before ++ [common]) entrySymbol).toList
        by_cases hexists : ∃ earlier ∈ before, OccursAs cohortIndex earlier entrySymbol
        · rw [intendedSymbol_append_of_exists hexists, hkept entrySymbol hsymbol fun _ => hexists]
        · have hnone : ∀ earlier ∈ before, ¬ OccursAs cohortIndex earlier entrySymbol := by
            simpa using hexists
          rw [intendedSymbol_append_of_none hnone]
          by_cases hoccurs : OccursAs cohortIndex common entrySymbol
          · rw [if_pos hoccurs, honly.own entrySymbol hsymbol hoccurs]
          · rw [if_neg hoccurs, hkept entrySymbol hsymbol fun h => absurd h hoccurs,
              intendedSymbol_of_none hnone]
    · intro entrySymbol hsymbol found hfound hoccurs
      by_cases hexists : ∃ earlier ∈ before, OccursAs cohortIndex earlier entrySymbol
      · rw [intendedSymbol_append_of_exists hexists]
        rcases mem_append.mp hfound with hearlier | hlast
        · exact hconsistent entrySymbol hsymbol found hearlier hoccurs
        · obtain rfl := mem_singleton.mp hlast
          -- The unit keeps the factory it has and gets the one of the common unit.
          have hown := honly.own entrySymbol hsymbol hoccurs
          rw [hkept entrySymbol hsymbol fun _ => hexists] at hown
          exact String.toList_injective hown
      · have hnone : ∀ earlier ∈ before, ¬ OccursAs cohortIndex earlier entrySymbol := by
          simpa using hexists
        rcases mem_append.mp hfound with hearlier | hlast
        · exact absurd hoccurs (hnone found hearlier)
        · obtain rfl := mem_singleton.mp hlast
          rw [intendedSymbol_append_of_none hnone, if_pos hoccurs]

theorem replaceCommonUnits_append (index : ℕ) (source : List Char) :
    replaceCommonUnits cohortIndex index (before ++ [common]) source =
      (replaceCommonUnits cohortIndex index before source).bind
        (replaceCommonUnit cohortIndex (index + before.length) common) := by
  induction before generalizing index source with
  | nil =>
    show (replaceCommonUnit cohortIndex index common source).bind (Except.ok ·) =
      replaceCommonUnit cohortIndex index common source
    cases replaceCommonUnit cohortIndex index common source <;> rfl
  | cons first rest ih =>
    show (replaceCommonUnit cohortIndex index first source).bind _ =
      ((replaceCommonUnit cohortIndex index first source).bind _).bind _
    cases replaceCommonUnit cohortIndex index first source with
    | error failure => rfl
    | ok replaced =>
      show replaceCommonUnits cohortIndex (index + 1) (rest ++ [common]) replaced = _
      rw [ih, length_cons, Nat.add_assoc, Nat.add_comm 1]
      rfl

theorem replaceCommonUnits_singleton (index : ℕ) (source : List Char) :
    replaceCommonUnits cohortIndex index [common] source =
      replaceCommonUnit cohortIndex index common source := by
  have hnil := @replaceCommonUnits_append cohortIndex [] common index source
  exact hnil

theorem intendedText_nil (cohortIndex : ℤ) (original : SelectorSource) :
    intendedText cohortIndex original [] = selectorText original := rfl

theorem accepted_append :
    Accepted cohortIndex original (before ++ [common]) ↔
      Accepted cohortIndex original before ∧
        ∀ sourceSymbol, common.sourceSymbol cohortIndex = some sourceSymbol →
          sourceSymbol.toList <:+: intendedText cohortIndex original before := by
  constructor
  · intro haccepted
    refine ⟨?_, haccepted before common [] rfl⟩
    intro earlier found after hsplit
    exact haccepted earlier found (after ++ [common]) (by rw [hsplit, append_assoc]; rfl)
  · rintro ⟨hbefore, hlast⟩ earlier found after hsplit
    rcases eq_nil_or_concat after with rfl | ⟨others, final, rfl⟩
    · obtain ⟨rfl, hfound⟩ := append_inj' hsplit rfl
      rw [← singleton_inj.mp hfound]
      exact hlast
    · rw [concat_eq_append, ← cons_append, ← append_assoc] at hsplit
      exact hbefore earlier found others (append_inj' hsplit rfl).1

theorem replaceCommonUnit_of_found (hsource : common.sourceSymbol cohortIndex = some sourceSymbol)
    {text : List Char} (hfound : sourceSymbol.toList <:+: text) (index : ℕ) :
    replaceCommonUnit cohortIndex index common text =
      .ok (replaceAll sourceSymbol.toList
        (expandReplacement common.factorySymbol.toList) text) := by
  rw [replaceCommonUnit, hsource]
  exact if_neg (not_not.mpr hfound)

/-- The loop makes the intended texts of all choices of common units. -/
def LoopAgrees (cohortIndex : ℤ) (original : SelectorSource) (commonUnits : List CommonUnit) :
    Prop :=
  ∀ chosen : List CommonUnit, List.Subperm chosen commonUnits → ∀ text,
    replaceCommonUnits cohortIndex 0 chosen (selectorText original) = .ok text →
      text = intendedText cohortIndex original chosen ∧ Consistent cohortIndex original chosen

/-- Every turn that is reached replaces only what it is to replace. -/
def TurnsReplaceOnly (cohortIndex : ℤ) (original : SelectorSource)
    (commonUnits : List CommonUnit) : Prop :=
  ∀ before common, List.Subperm (before ++ [common]) commonUnits →
    Accepted cohortIndex original before →
    ∀ sourceSymbol, common.sourceSymbol cohortIndex = some sourceSymbol →
      sourceSymbol.toList <:+: intendedText cohortIndex original before →
        ReplacesOnly cohortIndex original before common sourceSymbol

/-- The order of common units that agree on their factories does not matter. -/
theorem intendedSource_perm {chosen reordered : List CommonUnit} (hperm : chosen.Perm reordered)
    (hconsistent : Consistent cohortIndex original chosen) :
    intendedSource cohortIndex original chosen = intendedSource cohortIndex original reordered := by
  rw [intendedSource, intendedSource]
  congr 1
  apply map_congr_left
  intro entrySymbol hsymbol
  by_cases hexists : ∃ common ∈ reordered, OccursAs cohortIndex common entrySymbol
  · obtain ⟨common, hmem, hoccurs, heq⟩ := intendedSymbol_of_exists hexists
    rw [heq, hconsistent entrySymbol hsymbol common (hperm.mem_iff.mpr hmem) hoccurs]
  · have hnone : ∀ common ∈ reordered, ¬ OccursAs cohortIndex common entrySymbol := by
      simpa using hexists
    rw [intendedSymbol_of_none hnone,
      intendedSymbol_of_none fun common hmem => hnone common (hperm.mem_iff.mp hmem)]

theorem subperm_of_append {after chosen : List CommonUnit}
    (hchosen : List.Subperm (chosen ++ after) commonUnits) : List.Subperm chosen commonUnits :=
  (sublist_append_left chosen after).subperm.trans hchosen

theorem intended_append_of_unused (hsource : common.sourceSymbol cohortIndex = none)
    (hconsistent : Consistent cohortIndex original before) :
    intendedText cohortIndex original (before ++ [common]) =
        intendedText cohortIndex original before ∧
      Consistent cohortIndex original (before ++ [common]) := by
  have hunused : ∀ entrySymbol, ¬ OccursAs cohortIndex common entrySymbol := by
    rintro entrySymbol ⟨occurrence, hmem, hcohort, _⟩
    have hnone := List.find?_eq_none.mp (Option.map_eq_none_iff.mp hsource) occurrence hmem
    exact hnone (decide_eq_true hcohort)
  have hsame : ∀ entrySymbol, intendedSymbol cohortIndex (before ++ [common]) entrySymbol =
      intendedSymbol cohortIndex before entrySymbol := by
    intro entrySymbol
    by_cases hexists : ∃ earlier ∈ before, OccursAs cohortIndex earlier entrySymbol
    · exact intendedSymbol_append_of_exists hexists
    · have hnone : ∀ earlier ∈ before, ¬ OccursAs cohortIndex earlier entrySymbol := by
        simpa using hexists
      rw [intendedSymbol_append_of_none hnone, intendedSymbol_of_none hnone,
        if_neg (hunused entrySymbol)]
  refine ⟨?_, ?_⟩
  · rw [intendedText, intendedText]
    simp only [hsame]
  · intro entrySymbol hsymbol found hfound hoccurs
    rw [hsame]
    rcases mem_append.mp hfound with hearlier | hlast
    · exact hconsistent entrySymbol hsymbol found hearlier hoccurs
    · exact absurd (mem_singleton.mp hlast ▸ hoccurs) (hunused entrySymbol)

theorem loop_of_turns (htables : TablesOf descriptor original)
    (hturns : TurnsReplaceOnly cohortIndex original commonUnits)
    {chosen : List CommonUnit} (hchosen : List.Subperm chosen commonUnits) {text : List Char}
    (hloop : replaceCommonUnits cohortIndex 0 chosen (selectorText original) = .ok text) :
    text = intendedText cohortIndex original chosen ∧ Consistent cohortIndex original chosen ∧
      Accepted cohortIndex original chosen := by
  induction chosen using List.reverseRecOn generalizing text with
  | nil =>
    refine ⟨(Except.ok.inj hloop).symm, ?_, ?_⟩
    · exact fun _ _ common hmem => absurd hmem not_mem_nil
    · intro before common after hsplit
      exact absurd hsplit.symm (append_ne_nil_of_right_ne_nil _ (cons_ne_nil _ _))
  | append_singleton before common ih =>
    rw [replaceCommonUnits_append] at hloop
    obtain ⟨earlier, hearlier, hturn⟩ := bind_eq_ok.mp hloop
    obtain ⟨rfl, hconsistent, haccepted⟩ := ih (subperm_of_append hchosen) hearlier
    rw [accepted_append]
    rw [replaceCommonUnit] at hturn
    split at hturn
    · next hsource =>
        obtain ⟨hsame, hnext⟩ := intended_append_of_unused hsource hconsistent
        refine ⟨?_, hnext, haccepted, ?_⟩
        · rw [hsame, Except.ok.inj hturn]
        · intro symbol hsymbol
          rw [hsource] at hsymbol
          cases hsymbol
    · next sourceSymbol hsource =>
        split at hturn
        · cases hturn
        · next hfound =>
            rw [not_not] at hfound
            have honly := hturns before common hchosen haccepted sourceSymbol hsource hfound
            obtain ⟨hreplaced, hnext⟩ := (replace_turn_iff htables hconsistent hsource).mpr honly
            refine ⟨?_, hnext, haccepted, ?_⟩
            · rw [← hreplaced, Except.ok.inj hturn]
            · intro symbol hsymbol
              rw [hsource] at hsymbol
              exact Option.some.inj hsymbol ▸ hfound

theorem turns_of_loop (htables : TablesOf descriptor original)
    (hloop : LoopAgrees cohortIndex original commonUnits) :
    TurnsReplaceOnly cohortIndex original commonUnits := by
  -- What is accepted is carried out, so that each turn is one that the loop reaches.
  have hrun : ∀ chosen : List CommonUnit, List.Subperm chosen commonUnits →
      Accepted cohortIndex original chosen →
        replaceCommonUnits cohortIndex 0 chosen (selectorText original) =
            .ok (intendedText cohortIndex original chosen) ∧
          Consistent cohortIndex original chosen := by
    intro chosen hchosen haccepted
    have hreturns : ∃ text,
        replaceCommonUnits cohortIndex 0 chosen (selectorText original) = .ok text := by
      induction chosen using List.reverseRecOn with
      | nil => exact ⟨_, rfl⟩
      | append_singleton before common ih =>
        obtain ⟨hbefore, hlast⟩ := accepted_append.mp haccepted
        obtain ⟨earlier, hearlier⟩ := ih (subperm_of_append hchosen) hbefore
        obtain ⟨rfl, _⟩ := hloop before (subperm_of_append hchosen) earlier hearlier
        rw [replaceCommonUnits_append, hearlier]
        cases hsource : common.sourceSymbol cohortIndex with
        | none =>
          refine ⟨intendedText cohortIndex original before, ?_⟩
          show replaceCommonUnit cohortIndex _ common _ = _
          rw [replaceCommonUnit, hsource]
        | some sourceSymbol =>
          exact ⟨_, replaceCommonUnit_of_found hsource (hlast sourceSymbol hsource) _⟩
    obtain ⟨text, htext⟩ := hreturns
    obtain ⟨rfl, hconsistent⟩ := hloop chosen hchosen text htext
    exact ⟨htext, hconsistent⟩
  intro before common hchosen haccepted sourceSymbol hsource hfound
  obtain ⟨hbefore, hconsistent⟩ := hrun before (subperm_of_append hchosen) haccepted
  have hlast : Accepted cohortIndex original (before ++ [common]) := by
    rw [accepted_append]
    refine ⟨haccepted, fun symbol hsymbol => ?_⟩
    rw [hsource] at hsymbol
    exact Option.some.inj hsymbol ▸ hfound
  obtain ⟨hnext, hconsistentNext⟩ := hrun (before ++ [common]) hchosen hlast
  rw [replaceCommonUnits_append, hbefore] at hnext
  have hreplaced : replaceAll sourceSymbol.toList
      (expandReplacement common.factorySymbol.toList) (intendedText cohortIndex original before) =
        intendedText cohortIndex original (before ++ [common]) := by
    apply Except.ok.inj
    rw [← hnext, ← replaceCommonUnit_of_found hsource hfound]
    rfl
  exact (replace_turn_iff htables hconsistent hsource).mp ⟨hreplaced, hconsistentNext⟩

theorem render_leaf_iff {chosen : List CommonUnit} {text : List Char} :
    renderConvexWasmModuleGraphLeafSelector cohortIndex descriptor orderedEntrySymbols members
        chosen = .ok text ↔
      ∃ original, renderConvexWasmCapabilityChunkApplicationSelector descriptor
          orderedEntrySymbols members = .ok original ∧
        (0 ≤ cohortIndex ∧ cohortIndex ≤ maxSafeInteger) ∧
        ∃ replaced, replaceCommonUnits cohortIndex 0 chosen (selectorText original) =
            .ok replaced ∧ replaced ++ lines registrationLines = text := by
  rw [renderConvexWasmModuleGraphLeafSelector, bind_eq_ok]
  apply exists_congr
  intro original
  apply and_congr_right
  intro _
  by_cases hcohort : 0 ≤ cohortIndex ∧ cohortIndex ≤ maxSafeInteger
  · rw [if_neg (not_not.mpr hcohort), bind_eq_ok, and_iff_right hcohort]
    apply exists_congr
    intro replaced
    exact and_congr_right fun _ => ⟨Except.ok.inj, congrArg _⟩
  · rw [if_pos hcohort]
    exact ⟨fun hfail => (nomatch hfail), fun h => absurd h.1 hcohort⟩

/-- The leaf selectors of some common units agree with the descriptor, in every
choice and order, exactly when each turn replaces only the symbols of its units. -/
theorem leaf_selectors_agree_iff :
    LeafSelectorsAgree cohortIndex descriptor orderedEntrySymbols members commonUnits ↔
      SymbolsApart cohortIndex descriptor orderedEntrySymbols members commonUnits := by
  constructor
  · intro hagree original hrender hlow hhigh
    apply turns_of_loop (render_tables hrender)
    intro chosen hchosen text hloop
    have hreturned := render_leaf_iff.mpr ⟨original, hrender, ⟨hlow, hhigh⟩, text, hloop, rfl⟩
    obtain ⟨found, source, hfound, hsource, htext⟩ := hagree.agree chosen hchosen _ hreturned
    rw [hrender] at hfound
    obtain rfl := Except.ok.inj hfound
    obtain ⟨rfl, hconsistent⟩ := (agreesWith_iff (render_tables hrender)).mp hsource
    rw [selectorText_intendedSource] at htext
    exact ⟨append_cancel_right htext, hconsistent⟩
  · intro hapart
    have hagree : ∀ chosen : List CommonUnit, List.Subperm chosen commonUnits → ∀ text,
        renderConvexWasmModuleGraphLeafSelector cohortIndex descriptor orderedEntrySymbols
          members chosen = .ok text →
        ∃ original, renderConvexWasmCapabilityChunkApplicationSelector descriptor
            orderedEntrySymbols members = .ok original ∧
          Consistent cohortIndex original chosen ∧
          text = intendedText cohortIndex original chosen ++ lines registrationLines := by
      intro chosen hchosen text hreturned
      obtain ⟨original, hrender, ⟨hlow, hhigh⟩, replaced, hloop, rfl⟩ :=
        render_leaf_iff.mp hreturned
      obtain ⟨rfl, hconsistent, _⟩ := loop_of_turns (render_tables hrender)
        (hapart original hrender hlow hhigh) hchosen hloop
      exact ⟨original, hrender, hconsistent, rfl⟩
    refine ⟨?_, ?_⟩
    · intro chosen hchosen text hreturned
      obtain ⟨original, hrender, hconsistent, htext⟩ := hagree chosen hchosen text hreturned
      refine ⟨original, intendedSource cohortIndex original chosen, hrender, ?_, ?_⟩
      · exact (agreesWith_iff (render_tables hrender)).mpr ⟨rfl, hconsistent⟩
      · rw [htext, selectorText_intendedSource]
    · intro chosen reordered hchosen hperm text text' hreturned hreturned'
      obtain ⟨original, hrender, hconsistent, htext⟩ := hagree chosen hchosen text hreturned
      obtain ⟨original', hrender', _, htext'⟩ :=
        hagree reordered (hperm.symm.subperm.trans hchosen) text' hreturned'
      rw [hrender] at hrender'
      obtain rfl := Except.ok.inj hrender'
      rw [htext, htext', ← selectorText_intendedSource, ← selectorText_intendedSource,
        intendedSource_perm hperm hconsistent]

def sampleSha256 (digit : Char) : String := String.ofList (List.replicate 64 digit)

def sampleUnit (digit : Char) : ApplicationUnit where
  dependencies := []
  entrySymbol := "sh_export_convex_wasm_official_chunk_" ++ sampleSha256 digit
  nativeSymbolIdentitySha256 := sampleSha256 digit

theorem sampleUnits_identities : ∀ unit ∈ [sampleUnit 'a', sampleUnit 'b'],
    isSha256 unit.nativeSymbolIdentitySha256 = true := by decide +kernel

theorem sampleUnits_distinct :
    ([sampleUnit 'a', sampleUnit 'b'].map (·.nativeSymbolIdentitySha256)).Nodup := by
  decide +kernel

/-- One chunk with one entry. -/
def sampleDescriptor : ApplicationDescriptor where
  chunkSlotCount := 1
  entries := [{ entryPublicationUnitSlot := 1, entrySlot := 0,
                routes := [{ exportName := "run", udfKind := .query }] }]
  units := [sampleUnit 'a', sampleUnit 'b']
  chunks_nonempty := le_rfl
  entries_nonempty := cons_ne_nil _ _
  units_length := rfl
  entrySlots := by simp
  publicationSlots := by
    intro index entry hentry
    cases index with
    | zero => rw [← Option.some.inj hentry]
    | succ index => cases hentry
  routes := by simp [isIdentifier, isIdentifierStart, isIdentifierCharacter]
  identities := sampleUnits_identities
  symbols := by simp [sampleUnit]
  identities_distinct := sampleUnits_distinct
  dependencies := by
    intro unit hunit
    refine ⟨[], ?_⟩
    have hempty : unit.dependencies = [] := by
      rcases mem_cons.mp hunit with rfl | hlast
      · rfl
      · rw [mem_singleton.mp hlast]
        rfl
    rw [hempty]
    rfl
  publications := by simp [sampleUnit]

def sampleMember : SelectorMember where
  entrySelectorId := "0123456789abcdef"
  entrySymbol := "sh_export_entry"
  handlerExportName := "run"
  handlerUdfKind := .query
  invocationAbi := convexWasmCapabilityOfficialWrapperInvocationAbi

/-- The chunk in common, with two dollar signs in its factory symbol. -/
def sampleCommon : CommonUnit where
  factorySymbol := "common$$factory"
  occurrences := [{ cohortIndex := 0, entrySymbol := (sampleUnit 'a').entrySymbol }]
  factory_identifier := by decide +kernel
  entry_identifiers := by decide +kernel

/-- The selector calls a factory that is not the one of the common unit. -/
theorem dollars_of_factory_symbol_lost :
    ∃ text, renderConvexWasmModuleGraphLeafSelector 0 sampleDescriptor ["sh_export_entry"]
        [sampleMember] [sampleCommon] = .ok text ∧
      ¬ ∃ original source,
        renderConvexWasmCapabilityChunkApplicationSelector sampleDescriptor ["sh_export_entry"]
          [sampleMember] = .ok original ∧
        AgreesWith 0 sampleDescriptor [sampleCommon] original source ∧
        text = selectorText source ++ lines registrationLines := by
  have hrender : ∃ original, renderConvexWasmCapabilityChunkApplicationSelector sampleDescriptor
      ["sh_export_entry"] [sampleMember] = .ok original := ⟨_, rfl⟩
  obtain ⟨original, hrender⟩ := hrender
  have htables := render_tables hrender
  have hsource : sampleCommon.sourceSymbol 0 = some (sampleUnit 'a').entrySymbol := rfl
  have hmem : (sampleUnit 'a').entrySymbol ∈ original.factorySymbols := by
    rw [htables.symbols]
    exact mem_cons_self
  have hoccurs : OccursAs 0 sampleCommon (sampleUnit 'a').entrySymbol :=
    ⟨_, mem_cons_self, rfl, rfl⟩
  have hconsistent : Consistent 0 original [] :=
    fun _ _ common hcommon => absurd hcommon not_mem_nil
  obtain ⟨hpattern, hclean⟩ := sourceSymbol_clean hsource
  have hfound : (sampleUnit 'a').entrySymbol.toList <:+: intendedText 0 original [] := by
    rw [intendedText, infix_pieceText_iff hpattern hclean (separated_selectorPieces original)
      fun name hname => intendedSymbol_clean htables ((name_mem_selectorPieces original).mp hname)]
    exact ⟨.name _, (name_mem_selectorPieces original).mpr hmem, infix_refl _⟩
  have hloop : replaceCommonUnits 0 0 [sampleCommon] (selectorText original) =
      .ok (replaceAll (sampleUnit 'a').entrySymbol.toList
        (expandReplacement sampleCommon.factorySymbol.toList) (intendedText 0 original [])) := by
    rw [replaceCommonUnits_singleton, ← intendedText_nil 0,
      replaceCommonUnit_of_found hsource hfound]
  refine ⟨_, render_leaf_iff.mpr ⟨original, hrender, by decide, _, hloop, rfl⟩, ?_⟩
  rintro ⟨found, source, hfoundSource, hagree, htext⟩
  rw [hrender] at hfoundSource
  obtain rfl := Except.ok.inj hfoundSource
  obtain ⟨rfl, hnext⟩ := (agreesWith_iff htables).mp hagree
  rw [selectorText_intendedSource] at htext
  have honly := (replace_turn_iff htables hconsistent hsource).mp ⟨append_cancel_right htext, hnext⟩
  have hfactory := honly.own _ hmem hoccurs
  exact absurd hfactory (by decide +kernel)

end ConvexWasm.Selector
