import ConvexWasm.Selector.DependencyLookup
import ConvexWasm.Selector.SelectorText

/-!
# The selector of a leaf

The units that several leaves have in common are made elsewhere, so that a leaf
takes them from other factories.  Their symbols are replaced one after the other
in the whole text of the selector.  Each replacement may reach more than the
symbol of its unit.
-/

namespace ConvexWasm.Selector

open Fallible List TextReplacement

section CommonUnits

structure CommonOccurrence where
  cohortIndex : ℤ
  entrySymbol : String
  deriving DecidableEq

/-- A common unit, whose symbols are C identifiers. -/
structure CommonUnit where
  factorySymbol : String
  occurrences : List CommonOccurrence
  factory_identifier : isIdentifier factorySymbol = true
  entry_identifiers : ∀ occurrence ∈ occurrences, isIdentifier occurrence.entrySymbol = true

/-- The replacement that `replaceAll` makes of a string: two dollar signs stand
for one, and nothing else in an identifier is special. -/
def expandReplacement : List Char → List Char
  | '$' :: '$' :: rest => '$' :: expandReplacement rest
  | character :: rest => character :: expandReplacement rest
  | [] => []

/-- The first occurrence in the cohort. -/
def CommonUnit.sourceSymbol (common : CommonUnit) (cohortIndex : ℤ) : Option String :=
  (common.occurrences.find? (·.cohortIndex = cohortIndex)).map (·.entrySymbol)

def maxSafeInteger : ℤ := 2 ^ 53 - 1

variable (cohortIndex : ℤ)

def replaceCommonUnit (index : ℕ) (common : CommonUnit) (source : List Char) :
    Except String (List Char) :=
  match common.sourceSymbol cohortIndex with
  | none => .ok source
  | some sourceSymbol =>
    if ¬ sourceSymbol.toList <:+: source then
      fail ("module graph common unit " ++ toString index ++
        " is absent from its leaf selector")
    else
      .ok (replaceAll sourceSymbol.toList (expandReplacement common.factorySymbol.toList) source)

/-- The loop over the common units. -/
def replaceCommonUnits : ℕ → List CommonUnit → List Char → Except String (List Char)
  | _, [], source => .ok source
  | index, common :: rest, source => do
      let replaced ← replaceCommonUnit cohortIndex index common source
      replaceCommonUnits (index + 1) rest replaced

def renderConvexWasmModuleGraphLeafSelector (descriptor : ApplicationDescriptor)
    (orderedEntrySymbols : List String) (members : List SelectorMember)
    (commonUnits : List CommonUnit) : Except String (List Char) := do
  let source ← renderConvexWasmCapabilityChunkApplicationSelector descriptor orderedEntrySymbols
    members
  if ¬ (0 ≤ cohortIndex ∧ cohortIndex ≤ maxSafeInteger) then
    fail "module graph leaf cohort index must be a nonnegative safe integer"
  else
    let replaced ← replaceCommonUnits cohortIndex 0 commonUnits (selectorText source)
    return replaced ++ lines registrationLines

end CommonUnits

section Meaning

variable (cohortIndex : ℤ)

/-- The unit with the symbol is an occurrence of the common unit in the cohort. -/
def OccursAs (common : CommonUnit) (entrySymbol : String) : Prop :=
  ∃ occurrence ∈ common.occurrences,
    occurrence.cohortIndex = cohortIndex ∧ occurrence.entrySymbol = entrySymbol

instance (common : CommonUnit) (entrySymbol : String) :
    Decidable (OccursAs cohortIndex common entrySymbol) := by
  unfold OccursAs
  infer_instance

/-- What the selector of a leaf is to be: the selector of the descriptor in all
but the factories of the common units, with the lookup of the dependencies. -/
structure AgreesWith (descriptor : ApplicationDescriptor) (commonUnits : List CommonUnit)
    (original source : SelectorSource) : Prop where
  common : ∀ (slot : ℕ) (unit : ApplicationUnit), descriptor.units[slot]? = some unit →
    ∀ common ∈ commonUnits, OccursAs cohortIndex common unit.entrySymbol →
      factoryByUnitSlot source slot = some common.factorySymbol
  own : ∀ (slot : ℕ) (unit : ApplicationUnit), descriptor.units[slot]? = some unit →
    (∀ common ∈ commonUnits, ¬ OccursAs cohortIndex common unit.entrySymbol) →
      factoryByUnitSlot source slot = some unit.entrySymbol
  outside : ∀ slot : ℤ, slot < 0 ∨ (descriptor.units.length : ℤ) ≤ slot →
    factoryByUnitSlot source slot = none
  rest : source = { original with factorySymbols := source.factorySymbols }
  null : ∀ unitSlot, dependencyBySpecifier source unitSlot none = -1
  lookup : ∀ unitSlot specifier, dependencyBySpecifier source unitSlot (some specifier) =
    dependencySlot descriptor unitSlot specifier

/-- The leaf selectors of the common units, in every choice and order of them, are
what they are to be, whatever the order. -/
structure LeafSelectorsAgree (descriptor : ApplicationDescriptor)
    (orderedEntrySymbols : List String) (members : List SelectorMember)
    (commonUnits : List CommonUnit) : Prop where
  agree : ∀ chosen : List CommonUnit, List.Subperm chosen commonUnits → ∀ text,
    renderConvexWasmModuleGraphLeafSelector cohortIndex descriptor orderedEntrySymbols members
      chosen = .ok text →
    ∃ original source,
      renderConvexWasmCapabilityChunkApplicationSelector descriptor orderedEntrySymbols members =
        .ok original ∧
      AgreesWith cohortIndex descriptor chosen original source ∧
      text = selectorText source ++ lines registrationLines
  order : ∀ chosen reordered : List CommonUnit, List.Subperm chosen commonUnits →
    chosen.Perm reordered → ∀ text text',
    renderConvexWasmModuleGraphLeafSelector cohortIndex descriptor orderedEntrySymbols members
      chosen = .ok text →
    renderConvexWasmModuleGraphLeafSelector cohortIndex descriptor orderedEntrySymbols members
      reordered = .ok text' → text = text'

/-- The symbol that a unit is to have: the factory of the first common unit that
it is an occurrence of, else its own. -/
def intendedSymbol (commonUnits : List CommonUnit) (entrySymbol : String) : String :=
  match commonUnits.find? fun common => OccursAs cohortIndex common entrySymbol with
  | some common => common.factorySymbol
  | none => entrySymbol

def intendedText (original : SelectorSource) (commonUnits : List CommonUnit) : List Char :=
  pieceText (fun entrySymbol => (intendedSymbol cohortIndex commonUnits entrySymbol).toList)
    (selectorPieces original)

/-- A turn of the loop after `before`: what is fixed and the symbols of the other
units do not have the source symbol, unless it is replaced by itself, and the
units of the common unit get its factory symbol. -/
structure ReplacesOnly (original : SelectorSource) (before : List CommonUnit)
    (common : CommonUnit) (sourceSymbol : String) : Prop where
  fixed : ∀ text, .fixed text ∈ selectorPieces original → sourceSymbol.toList <:+: text →
    expandReplacement common.factorySymbol.toList = sourceSymbol.toList
  own : ∀ entrySymbol ∈ original.factorySymbols, OccursAs cohortIndex common entrySymbol →
    replaceAll sourceSymbol.toList (expandReplacement common.factorySymbol.toList)
      (intendedSymbol cohortIndex before entrySymbol).toList = common.factorySymbol.toList
  others : ∀ entrySymbol ∈ original.factorySymbols,
    (OccursAs cohortIndex common entrySymbol →
      ∃ earlier ∈ before, OccursAs cohortIndex earlier entrySymbol) →
    sourceSymbol.toList <:+: (intendedSymbol cohortIndex before entrySymbol).toList →
      expandReplacement common.factorySymbol.toList = sourceSymbol.toList

/-- Each common unit finds its source symbol when its turn comes. -/
def Accepted (original : SelectorSource) (commonUnits : List CommonUnit) : Prop :=
  ∀ before common after, commonUnits = before ++ common :: after →
    ∀ sourceSymbol, common.sourceSymbol cohortIndex = some sourceSymbol →
      sourceSymbol.toList <:+: intendedText cohortIndex original before

/-- Every turn that finds its source symbol, in every order, replaces only what it
is to replace. -/
def SymbolsApart (descriptor : ApplicationDescriptor) (orderedEntrySymbols : List String)
    (members : List SelectorMember) (commonUnits : List CommonUnit) : Prop :=
  ∀ original,
    renderConvexWasmCapabilityChunkApplicationSelector descriptor orderedEntrySymbols members =
      .ok original →
    0 ≤ cohortIndex → cohortIndex ≤ maxSafeInteger →
    ∀ before common, List.Subperm (before ++ [common]) commonUnits →
      Accepted cohortIndex original before →
      ∀ sourceSymbol, common.sourceSymbol cohortIndex = some sourceSymbol →
        sourceSymbol.toList <:+: intendedText cohortIndex original before →
          ReplacesOnly cohortIndex original before common sourceSymbol

end Meaning

/-- What no identifier has. -/
def isDelimiter (character : Char) : Bool :=
  !isIdentifierCharacter character

theorem identifier_clean {value : String} (hidentifier : isIdentifier value = true) :
    value.toList ≠ [] ∧ ∀ character ∈ value.toList, isDelimiter character = false := by
  rw [isIdentifier] at hidentifier
  cases hvalue : value.toList with
  | nil =>
    rw [hvalue] at hidentifier
    cases hidentifier
  | cons first rest =>
    rw [hvalue, Bool.and_eq_true] at hidentifier
    obtain ⟨hfirst, hrest⟩ := hidentifier
    refine ⟨cons_ne_nil _ _, forall_mem_cons.mpr ⟨?_, ?_⟩⟩
    · rw [isDelimiter, isIdentifierCharacter, Bool.not_eq_false']
      rw [isIdentifierStart] at hfirst
      simp only [Bool.or_eq_true, Char.isAlphanum] at hfirst ⊢
      tauto
    · intro character hmem
      rw [isDelimiter, all_eq_true.mp hrest character hmem]
      rfl

theorem expandReplacement_subset (characters : List Char) :
    expandReplacement characters ⊆ characters := by
  induction characters using expandReplacement.induct with
  | case1 rest ih =>
    exact cons_subset_cons _ (List.Subset.trans ih (subset_cons_self _ _))
  | case2 character rest hdollar ih =>
    rw [expandReplacement]
    · exact cons_subset_cons _ ih
    · exact hdollar
  | case3 => exact List.Subset.refl _

end ConvexWasm.Selector
