import ConvexWasm.Core.TextReplacement
import ConvexWasm.Selector.SelectorSource

/-!
# The text of a selector

The tables of a selector are written out as C.  The symbols of the units are the
only names in it that may be replaced later; they stand between fixed parts.
-/

namespace ConvexWasm.Selector

open TextReplacement

/-- Lines of a text that has begun before them. -/
def lines (texts : List String) : List Char :=
  texts.flatMap fun text => '\n' :: text.toList

/-- The lines before the declarations, but for the first. -/
def headerLines : List String :=
  [ "#include <string.h>",
    "typedef struct SHUnit SHUnit;",
    "typedef SHUnit *(*ConvexWasmApplicationFactory)(void);" ]

def stateLines : List String :=
  [ "enum \x7b",
    "  CONVEX_WASM_UDF_KIND_NONE = 0,",
    "  CONVEX_WASM_UDF_KIND_QUERY = 1,",
    "  CONVEX_WASM_UDF_KIND_MUTATION = 2,",
    "\x7d;",
    "enum \x7b",
    "  CONVEX_WASM_INVOCATION_ABI_NONE = 0,",
    "  CONVEX_WASM_INVOCATION_ABI_OFFICIAL_WRAPPER = 2,",
    "\x7d;",
    "static int32_t convex_wasm_selected_application_unit_slot_value = -1;",
    "static int32_t convex_wasm_selected_entry_slot_value = -1;",
    "static const char *convex_wasm_selected_handler_export_name_value;",
    "static int32_t convex_wasm_selected_handler_udf_kind_value;",
    "static int32_t convex_wasm_selected_invocation_abi_value;" ]

/-- The body of the lookup of a dependency. -/
def lookupLines : List String :=
  [ "  uint32_t count = convex_wasm_application_dependency_ranges[unit_slot].count;",
    "  if (count == 0) return -1;",
    "  uint32_t occurrence = 0;",
    "  if (count > 1) \x7b",
    "    size_t length = strlen(specifier);",
    "    if (length < 11) return -1;",
    "    /* The eight-digit occurrence precedes \".js\". It selects a candidate only:",
    "       the full comparison below also rejects malformed or foreign specifiers. */",
    "    for (size_t index = length - 11; index < length - 3; ++index) \x7b",
    "      uint32_t digit = (uint32_t)(unsigned char)specifier[index] - (uint32_t)'0';",
    "      if (digit > 9) return -1;",
    "      occurrence = occurrence * 10 + digit;",
    "    \x7d",
    "    if (occurrence >= count) return -1;",
    "  \x7d",
    "  uint32_t index = convex_wasm_application_dependency_ranges[unit_slot].offset + " ++
      "occurrence;",
    "  return strcmp(specifier, convex_wasm_application_dependencies[index].specifier) " ++
      "== 0",
    "    ? convex_wasm_application_dependencies[index].slot : -1;",
    "\x7d" ]

def selectedLines : List String :=
  [ "  return factory == (ConvexWasmApplicationFactory)0 ? (SHUnit *)0 : factory();",
    "\x7d",
    "const char *convex_wasm_selected_handler_export_name(void) \x7b",
    "  return convex_wasm_selected_handler_export_name_value;",
    "\x7d",
    "int32_t convex_wasm_selected_handler_udf_kind(void) \x7b",
    "  return convex_wasm_selected_handler_udf_kind_value;",
    "\x7d",
    "int32_t convex_wasm_selected_invocation_abi(void) \x7b",
    "  return convex_wasm_selected_invocation_abi_value;",
    "\x7d",
    "int32_t convex_wasm_selected_entry_slot(void) \x7b",
    "  return convex_wasm_selected_entry_slot_value;",
    "\x7d",
    "void convex_wasm_clear_selected_entry(void) \x7b",
    "  convex_wasm_selected_application_unit_slot_value = -1;",
    "  convex_wasm_selected_entry_slot_value = -1;",
    "  convex_wasm_selected_handler_export_name_value = 0;",
    "  convex_wasm_selected_handler_udf_kind_value = CONVEX_WASM_UDF_KIND_NONE;",
    "  convex_wasm_selected_invocation_abi_value = CONVEX_WASM_INVOCATION_ABI_NONE;",
    "\x7d",
    "" ]

/-- What a leaf has after its selector. -/
def registrationLines : List String :=
  [ "extern int32_t convex_wasm_register_application_selector_surface(",
    "    int32_t (*)(void), int32_t (*)(void), int32_t (*)(void), int32_t (*)(int32_t),",
    "    ConvexWasmApplicationFactory (*)(int32_t), int32_t (*)(int32_t, const char *),",
    "    int32_t (*)(int32_t), int32_t (*)(int32_t), const char *(*)(void),",
    "    int32_t (*)(void), int32_t (*)(void), int32_t (*)(void), void (*)(void),",
    "    int32_t (*)(uint64_t));",
    "__attribute__((constructor)) static void " ++
      "convex_wasm_register_leaf_selector_surface(void) \x7b",
    "  if (convex_wasm_register_application_selector_surface(",
    "      convex_wasm_application_entry_count,",
    "      convex_wasm_application_unit_count,",
    "      convex_wasm_application_chunk_slot_count,",
    "      convex_wasm_application_entry_publication_unit_slot_by_handoff_slot,",
    "      convex_wasm_application_factory_by_unit_slot,",
    "      convex_wasm_application_chunk_dependency_by_specifier,",
    "      convex_wasm_application_entry_chunk_slot_by_handoff_slot,",
    "      convex_wasm_application_invocation_abi_by_slot,",
    "      convex_wasm_selected_handler_export_name,",
    "      convex_wasm_selected_handler_udf_kind,",
    "      convex_wasm_selected_invocation_abi,",
    "      convex_wasm_selected_entry_slot,",
    "      convex_wasm_clear_selected_entry,",
    "      convex_wasm_select_entry) != 0) __builtin_trap();",
    "\x7d",
    "" ]

section Tables

/-- The lines of a function that returns a count. -/
def countLines (symbol : String) (count : ℕ) : List String :=
  ["int32_t " ++ symbol ++ "(void) \x7b", "  return " ++ toString count ++ ";", "\x7d"]

/-- The cases that return a number for each number. -/
def numberCases (numbers : List ℕ) : List String :=
  numbers.zipIdx.map fun entry =>
    "    case " ++ toString entry.2 ++ ": return " ++ toString entry.1 ++ ";"

/-- The lines of a function that switches over its argument. -/
def switchLines (signature argument default : String) (cases : List String) : List String :=
  [signature ++ " \x7b", "  switch (" ++ argument ++ ") \x7b"] ++ cases ++
    ["    default: " ++ default, "  \x7d", "\x7d"]

/-- `JSON.stringify` of a string without characters to escape. -/
def quoted (value : String) : String :=
  "\"" ++ value ++ "\""

def udfKindName : UdfKind → String
  | .query => "CONVEX_WASM_UDF_KIND_QUERY"
  | .mutation => "CONVEX_WASM_UDF_KIND_MUTATION"

def selectorCaseLine (found : SelectorCase) : String :=
  "    case UINT64_C(0x" ++ found.entrySelectorId ++ "): " ++
    "convex_wasm_selected_application_unit_slot_value = " ++ toString found.unitSlot ++ "; " ++
    "convex_wasm_selected_entry_slot_value = " ++ toString found.entrySlot ++ "; " ++
    "convex_wasm_selected_handler_export_name_value = " ++ quoted found.exportName ++ "; " ++
    "convex_wasm_selected_handler_udf_kind_value = " ++ udfKindName found.udfKind ++ "; " ++
    "convex_wasm_selected_invocation_abi_value = CONVEX_WASM_INVOCATION_ABI_OFFICIAL_WRAPPER; " ++
    "return 0;"

def dependencyRowLines (rows : List (String × ℕ)) : List String :=
  if rows = [] then ["  \x7b (const char *)0, -1 \x7d,"]
  else rows.map fun row => "  \x7b " ++ quoted row.1 ++ ", " ++ toString row.2 ++ " \x7d,"

def dependencyRangeLines (ranges : List (ℕ × ℕ)) : List String :=
  ranges.map fun range => "  \x7b " ++ toString range.1 ++ ", " ++ toString range.2 ++ " \x7d,"

variable (source : SelectorSource)

/-- The lines between the declarations and the switch over the factories. -/
def linesBeforeFactories : List String :=
  stateLines ++
    countLines "convex_wasm_application_entry_count" source.entryChunkSlots.length ++
    countLines "convex_wasm_application_unit_count" source.factorySymbols.length ++
    countLines "convex_wasm_application_chunk_slot_count" source.chunkSlotCount ++
    switchLines ("int32_t convex_wasm_application_entry_publication_unit_slot_by_handoff_slot" ++
        "(int32_t entry_slot)") "entry_slot" "return -1;"
      (numberCases source.entryPublicationUnitSlots) ++
    [ "ConvexWasmApplicationFactory convex_wasm_application_factory_by_unit_slot" ++
        "(int32_t unit_slot) \x7b",
      "  switch (unit_slot) \x7b" ]

/-- The lines after the cases of the factories. -/
def linesAfterFactories : List String :=
  [ "    default: return (ConvexWasmApplicationFactory)0;", "  \x7d", "\x7d",
    "static const struct \x7b", "  const char *specifier;", "  int32_t slot;",
    "\x7d convex_wasm_application_dependencies[] = \x7b" ] ++
    dependencyRowLines source.dependencyRows ++
    [ "\x7d;", "static const struct \x7b", "  uint32_t offset;", "  uint32_t count;",
      "\x7d convex_wasm_application_dependency_ranges[] = \x7b" ] ++
    dependencyRangeLines source.dependencyRanges ++
    [ "\x7d;",
      "int32_t convex_wasm_application_chunk_dependency_by_specifier" ++
        "(int32_t unit_slot, const char *specifier) \x7b",
      "  if (specifier == (const char *)0 || unit_slot < 0 ||",
      "      (uint32_t)unit_slot >= " ++ toString source.chunkSlotCount ++ ") return -1;" ] ++
    lookupLines ++
    switchLines ("int32_t convex_wasm_application_entry_chunk_slot_by_handoff_slot" ++
        "(int32_t entry_slot)") "entry_slot" "return -1;" (numberCases source.entryChunkSlots) ++
    switchLines "int32_t convex_wasm_application_invocation_abi_by_slot(int32_t entry_slot)"
      "entry_slot" "return CONVEX_WASM_INVOCATION_ABI_NONE;"
      ((List.range source.entryChunkSlots.length).map fun entrySlot =>
        "    case " ++ toString entrySlot ++
          ": return CONVEX_WASM_INVOCATION_ABI_OFFICIAL_WRAPPER;") ++
    switchLines "int32_t convex_wasm_select_entry(uint64_t entry)" "entry"
      ("convex_wasm_selected_application_unit_slot_value = -1; " ++
        "convex_wasm_selected_entry_slot_value = -1; " ++
        "convex_wasm_selected_handler_export_name_value = 0; " ++
        "convex_wasm_selected_handler_udf_kind_value = CONVEX_WASM_UDF_KIND_NONE; " ++
        "convex_wasm_selected_invocation_abi_value = CONVEX_WASM_INVOCATION_ABI_NONE; return -1;")
      (source.cases.map selectorCaseLine) ++
    [ "SHUnit *convex_wasm_selected_exported_unit(void) \x7b",
      "  ConvexWasmApplicationFactory factory = convex_wasm_application_factory_by_unit_slot" ++
        "(convex_wasm_selected_application_unit_slot_value);" ] ++
    selectedLines

def declarationPieces (symbol : String) : List (Piece Char String) :=
  [.fixed (lines ["extern SHUnit *"]), .name symbol, .fixed "(void);".toList]

def factoryPieces (entry : String × ℕ) : List (Piece Char String) :=
  [.fixed (lines ["    case " ++ toString entry.2 ++ ": return "]), .name entry.1,
    .fixed ";".toList]

/-- The selector in parts. -/
def selectorPieces : List (Piece Char String) :=
  [.fixed ("#include <stdint.h>".toList ++ lines headerLines)] ++
    source.factorySymbols.flatMap declarationPieces ++
    [.fixed (lines (linesBeforeFactories source))] ++
    source.factorySymbols.zipIdx.flatMap factoryPieces ++
    [.fixed (lines (linesAfterFactories source))]

def selectorText : List Char :=
  pieceText String.toList (selectorPieces source)

end Tables

end ConvexWasm.Selector
