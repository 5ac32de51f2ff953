import ConvexWasm.Core.Fallible

/-!
# Dependencies of chunk units

A unit names each of its dependencies by an executable specifier that ends in
the number of its occurrence.  The occurrences of a unit are dense.
-/

namespace ConvexWasm.Selector

open Fallible

def fail {Result : Type} (message : String) : Except String Result :=
  .error ("Convex Wasm artifact pipeline: " ++ message)

/-- `CONTROL_CHARACTER_PATTERN` -/
def isControl (character : Char) : Bool :=
  character.toNat < 32 || (127 ≤ character.toNat && character.toNat < 160)

/-- `WHITESPACE_PATTERN` -/
def isWhiteSpace (character : Char) : Bool :=
  (9 ≤ character.toNat && character.toNat ≤ 13) ||
    character.toNat ∈ [0x20, 0x85, 0xa0, 0x1680, 0x2028, 0x2029, 0x202f, 0x205f, 0x3000] ||
    (0x2000 ≤ character.toNat && character.toNat ≤ 0x200a)

def requireManifestString (value description : String) (maximumBytes : ℕ) : Except String String :=
  if value = "" ∨ Char.ofNat 0 ∈ value.toList then
    fail (description ++ " must be a non-empty string without NUL bytes")
  else if maximumBytes < value.utf8ByteSize then
    fail (description ++ " must contain at most " ++ toString maximumBytes ++ " UTF-8 bytes")
  else if value.toList.any isControl then
    fail (description ++ " must not contain control characters")
  else if value.toList.any isWhiteSpace then
    fail (description ++ " must not contain whitespace")
  else .ok value

def isIdentifierStart (character : Char) : Bool :=
  character.isAlpha || character == '_' || character == '$'

def isIdentifierCharacter (character : Char) : Bool :=
  character.isAlphanum || character == '_' || character == '$'

/-- `IDENTIFIER_PATTERN` -/
def isIdentifier (value : String) : Bool :=
  match value.toList with
  | [] => false
  | first :: rest => isIdentifierStart first && rest.all isIdentifierCharacter

inductive DependencyKind
  | dynamicImport
  | importStatement
  | importInitialization
  deriving DecidableEq

/-- What an executable specifier says. -/
structure ExecutableDependency where
  kind : DependencyKind
  nativeSymbolIdentitySha256 : Option String
  occurrence : ℕ
  deriving DecidableEq

structure Dependency where
  executableSpecifier : String
  kind : DependencyKind
  path : String
  slot : ℕ
  specifier : String
  deriving DecidableEq

def maxManifestStringBytes : ℕ := 4 * 1024

def isHexDigit (digit : Char) : Bool :=
  digit.isDigit || ('a' ≤ digit && digit ≤ 'f')

/-- The number that some decimal digits stand for. -/
def digitsValue (digits : List Char) : ℕ :=
  digits.foldl (fun value digit => value * 10 + (digit.toNat - 48)) 0

/-- Eight digits and `.js` at the end. -/
def parseOccurrence (rest : List Char) : Option ℕ :=
  let digits := rest.take 8
  if digits.length = 8 ∧ digits.all Char.isDigit ∧ rest.drop 8 = ".js".toList then
    some (digitsValue digits)
  else none

/-- `IMPORT_INITIALIZATION_SPECIFIER_PATTERN` -/
def parseInitialization (specifier : List Char) : Option ExecutableDependency := do
  let rest ← specifier.dropPrefix? "./__convex_wasm_import_initialization_".toList
  let occurrence ← parseOccurrence rest
  return { kind := .importInitialization, nativeSymbolIdentitySha256 := none, occurrence }

/-- `EXECUTABLE_DEPENDENCY_SPECIFIER_PATTERN` with one of its two kinds. -/
def parseNamed (kind : DependencyKind) (name : String) (specifier : List Char) :
    Option ExecutableDependency := do
  let rest ← specifier.dropPrefix? ("./__convex_wasm_dependency_" ++ name ++ "_").toList
  let sha256 := rest.take 64
  let after ← (rest.drop 64).dropPrefix? ['_']
  let occurrence ← parseOccurrence after
  if sha256.length = 64 ∧ sha256.all isHexDigit then
    return { kind, nativeSymbolIdentitySha256 := some (String.ofList sha256), occurrence }
  else none

def parseConvexWasmOfficialOutputExecutableDependencySpecifier (specifier : String) :
    Except String ExecutableDependency :=
  match parseInitialization specifier.toList <|>
      parseNamed .dynamicImport "dynamic_import" specifier.toList <|>
      parseNamed .importStatement "import_statement" specifier.toList with
  | some parsed => .ok parsed
  | none => fail "official-output executable dependency specifier is invalid"

def normalizeDependency (namespaceSlotCount : ℕ) (unitDescription : String) (index : ℕ)
    (dependency : Dependency) : Except String ExecutableDependency := do
  let description := unitDescription ++ " dependency " ++ toString index
  if namespaceSlotCount ≤ dependency.slot then fail (description ++ " is invalid")
  else
    let executableSpecifier ← requireManifestString dependency.executableSpecifier
      (description ++ " executable specifier") maxManifestStringBytes
    let identity ←
      parseConvexWasmOfficialOutputExecutableDependencySpecifier executableSpecifier
    if identity.kind ≠ dependency.kind then
      fail (description ++ " executable specifier kind is invalid")
    else
      let _ ← requireManifestString dependency.path (description ++ " path") maxManifestStringBytes
      let _ ← requireManifestString dependency.specifier (description ++ " specifier")
        maxManifestStringBytes
      return identity

/-- The dependencies one after the other, with what their specifiers say. -/
def normalizeDependencies (namespaceSlotCount : ℕ) (unitDescription : String) :
    ℕ → List Dependency → Except String (List (Dependency × ExecutableDependency))
  | _, [] => .ok []
  | index, dependency :: rest => do
      let identity ← normalizeDependency namespaceSlotCount unitDescription index dependency
      let later ← normalizeDependencies namespaceSlotCount unitDescription (index + 1) rest
      return (dependency, identity) :: later

/-- Each import initialization takes the import of its slot, which must be there
under the same path and specifier. -/
def consumeBindings (description : String) :
    List (Dependency × ExecutableDependency) → List Dependency → Except String Unit
  | [], _ => .ok ()
  | (dependency, _) :: rest, bindings =>
    -- A map has the last of the imports of a slot.
    match bindings.reverse.find? (·.slot = dependency.slot) with
    | none => fail (description ++ " import initialization does not match its bindings")
    | some binding =>
      if binding.path ≠ dependency.path ∨ binding.specifier ≠ dependency.specifier then
        fail (description ++ " import initialization does not match its bindings")
      else consumeBindings description rest (bindings.filter (·.slot ≠ dependency.slot))

def validateConvexWasmImportInitializationDependencies
    (dependencies : List (Dependency × ExecutableDependency)) (description : String) :
    Except String Unit :=
  let initialization := dependencies.filter (·.1.kind = .importInitialization)
  if initialization = [] then .ok ()
  else
    let imports := (dependencies.map Prod.fst).filter (·.kind = .importStatement)
    let bindings := (imports.map (·.slot)).dedup
    let ordinals := (initialization.map (·.2.occurrence)).insertionSort (· ≤ ·)
    if initialization.length ≠ imports.length ∨ initialization.length ≠ bindings.length ∨
        ordinals ≠ List.range ordinals.length then
      fail (description ++ " import initialization is incomplete")
    else consumeBindings description initialization imports

def normalizeConvexWasmOfficialOutputChunkDependencies (dependencies : List Dependency)
    (namespaceSlotCount : ℕ) (unitDescription : String) :
    Except String (List (Dependency × ExecutableDependency)) := do
  let normalized ← normalizeDependencies namespaceSlotCount unitDescription 0 dependencies
  let occurrences := (normalized.map (·.2.occurrence)).insertionSort (· ≤ ·)
  if ¬ (dependencies.map (·.executableSpecifier)).Nodup then
    fail (unitDescription ++ " repeats an executable dependency specifier")
  else if occurrences ≠ List.range occurrences.length then
    fail (unitDescription ++ " executable dependency occurrences are invalid")
  else
    validateConvexWasmImportInitializationDependencies normalized unitDescription
    return normalized

end ConvexWasm.Selector
