import ConvexWasm.Core.Base64
import ConvexWasm.Core.JsText
import ConvexWasm.Core.LittleEndian
import ConvexWasm.Guest.JsNumber

/-!
# The tagged JSON codec of the guest

Values of the guest are written as JSON in which tags stand for what JSON has
no form for.  The encoder walks the objects of the guest, which may share
parts; the restorer walks the JSON and builds fresh objects.
-/

namespace ConvexWasm.Guest

open JsText

/-- The code units of a text. -/
abbrev JsString := List ℕ

inductive Json
  | null
  | boolean (value : Bool)
  | number (value : JsNumber)
  | string (value : JsString)
  | array (elements : List Json)
  | object (fields : List (JsString × Json))

inductive Failure
  | thrown (message : String)
  | exhausted
  deriving DecidableEq

/-- What a variable, an element or a property of the guest holds. -/
inductive GuestSlot
  | undefined
  | null
  | boolean (value : Bool)
  | number (value : JsNumber)
  | string (value : JsString)
  | bigint (value : ℤ)
  | function
  | commitTs
  | reference (address : ℕ)
  deriving DecidableEq

inductive GuestProperty
  | data (value : GuestSlot)
  | accessor
  deriving DecidableEq

/-- An object of the guest: its enumerable own properties, whether its
prototype is that of plain objects, and whether it has symbol properties. -/
inductive GuestCell
  | bytes (content : List UInt8)
  | array (elements : List (Option GuestSlot))
  | object (plain symbols : Bool) (fields : List (JsString × GuestProperty))
  deriving DecidableEq

abbrev GuestHeap := List GuestCell

def commitTsTag : JsString := utf16 "$commitTs"
def floatTag : JsString := utf16 "$float"
def integerTag : JsString := utf16 "$integer"
def bytesTag : JsString := utf16 "$bytes"
def mapTag : JsString := utf16 "$map"
def setTag : JsString := utf16 "$set"

def tagged (tag : JsString) (value : Json) : Json :=
  .object [(tag, value)]

/-- A field name is short and made of visible ASCII, not beginning with a dollar
sign. -/
def validateObjectField (key : JsString) : Except Failure Unit :=
  if 1024 < key.length then .error (.thrown "Convex object field name is too long")
  else if key.head? = some 36 then
    .error (.thrown "Convex object field name uses a reserved prefix")
  else if key.all fun character => decide (32 ≤ character ∧ character ≤ 126) then .ok ()
  else
    .error (.thrown
      "Convex object field name must contain only non-control ASCII characters")

def encodeBytes (content : List UInt8) : JsString :=
  Base64.encode content

def encodeInteger (value : ℤ) : Except Failure JsString :=
  if value < -(2 ^ 63) ∨ 2 ^ 63 - 1 < value then
    .error (.thrown "guest-native int64 value is outside the signed 64-bit range")
  else .ok (Base64.encode (littleEndian 8 (value % 2 ^ 64).toNat))

def encodeFloat (value : JsNumber) : JsString :=
  encodeBytes (littleEndian 8 value.toBits)

def encodeNumber (value : JsNumber) : Json :=
  if value.isTagged then tagged floatTag (.string (encodeFloat value)) else .number value

/-- `Object.keys(value).sort()`, with what the names refer to. -/
def sortFields {Value : Type} (fields : List (JsString × Value)) : List (JsString × Value) :=
  fields.insertionSort fun left right => left.1 ≤ right.1

/-- The fields that are not undefined, in order. -/
def encodeFields (encodeValue : GuestSlot → Except Failure Json) :
    List (JsString × GuestProperty) → Except Failure (List (JsString × Json))
  | [] => .ok []
  | (_, .accessor) :: _ => .error (.thrown "Accessor properties are not Convex values")
  | (_, .data .undefined) :: later => encodeFields encodeValue later
  | (key, .data value) :: later => do
      validateObjectField key
      let json ← encodeValue value
      let rest ← encodeFields encodeValue later
      return (key, json) :: rest

def encodeElements (encodeValue : GuestSlot → Except Failure Json) :
    List (Option GuestSlot) → Except Failure (List Json)
  | [] => .ok []
  | none :: _ => .error (.thrown "Sparse arrays are not Convex values")
  | some value :: later => do
      let json ← encodeValue value
      let rest ← encodeElements encodeValue later
      return json :: rest

/-- Walks the objects from a value; the fuel bounds how deep they nest. -/
def encodeTagged (heap : GuestHeap) : ℕ → List ℕ → GuestSlot → Except Failure Json
  | _, _, .commitTs => .ok (tagged commitTsTag .null)
  | _, _, .null => .ok .null
  | _, _, .boolean value => .ok (.boolean value)
  | _, _, .string value => .ok (.string value)
  | _, _, .number value => .ok (encodeNumber value)
  | _, _, .undefined => .error (.thrown "undefined is not a Convex value")
  | _, _, .bigint value => (encodeInteger value).map fun text => tagged integerTag (.string text)
  | _, _, .function => .error (.thrown "Functions and symbols are not Convex values")
  | 0, _, .reference _ => .error .exhausted
  | fuel + 1, ancestors, .reference address =>
    match heap[address]? with
    | none => .error (.thrown "Unsupported Convex value")
    | some (.bytes content) => .ok (tagged bytesTag (.string (encodeBytes content)))
    | some (.array elements) =>
      if address ∈ ancestors then
        .error (.thrown "Cyclic objects are not Convex values")
      else
        (encodeElements (encodeTagged heap fuel (address :: ancestors)) elements).map .array
    | some (.object plain symbols fields) =>
      if address ∈ ancestors then
        .error (.thrown "Cyclic objects are not Convex values")
      else if !plain then .error (.thrown "Only plain objects are Convex values")
      else if symbols then .error (.thrown "Symbol properties are not Convex values")
      else
        (encodeFields (encodeTagged heap fuel (address :: ancestors))
          (sortFields fields)).map .object

/-- No object can be nested in more others than there are. -/
def guestEncodeTagged (heap : GuestHeap) (value : GuestSlot) : Except Failure Json :=
  encodeTagged heap (heap.length + 1) [] value

/-- A restored value, whose objects are all fresh. -/
inductive GuestTree
  | null
  | boolean (value : Bool)
  | number (value : JsNumber)
  | string (value : JsString)
  | bigint (value : ℤ)
  | commitTs
  | bytes (content : List UInt8)
  | array (elements : List GuestTree)
  | object (fields : List (JsString × GuestTree))

variable (encoded : Json)

def decodeBase64 (tag : String) : Except Failure (List UInt8) :=
  match encoded with
  | .string text =>
    match Base64.decode text with
    | some bytes => .ok bytes
    | none => .error (.thrown s!"Invalid guest-native {tag} encoding")
  | _ => .error (.thrown s!"Invalid guest-native {tag} encoding")

def restoreInteger : Except Failure GuestTree := do
  let bytes ← decodeBase64 encoded "$integer"
  if bytes.length = 8 then
    let value : ℤ := readLittleEndian bytes
    return .bigint (if 2 ^ 63 - 1 < value then value - 2 ^ 64 else value)
  else .error (.thrown "Invalid guest-native $integer encoding")

def restoreFloat : Except Failure GuestTree := do
  let bytes ← decodeBase64 encoded "$float"
  if bytes.length = 8 then
    let value := JsNumber.ofBits (readLittleEndian bytes)
    if value.isTagged then return .number value
    else .error (.thrown "Invalid guest-native $float encoding")
  else .error (.thrown "Invalid guest-native $float encoding")

def restoreBytes : Except Failure GuestTree := do
  let bytes ← decodeBase64 encoded "$bytes"
  return .bytes bytes

/-- The value of an object with a single field that is a tag. -/
def restoreTag (key : JsString) (value : Json) : Option (Except Failure GuestTree) :=
  if key = commitTsTag then
    some (match value with
      | .null => .ok .commitTs
      | _ => .error (.thrown "Invalid guest-native $commitTs encoding"))
  else if key = floatTag then some (restoreFloat value)
  else if key = integerTag then some (restoreInteger value)
  else if key = bytesTag then some (restoreBytes value)
  else if key = mapTag ∨ key = setTag then
    some (.error (.thrown "Map and Set are not Convex boundary values"))
  else none

def restoreSingle : List (JsString × Json) → Option (Except Failure GuestTree)
  | [(key, value)] => restoreTag key value
  | _ => none

mutual

def restoreTagged : Json → Except Failure GuestTree
  | .null => .ok .null
  | .boolean value => .ok (.boolean value)
  | .number value => .ok (.number value)
  | .string value => .ok (.string value)
  | .array elements => (restoreElements elements).map .array
  | .object fields =>
    match restoreSingle fields with
    | some restored => restored
    | none => (restoreFields fields).map .object

def restoreElements : List Json → Except Failure (List GuestTree)
  | [] => .ok []
  | json :: later => do
      let value ← restoreTagged json
      let rest ← restoreElements later
      return value :: rest

def restoreFields : List (JsString × Json) → Except Failure (List (JsString × GuestTree))
  | [] => .ok []
  | (key, json) :: later => do
      validateObjectField key
      let value ← restoreTagged json
      let rest ← restoreFields later
      return (key, value) :: rest

end

/-- A number that is written as JSON text and parsed. -/
def reparseNumber (value : JsNumber) : Json :=
  match value with
  | .nan | .infinity _ => .null
  | .finite negative exponent fraction =>
    .number (.finite (negative && decide (JsNumber.units exponent fraction ≠ 0))
      exponent fraction)

mutual

/-- `JSON.parse(JSON.stringify(json))`. -/
def reparse : Json → Json
  | .null => .null
  | .boolean value => .boolean value
  | .number value => reparseNumber value
  | .string value => .string value
  | .array elements => .array (reparseElements elements)
  | .object fields => .object (reparseFields fields)

def reparseElements : List Json → List Json
  | [] => []
  | json :: later => reparse json :: reparseElements later

def reparseFields : List (JsString × Json) → List (JsString × Json)
  | [] => []
  | (key, json) :: later => (key, reparse json) :: reparseFields later

end

end ConvexWasm.Guest
