import ConvexWasm.Core.Fallible

/-!
# The operations that a program may perform

The compiler lists the operations of a program as records.  Lowering checks
each record, sorts the operations by their numbers and from then on knows only
the fields that it has checked.
-/

namespace ConvexWasm.Guest

open List

/-- A field of a record: absent, of a type that no check accepts, or given. -/
inductive RecordField (Value : Type)
  | missing
  | other
  | given (value : Value)
  deriving DecidableEq

def RecordField.isPresent {Value : Type} : RecordField Value → Bool
  | .missing => false
  | .other | .given _ => true

/-- A non-empty string. -/
def RecordField.text? : RecordField String → Option String
  | .given "" => none
  | .given text => some text
  | .missing | .other => none

structure ConstraintRecord where
  field : String
  operator : String
  deriving DecidableEq

/-- A record of an operation; a limit that is given is null or a whole number. -/
structure OperationRecord where
  id : ℤ
  kind : String
  table : RecordField String := .missing
  index : RecordField String := .missing
  constraints : RecordField (List (Option ConstraintRecord)) := .missing
  limit : RecordField (Option ℤ) := .missing
  limitArgumentIndex : RecordField (Option ℤ) := .missing
  order : RecordField String := .missing
  terminal : RecordField String := .missing
  functionReference : RecordField String := .missing
  contractVersion : RecordField ℤ := .missing
  selector : RecordField String := .missing
  further : List String := []

variable (operation : OperationRecord)

/-- The names of the fields of a record. -/
def OperationRecord.keys : List String :=
  ["id", "kind"] ++
    [("table", operation.table.isPresent), ("index", operation.index.isPresent),
      ("constraints", operation.constraints.isPresent), ("limit", operation.limit.isPresent),
      ("limitArgumentIndex", operation.limitArgumentIndex.isPresent),
      ("order", operation.order.isPresent), ("terminal", operation.terminal.isPresent),
      ("functionReference", operation.functionReference.isPresent),
      ("contractVersion", operation.contractVersion.isPresent),
      ("selector", operation.selector.isPresent)].filterMap
        (fun field => if field.2 then some field.1 else none) ++ operation.further

inductive ConstraintOperator
  | eq
  | gt
  | gte
  | lt
  | lte
  deriving DecidableEq

structure IndexConstraint where
  field : String
  operator : ConstraintOperator
  deriving DecidableEq

inductive QueryOrder
  | ascending
  | descending
  deriving DecidableEq

inductive QueryTerminal
  | collect
  | first
  | stream
  | unique
  deriving DecidableEq

/-- An index query; a limit that is only known at run time is the argument
behind those of the constraints. -/
structure IndexQuery where
  table : String
  index : String
  constraints : List IndexConstraint
  limit : Option ℤ
  limitArgumentIndex : Option ℤ
  order : QueryOrder
  terminal : QueryTerminal
  deriving DecidableEq

inductive WriteKind
  | databaseDelete
  | databaseInsert
  | databasePatch
  | databaseReplace
  deriving DecidableEq

inductive ScheduleKind
  | schedulerRunAfter
  | schedulerRunAt
  deriving DecidableEq

inductive OperationKind
  | authenticationGetUserIdentity
  | functionHandleCreate
  | hostSecretVerify (selector : String)
  | databaseNormalizeId (table : String)
  | databaseGet (table : String)
  | databaseWrite (kind : WriteKind) (table : String)
  | schedule (kind : ScheduleKind) (functionReference : String)
  | databaseIndexQuery (query : IndexQuery)
  deriving DecidableEq

structure Operation where
  id : ℤ
  kind : OperationKind
  deriving DecidableEq

def parseConstraintOperator : String → Option ConstraintOperator
  | "eq" => some .eq
  | "gt" => some .gt
  | "gte" => some .gte
  | "lt" => some .lt
  | "lte" => some .lte
  | _ => none

def parseOrder : RecordField String → Option QueryOrder
  | .given "ascending" => some .ascending
  | .given "descending" => some .descending
  | _ => none

def parseTerminal : RecordField String → Option QueryTerminal
  | .given "collect" => some .collect
  | .given "first" => some .first
  | .given "stream" => some .stream
  | .given "unique" => some .unique
  | _ => none

/-- `/^[A-Za-z_][A-Za-z0-9_]*$/u` -/
def selectorPattern (text : String) : Bool :=
  match text.toList with
  | [] => false
  | first :: rest =>
    (first.isAlpha || first == '_') &&
      rest.all fun character => character.isAlphanum || character == '_'

def OperationRecord.hasOnly (allowed : List String) : Bool :=
  operation.keys.all fun key => decide (key ∈ allowed)

/-- A record whose only own field is its table. -/
def tableOperation (kind : String → OperationKind) : Except String OperationKind :=
  match operation.table.text?, operation.hasOnly ["id", "kind", "table"] with
  | some table, true => .ok (kind table)
  | _, _ => .error s!" is not a valid {operation.kind} operation."

def plainOperation (kind : OperationKind) : Except String OperationKind :=
  if operation.hasOnly ["id", "kind"] then .ok kind
  else .error s!" is not a valid {operation.kind} operation."

def scheduleOperation (kind : ScheduleKind) : Except String OperationKind :=
  match operation.functionReference.text?,
    operation.hasOnly ["functionReference", "id", "kind"] with
  | some functionReference, true => .ok (.schedule kind functionReference)
  | _, _ => .error s!" is not a valid {operation.kind} operation."

/-- Constraints of different fields, the equalities first and at most one range
at the end; `seen` are the fields so far, `sawRange` whether the range was there. -/
def normalizeConstraints (seen : List String) (sawRange : Bool) (index : ℕ) :
    List (Option ConstraintRecord) → Except String (List IndexConstraint)
  | [] => .ok []
  | constraint :: later => do
      let (field, operator) ←
        match constraint with
        | some ⟨field, operator⟩ =>
          match field, parseConstraintOperator operator with
          | "", _ | _, none => .error s!".constraints[{index}] is invalid."
          | field, some operator => .ok (field, operator)
        | none => .error s!".constraints[{index}] is invalid."
      if field ∈ seen then .error ".constraint fields must be unique."
      if operator = .eq then
        if sawRange then .error " equality constraints must precede the range."
      else
        if sawRange ∨ later ≠ [] then
          .error " supports at most one final range constraint."
      let rest ←
        normalizeConstraints (field :: seen) (sawRange || operator != .eq) (index + 1) later
      return ⟨field, operator⟩ :: rest

def isLimit (limit : ℤ) : Bool :=
  decide (1 ≤ limit ∧ limit ≤ 100000)

/-- The limit and the place of a limit that is an argument. -/
def normalizeLimit (terminal : QueryTerminal) (constraints : ℕ) :
    Except String (Option ℤ × Option ℤ) :=
  let argumentIndex : Option (Option ℤ) :=
    match operation.limitArgumentIndex with
    | .missing => some none
    | .given index => some index
    | .other => none
  match terminal with
  | .collect =>
    match operation.limit with
    | .given none =>
      match argumentIndex with
      | some none => .ok (none, none)
      | some (some index) =>
        if index = constraints then .ok (none, some index)
        else
          .error ".limitArgumentIndex must follow constraints as the only collect limit."
      | none =>
        .error ".limitArgumentIndex must follow constraints as the only collect limit."
    | .given (some limit) =>
      if isLimit limit then
        match argumentIndex with
        | some none => .ok (some limit, none)
        | _ =>
          .error ".limitArgumentIndex must follow constraints as the only collect limit."
      else .error ".limit must be null or between 1 and 100000 for collect."
    | .missing | .other =>
      .error ".limit must be null or between 1 and 100000 for collect."
  | .first | .stream | .unique =>
    match operation.limit, argumentIndex with
    | .given none, some none => .ok (none, none)
    | _, _ => .error " must not have a limit for a non-collect terminal."

def indexQueryFields : List String :=
  ["constraints", "id", "index", "kind", "limit", "limitArgumentIndex", "order", "table",
    "terminal"]

def indexQueryOperation : Except String OperationKind := do
  let table ←
    match operation.table.text? with
    | some table => .ok table
    | none => .error ".table must be a non-empty string."
  let index ←
    match operation.index.text? with
    | some index => .ok index
    | none => .error ".index must be a non-empty string."
  let records ←
    match operation.constraints with
    | .given (first :: rest) => .ok (first :: rest)
    | _ => .error ".constraints must be a non-empty array."
  let constraints ← normalizeConstraints [] false 0 records
  let order ←
    match parseOrder operation.order with
    | some order => .ok order
    | none => .error ".order must be \"ascending\" or \"descending\"."
  let terminal ←
    match parseTerminal operation.terminal with
    | some terminal => .ok terminal
    | none =>
      .error ".terminal must be \"collect\", \"first\", \"stream\", or \"unique\"."
  let (limit, limitArgumentIndex) ← normalizeLimit operation terminal constraints.length
  if operation.hasOnly indexQueryFields then
    return .databaseIndexQuery
      ⟨table, index, constraints, limit, limitArgumentIndex, order, terminal⟩
  else .error " has unsupported fields."

/-- The checks of one record by its kind. -/
def normalizeKind : Except String OperationKind :=
  match operation.kind with
  | "authenticationGetUserIdentity" =>
    plainOperation operation .authenticationGetUserIdentity
  | "functionHandleCreate" => plainOperation operation .functionHandleCreate
  | "hostSecretVerify" =>
    match operation.selector with
    | .given selector =>
      if operation.contractVersion = .given 1 ∧ selectorPattern selector ∧
          operation.hasOnly ["contractVersion", "id", "kind", "selector"] then
        .ok (.hostSecretVerify selector)
      else .error " is not a valid hostSecretVerify operation."
    | _ => .error " is not a valid hostSecretVerify operation."
  | "databaseNormalizeId" => tableOperation operation .databaseNormalizeId
  | "databaseGet" => tableOperation operation .databaseGet
  | "databaseDelete" => tableOperation operation (.databaseWrite .databaseDelete)
  | "databaseInsert" => tableOperation operation (.databaseWrite .databaseInsert)
  | "databasePatch" => tableOperation operation (.databaseWrite .databasePatch)
  | "databaseReplace" => tableOperation operation (.databaseWrite .databaseReplace)
  | "schedulerRunAfter" => scheduleOperation operation .schedulerRunAfter
  | "schedulerRunAt" => scheduleOperation operation .schedulerRunAt
  | "databaseIndexQuery" => indexQueryOperation operation
  | _ => .error ".kind is unsupported."

/-- The records from a place on; `ids` are the numbers before it. -/
def normalizeFrom (ids : List ℤ) (index : ℕ) :
    List OperationRecord → Except String (List Operation)
  | [] => .ok []
  | operation :: later => do
      if ¬(1 ≤ operation.id ∧ operation.id ≤ 65535) then
        .error s!"operations[{index}].id must be between 1 and 65535."
      if operation.id ∈ ids then .error s!"Duplicate operation ID {operation.id}."
      let kind ← (normalizeKind operation).mapError fun message =>
        s!"operations[{index}]" ++ message
      let rest ← normalizeFrom (operation.id :: ids) (index + 1) later
      return ⟨operation.id, kind⟩ :: rest

def sortOperations (operations : List Operation) : List Operation :=
  operations.insertionSort fun left right => left.id ≤ right.id

def normalizeOperations (records : List OperationRecord) : Except String (List Operation) :=
  (normalizeFrom [] 0 records).map sortOperations

section Order

/-- The operations that the records stand for, each under its number. -/
def Normalized (records : List OperationRecord) (operations : List Operation) : Prop :=
  (records.map OperationRecord.id).Nodup ∧
    List.Forall₂ (fun record operation => 1 ≤ record.id ∧ record.id ≤ 65535 ∧
      operation.id = record.id ∧ normalizeKind record = .ok operation.kind) records operations

theorem mapError_eq_ok {Failure Other Result : Type} {attempt : Except Failure Result}
    {change : Failure → Other} {result : Result} :
    attempt.mapError change = .ok result ↔ attempt = .ok result := by
  cases attempt with
  | error failure => simp [Except.mapError]
  | ok found => simp [Except.mapError]

variable {operations : List Operation}

/-- A list of records is accepted when every record is and no number repeats. -/
theorem normalizeFrom_eq_ok {records : List OperationRecord} {ids : List ℤ} {index : ℕ} :
    normalizeFrom ids index records = .ok operations ↔
      Normalized records operations ∧ ∀ record ∈ records, record.id ∉ ids := by
  induction records generalizing ids index operations with
  | nil =>
    constructor
    · intro hok
      cases hok
      exact ⟨⟨nodup_nil, .nil⟩, by simp⟩
    · rintro ⟨⟨-, hforall⟩, -⟩
      cases hforall
      rfl
  | cons record later ih =>
    rw [normalizeFrom]
    by_cases hrange : 1 ≤ record.id ∧ record.id ≤ 65535
    · by_cases hseen : record.id ∈ ids
      · rw [if_neg (not_not.mpr hrange), if_pos hseen]
        constructor
        · intro hok
          cases hok
        · rintro ⟨-, hfresh⟩
          exact absurd hseen (hfresh record mem_cons_self)
      · rw [if_neg (not_not.mpr hrange), if_neg hseen]
        rw [Fallible.bind_eq_ok]
        constructor
        · rintro ⟨kind, hkind, hafter⟩
          obtain ⟨rest, hrest, hdone⟩ := Fallible.bind_eq_ok.mp hafter
          cases hdone
          obtain ⟨⟨hnodup, hforall⟩, hfresh⟩ := ih.mp hrest
          refine ⟨⟨?_, .cons ⟨hrange.1, hrange.2, rfl, mapError_eq_ok.mp hkind⟩ hforall⟩, ?_⟩
          · rw [map_cons, nodup_cons]
            refine ⟨fun hmem => ?_, hnodup⟩
            obtain ⟨other, hother, hsame⟩ := mem_map.mp hmem
            refine hfresh other hother ?_
            rw [hsame]
            exact mem_cons_self
          · exact forall_mem_cons.mpr ⟨hseen, fun other hother hmem =>
              hfresh other hother (mem_cons_of_mem _ hmem)⟩
        · rintro ⟨⟨hnodup, hforall⟩, hfresh⟩
          cases hforall with
          | @cons _ operation _ rest hrecord hlater =>
            obtain ⟨-, -, hid, hkind⟩ := hrecord
            obtain ⟨hnew, hrestNodup⟩ := nodup_cons.mp hnodup
            refine ⟨operation.kind, mapError_eq_ok.mpr hkind, ?_⟩
            rw [Fallible.bind_eq_ok]
            refine ⟨rest, ih.mpr ⟨⟨hrestNodup, hlater⟩, fun other hother hmem => ?_⟩, ?_⟩
            · obtain hsame | hold := mem_cons.mp hmem
              · exact hnew (hsame ▸ mem_map_of_mem hother)
              · exact hfresh other (mem_cons_of_mem _ hother) hold
            · rw [← hid]
              rfl
    · rw [if_pos hrange]
      constructor
      · intro hok
        cases hok
      · rintro ⟨⟨-, hforall⟩, -⟩
        cases hforall with
        | cons hrecord _ => exact absurd ⟨hrecord.1, hrecord.2.1⟩ hrange

theorem Normalized.ids {records : List OperationRecord}
    (hnormalized : Normalized records operations) : (operations.map Operation.id).Nodup := by
  obtain ⟨hnodup, hforall⟩ := hnormalized
  have hsame : operations.map Operation.id = records.map OperationRecord.id := by
    clear hnodup
    induction hforall with
    | nil => rfl
    | cons hrecord _ ih => rw [map_cons, map_cons, ih, hrecord.2.2.1]
  rw [hsame]
  exact hnodup

variable {records others : List OperationRecord}

/-- The operations of rearranged records are rearranged. -/
theorem Normalized.perm (hnormalized : Normalized records operations)
    (hperm : records.Perm others) :
    ∃ rearranged, Normalized others rearranged ∧ operations.Perm rearranged := by
  obtain ⟨hnodup, hforall⟩ := hnormalized
  obtain ⟨rearranged, hothers, hrearranged⟩ :=
    List.perm_comp_forall₂ hperm.symm hforall
  exact ⟨rearranged, ⟨(hperm.map _).nodup_iff.mp hnodup, hothers⟩, hrearranged.symm⟩

theorem sortOperations_perm {operations others : List Operation}
    (hnodup : (operations.map Operation.id).Nodup) (hperm : operations.Perm others) :
    sortOperations operations = sortOperations others := by
  have hsorted : ∀ list : List Operation,
      (sortOperations list).Pairwise fun left right => left.id ≤ right.id :=
    fun list => pairwise_insertionSort _ list
  have hsame : (sortOperations operations).Perm (sortOperations others) :=
    (perm_insertionSort _ _).trans (hperm.trans (perm_insertionSort _ _).symm)
  refine hsame.eq_of_pairwise (fun left right hleft hright hle hge => ?_) (hsorted _) (hsorted _)
  have hmemLeft : left ∈ operations := (perm_insertionSort _ _).mem_iff.mp hleft
  have hmemRight : right ∈ operations :=
    hperm.mem_iff.mpr ((perm_insertionSort _ _).mem_iff.mp hright)
  exact inj_on_of_nodup_map hnodup hmemLeft hmemRight (le_antisymm hle hge)

/-- The order of the records does not matter. -/
theorem normalizeOperations_perm (hok : normalizeOperations records = .ok operations)
    (hperm : records.Perm others) : normalizeOperations others = .ok operations := by
  rw [normalizeOperations] at hok ⊢
  cases hfrom : normalizeFrom [] 0 records with
  | error message =>
    rw [hfrom] at hok
    cases hok
  | ok found =>
    rw [hfrom] at hok
    cases hok
    obtain ⟨hnormalized, -⟩ := normalizeFrom_eq_ok.mp hfrom
    obtain ⟨rearranged, hothers, hrearranged⟩ := hnormalized.perm hperm
    have hagain : normalizeFrom [] 0 others = .ok rearranged :=
      normalizeFrom_eq_ok.mpr ⟨hothers, by simp⟩
    rw [hagain, Except.map, sortOperations_perm hnormalized.ids hrearranged]

end Order

end ConvexWasm.Guest
