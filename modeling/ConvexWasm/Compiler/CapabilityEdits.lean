import ConvexWasm.Core.Fallible
import ConvexWasm.Core.KeySort
import ConvexWasm.Core.Utf8Text

/-!
# Source edits that keep the layout

A proved branch is edited in place: the replacement is written over the start
of a range, the rest of the range becomes blank, and the line breaks stay.  So
no offset of the source moves.
-/

namespace ConvexWasm.Compiler.CapabilityEdits

open Fallible List Utf8Text

@[ext]
structure SourceRange where
  start : ℕ
  stop : ℕ
  deriving DecidableEq

@[ext]
structure CapabilitySourceEdit extends SourceRange where
  replacement : String
  deriving DecidableEq

def SourceRange.key (range : SourceRange) : ℕ ×ₗ ℕ := toLex (range.start, range.stop)

inductive CapabilityBranchKind
  | ifStatement
  | conditionalExpression
  deriving DecidableEq

/-- What the edits of a branch depend on. -/
structure CapabilityBranchCandidate where
  kind : CapabilityBranchKind
  stop : ℕ
  test : SourceRange
  consequent : SourceRange
  consequentIsAbrupt : Bool
  alternate : Option SourceRange
  alternateErasable : Bool
  trailing : Option SourceRange
  trailingErasable : Bool
  deriving DecidableEq

def ordered (edits : List CapabilitySourceEdit) : List CapabilitySourceEdit :=
  edits.insertionSort fun left right => left.key ≤ right.key

/-- Each range ends before the next one starts. -/
def checkDisjoint : List SourceRange → Except String Unit
  | first :: second :: rest =>
    if first.stop ≤ second.start then checkDisjoint (second :: rest)
    else .error "capability source edits overlap"
  | _ => .ok ()

/-- The edits of a branch that is erased with its test. -/
def erasedEdits (branch : CapabilityBranchCandidate) : Except String (List CapabilitySourceEdit) :=
  match branch.kind, branch.alternate with
  | .ifStatement, some _ =>
    if branch.alternateErasable then .ok [⟨⟨branch.consequent.stop, branch.stop⟩, ""⟩]
    else .error "proved capability branch alternate is not safely erasable"
  | .ifStatement, none =>
    match branch.trailing with
    | none => .ok []
    | some trailing =>
      if !branch.consequentIsAbrupt then .ok []
      else if branch.trailingErasable then .ok [⟨trailing, ""⟩]
      else .error "proved capability branch tail is not safely erasable"
  | .conditionalExpression, none => .error "conditional capability branch has no alternate"
  | .conditionalExpression, some alternate =>
    if branch.alternateErasable then .ok [⟨alternate, "0"⟩]
    else .error "proved capability conditional alternate is not safely erasable"

def editsForProvedTrue (branch : CapabilityBranchCandidate) :
    Except String (List CapabilitySourceEdit) := do
  let erased ← erasedEdits branch
  let edits := ordered (⟨branch.test, "true"⟩ :: erased)
  checkDisjoint (edits.map (·.toSourceRange))
  return edits

def isLineBreak (byte : UInt8) : Bool := byte == 13 || byte == 10

/-- What becomes of a byte that is not written over. -/
def blank (byte : UInt8) : UInt8 := if isLineBreak byte then byte else 32

def applyToken (bytes : List UInt8) (replacement : String) : Except String (List UInt8) :=
  if (bytesOf replacement).length ≤ bytes.findIdx isLineBreak then
    .ok (bytesOf replacement ++ (bytes.map blank).drop (bytesOf replacement).length)
  else .error "capability source edit replacement does not fit before the first newline"

def checkRange (bytes : List UInt8) (range : SourceRange) : Except String Unit :=
  if ¬range.start < range.stop then .error "capability source edit is empty"
  else if ¬range.stop ≤ bytes.length then .error "capability source edit is out of range"
  else if !(isCharBoundary bytes range.start && isCharBoundary bytes range.stop) then
    .error "capability source edit splits a UTF-8 code point"
  else .ok ()

def applyEdit (output : List UInt8) (edit : CapabilitySourceEdit) : Except String (List UInt8) := do
  let token ← applyToken (between output edit.start edit.stop) edit.replacement
  return output.take edit.start ++ token ++ output.drop edit.stop

def applySourceEdits (source : String) (edits : List CapabilitySourceEdit) :
    Except String String := do
  ((ordered edits).map (·.toSourceRange)).forM (checkRange (bytesOf source))
  checkDisjoint ((ordered edits).map (·.toSourceRange))
  let output ← (ordered edits).foldlM applyEdit (bytesOf source)
  match fromUtf8 output with
  | some result => .ok result
  | none => .error "invalid utf-8 sequence"

section Tokens

variable {bytes token : List UInt8} {replacement : String}

/-- The replacement fits before the first line break. -/
def Fits (bytes : List UInt8) (replacement : String) : Prop :=
  (bytesOf replacement).length ≤ bytes.findIdx isLineBreak

/-- What a range reads after its edit. -/
def written (bytes : List UInt8) (replacement : String) : List UInt8 :=
  bytesOf replacement ++ (bytes.map blank).drop (bytesOf replacement).length

theorem applyToken_eq_ok :
    applyToken bytes replacement = .ok token ↔
      Fits bytes replacement ∧ written bytes replacement = token := by
  rw [applyToken]
  split_ifs with hfits
  · exact ⟨fun hok => ⟨hfits, Except.ok.inj hok⟩, fun hok => congrArg Except.ok hok.2⟩
  · exact ⟨fun hok => (nomatch hok), fun hok => absurd hok.1 hfits⟩

theorem length_written (hfits : Fits bytes replacement) :
    (written bytes replacement).length = bytes.length := by
  have hle : (bytesOf replacement).length ≤ bytes.length := hfits.trans findIdx_le_length
  rw [written, length_append, length_drop, length_map]
  omega

theorem blank_ascii (byte : UInt8) : blank byte < 128 := by
  rw [blank]
  split_ifs with hbreak
  · rw [isLineBreak, Bool.or_eq_true, beq_iff_eq, beq_iff_eq] at hbreak
    obtain rfl | rfl := hbreak
    · decide
    · decide
  · decide

theorem utf8_written (bytes : List UInt8) (replacement : String) :
    Utf8 (written bytes replacement) := by
  apply (utf8_bytesOf replacement).append
  apply utf8_of_ascii
  intro byte hbyte
  obtain ⟨old, -, rfl⟩ := mem_map.mp (mem_of_mem_drop hbyte)
  exact blank_ascii old

/-- A replacement on one line moves no line break. -/
theorem lineBreak_written (hfits : Fits bytes replacement)
    (hplain : ∀ byte ∈ bytesOf replacement, isLineBreak byte = false) {offset : ℕ} {byte : UInt8}
    (hbreak : isLineBreak byte = true) :
    (written bytes replacement)[offset]? = some byte ↔ bytes[offset]? = some byte := by
  by_cases hreplaced : offset < (bytesOf replacement).length
  · have hfirst : offset < bytes.findIdx isLineBreak := hreplaced.trans_le hfits
    have hlt : offset < bytes.length := hfirst.trans_le findIdx_le_length
    rw [written, getElem?_append_left hreplaced]
    apply iff_of_false
    · intro hfound
      rw [hplain byte (mem_of_getElem? hfound)] at hbreak
      cases hbreak
    · intro hfound
      have hnone := not_of_lt_findIdx hfirst
      rw [getElem?_eq_getElem hlt, Option.some.injEq] at hfound
      rw [hfound, hbreak] at hnone
      cases hnone
  · rw [written, getElem?_append_right (not_lt.mp hreplaced), getElem?_drop,
      Nat.add_sub_cancel' (not_lt.mp hreplaced), getElem?_map, Option.map_eq_some_iff]
    constructor
    · rintro ⟨old, hold, rfl⟩
      rw [blank] at hbreak ⊢
      split_ifs at hbreak ⊢ with hsame
      · exact hold
      · cases hbreak
    · intro hold
      exact ⟨byte, hold, if_pos hbreak⟩

end Tokens

section Splices

variable {source next output : List UInt8} {start stop : ℕ}

theorem between_congr
    (hsame : ∀ offset, start ≤ offset → offset < stop → next[offset]? = source[offset]?) :
    between next start stop = between source start stop := by
  apply ext_getElem?
  intro offset
  rw [between, between, getElem?_drop, getElem?_drop, getElem?_take, getElem?_take]
  split_ifs with hlt
  · exact hsame (start + offset) (Nat.le_add_right start offset) hlt
  · rfl

theorem isCharBoundary_congr {offset : ℕ} (hlength : next.length = source.length)
    (hsame : next[offset]? = source[offset]?) :
    isCharBoundary next offset = isCharBoundary source offset := by
  rw [isCharBoundary, isCharBoundary, hlength, hsame]

/-- The range lies in the source, between characters, and is not empty. -/
def Placed (source : List UInt8) (range : SourceRange) : Prop :=
  range.start < range.stop ∧ range.stop ≤ source.length ∧
    isCharBoundary source range.start = true ∧ isCharBoundary source range.stop = true

theorem checkRange_eq_ok {range : SourceRange} :
    checkRange source range = .ok () ↔ Placed source range := by
  rw [checkRange, Placed]
  by_cases hstart : range.start < range.stop
  · by_cases hstop : range.stop ≤ source.length
    · simp [hstart, hstop]
    · simp [hstart, hstop]
  · simp [hstart]

/-- What edits make of a source: it reads as written in their ranges and as before elsewhere. -/
structure Edited (source : List UInt8) (edits : List CapabilitySourceEdit)
    (output : List UInt8) : Prop where
  length : output.length = source.length
  outside : ∀ offset, (∀ edit ∈ edits, offset < edit.start ∨ edit.stop ≤ offset) →
    output[offset]? = source[offset]?
  inside : ∀ edit ∈ edits, between output edit.start edit.stop =
    written (between source edit.start edit.stop) edit.replacement

variable {edit : CapabilitySourceEdit} {rest : List CapabilitySourceEdit}

theorem edited_applyEdit (hplaced : Placed source edit.toSourceRange)
    (hfits : Fits (between source edit.start edit.stop) edit.replacement) :
    Edited source [edit] (source.take edit.start ++
      written (between source edit.start edit.stop) edit.replacement ++
        source.drop edit.stop) := by
  obtain ⟨hlt, hle, -, -⟩ := hplaced
  have hstart : (source.take edit.start).length = edit.start := length_take_of_le (by omega)
  have hwritten : (written (between source edit.start edit.stop) edit.replacement).length =
      edit.stop - edit.start := by
    rw [length_written hfits, between, length_drop, length_take, Nat.min_eq_left hle]
  have hfront : (source.take edit.start ++
      written (between source edit.start edit.stop) edit.replacement).length = edit.stop := by
    rw [length_append, hstart, hwritten]
    omega
  constructor
  · rw [length_append, hfront, length_drop]
    omega
  · intro offset hoffset
    obtain hbefore | hafter := hoffset edit mem_cons_self
    · rw [append_assoc, getElem?_append_left (by omega), getElem?_take_of_lt hbefore]
    · rw [getElem?_append_right (by omega), hfront, getElem?_drop, Nat.add_sub_cancel' hafter]
  · intro other hother
    obtain rfl := mem_singleton.mp hother
    rw [between, take_left' hfront, drop_left' hstart]

/-- Edits that end before the others start come first. -/
theorem Edited.cons (hfirst : Edited source [edit] next) (hrest : Edited next rest output)
    (hordered : ∀ later ∈ rest, edit.stop ≤ later.start) : Edited source (edit :: rest) output where
  length := hrest.length.trans hfirst.length
  outside offset hoffset := by
    rw [forall_mem_cons] at hoffset
    rw [hrest.outside offset hoffset.2]
    exact hfirst.outside offset (forall_mem_singleton.mpr hoffset.1)
  inside other hother := by
    obtain rfl | hlater := mem_cons.mp hother
    · rw [← hfirst.inside other mem_cons_self]
      apply between_congr
      intro offset _ hlt
      apply hrest.outside offset
      intro later hlater
      exact .inl (hlt.trans_le (hordered later hlater))
    · rw [hrest.inside other hlater]
      congr 1
      apply between_congr
      intro offset hle _
      apply hfirst.outside offset
      rw [forall_mem_singleton]
      exact .inr ((hordered other hlater).trans hle)

theorem Edited.placed (hfirst : Edited source [edit] next) {range : SourceRange}
    (hordered : edit.stop ≤ range.start) (hplaced : Placed source range) : Placed next range := by
  obtain ⟨hlt, hle, hstart, hstop⟩ := hplaced
  have hboundary : ∀ offset, edit.stop ≤ offset →
      isCharBoundary next offset = isCharBoundary source offset := fun offset hafter =>
    isCharBoundary_congr hfirst.length
      (hfirst.outside offset (forall_mem_singleton.mpr (.inr hafter)))
  refine ⟨hlt, hfirst.length ▸ hle, ?_, ?_⟩
  · rwa [hboundary range.start hordered]
  · rwa [hboundary range.stop (by omega)]

theorem Edited.between_eq (hfirst : Edited source [edit] next)
    (hordered : edit.stop ≤ start) : between next start stop = between source start stop :=
  between_congr fun offset hle _ =>
    hfirst.outside offset (forall_mem_singleton.mpr (.inr (hordered.trans hle)))

/-- Edits in order are applied exactly when each fits what the source has in its range. -/
theorem foldlM_applyEdit {edits : List CapabilitySourceEdit} (hutf8 : Utf8 source)
    (hplaced : ∀ edit ∈ edits, Placed source edit.toSourceRange)
    (hordered : edits.Pairwise fun first second => first.stop ≤ second.start) :
    ((∃ output, edits.foldlM applyEdit source = .ok output) ↔
      ∀ edit ∈ edits, Fits (between source edit.start edit.stop) edit.replacement) ∧
    ∀ output, edits.foldlM applyEdit source = .ok output →
      Edited source edits output ∧ Utf8 output := by
  induction edits generalizing source with
  | nil =>
    refine ⟨⟨fun _ => by simp, fun _ => ⟨source, rfl⟩⟩, fun output hok => ?_⟩
    cases hok
    exact ⟨⟨rfl, fun _ _ => rfl, by simp⟩, hutf8⟩
  | cons edit rest ih =>
    rw [forall_mem_cons] at hplaced
    rw [pairwise_cons] at hordered
    rw [foldlM_cons, forall_mem_cons]
    by_cases hfits : Fits (between source edit.start edit.stop) edit.replacement
    · set next := source.take edit.start ++
        written (between source edit.start edit.stop) edit.replacement ++ source.drop edit.stop
      have happly : applyEdit source edit = .ok next := by
        rw [applyEdit, applyToken_eq_ok.mpr ⟨hfits, rfl⟩]
        rfl
      have hfirst := edited_applyEdit hplaced.1 hfits
      have hnext : Utf8 next :=
        ((hutf8.split hplaced.1.2.2.1).1.append (utf8_written _ _)).append
          (hutf8.split hplaced.1.2.2.2).2
      have hlater := ih hnext (fun later hmem =>
        hfirst.placed (hordered.1 later hmem) (hplaced.2 later hmem)) hordered.2
      rw [happly, ok_bind]
      constructor
      · rw [hlater.1]
        simp only [hfits, true_and]
        apply forall₂_congr
        intro later hmem
        rw [hfirst.between_eq (hordered.1 later hmem)]
      · intro output hok
        obtain ⟨hedited, hvalid⟩ := hlater.2 output hok
        exact ⟨hfirst.cons hedited hordered.1, hvalid⟩
    · have hfails : ∀ output, applyEdit source edit >>= rest.foldlM applyEdit ≠ .ok output := by
        intro output hok
        obtain ⟨next, hnext, -⟩ := bind_eq_ok.mp hok
        obtain ⟨token, htoken, -⟩ := bind_eq_ok.mp hnext
        exact hfits (applyToken_eq_ok.mp htoken).1
      exact ⟨iff_of_false (fun ⟨output, hok⟩ => hfails output hok) fun hall => hfits hall.1,
        fun output hok => absurd hok (hfails output)⟩

end Splices

section Application

variable {source result : String} {edits edits' : List CapabilitySourceEdit}

/-- The ranges share no offset. -/
def Apart (first second : SourceRange) : Prop :=
  first.stop ≤ second.start ∨ second.stop ≤ first.start

theorem checkDisjoint_eq_ok {ranges : List SourceRange}
    (hranges : ∀ range ∈ ranges, range.start < range.stop) :
    checkDisjoint ranges = .ok () ↔
      ranges.Pairwise fun first second => first.stop ≤ second.start := by
  induction ranges with
  | nil => exact iff_of_true rfl Pairwise.nil
  | cons first rest ih =>
    cases rest with
    | nil => exact iff_of_true rfl (pairwise_singleton _ _)
    | cons second rest =>
      rw [forall_mem_cons] at hranges
      rw [checkDisjoint, pairwise_cons]
      split_ifs with hle
      · rw [ih hranges.2]
        refine ⟨fun hpairwise => ⟨?_, hpairwise⟩, And.right⟩
        rw [forall_mem_cons]
        refine ⟨hle, fun later hlater => ?_⟩
        have hnext := (pairwise_cons.mp hpairwise).1 later hlater
        have hsecond := hranges.2 second mem_cons_self
        omega
      · exact ⟨fun hok => (nomatch hok), fun hpairwise =>
          absurd (hpairwise.1 second mem_cons_self) hle⟩

theorem Apart.symm {first second : SourceRange} (happart : Apart first second) :
    Apart second first :=
  Or.symm happart

theorem perm_ordered (edits : List CapabilitySourceEdit) : (ordered edits).Perm edits :=
  perm_insertionSort _ edits

/-- Sorted edits are apart exactly when each ends before the later ones start. -/
theorem pairwise_ordered_iff (hranges : ∀ edit ∈ edits, edit.start < edit.stop) :
    ((ordered edits).Pairwise fun first second => first.stop ≤ second.start) ↔
      edits.Pairwise fun first second => Apart first.toSourceRange second.toSourceRange := by
  rw [← (perm_ordered edits).pairwise_iff fun happart => happart.symm]
  constructor
  · exact fun hpairwise => hpairwise.imp fun hle => .inl hle
  · intro hpairwise
    have hsorted := KeySort.sorted_by_key (fun edit => edit.toSourceRange.key) edits
    apply (hsorted.and hpairwise).imp_of_mem
    intro first second hfirst hsecond ⟨hkey, happart⟩
    obtain hle | hle := happart
    · exact hle
    · have hstart : first.start ≤ second.start := by
        obtain hlt | ⟨heq, -⟩ := Prod.Lex.le_iff.mp hkey
        · exact hlt.le
        · exact heq.le
      have hrange := hranges second ((perm_ordered edits).mem_iff.mp hsecond)
      omega

/-- Every edit stands in its place and fits, and no two of them meet. -/
structure Accepted (source : List UInt8) (edits : List CapabilitySourceEdit) : Prop where
  placed : ∀ edit ∈ edits, Placed source edit.toSourceRange
  apart : edits.Pairwise fun first second => Apart first.toSourceRange second.toSourceRange
  fits : ∀ edit ∈ edits, Fits (between source edit.start edit.stop) edit.replacement

theorem forM_eq_ok {Item : Type} {check : Item → Except String Unit} {items : List Item} :
    items.forM check = .ok () ↔ ∀ item ∈ items, check item = .ok () := by
  induction items with
  | nil => exact iff_of_true rfl (by simp)
  | cons item rest ih =>
    rw [forall_mem_cons, ← ih]
    change (check item >>= fun _ => rest.forM check) = .ok () ↔ _
    constructor
    · intro hok
      obtain ⟨⟨⟩, hitem, hrest⟩ := bind_eq_ok.mp hok
      exact ⟨hitem, hrest⟩
    · rintro ⟨hitem, hrest⟩
      rw [hitem, ok_bind, hrest]

theorem edited_perm {output : List UInt8} {bytes : List UInt8} (hperm : edits.Perm edits')
    (hedited : Edited bytes edits output) : Edited bytes edits' output where
  length := hedited.length
  outside offset hoffset := hedited.outside offset fun edit hedit =>
    hoffset edit (hperm.mem_iff.mp hedit)
  inside edit hedit := hedited.inside edit (hperm.mem_iff.mpr hedit)

/-- What the checks of the ranges ask for. -/
theorem checks_eq_ok (source : String) (edits : List CapabilitySourceEdit) :
    (((ordered edits).map (·.toSourceRange)).forM (checkRange (bytesOf source)) = .ok () ∧
      checkDisjoint ((ordered edits).map (·.toSourceRange)) = .ok ()) ↔
      (∀ edit ∈ edits, Placed (bytesOf source) edit.toSourceRange) ∧
        edits.Pairwise fun first second =>
          Apart first.toSourceRange second.toSourceRange := by
  have hmem : ∀ edit, edit ∈ ordered edits ↔ edit ∈ edits := fun edit =>
    (perm_ordered edits).mem_iff
  rw [forM_eq_ok, forall_mem_map]
  simp only [hmem, checkRange_eq_ok]
  apply and_congr_right
  intro hplaced
  rw [checkDisjoint_eq_ok, pairwise_map]
  · exact pairwise_ordered_iff fun edit hedit => (hplaced edit hedit).1
  · intro range hrange
    obtain ⟨edit, hedit, rfl⟩ := mem_map.mp hrange
    exact (hplaced edit ((hmem edit).mp hedit)).1

/-- The code accepts the edits that it should, and applies each of them. -/
theorem applySourceEdits_spec (source : String) (edits : List CapabilitySourceEdit) :
    ((∃ result, applySourceEdits source edits = .ok result) ↔
      Accepted (bytesOf source) edits) ∧
    ∀ result, applySourceEdits source edits = .ok result →
      Edited (bytesOf source) edits (bytesOf result) := by
  have hmem : ∀ edit, edit ∈ ordered edits ↔ edit ∈ edits := fun edit =>
    (perm_ordered edits).mem_iff
  have happlied := fun (hplaced : ∀ edit ∈ edits, Placed (bytesOf source) edit.toSourceRange)
      (happart : edits.Pairwise fun first second =>
        Apart first.toSourceRange second.toSourceRange) =>
    foldlM_applyEdit (utf8_bytesOf source)
      (fun edit hedit => hplaced edit ((hmem edit).mp hedit))
      ((pairwise_ordered_iff fun edit hedit => (hplaced edit hedit).1).mpr happart)
  have hsplit : ∀ result, applySourceEdits source edits = .ok result ↔
      (∀ edit ∈ edits, Placed (bytesOf source) edit.toSourceRange) ∧
      (edits.Pairwise fun first second => Apart first.toSourceRange second.toSourceRange) ∧
      (ordered edits).foldlM applyEdit (bytesOf source) = .ok (bytesOf result) := by
    intro result
    constructor
    · intro hok
      obtain ⟨⟨⟩, hchecked, hok⟩ := bind_eq_ok.mp hok
      obtain ⟨⟨⟩, hapart, hok⟩ := bind_eq_ok.mp hok
      obtain ⟨output, hfold, hok⟩ := bind_eq_ok.mp hok
      obtain ⟨hplaced, happart⟩ := (checks_eq_ok source edits).mp ⟨hchecked, hapart⟩
      refine ⟨hplaced, happart, hfold.trans (congrArg Except.ok ?_)⟩
      cases hresult : fromUtf8 output with
      | none => simp [hresult] at hok
      | some text =>
        simp only [hresult, Except.ok.injEq] at hok
        rw [← hok]
        exact (fromUtf8_eq_some.mp hresult).symm
    · rintro ⟨hplaced, happart, hfold⟩
      obtain ⟨hchecked, hapart⟩ := (checks_eq_ok source edits).mpr ⟨hplaced, happart⟩
      refine bind_eq_ok.mpr ⟨(), hchecked, bind_eq_ok.mpr ⟨(), hapart, ?_⟩⟩
      refine bind_eq_ok.mpr ⟨_, hfold, ?_⟩
      rw [fromUtf8_eq_some.mpr rfl]
  constructor
  · constructor
    · rintro ⟨result, hok⟩
      obtain ⟨hplaced, happart, hfold⟩ := (hsplit result).mp hok
      refine ⟨hplaced, happart, fun edit hedit => ?_⟩
      exact (happlied hplaced happart).1.mp ⟨_, hfold⟩ edit ((hmem edit).mpr hedit)
    · rintro ⟨hplaced, happart, hfits⟩
      obtain ⟨output, hfold⟩ := (happlied hplaced happart).1.mpr fun edit hedit =>
        hfits edit ((hmem edit).mp hedit)
      obtain ⟨result, hresult⟩ := exists_fromUtf8 ((happlied hplaced happart).2 output hfold).2
      obtain rfl := fromUtf8_eq_some.mp hresult
      exact ⟨result, (hsplit result).mpr ⟨hplaced, happart, hfold⟩⟩
  · intro result hok
    obtain ⟨hplaced, happart, hfold⟩ := (hsplit result).mp hok
    exact edited_perm (perm_ordered edits) ((happlied hplaced happart).2 _ hfold).1

theorem key_injective {first second : SourceRange} (hkey : first.key = second.key) :
    first = second := by
  cases first
  cases second
  simpa [SourceRange.key] using hkey

/-- The edits may be listed in any order. -/
theorem applySourceEdits_perm (source : String) (hperm : edits'.Perm edits) :
    applySourceEdits source edits' = applySourceEdits source edits := by
  have hranges : (ordered edits').map (·.toSourceRange) =
      (ordered edits).map (·.toSourceRange) := by
    have hmap : ∀ items : List CapabilitySourceEdit, (ordered items).map (·.toSourceRange) =
        (items.map (·.toSourceRange)).insertionSort fun left right => left.key ≤ right.key :=
      fun items => map_insertionSort _ _ _ _ fun _ _ _ _ => Iff.rfl
    rw [hmap, hmap]
    exact KeySort.insertionSort_eq_of_perm _ (hperm.map _) fun _ _ _ _ => key_injective
  change ((ordered edits').map (·.toSourceRange)).forM (checkRange (bytesOf source)) >>= _ =
    ((ordered edits).map (·.toSourceRange)).forM (checkRange (bytesOf source)) >>= _
  rw [hranges]
  cases hchecked : ((ordered edits).map (·.toSourceRange)).forM (checkRange (bytesOf source)) with
  | error error => rfl
  | ok checked =>
    cases hapart : checkDisjoint ((ordered edits).map (·.toSourceRange)) with
    | error error => rfl
    | ok apart =>
      obtain ⟨hplaced, happart⟩ := (checks_eq_ok source edits).mp ⟨hchecked, hapart⟩
      have hordered : ordered edits' = ordered edits := by
        apply KeySort.insertionSort_eq_of_perm (fun edit => edit.toSourceRange.key) hperm
        intro first hfirst second hsecond hkey
        by_contra hne
        have hsymm : Std.Symm fun first second : CapabilitySourceEdit =>
            Apart first.toSourceRange second.toSourceRange := ⟨fun _ _ happart => happart.symm⟩
        have hfirst := hperm.mem_iff.mp hfirst
        have hmeet := happart.forall hfirst (hperm.mem_iff.mp hsecond) hne
        have hrange := (hplaced first hfirst).1
        rw [← key_injective hkey] at hmeet
        exact hmeet.elim (not_le.mpr hrange) (not_le.mpr hrange)
      rw [hordered]

/-- The edits of a proved branch put no line break in. -/
theorem plain_of_editsForProvedTrue {branch : CapabilityBranchCandidate}
    (hok : editsForProvedTrue branch = .ok edits) :
    ∀ edit ∈ edits, ∀ byte ∈ bytesOf edit.replacement, isLineBreak byte = false := by
  obtain ⟨erased, herased, hok⟩ := bind_eq_ok.mp hok
  obtain ⟨⟨⟩, -, hok⟩ := bind_eq_ok.mp hok
  cases hok
  have hplain : ∀ replacement ∈ ["true", "", "0"], ∀ byte ∈ bytesOf replacement,
      isLineBreak byte = false := by decide +kernel
  intro edit hedit
  apply hplain
  obtain rfl | hmem := mem_cons.mp ((perm_ordered _).mem_iff.mp hedit)
  · exact mem_cons_self
  · unfold erasedEdits at herased
    repeat' split at herased
    all_goals cases herased <;> simp_all

end Application

end ConvexWasm.Compiler.CapabilityEdits
