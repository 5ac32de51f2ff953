import Mathlib

/-!
# Base64

Three bytes are four symbols; a shorter end is padded.  The decoder is the
forgiving one: it steps over white space, needs no padding and drops the bits
that the last symbol has left over, so that many texts stand for the same
bytes, one of which the encoder writes.
-/

namespace ConvexWasm.Base64

open List

/-- The code unit of a sextet. -/
def symbol (sextet : ℕ) : ℕ :=
  if sextet < 26 then 65 + sextet
  else if sextet < 52 then 71 + sextet
  else if sextet < 62 then sextet - 4
  else if sextet = 62 then 43
  else 47

def sextet (unit : ℕ) : Option ℕ :=
  if 65 ≤ unit ∧ unit ≤ 90 then some (unit - 65)
  else if 97 ≤ unit ∧ unit ≤ 122 then some (unit - 71)
  else if 48 ≤ unit ∧ unit ≤ 57 then some (unit + 4)
  else if unit = 43 then some 62
  else if unit = 47 then some 63
  else none

def padding : ℕ := 61

def isWhiteSpace (unit : ℕ) : Bool :=
  unit == 9 || unit == 10 || unit == 12 || unit == 13 || unit == 32

/-- The sextets of bytes, the last one filled up with zeros. -/
def sextets : List UInt8 → List ℕ
  | [] => []
  | [first] => [first.toNat / 4, first.toNat % 4 * 16]
  | [first, second] =>
    [first.toNat / 4, first.toNat % 4 * 16 + second.toNat / 16, second.toNat % 16 * 4]
  | first :: second :: third :: rest =>
    first.toNat / 4 :: (first.toNat % 4 * 16 + second.toNat / 16) ::
      (second.toNat % 16 * 4 + third.toNat / 64) :: third.toNat % 64 :: sextets rest

variable (bytes : List UInt8)

def missing : ℕ :=
  (3 - bytes.length % 3) % 3

def encode : List ℕ :=
  (sextets bytes).map symbol ++ List.replicate (missing bytes) padding

/-- The bytes of sextets; bits left over are dropped. -/
def joinSextets : List ℕ → Option (List UInt8)
  | [] => some []
  | [_] => none
  | [first, second] => some [UInt8.ofNat (first * 4 + second / 16)]
  | [first, second, third] =>
    some [UInt8.ofNat (first * 4 + second / 16), UInt8.ofNat (second % 16 * 16 + third / 4)]
  | first :: second :: third :: fourth :: rest =>
    (joinSextets rest).map fun bytes =>
      UInt8.ofNat (first * 4 + second / 16) :: UInt8.ofNat (second % 16 * 16 + third / 4) ::
        UInt8.ofNat (third % 4 * 64 + fourth) :: bytes

/-- At most two pads are taken off the end of a text of full groups. -/
def trimPadding (text : List ℕ) : List ℕ :=
  if text.length % 4 = 0 then
    if text.drop (text.length - 2) = [padding, padding] then text.dropLast.dropLast
    else if text.getLast? = some padding then text.dropLast
    else text
  else text

def decode (text : List ℕ) : Option (List UInt8) := do
  let sextets ← (trimPadding (text.filter fun unit => !isWhiteSpace unit)).mapM sextet
  joinSextets sextets

variable {value : ℕ}

theorem sextet_symbol (hvalue : value < 64) : sextet (symbol value) = some value := by
  interval_cases value <;> rfl

theorem symbol_ne_padding (hvalue : value < 64) : symbol value ≠ padding := by
  interval_cases value <;> decide

theorem isWhiteSpace_symbol (hvalue : value < 64) : isWhiteSpace (symbol value) = false := by
  interval_cases value <;> rfl

theorem sextets_lt : ∀ value ∈ sextets bytes, value < 64 := by
  induction bytes using sextets.induct with
  | case1 => simp [sextets]
  | case2 first =>
    have hfirst := first.toNat_lt
    simp [sextets]
    omega
  | case3 first second =>
    have hfirst := first.toNat_lt
    have hsecond := second.toNat_lt
    simp [sextets]
    omega
  | case4 first second third rest ih =>
    have hfirst := first.toNat_lt
    have hsecond := second.toNat_lt
    have hthird := third.toNat_lt
    simp only [sextets, forall_mem_cons]
    refine ⟨by omega, by omega, by omega, by omega, ih⟩

theorem length_sextets : ((sextets bytes).length + missing bytes) % 4 = 0 := by
  induction bytes using sextets.induct with
  | case1 => rfl
  | case2 first => simp [sextets, missing]
  | case3 first second => simp [sextets, missing]
  | case4 first second third rest ih =>
    simp only [sextets, missing, length_cons] at ih ⊢
    omega

theorem ofNat_toNat_eq {byte : UInt8} {value : ℕ} (hvalue : value = byte.toNat) :
    UInt8.ofNat value = byte := by
  rw [hvalue, UInt8.ofNat_toNat]

theorem joinSextets_sextets : joinSextets (sextets bytes) = some bytes := by
  induction bytes using sextets.induct with
  | case1 => rfl
  | case2 first =>
    have hbyte : UInt8.ofNat (first.toNat / 4 * 4 + first.toNat % 4 * 16 / 16) = first :=
      ofNat_toNat_eq (by omega)
    rw [sextets, joinSextets, hbyte]
  | case3 first second =>
    have hsecond := second.toNat_lt
    have hbyte : UInt8.ofNat (first.toNat / 4 * 4 +
        (first.toNat % 4 * 16 + second.toNat / 16) / 16) = first :=
      ofNat_toNat_eq (by omega)
    have hnext : UInt8.ofNat ((first.toNat % 4 * 16 + second.toNat / 16) % 16 * 16 +
        second.toNat % 16 * 4 / 4) = second :=
      ofNat_toNat_eq (by omega)
    rw [sextets, joinSextets, hbyte, hnext]
  | case4 first second third rest ih =>
    have hsecond := second.toNat_lt
    have hthird := third.toNat_lt
    have hbyte : UInt8.ofNat (first.toNat / 4 * 4 +
        (first.toNat % 4 * 16 + second.toNat / 16) / 16) = first :=
      ofNat_toNat_eq (by omega)
    have hnext : UInt8.ofNat ((first.toNat % 4 * 16 + second.toNat / 16) % 16 * 16 +
        (second.toNat % 16 * 4 + third.toNat / 64) / 4) = second :=
      ofNat_toNat_eq (by omega)
    have hlast : UInt8.ofNat ((second.toNat % 16 * 4 + third.toNat / 64) % 4 * 64 +
        third.toNat % 64) = third :=
      ofNat_toNat_eq (by omega)
    rw [sextets, joinSextets, ih, hbyte, hnext, hlast]
    rfl

theorem trimPadding_append {text : List ℕ} {count : ℕ} (htext : padding ∉ text)
    (hcount : count ≤ 2) (hlength : (text.length + count) % 4 = 0) :
    trimPadding (text ++ List.replicate count padding) = text := by
  have hlast : text.getLast? ≠ some padding := fun hlast =>
    htext (mem_of_getLast? hlast)
  unfold trimPadding
  rw [length_append, length_replicate, if_pos hlength]
  interval_cases count
  · have hdrop : text.drop (text.length - 2) ≠ [padding, padding] := by
      intro hdrop
      exact htext (mem_of_mem_drop (hdrop ▸ mem_cons_self))
    rw [replicate_zero, List.append_nil, Nat.add_zero, if_neg hdrop, if_neg hlast]
  · have hdrop : (text ++ [padding]).drop (text.length + 1 - 2) ≠ [padding, padding] := by
      intro hdrop
      have hsplit : text.length + 1 - 2 ≤ text.length := by omega
      rw [drop_append_of_le_length hsplit] at hdrop
      have hpads : text.drop (text.length + 1 - 2) ++ [padding] = [padding] ++ [padding] := hdrop
      have hone : text.drop (text.length + 1 - 2) = [padding] := (append_inj' hpads rfl).1
      exact htext (mem_of_mem_drop (hone ▸ mem_cons_self))
    rw [replicate_one, if_neg hdrop, if_pos (by simp), dropLast_concat]
  · have hdrop : (text ++ [padding, padding]).drop (text.length + 2 - 2) = [padding, padding] := by
      rw [Nat.add_sub_cancel, drop_left]
    have hpads : text ++ [padding, padding] = text ++ [padding] ++ [padding] := by simp
    rw [show List.replicate 2 padding = [padding, padding] from rfl, if_pos hdrop, hpads,
      dropLast_concat, dropLast_concat]

theorem mapM_sextet_symbol {values : List ℕ} (hvalues : ∀ value ∈ values, value < 64) :
    (values.map symbol).mapM sextet = some values := by
  induction values with
  | nil => rfl
  | cons value rest ih =>
    obtain ⟨hvalue, hrest⟩ := forall_mem_cons.mp hvalues
    rw [map_cons, mapM_cons, sextet_symbol hvalue, ih hrest]
    rfl

/-- What the encoder writes is read back. -/
theorem decode_encode : decode (encode bytes) = some bytes := by
  have hsextets := sextets_lt bytes
  have hmissing : missing bytes ≤ 2 := by
    unfold missing
    omega
  have hnot : padding ∉ (sextets bytes).map symbol := by
    intro hmem
    obtain ⟨value, hvalue, heq⟩ := mem_map.mp hmem
    exact symbol_ne_padding (hsextets value hvalue) heq
  have hfilter : (encode bytes).filter (fun unit => !isWhiteSpace unit) = encode bytes := by
    rw [filter_eq_self]
    intro unit hunit
    obtain hsymbol | hpadding := mem_append.mp hunit
    · obtain ⟨value, hvalue, rfl⟩ := mem_map.mp hsymbol
      rw [isWhiteSpace_symbol (hsextets value hvalue)]
      rfl
    · rw [eq_of_mem_replicate hpadding]
      rfl
  have hlength : (((sextets bytes).map symbol).length + missing bytes) % 4 = 0 := by
    rw [length_map]
    exact length_sextets bytes
  rw [decode, hfilter, encode, trimPadding_append hnot hmissing hlength,
    mapM_sextet_symbol hsextets]
  exact joinSextets_sextets bytes

theorem encode_injective : Function.Injective encode := by
  intro first second hencode
  have hdecode := congrArg decode hencode
  rw [decode_encode, decode_encode] at hdecode
  exact Option.some.inj hdecode

/-- The bits that the last sextet has left over are zero. -/
def endsClean : List ℕ → Bool
  | [_, second] => second % 16 == 0
  | [_, _, third] => third % 4 == 0
  | _ :: _ :: _ :: _ :: rest => endsClean rest
  | _ => true

/-- No white space, all padding and nothing in the bits left over. -/
def isCanonical (text : List ℕ) : Bool :=
  (text.all fun unit => !isWhiteSpace unit) && text.length % 4 == 0 &&
    endsClean ((trimPadding text).filterMap sextet)

theorem endsClean_sextets : endsClean (sextets bytes) = true := by
  induction bytes using sextets.induct with
  | case1 => rfl
  | case2 first =>
    rw [sextets, endsClean, beq_iff_eq]
    omega
  | case3 first second =>
    rw [sextets, endsClean, beq_iff_eq]
    omega
  | case4 first second third rest ih => exact ih

theorem toNat_ofNat_of_lt (hvalue : value < 256) : (UInt8.ofNat value).toNat = value := by
  exact Nat.mod_eq_of_lt hvalue

/-- Sextets that end clean are those of their bytes. -/
theorem sextets_joinSextets {values : List ℕ} {bytes : List UInt8}
    (hjoin : joinSextets values = some bytes) (hvalues : ∀ value ∈ values, value < 64)
    (hclean : endsClean values = true) : sextets bytes = values := by
  induction values using joinSextets.induct generalizing bytes with
  | case1 =>
    cases hjoin
    rfl
  | case2 => cases hjoin
  | case3 first second =>
    cases hjoin
    simp only [forall_mem_cons] at hvalues
    have hsecond : second % 16 = 0 := by simpa [endsClean] using hclean
    have hbyte : (UInt8.ofNat (first * 4 + second / 16)).toNat = first * 4 + second / 16 :=
      toNat_ofNat_of_lt (by omega)
    rw [sextets, hbyte]
    congr 1
    · omega
    · congr 1
      omega
  | case4 first second third =>
    cases hjoin
    simp only [forall_mem_cons] at hvalues
    have hthird : third % 4 = 0 := by simpa [endsClean] using hclean
    have hbyte : (UInt8.ofNat (first * 4 + second / 16)).toNat = first * 4 + second / 16 :=
      toNat_ofNat_of_lt (by omega)
    have hnext : (UInt8.ofNat (second % 16 * 16 + third / 4)).toNat = second % 16 * 16 + third / 4 :=
      toNat_ofNat_of_lt (by omega)
    rw [sextets, hbyte, hnext]
    congr 1
    · omega
    · congr 1
      · omega
      · congr 1
        omega
  | case5 first second third fourth rest ih =>
    simp only [forall_mem_cons] at hvalues
    cases hrest : joinSextets rest with
    | none =>
      rw [joinSextets, hrest] at hjoin
      cases hjoin
    | some later =>
      rw [joinSextets, hrest] at hjoin
      cases hjoin
      have hbyte : (UInt8.ofNat (first * 4 + second / 16)).toNat = first * 4 + second / 16 :=
        toNat_ofNat_of_lt (by omega)
      have hnext : (UInt8.ofNat (second % 16 * 16 + third / 4)).toNat = second % 16 * 16 + third / 4 :=
        toNat_ofNat_of_lt (by omega)
      have hlast : (UInt8.ofNat (third % 4 * 64 + fourth)).toNat = third % 4 * 64 + fourth :=
        toNat_ofNat_of_lt (by omega)
      rw [sextets, hbyte, hnext, hlast, ih hrest hvalues.2.2.2.2 hclean]
      congr 1
      · omega
      · congr 1
        · omega
        · congr 1
          · omega
          · congr 1
            omega

theorem symbol_sextet {unit value : ℕ} (hsextet : sextet unit = some value) :
    symbol value = unit ∧ value < 64 := by
  unfold sextet at hsextet
  unfold symbol
  split_ifs at hsextet
  all_goals cases hsextet
  all_goals split_ifs
  all_goals omega

theorem mapM_sextet {text values : List ℕ} (hmap : text.mapM sextet = some values) :
    values.map symbol = text ∧ text.filterMap sextet = values ∧ ∀ value ∈ values, value < 64 := by
  induction text generalizing values with
  | nil =>
    cases hmap
    exact ⟨rfl, rfl, by simp⟩
  | cons unit later ih =>
    rw [mapM_cons] at hmap
    cases hunit : sextet unit with
    | none =>
      rw [hunit] at hmap
      cases hmap
    | some value =>
      rw [hunit] at hmap
      cases hlater : later.mapM sextet with
      | none =>
        rw [hlater] at hmap
        cases hmap
      | some rest =>
        rw [hlater] at hmap
        cases hmap
        obtain ⟨hsymbols, hvalues, hbound⟩ := ih hlater
        obtain ⟨hsymbol, hlt⟩ := symbol_sextet hunit
        exact ⟨by rw [map_cons, hsymbols, hsymbol],
          by rw [filterMap_cons, hunit, hvalues],
          forall_mem_cons.mpr ⟨hlt, hbound⟩⟩

/-- What is trimmed off a text of full groups are pads. -/
theorem trimPadding_pads {text : List ℕ} (hlength : text.length % 4 = 0) :
    ∃ count ≤ 2, text = trimPadding text ++ List.replicate count padding := by
  unfold trimPadding
  rw [if_pos hlength]
  split
  · rename_i hdrop
    refine ⟨2, le_rfl, ?_⟩
    have hpads : text = text.take (text.length - 2) ++ [padding, padding] := by
      rw [← hdrop, take_append_drop]
    rw [hpads]
    simp
  · split
    · rename_i hlast
      refine ⟨1, one_le_two, ?_⟩
      exact (dropLast_append_getLast? padding hlast).symm
    · exact ⟨0, Nat.zero_le 2, by simp⟩

theorem missing_le_two : missing bytes ≤ 2 := by
  unfold missing
  omega

/-- A text that is read is what would be written exactly when it is canonical. -/
theorem encode_eq_iff {text : List ℕ} {bytes : List UInt8} (hdecode : decode text = some bytes) :
    encode bytes = text ↔ isCanonical text = true := by
  have hwritten : ∀ {written : List ℕ}, written = encode bytes →
      (written.all fun unit => !isWhiteSpace unit) = true ∧ written.length % 4 = 0 ∧
        (trimPadding written).filterMap sextet = sextets bytes := by
    rintro written rfl
    refine ⟨?_, ?_, ?_⟩
    · rw [all_eq_true]
      intro unit hunit
      obtain hsymbol | hpadding := mem_append.mp hunit
      · obtain ⟨value, hvalue, rfl⟩ := mem_map.mp hsymbol
        rw [isWhiteSpace_symbol (sextets_lt bytes value hvalue)]
        rfl
      · rw [eq_of_mem_replicate hpadding]
        rfl
    · rw [encode, length_append, length_map, length_replicate]
      exact length_sextets bytes
    · have hnot : padding ∉ (sextets bytes).map symbol := by
        intro hmem
        obtain ⟨value, hvalue, heq⟩ := mem_map.mp hmem
        exact symbol_ne_padding (sextets_lt bytes value hvalue) heq
      have hlength : (((sextets bytes).map symbol).length + missing bytes) % 4 = 0 := by
        rw [length_map]
        exact length_sextets bytes
      rw [encode, trimPadding_append hnot (missing_le_two bytes) hlength]
      exact (mapM_sextet (mapM_sextet_symbol (sextets_lt bytes))).2.1
  unfold isCanonical
  constructor
  · intro hencode
    obtain ⟨hspace, hlength, hsextets⟩ := hwritten hencode.symm
    rw [hspace, hlength, hsextets, endsClean_sextets]
    rfl
  · intro hcanonical
    simp only [Bool.and_eq_true, beq_iff_eq] at hcanonical
    obtain ⟨⟨hspace, hlength⟩, hclean⟩ := hcanonical
    have hfilter : text.filter (fun unit => !isWhiteSpace unit) = text :=
      filter_eq_self.mpr (all_eq_true.mp hspace)
    rw [decode, hfilter] at hdecode
    cases hmap : (trimPadding text).mapM sextet with
    | none =>
      rw [hmap] at hdecode
      cases hdecode
    | some values =>
      rw [hmap] at hdecode
      obtain ⟨hsymbols, hvalues, hbound⟩ := mapM_sextet hmap
      have hsextets : sextets bytes = values :=
        sextets_joinSextets hdecode hbound (hvalues ▸ hclean)
      obtain ⟨count, hcount, htext⟩ := trimPadding_pads hlength
      have hmissing : missing bytes = count := by
        have htotal := length_sextets bytes
        have hpads := congrArg List.length htext
        rw [← hsymbols, length_append, length_map, length_replicate] at hpads
        rw [hsextets] at htotal
        have hfew := missing_le_two bytes
        omega
      calc encode bytes = (sextets bytes).map symbol ++
            List.replicate (missing bytes) padding := rfl
        _ = trimPadding text ++ List.replicate count padding := by
            rw [hsextets, hsymbols, hmissing]
        _ = text := htext.symm

end ConvexWasm.Base64
