import Mathlib

/-!
# Streams of terminated fields

Fields are written one after the other, each followed by a stop symbol.  A field
may contain the symbol itself, so the stream determines only the pieces into
which the symbol cuts the fields.  Fields without the symbol are read back one
by one.
-/

namespace ConvexWasm.TerminatedStream

open List

variable {Symbol : Type*} [DecidableEq Symbol] (stop : Symbol)

def stream (fields : List (List Symbol)) : List Symbol :=
  fields.flatMap fun field => field ++ [stop]

/-- The pieces into which the stop symbol cuts one field. -/
def cut : List Symbol → List (List Symbol)
  | [] => [[]]
  | symbol :: rest =>
    if symbol = stop then [] :: cut rest
    else
      match cut rest with
      | [] => [[symbol]]
      | piece :: pieces => (symbol :: piece) :: pieces

def pieces (fields : List (List Symbol)) : List (List Symbol) :=
  fields.flatMap (cut stop)

section Pieces

variable {stop}

omit [DecidableEq Symbol] in
@[simp]
theorem stream_nil : stream stop [] = [] := rfl

omit [DecidableEq Symbol] in
@[simp]
theorem stream_cons (field : List Symbol) (fields : List (List Symbol)) :
    stream stop (field :: fields) = field ++ stop :: stream stop fields := by
  simp [stream]

omit [DecidableEq Symbol] in
theorem stream_append (fields other : List (List Symbol)) :
    stream stop (fields ++ other) = stream stop fields ++ stream stop other :=
  flatMap_append

theorem cut_free (field : List Symbol) : ∀ piece ∈ cut stop field, stop ∉ piece := by
  induction field with
  | nil => simp [cut]
  | cons symbol rest ih =>
    rw [cut]
    split
    · intro piece hpiece
      rcases mem_cons.mp hpiece with rfl | hrest
      · exact not_mem_nil
      · exact ih piece hrest
    · next hsymbol =>
        have hne : stop ≠ symbol := fun heq => hsymbol heq.symm
        cases hcut : cut stop rest with
        | nil => simpa using hne
        | cons head tail =>
          rw [hcut] at ih
          intro piece hpiece
          rcases mem_cons.mp hpiece with rfl | htail
          · intro hmem
            rcases mem_cons.mp hmem with heq | hhead
            · exact hne heq
            · exact ih head mem_cons_self hhead
          · exact ih piece (mem_cons_of_mem _ htail)

/-- Cutting a field leaves the written symbols as they are. -/
theorem stream_cut (field : List Symbol) : stream stop (cut stop field) = field ++ [stop] := by
  induction field with
  | nil => simp [cut]
  | cons symbol rest ih =>
    rw [cut]
    split
    · next hsymbol =>
        rw [stream_cons, ih, hsymbol]
        rfl
    · cases hcut : cut stop rest with
      | nil =>
        rw [hcut] at ih
        simp at ih
      | cons head tail =>
        rw [hcut] at ih
        simpa using ih

theorem stream_pieces (fields : List (List Symbol)) :
    stream stop (pieces stop fields) = stream stop fields := by
  induction fields with
  | nil => rfl
  | cons field rest ih =>
    have hpieces : pieces stop (field :: rest) = cut stop field ++ pieces stop rest := rfl
    rw [hpieces, stream_append, stream_cut, ih]
    simp

theorem pieces_free (fields : List (List Symbol)) : ∀ piece ∈ pieces stop fields, stop ∉ piece := by
  intro piece hpiece
  obtain ⟨field, -, hcut⟩ := mem_flatMap.mp hpiece
  exact cut_free field piece hcut

end Pieces

section Reading

variable {stop}

omit [DecidableEq Symbol] in
/-- A field without the stop symbol ends at its first occurrence. -/
theorem field_cancel {field other rest rest' : List Symbol} (hfield : stop ∉ field)
    (hother : stop ∉ other) (heq : field ++ stop :: rest = other ++ stop :: rest') :
    field = other ∧ rest = rest' := by
  induction field generalizing other with
  | nil =>
    cases other with
    | nil => exact ⟨rfl, by simpa using heq⟩
    | cons symbol other =>
      have hstop : stop = symbol := by simpa using congrArg List.head? heq
      exact absurd (hstop ▸ mem_cons_self) hother
  | cons symbol field ih =>
    rw [mem_cons, not_or] at hfield
    cases other with
    | nil =>
      have hstop : symbol = stop := by simpa using congrArg List.head? heq
      exact absurd hstop.symm hfield.1
    | cons symbol' other =>
      rw [mem_cons, not_or] at hother
      simp only [cons_append, List.cons.injEq] at heq
      obtain ⟨hsame, hrest⟩ := ih hfield.2 hother.2 heq.2
      exact ⟨by rw [heq.1, hsame], hrest⟩

omit [DecidableEq Symbol] in
variable {fields other : List (List Symbol)}

/-- As many free fields on both sides are read back. -/
theorem stream_cancel {rest rest' : List Symbol} (hfields : ∀ field ∈ fields, stop ∉ field)
    (hother : ∀ field ∈ other, stop ∉ field) (hlength : fields.length = other.length)
    (heq : stream stop fields ++ rest = stream stop other ++ rest') :
    fields = other ∧ rest = rest' := by
  induction fields generalizing other with
  | nil =>
    obtain rfl : other = [] := length_eq_zero_iff.mp hlength.symm
    exact ⟨rfl, heq⟩
  | cons field fields ih =>
    cases other with
    | nil => simp at hlength
    | cons field' other =>
      simp only [stream_cons, append_assoc, cons_append] at heq
      obtain ⟨hfirst, hrest⟩ := field_cancel (hfields field mem_cons_self)
        (hother field' mem_cons_self) heq
      obtain ⟨hsame, hrest'⟩ := ih
        (fun field hmem => hfields field (mem_cons_of_mem _ hmem))
        (fun field hmem => hother field (mem_cons_of_mem _ hmem))
        (by simpa using hlength) hrest
      exact ⟨by rw [hfirst, hsame], hrest'⟩

omit [DecidableEq Symbol] in
theorem stream_injective (hfields : ∀ field ∈ fields, stop ∉ field)
    (hother : ∀ field ∈ other, stop ∉ field) (heq : stream stop fields = stream stop other) :
    fields = other := by
  induction fields generalizing other with
  | nil =>
    cases other with
    | nil => rfl
    | cons field other => simp at heq
  | cons field fields ih =>
    cases other with
    | nil => simp at heq
    | cons field' other =>
      rw [stream_cons, stream_cons] at heq
      obtain ⟨hfirst, hrest⟩ := field_cancel (hfields field mem_cons_self)
        (hother field' mem_cons_self) heq
      rw [hfirst, ih (fun field hmem => hfields field (mem_cons_of_mem _ hmem))
        (fun field hmem => hother field (mem_cons_of_mem _ hmem)) hrest]

/-- The stream determines the pieces of the fields, and nothing more. -/
theorem stream_eq_iff :
    stream stop fields = stream stop other ↔ pieces stop fields = pieces stop other := by
  constructor
  · intro heq
    apply stream_injective (pieces_free fields) (pieces_free other)
    rw [stream_pieces, stream_pieces, heq]
  · intro heq
    rw [← stream_pieces fields, heq, stream_pieces]

/-- The first field of a stream, up to the first stop symbol. -/
def leading (stop : Symbol) (symbols : List Symbol) : List Symbol :=
  symbols.takeWhile fun symbol => decide (symbol ≠ stop)

theorem leading_field {field : List Symbol} (hfree : stop ∉ field) (rest : List Symbol) :
    leading stop (field ++ stop :: rest) = field := by
  rw [leading, takeWhile_append_of_pos]
  · simp
  · intro symbol hsymbol
    exact decide_eq_true fun heq => hfree (heq ▸ hsymbol)

variable {Record Field : Type*} {fieldsOf : Record → List Field} {width : ℕ}

variable (hwidth : ∀ record, (fieldsOf record).length = width) (hpos : 0 < width)
include hwidth hpos

/-- Records of one width are read back from their concatenated fields. -/
theorem map_eq_of_flatMap_eq {records other : List Record}
    (heq : records.flatMap fieldsOf = other.flatMap fieldsOf) :
    records.map fieldsOf = other.map fieldsOf := by
  induction records generalizing other with
  | nil =>
    cases other with
    | nil => rfl
    | cons record other =>
      have hlength := congrArg List.length heq
      simp [hwidth] at hlength
      omega
  | cons record records ih =>
    cases other with
    | nil =>
      have hlength := congrArg List.length heq
      simp [hwidth] at hlength
      omega
    | cons record' other =>
      obtain ⟨hfirst, hrest⟩ := append_inj heq (by rw [hwidth, hwidth])
      rw [map_cons, map_cons, hfirst, ih hrest]

theorem flatMap_injective (hinjective : Function.Injective fieldsOf) :
    Function.Injective fun records : List Record => records.flatMap fieldsOf := fun _ _ heq =>
  map_injective_iff.mpr hinjective (map_eq_of_flatMap_eq hwidth hpos heq)

end Reading

end ConvexWasm.TerminatedStream
