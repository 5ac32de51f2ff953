import Mathlib

/-!
# Replacement in a text

All occurrences of a pattern are replaced from left to right.  In a text made of
names between delimiters, a pattern without delimiters is replaced name by name,
so that what the replacement changes can be told apart.
-/

namespace ConvexWasm.TextReplacement

open List

variable {Symbol : Type*} [DecidableEq Symbol]

/-- The replacement in a text whose first members belong to a match. -/
def replaceFrom (pattern replacement : List Symbol) : ℕ → List Symbol → List Symbol
  | _, [] => []
  | skip + 1, _ :: rest => replaceFrom pattern replacement skip rest
  | 0, symbol :: rest =>
    if pattern.isPrefixOf (symbol :: rest) then
      replacement ++ replaceFrom pattern replacement (pattern.length - 1) rest
    else symbol :: replaceFrom pattern replacement 0 rest

/-- All occurrences of a pattern that is not empty, without overlaps. -/
def replaceAll (pattern replacement text : List Symbol) : List Symbol :=
  replaceFrom pattern replacement 0 text

variable {pattern replacement text before after rest : List Symbol} {symbol delimiter : Symbol}

theorem replaceFrom_drop (skip : ℕ) :
    replaceFrom pattern replacement skip text = replaceAll pattern replacement (text.drop skip) := by
  induction skip generalizing text with
  | zero => rfl
  | succ skip ih =>
    cases text with
    | nil => rfl
    | cons symbol rest => exact ih

@[simp]
theorem replaceAll_nil : replaceAll pattern replacement [] = [] := rfl

theorem replaceAll_match (hpattern : pattern ≠ []) :
    replaceAll pattern replacement (pattern ++ rest) =
      replacement ++ replaceAll pattern replacement rest := by
  cases pattern with
  | nil => exact absurd rfl hpattern
  | cons first others =>
    have hbegins : (first :: others).isPrefixOf (first :: (others ++ rest)) = true :=
      isPrefixOf_iff_prefix.mpr ⟨rest, rfl⟩
    rw [replaceAll, cons_append, replaceFrom, if_pos hbegins, replaceFrom_drop,
      length_cons, Nat.add_sub_cancel, drop_left]

theorem replaceAll_cons (hbegins : ¬ pattern <+: symbol :: rest) :
    replaceAll pattern replacement (symbol :: rest) =
      symbol :: replaceAll pattern replacement rest := by
  rw [replaceAll, replaceFrom, if_neg (by rwa [ isPrefixOf_iff_prefix])]
  rfl

/-- A text is empty, begins with the pattern, or begins with another symbol. -/
theorem replaceAll_induction {motive : List Symbol → Prop} (hpattern : pattern ≠ [])
    (hnil : motive []) (hmatch : ∀ rest, motive rest → motive (pattern ++ rest))
    (hcons : ∀ symbol rest, ¬ pattern <+: symbol :: rest → motive rest → motive (symbol :: rest))
    (text : List Symbol) : motive text := by
  induction hlength : text.length using Nat.strong_induction_on generalizing text with
  | _ length ih =>
    cases text with
    | nil => exact hnil
    | cons symbol rest =>
      by_cases hbegins : pattern <+: symbol :: rest
      · obtain ⟨later, hlater⟩ := hbegins
        rw [← hlater]
        apply hmatch later
        apply ih later.length _ later rfl
        rw [← hlength, ← hlater, length_append]
        have hpos := length_pos_of_ne_nil hpattern
        omega
      · apply hcons symbol rest hbegins
        apply ih rest.length _ rest rfl
        rw [← hlength, length_cons]
        exact Nat.lt_succ_self _

section Delimiters

omit [DecidableEq Symbol] in
theorem prefix_of_prefix_append (hdelimiter : delimiter ∉ pattern)
    (hbegins : pattern <+: before ++ delimiter :: after) : pattern <+: before := by
  induction before generalizing pattern with
  | nil =>
    cases pattern with
    | nil => exact prefix_refl _
    | cons first others =>
      obtain ⟨hfirst, _⟩ := cons_prefix_cons.mp hbegins
      exact absurd (hfirst ▸ mem_cons_self) hdelimiter
  | cons head tail ih =>
    cases pattern with
    | nil => exact nil_prefix
    | cons first others =>
      obtain ⟨rfl, hothers⟩ := cons_prefix_cons.mp hbegins
      have hlater := ih (fun hmem => hdelimiter (mem_cons_of_mem _ hmem)) hothers
      exact cons_prefix_cons.mpr ⟨rfl, hlater⟩

/-- A match does not cross a delimiter. -/
theorem replaceAll_append_cons (hpattern : pattern ≠ []) (hdelimiter : delimiter ∉ pattern) :
    replaceAll pattern replacement (before ++ delimiter :: after) =
      replaceAll pattern replacement before ++
        delimiter :: replaceAll pattern replacement after := by
  induction before using replaceAll_induction hpattern with
  | hnil =>
    apply replaceAll_cons
    intro hbegins
    have hnil : pattern <+: [] := prefix_of_prefix_append hdelimiter hbegins
    exact hpattern (prefix_nil.mp hnil)
  | hmatch rest ih =>
    rw [append_assoc, replaceAll_match hpattern, replaceAll_match hpattern, ih,
      append_assoc]
  | hcons symbol rest hbegins ih =>
    rw [cons_append, replaceAll_cons, replaceAll_cons hbegins, ih, cons_append]
    intro hlong
    exact hbegins (prefix_of_prefix_append hdelimiter hlong)

/-- What is between the delimiters does not matter for them. -/
theorem filter_replaceAll {isDelimiter : Symbol → Bool} (hpattern : pattern ≠ [])
    (hclean : ∀ symbol ∈ pattern, isDelimiter symbol = false)
    (hclean' : ∀ symbol ∈ replacement, isDelimiter symbol = false) :
    (replaceAll pattern replacement text).filter isDelimiter = text.filter isDelimiter := by
  have hnone : ∀ name : List Symbol, (∀ symbol ∈ name, isDelimiter symbol = false) →
      name.filter isDelimiter = [] := fun name hname =>
    filter_eq_nil_iff.mpr fun symbol hsymbol => by simp [hname symbol hsymbol]
  induction text using replaceAll_induction hpattern with
  | hnil => rfl
  | hmatch rest ih =>
    rw [replaceAll_match hpattern, filter_append, filter_append, ih, hnone _ hclean,
      hnone _ hclean']
  | hcons symbol rest hbegins ih =>
    rw [replaceAll_cons hbegins, filter_cons, filter_cons, ih]

end Delimiters

theorem replaceAll_of_absent (hpattern : pattern ≠ []) (habsent : ¬ pattern <:+: text) :
    replaceAll pattern replacement text = text := by
  induction text using replaceAll_induction hpattern with
  | hnil => rfl
  | hmatch rest _ => exact absurd (prefix_append pattern rest).isInfix habsent
  | hcons symbol rest hbegins ih =>
    rw [replaceAll_cons hbegins, ih]
    exact fun hoccurs => habsent (hoccurs.trans (suffix_cons symbol rest).isInfix)

theorem replaceAll_same (hpattern : pattern ≠ []) : replaceAll pattern pattern text = text := by
  induction text using replaceAll_induction hpattern with
  | hnil => rfl
  | hmatch rest ih => rw [replaceAll_match hpattern, ih]
  | hcons symbol rest hbegins ih => rw [replaceAll_cons hbegins, ih]

theorem length_replaceAll (hpattern : pattern ≠ []) : ∃ count,
    (replaceAll pattern replacement text).length + count * pattern.length =
      text.length + count * replacement.length := by
  induction text using replaceAll_induction hpattern with
  | hnil => exact ⟨0, by rw [replaceAll_nil, Nat.zero_mul, Nat.zero_mul]⟩
  | hmatch rest ih =>
    obtain ⟨count, hcount⟩ := ih
    refine ⟨count + 1, ?_⟩
    rw [replaceAll_match hpattern, length_append, length_append]
    linarith
  | hcons symbol rest hbegins ih =>
    obtain ⟨count, hcount⟩ := ih
    refine ⟨count, ?_⟩
    rw [replaceAll_cons hbegins, length_cons, length_cons]
    omega

/-- A text stays as it is exactly when there is nothing to replace, or the
replacement is the pattern. -/
theorem replaceAll_eq_self_iff (hpattern : pattern ≠ []) :
    replaceAll pattern replacement text = text ↔ (pattern <:+: text → replacement = pattern) := by
  constructor
  · intro hsame hoccurs
    induction text using replaceAll_induction hpattern with
    | hnil => exact absurd (infix_nil.mp hoccurs) hpattern
    | hmatch rest _ =>
      rw [replaceAll_match hpattern] at hsame
      -- The rest cannot make up for a longer or a shorter replacement.
      have hlength : replacement.length = pattern.length := by
        have htotal := congrArg List.length hsame
        rw [length_append, length_append] at htotal
        obtain ⟨count, hcount⟩ := @length_replaceAll _ _ pattern replacement rest hpattern
        rcases le_total pattern.length replacement.length with hle | hle
        all_goals
          have hmatches := Nat.mul_le_mul_left count hle
          omega
      exact (append_inj hsame hlength).1
    | hcons symbol rest hbegins ih =>
      rw [replaceAll_cons hbegins] at hsame
      apply ih (cons_injective hsame)
      rcases infix_cons_iff.mp hoccurs with hstart | hlater
      · exact absurd hstart hbegins
      · exact hlater
  · intro hchange
    by_cases hoccurs : pattern <:+: text
    · rw [hchange hoccurs]
      exact replaceAll_same hpattern
    · exact replaceAll_of_absent hpattern hoccurs

section Names

variable {isDelimiter : Symbol → Bool}

/-- A text that stands between names. -/
structure Fixed (isDelimiter : Symbol → Bool) (text : List Symbol) : Prop where
  starts : ∃ first rest, text = first :: rest ∧ isDelimiter first = true
  ends : ∃ before last, text = before ++ [last] ∧ isDelimiter last = true

section

variable (hpattern : pattern ≠ []) (hclean : ∀ symbol ∈ pattern, isDelimiter symbol = false)
include hpattern hclean

theorem replaceAll_append_of_ends
    (hends : ∃ start last, before = start ++ [last] ∧ isDelimiter last = true) :
    replaceAll pattern replacement (before ++ after) =
      replaceAll pattern replacement before ++ replaceAll pattern replacement after := by
  obtain ⟨start, last, rfl, hlast⟩ := hends
  have houtside : last ∉ pattern := fun hmem => by simp [hclean last hmem] at hlast
  rw [append_assoc, singleton_append, replaceAll_append_cons hpattern houtside,
    replaceAll_append_cons hpattern houtside, replaceAll_nil, append_assoc]
  rfl

theorem replaceAll_append_of_starts
    (hstarts : ∃ first later, after = first :: later ∧ isDelimiter first = true) :
    replaceAll pattern replacement (before ++ after) =
      replaceAll pattern replacement before ++ replaceAll pattern replacement after := by
  obtain ⟨first, later, rfl, hfirst⟩ := hstarts
  have houtside : first ∉ pattern := fun hmem => by simp [hclean first hmem] at hfirst
  have hafter := @replaceAll_append_cons _ _ pattern replacement [] later first hpattern houtside
  rw [nil_append, replaceAll_nil, nil_append] at hafter
  rw [replaceAll_append_cons hpattern houtside, hafter]

end

omit [DecidableEq Symbol] in
/-- Beginnings with the same delimiters, the last at their end, are compared
separately from what comes after them. -/
theorem append_eq_iff_of_delimiters {first first' later later' : List Symbol}
    (hdelimiters : first.filter isDelimiter = first'.filter isDelimiter)
    (hends : ∃ before last, first = before ++ [last] ∧ isDelimiter last = true)
    (hends' : ∃ before last, first' = before ++ [last] ∧ isDelimiter last = true) :
    first ++ later = first' ++ later' ↔ first = first' ∧ later = later' := by
  have hempty : ∀ start between : List Symbol,
      (start ++ between).filter isDelimiter = start.filter isDelimiter →
      (∃ before last, start ++ between = before ++ [last] ∧ isDelimiter last = true) →
        between = [] := by
    intro start between hsame hlast
    obtain ⟨before, last, heq, hdelimiter⟩ := hlast
    rw [filter_append, append_right_eq_self, filter_eq_nil_iff] at hsame
    rcases eq_nil_or_concat between with rfl | ⟨others, final, rfl⟩
    · rfl
    · rw [concat_eq_append, ← append_assoc] at heq
      obtain ⟨_, hfinal⟩ := append_inj' heq rfl
      have hmem : last ∈ others.concat final := by
        rw [← singleton_inj.mp hfinal, concat_eq_append]
        exact mem_append_right _ mem_cons_self
      exact absurd hdelimiter (hsame last hmem)
  constructor
  · intro heq
    rcases append_eq_append_iff.mp heq with ⟨between, hfirst, hlater⟩ |
      ⟨between, hfirst, hlater⟩
    · have hnil := hempty first between (by rw [← hfirst, hdelimiters]) (by rwa [← hfirst])
      rw [hnil, List.append_nil] at hfirst
      rw [hnil, nil_append] at hlater
      exact ⟨hfirst.symm, hlater⟩
    · have hnil := hempty first' between (by rw [← hfirst, hdelimiters]) (by rwa [← hfirst])
      rw [hnil, List.append_nil] at hfirst
      rw [hnil, nil_append] at hlater
      exact ⟨hfirst, hlater.symm⟩
  · rintro ⟨rfl, rfl⟩
    rfl

omit [DecidableEq Symbol] in
/-- A name ends where the fixed text begins. -/
theorem name_append_eq_iff {name name' fixed fixed' : List Symbol}
    (hname : ∀ symbol ∈ name, isDelimiter symbol = false)
    (hname' : ∀ symbol ∈ name', isDelimiter symbol = false)
    (hstarts : ∃ first rest, fixed = first :: rest ∧ isDelimiter first = true)
    (hstarts' : ∃ first rest, fixed' = first :: rest ∧ isDelimiter first = true) :
    name ++ fixed = name' ++ fixed' ↔ name = name' ∧ fixed = fixed' := by
  constructor
  · intro heq
    obtain ⟨first, rest, rfl, hfirst⟩ := hstarts
    obtain ⟨first', rest', rfl, hfirst'⟩ := hstarts'
    induction name generalizing name' with
    | nil =>
      cases name' with
      | nil => exact ⟨rfl, heq⟩
      | cons other others =>
        obtain ⟨rfl, _⟩ := List.cons.inj heq
        rw [hname' first mem_cons_self] at hfirst
        cases hfirst
    | cons symbol others ih =>
      cases name' with
      | nil =>
        obtain ⟨rfl, _⟩ := List.cons.inj heq
        rw [hname symbol mem_cons_self] at hfirst'
        cases hfirst'
      | cons other others' =>
        obtain ⟨rfl, hrest⟩ := List.cons.inj heq
        obtain ⟨rfl, hfixed⟩ := ih
          (fun symbol hmem => hname symbol (mem_cons_of_mem _ hmem))
          (fun symbol hmem => hname' symbol (mem_cons_of_mem _ hmem)) hrest
        exact ⟨rfl, hfixed⟩
  · rintro ⟨rfl, rfl⟩
    rfl

variable (hpattern : pattern ≠ []) (hclean : ∀ symbol ∈ pattern, isDelimiter symbol = false)
include hpattern hclean

theorem replaceAll_ends (hends : ∃ before last, text = before ++ [last] ∧ isDelimiter last = true) :
    ∃ before last, replaceAll pattern replacement text = before ++ [last] ∧
      isDelimiter last = true := by
  obtain ⟨before, last, rfl, hlast⟩ := hends
  have houtside : last ∉ pattern := fun hmem => by simp [hclean last hmem] at hlast
  exact ⟨_, last, replaceAll_append_cons hpattern houtside, hlast⟩

theorem replaceAll_starts (hstarts : ∃ first rest, text = first :: rest ∧ isDelimiter first = true)
    :
    ∃ first rest, replaceAll pattern replacement text = first :: rest ∧
      isDelimiter first = true := by
  obtain ⟨first, rest, rfl, hfirst⟩ := hstarts
  have houtside : first ∉ pattern := fun hmem => by simp [hclean first hmem] at hfirst
  have hafter := @replaceAll_append_cons _ _ pattern replacement [] rest first hpattern houtside
  exact ⟨first, _, hafter, hfirst⟩

theorem replaceAll_name (hclean' : ∀ symbol ∈ replacement, isDelimiter symbol = false)
    (hname : ∀ symbol ∈ text, isDelimiter symbol = false) :
    ∀ symbol ∈ replaceAll pattern replacement text, isDelimiter symbol = false := by
  have hfilter := @filter_replaceAll _ _ pattern replacement text isDelimiter hpattern hclean hclean'
  have hnone : text.filter isDelimiter = [] :=
    filter_eq_nil_iff.mpr fun symbol hsymbol => by simp [hname symbol hsymbol]
  rw [hnone, filter_eq_nil_iff] at hfilter
  exact fun symbol hsymbol => Bool.eq_false_of_not_eq_true (hfilter symbol hsymbol)

end Names

section Pieces

variable {Name : Type*} {isDelimiter : Symbol → Bool}

/-- A part of a text: something fixed, or a name that is spelt in some way. -/
inductive Piece (Symbol Name : Type*)
  | fixed (text : List Symbol)
  | name (name : Name)

def Piece.spelt (spell : Name → List Symbol) : Piece Symbol Name → List Symbol
  | .fixed found => found
  | .name found => spell found

def pieceText (spell : Name → List Symbol) (pieces : List (Piece Symbol Name)) : List Symbol :=
  pieces.flatMap (Piece.spelt spell)

def Piece.map (rename : Name → Name) : Piece Symbol Name → Piece Symbol Name
  | .fixed found => .fixed found
  | .name found => .name (rename found)

/-- Delimiters stand around what is fixed, and names stand between it. -/
inductive Separated (isDelimiter : Symbol → Bool) : List (Piece Symbol Name) → Prop
  | nil : Separated isDelimiter []
  | fixed {text : List Symbol} {pieces : List (Piece Symbol Name)} :
      Fixed isDelimiter text → Separated isDelimiter pieces →
        Separated isDelimiter (.fixed text :: pieces)
  | name {name : Name} {text : List Symbol} {pieces : List (Piece Symbol Name)} :
      Fixed isDelimiter text → Separated isDelimiter pieces →
        Separated isDelimiter (.name name :: .fixed text :: pieces)

variable {pieces pieces' : List (Piece Symbol Name)} {spell spell' : Name → List Symbol}

omit [DecidableEq Symbol] in
/-- Other names are the same names spelt in another way. -/
theorem pieceText_map (rename : Name → Name) :
    pieceText spell (pieces.map (Piece.map rename)) =
      pieceText (fun name => spell (rename name)) pieces := by
  rw [pieceText, flatMap_map]
  apply flatMap_congr
  intro piece _
  cases piece <;> rfl

omit [DecidableEq Symbol] in
theorem Separated.append (hpieces : Separated isDelimiter pieces)
    (hpieces' : Separated isDelimiter pieces') : Separated isDelimiter (pieces ++ pieces') := by
  induction hpieces with
  | nil => exact hpieces'
  | fixed hfixed _ ih => exact .fixed hfixed ih
  | name hfixed _ ih => exact .name hfixed ih

omit [DecidableEq Symbol] in
theorem Separated.flatMap {Item : Type*} {items : List Item}
    {parts : Item → List (Piece Symbol Name)}
    (hparts : ∀ item ∈ items, Separated isDelimiter (parts item)) :
    Separated isDelimiter (items.flatMap parts) := by
  induction items with
  | nil => exact .nil
  | cons item rest ih =>
    rw [flatMap_cons]
    exact (hparts item mem_cons_self).append
      (ih fun other hmem => hparts other (mem_cons_of_mem _ hmem))

omit [DecidableEq Symbol] in
theorem append_ends (hends : ∃ start last, text = start ++ [last] ∧
    isDelimiter last = true) :
    ∃ start last, before ++ text = start ++ [last] ∧ isDelimiter last = true := by
  obtain ⟨start, last, rfl, hlast⟩ := hends
  exact ⟨before ++ start, last, (append_assoc _ _ _).symm, hlast⟩

section

variable (hpattern : pattern ≠ [])
  (hclean : ∀ symbol ∈ pattern, isDelimiter symbol = false)
  (hseparated : Separated isDelimiter pieces)
include hpattern hclean hseparated

/-- Names and fixed texts are replaced one by one. -/
theorem replaceAll_pieceText :
    replaceAll pattern replacement (pieceText spell pieces) =
      pieces.flatMap fun piece => replaceAll pattern replacement (piece.spelt spell) := by
  induction hseparated with
  | nil => rfl
  | @fixed text pieces hfixed _ ih =>
    rw [flatMap_cons, ← ih]
    exact replaceAll_append_of_ends hpattern hclean hfixed.ends
  | @name name text pieces hfixed _ ih =>
    have hparts : pieceText spell (.name name :: .fixed text :: pieces) =
        (spell name ++ text) ++ pieceText spell pieces := (append_assoc _ _ _).symm
    rw [hparts, replaceAll_append_of_ends hpattern hclean (append_ends hfixed.ends),
      replaceAll_append_of_starts hpattern hclean hfixed.starts, ih, flatMap_cons,
      flatMap_cons, append_assoc]
    rfl

/-- The replacement comes to another spelling exactly when it spells each name
in that way and leaves what is fixed as it is. -/
theorem replaceAll_pieceText_eq_iff (hclean' : ∀ symbol ∈ replacement, isDelimiter symbol = false)
    (hspell : ∀ name, .name name ∈ pieces → ∀ symbol ∈ spell name, isDelimiter symbol = false)
    (hspell' : ∀ name, .name name ∈ pieces → ∀ symbol ∈ spell' name, isDelimiter symbol = false) :
    replaceAll pattern replacement (pieceText spell pieces) = pieceText spell' pieces ↔
      ∀ piece ∈ pieces, replaceAll pattern replacement (piece.spelt spell) = piece.spelt spell' := by
  have hsame : ∀ text, (replaceAll pattern replacement text).filter isDelimiter =
      text.filter isDelimiter := fun text => filter_replaceAll hpattern hclean hclean'
  have hnone : ∀ name : List Symbol, (∀ symbol ∈ name, isDelimiter symbol = false) →
      name.filter isDelimiter = [] := fun name hname =>
    filter_eq_nil_iff.mpr fun symbol hsymbol => by simp [hname symbol hsymbol]
  rw [replaceAll_pieceText hpattern hclean hseparated]
  induction hseparated with
  | nil => simp [pieceText]
  | @fixed text pieces hfixed _ ih =>
    have hrest := ih (fun name hmem => hspell name (mem_cons_of_mem _ hmem))
      (fun name hmem => hspell' name (mem_cons_of_mem _ hmem))
    rw [flatMap_cons, pieceText, flatMap_cons, forall_mem_cons]
    apply (append_eq_iff_of_delimiters (hsame text)
      (replaceAll_ends hpattern hclean hfixed.ends) hfixed.ends).trans
    exact and_congr_right fun _ => hrest
  | @name name text pieces hfixed _ ih =>
    have hname := hspell name mem_cons_self
    have hname' := hspell' name mem_cons_self
    have hreplaced : ∀ symbol ∈ replaceAll pattern replacement (spell name),
        isDelimiter symbol = false := replaceAll_name hpattern hclean hclean' hname
    have hdelimiters : (replaceAll pattern replacement (spell name) ++
        replaceAll pattern replacement text).filter isDelimiter =
          (spell' name ++ text).filter isDelimiter := by
      rw [filter_append, filter_append, hnone _ hreplaced, hnone _ hname', hsame]
    have hlater : ∀ other, .name other ∈ pieces →
        .name other ∈ Piece.name name :: Piece.fixed text :: pieces :=
      fun other hmem => mem_cons_of_mem _ (mem_cons_of_mem _ hmem)
    have hrest := ih (fun other hmem => hspell other (hlater other hmem))
      (fun other hmem => hspell' other (hlater other hmem))
    rw [flatMap_cons, flatMap_cons, pieceText, flatMap_cons, flatMap_cons,
      ← append_assoc, ← append_assoc, forall_mem_cons, forall_mem_cons,
      ← and_assoc]
    apply (append_eq_iff_of_delimiters hdelimiters
      (append_ends (replaceAll_ends hpattern hclean hfixed.ends))
      (append_ends hfixed.ends)).trans
    apply and_congr _ hrest
    exact name_append_eq_iff hreplaced hname' (replaceAll_starts hpattern hclean hfixed.starts)
      hfixed.starts

/-- A pattern without delimiters stands in one piece. -/
theorem infix_pieceText_iff
    (hspell : ∀ name, .name name ∈ pieces → ∀ symbol ∈ spell name, isDelimiter symbol = false) :
    pattern <:+: pieceText spell pieces ↔ ∃ piece ∈ pieces, pattern <:+: piece.spelt spell := by
  have habsent : ∀ text : List Symbol, replaceAll pattern [] text = text ↔ ¬ pattern <:+: text :=
    fun text => by
      rw [replaceAll_eq_self_iff hpattern]
      exact imp_congr_right fun _ => ⟨fun h => hpattern h.symm, False.elim⟩
  have hpieces := @replaceAll_pieceText_eq_iff _ _ pattern [] _ isDelimiter pieces spell spell
    hpattern hclean hseparated (by simp) hspell hspell
  rw [habsent] at hpieces
  rw [← not_iff_not, hpieces, not_exists]
  apply forall_congr'
  intro piece
  rw [habsent, not_and]

end

end Pieces

end ConvexWasm.TextReplacement
