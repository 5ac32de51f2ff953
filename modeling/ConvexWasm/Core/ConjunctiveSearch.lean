import ConvexWasm.Core.KeyedMap

/-!
# Searches for what all premises support

A node is derived when it is admitted, none of its obligations is refused, each
of them is derived, and its own conclusion holds.  A depth-first search answers
`false` for a node that it is still working on: an open node requires the node
below it, so neither can be derived.  This is why answers may be remembered
while ancestors are open.
-/

namespace ConvexWasm.ConjunctiveSearch

open List Option

variable {Node : Type}

structure Rules (Node : Type) where
  admits : Node → Bool
  /-- what a node requires; `none` is refused -/
  obligations : Node → List (Option Node)
  concludes : Node → Bool

/-- The least set of nodes that the rules support. -/
inductive Derived (rules : Rules Node) : Node → Prop
  | intro (node : Node) : rules.admits node = true → none ∉ rules.obligations node →
      (∀ premise, some premise ∈ rules.obligations node → Derived rules premise) →
      rules.concludes node = true → Derived rules node

/-- One node asks for another. -/
def Requires (rules : Rules Node) (node premise : Node) : Prop :=
  some premise ∈ rules.obligations node

variable {rules : Rules Node} {node : Node}

theorem Derived.cases (hderived : Derived rules node) :
    rules.admits node = true ∧ none ∉ rules.obligations node ∧
      (∀ premise, some premise ∈ rules.obligations node → Derived rules premise) ∧
      rules.concludes node = true := by
  cases hderived with
  | intro _ hadmits hrefused hpremises hconcludes =>
    exact ⟨hadmits, hrefused, hpremises, hconcludes⟩

theorem derived_iff : Derived rules node ↔
    rules.admits node = true ∧ none ∉ rules.obligations node ∧
      (∀ premise, some premise ∈ rules.obligations node → Derived rules premise) ∧
      rules.concludes node = true :=
  ⟨Derived.cases, fun h => .intro node h.1 h.2.1 h.2.2.1 h.2.2.2⟩

/-- A derived node does not require itself. -/
theorem Derived.acyclic (hderived : Derived rules node) :
    ¬ Relation.TransGen (Requires rules) node node := by
  induction hderived with
  | intro node _ _ _ _ ih =>
    intro hcycle
    obtain ⟨premise, hpremise, hback⟩ := Relation.TransGen.head'_iff.mp hcycle
    exact ih premise hpremise (Relation.TransGen.tail' hback hpremise)

section Search

variable [DecidableEq Node]

abbrev Answers (Node : Type) := KeyedMap Node Bool

/-- All obligations in order, up to the first that fails. -/
def answerAll (answer : Node → Answers Node → Bool × Answers Node) :
    List (Option Node) → Answers Node → Bool × Answers Node
  | [], cache => (true, cache)
  | none :: _, cache => (false, cache)
  | some premise :: rest, cache =>
    match answer premise cache with
    | (true, cache) => answerAll answer rest cache
    | (false, cache) => (false, cache)

/-- A node in progress is answered `false`, and this answer is not remembered. -/
def answer (rules : Rules Node) : ℕ → List Node → Node → Answers Node → Bool × Answers Node
  | 0, _, _, cache => (false, cache)
  | fuel + 1, visiting, node, cache =>
    match cache.get? node with
    | some known => (known, cache)
    | none =>
      if !rules.admits node || decide (node ∈ visiting) then (false, cache)
      else
        let (supported, cache) :=
          answerAll (answer rules fuel (node :: visiting)) (rules.obligations node) cache
        (supported && rules.concludes node, cache.insert node (supported && rules.concludes node))

/-- What is remembered is right. -/
def Truthful (rules : Rules Node) (cache : Answers Node) : Prop :=
  ∀ node known, cache.get? node = some known → (known = true ↔ Derived rules node)

theorem truthful_empty : Truthful rules (KeyedMap.empty : Answers Node) := by
  intro node known hknown
  simp [KeyedMap.empty, KeyedMap.get?] at hknown

theorem Truthful.insert {cache : Answers Node} (htruthful : Truthful rules cache) {node : Node}
    {known : Bool} (hknown : known = true ↔ Derived rules node) :
    Truthful rules (cache.insert node known) := by
  intro other answer hanswer
  by_cases hother : other = node
  · subst hother
    rw [KeyedMap.get?_insert_self] at hanswer
    exact Option.some.inj hanswer ▸ hknown
  · rw [KeyedMap.get?_insert_of_ne hother] at hanswer
    exact htruthful other answer hanswer

/-- A right answer that keeps the cache right. -/
def Right (rules : Rules Node) (node : Node) (answer : Bool × Answers Node) : Prop :=
  (answer.1 = true ↔ Derived rules node) ∧ Truthful rules answer.2

theorem answerAll_spec {answer : Node → Answers Node → Bool × Answers Node}
    {obligations : List (Option Node)}
    (hanswer : ∀ premise, some premise ∈ obligations → ∀ cache, Truthful rules cache →
      Right rules premise (answer premise cache))
    {cache : Answers Node} (htruthful : Truthful rules cache) :
    ((answerAll answer obligations cache).1 = true ↔
        none ∉ obligations ∧ ∀ premise, some premise ∈ obligations → Derived rules premise) ∧
      Truthful rules (answerAll answer obligations cache).2 := by
  induction obligations generalizing cache with
  | nil => exact ⟨by simp [answerAll], htruthful⟩
  | cons obligation rest ih =>
    cases obligation with
    | none => exact ⟨by simp [answerAll], htruthful⟩
    | some premise =>
      have hrest := fun other hother => hanswer other (mem_cons_of_mem _ hother)
      have hright := hanswer premise mem_cons_self cache htruthful
      rw [answerAll]
      split
      · next cache' hsupported =>
          rw [hsupported] at hright
          obtain ⟨hall, htruthful'⟩ := ih hrest hright.2
          refine ⟨?_, htruthful'⟩
          have hpremise : Derived rules premise := hright.1.mp rfl
          rw [hall]
          simp [hpremise]
      · next cache' hsupported =>
          rw [hsupported] at hright
          refine ⟨?_, hright.2⟩
          have hpremise : ¬ Derived rules premise := fun hderived => by
            simpa using hright.1.mpr hderived
          simp [hpremise]

/-- With fuel for every admitted node, each answer says whether the node is derived;
open nodes are those that require it. -/
theorem answer_spec (admitted : List Node)
    (hadmitted : ∀ node, rules.admits node = true → node ∈ admitted) {fuel : ℕ}
    {visiting : List Node} {node : Node} {cache : Answers Node}
    (hvisiting : ∀ ancestor ∈ visiting, Relation.TransGen (Requires rules) ancestor node)
    (hnodup : visiting.Nodup) (hopen : ∀ ancestor ∈ visiting, ancestor ∈ admitted)
    (hfuel : admitted.length + 1 ≤ fuel + visiting.length) (htruthful : Truthful rules cache) :
    Right rules node (answer rules fuel visiting node cache) := by
  induction fuel generalizing visiting node cache with
  | zero =>
    have hlength : visiting.length ≤ admitted.length := (hnodup.subperm hopen).length_le
    omega
  | succ fuel ih =>
    rw [answer]
    cases hcached : cache.get? node with
    | some known => exact ⟨htruthful node known hcached, htruthful⟩
    | none =>
      by_cases hadmits : rules.admits node = true
      · by_cases hcycle : node ∈ visiting
        · have hnot : ¬ Derived rules node := fun hderived =>
            hderived.acyclic (hvisiting node hcycle)
          simpa [hcycle, Right, hnot] using htruthful
        · have hstep : ∀ premise, some premise ∈ rules.obligations node →
              ∀ cache, Truthful rules cache →
                Right rules premise (answer rules fuel (node :: visiting) premise cache) := by
            intro premise hpremise cache htruthful
            apply ih _ (nodup_cons.mpr ⟨hcycle, hnodup⟩) _ _ htruthful
            · intro ancestor hancestor
              cases mem_cons.mp hancestor with
              | inl heq => exact heq ▸ .single hpremise
              | inr hold => exact (hvisiting ancestor hold).tail hpremise
            · intro ancestor hancestor
              cases mem_cons.mp hancestor with
              | inl heq => exact heq ▸ hadmitted node hadmits
              | inr hold => exact hopen ancestor hold
            · simp only [length_cons]
              omega
          obtain ⟨hall, htruthful'⟩ := answerAll_spec hstep htruthful
          have hright : ((answerAll (answer rules fuel (node :: visiting))
              (rules.obligations node) cache).1 && rules.concludes node) = true ↔
                Derived rules node := by
            rw [derived_iff, Bool.and_eq_true, hall]
            simp [hadmits, and_assoc]
          have hkept := htruthful'.insert hright
          simpa [hadmits, hcycle, Right] using ⟨by simpa using hright, hkept⟩
      · have hnot : ¬ Derived rules node := fun hderived => hadmits hderived.cases.1
        simpa [hadmits, Right, hnot] using htruthful

end Search

/-- A path that goes on while it can, finite or infinite. -/
structure MaximalPath (next : Node → List Node) (source : Node) (path : ℕ → Option Node) :
    Prop where
  starts : path 0 = some source
  goesOn : ∀ position node, path position = some node → next node ≠ [] →
    ∃ successor ∈ next node, path (position + 1) = some successor
  ends : ∀ position node, path position = some node → next node = [] → path (position + 1) = none
  ended : ∀ position, path position = none → path (position + 1) = none

/-- The path comes to the sink before any closed node. -/
def Visits (closed : Node → Prop) (sink : Node) (path : ℕ → Option Node) : Prop :=
  ∃ position, path position = some sink ∧
    ∀ earlier < position, ∀ node, path earlier = some node → ¬ closed node

open Classical in
/-- From every node that is not the sink, all ways on must lead to the sink. -/
noncomputable def mustReach (next : Node → List Node) (closed : Node → Prop) (sink : Node) :
    Rules Node where
  admits node := decide (node = sink ∨ (¬ closed node ∧ next node ≠ []))
  obligations node := if node = sink then [] else (next node).map some
  concludes _ := true

variable {next : Node → List Node} {closed : Node → Prop} {sink source : Node}

theorem derived_mustReach_iff {node : Node} : Derived (mustReach next closed sink) node ↔
    node = sink ∨ ((¬ closed node ∧ next node ≠ []) ∧
      ∀ successor ∈ next node, Derived (mustReach next closed sink) successor) := by
  classical
  rw [derived_iff]
  by_cases hsink : node = sink
  · simp [mustReach, hsink]
  · simp [mustReach, hsink]

open Classical in
/-- A path that keeps away from the sink for as long as it can. -/
noncomputable def avoiding (next : Node → List Node) (closed : Node → Prop) (sink source : Node) :
    ℕ → Option Node
  | 0 => some source
  | position + 1 =>
    (avoiding next closed sink source position).bind fun node =>
      if h : ∃ successor ∈ next node, ¬ Derived (mustReach next closed sink) successor then
        some h.choose
      else (next node).head?

theorem avoiding_maximal (next : Node → List Node) (closed : Node → Prop) (sink source : Node) :
    MaximalPath next source (avoiding next closed sink source) where
  starts := rfl
  goesOn := by
    classical
    intro position node hnode hnext
    rw [avoiding, hnode, bind_some]
    split
    · next hbad => exact ⟨_, hbad.choose_spec.1, rfl⟩
    · obtain ⟨first, rest, hlist⟩ := exists_cons_of_ne_nil hnext
      exact ⟨first, by rw [hlist]; exact mem_cons_self, by rw [hlist]; rfl⟩
  ends := by
    intro position node hnode hnext
    rw [avoiding, hnode, bind_some]
    simp [hnext]
  ended := by
    intro position hnone
    rw [avoiding, hnone]
    rfl

/-- Every maximal path visits the sink exactly when this is derived. -/
theorem derived_iff_paths : Derived (mustReach next closed sink) source ↔
    ∀ path, MaximalPath next source path → Visits closed sink path := by
  constructor
  · intro hderived path hpath
    -- induction on the derivation: the sink is visited from every later position too
    have hlater : ∀ node, Derived (mustReach next closed sink) node →
        ∀ position, path position = some node →
          ∃ later, path (position + later) = some sink ∧ ∀ earlier < later, ∀ node,
            path (position + earlier) = some node → ¬ closed node := by
      intro node hnode
      induction hnode with
      | intro node hadmits hrefused hpremises hconcludes ih =>
        intro position hposition
        have hnode : Derived (mustReach next closed sink) node :=
          .intro node hadmits hrefused hpremises hconcludes
        cases derived_mustReach_iff.mp hnode with
        | inl hsink =>
          exact ⟨0, by rw [Nat.add_zero, hposition, hsink], by simp⟩
        | inr hstep =>
          by_cases hsink : node = sink
          · exact ⟨0, by rw [Nat.add_zero, hposition, hsink], by simp⟩
          obtain ⟨⟨hopen, hnext⟩, -⟩ := hstep
          obtain ⟨successor, hsuccessor, hmoved⟩ := hpath.goesOn position node hposition hnext
          have hmem : some successor ∈ (mustReach next closed sink).obligations node := by
            simpa [mustReach, hsink] using hsuccessor
          obtain ⟨later, hlater, hbefore⟩ := ih successor hmem (position + 1) hmoved
          refine ⟨later + 1, by rw [← hlater]; congr 1; omega, ?_⟩
          intro earlier hearlier other hother
          cases earlier with
          | zero =>
            rw [Nat.add_zero, hposition] at hother
            exact Option.some.inj hother ▸ hopen
          | succ earlier =>
            apply hbefore earlier (by omega) other
            rw [← hother]
            congr 1
            omega
    obtain ⟨later, hsink, hbefore⟩ := hlater source hderived 0 hpath.starts
    rw [Nat.zero_add] at hsink
    exact ⟨later, hsink, fun earlier hearlier node hnode =>
      hbefore earlier hearlier node (by rwa [Nat.zero_add])⟩
  · intro hvisits
    by_contra hnot
    obtain ⟨position, hsink, hopen⟩ := hvisits _ (avoiding_maximal next closed sink source)
    have havoids : ∀ earlier ≤ position, ∀ node,
        avoiding next closed sink source earlier = some node →
          ¬ Derived (mustReach next closed sink) node := by
      intro earlier
      induction earlier with
      | zero =>
        intro _ node hnode
        exact Option.some.inj hnode ▸ hnot
      | succ earlier ih =>
        intro hearlier node hnode
        rw [avoiding, bind_eq_some_iff] at hnode
        obtain ⟨previous, hprevious, hmove⟩ := hnode
        have hbad := ih (by omega) previous hprevious
        rw [derived_mustReach_iff] at hbad
        push Not at hbad
        split at hmove
        · next hexists => exact Option.some.inj hmove ▸ hexists.choose_spec.2
        · next hnone =>
            have hnext : next previous ≠ [] := by
              intro hempty
              simp [hempty] at hmove
            obtain ⟨successor, hsuccessor, hunderived⟩ :=
              hbad.2 ⟨hopen earlier (by omega) previous hprevious, hnext⟩
            exact absurd ⟨successor, hsuccessor, hunderived⟩ hnone
    exact havoids position le_rfl sink hsink (derived_mustReach_iff.mpr (.inl rfl))

end ConvexWasm.ConjunctiveSearch
