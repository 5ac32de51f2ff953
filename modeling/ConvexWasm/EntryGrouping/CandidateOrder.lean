import ConvexWasm.Core.KeySort
import ConvexWasm.EntryGrouping.Admission

/-!
# Candidates do not depend on the order of modules

Two lists of normalized entries that differ only in the order of the modules
inside each entry have the same users of each module, the same candidate pairs
and the same scores.  The pairs are sorted by their scores and indices, which
leaves no tie.
-/

namespace ConvexWasm.EntryGrouping

open Fallible GuardedAccumulation List

/-- What is left of an entry when the order of its modules is forgotten. -/
def NormalizedEntry.unordered (entry : NormalizedEntry) : String × Multiset String × ℕ :=
  (entry.entryPath, entry.dependencies, entry.cost)

variable {normalized normalized' : List NormalizedEntry}

section Unordered

variable {entry entry' : NormalizedEntry} {index : ℕ}

theorem NormalizedEntry.unordered_eq_iff : entry.unordered = entry'.unordered ↔
    entry.entryPath = entry'.entryPath ∧ entry.dependencies.Perm entry'.dependencies ∧
      entry.cost = entry'.cost := by
  simp [NormalizedEntry.unordered]

section

variable (hsame : normalized.map (·.unordered) = normalized'.map (·.unordered))
include hsame

theorem exists_of_unordered (hentry : normalized[index]? = some entry) :
    ∃ entry', normalized'[index]? = some entry' ∧ entry.unordered = entry'.unordered := by
  have hmap := congrArg (·[index]?) hsame
  simp only [List.getElem?_map, hentry, Option.map_some] at hmap
  obtain ⟨entry', hentry', heq⟩ := Option.map_eq_some_iff.mp hmap.symm
  exact ⟨entry', hentry', heq.symm⟩

theorem length_unordered : normalized.length = normalized'.length := by
  have hlength := congrArg List.length hsame
  rwa [length_map, length_map] at hlength

end

variable {Value : Type}

/-- What is read of an entry apart from the order of its modules is the same. -/
theorem getElem?_map_unordered (read : NormalizedEntry → Value)
    (hread : ∀ entry entry', entry.unordered = entry'.unordered → read entry = read entry')
    (hsame : normalized.map (·.unordered) = normalized'.map (·.unordered)) (index : ℕ) :
    normalized[index]?.map read = normalized'[index]?.map read := by
  cases hentry : normalized[index]? with
  | some entry =>
    obtain ⟨entry', hentry', heq⟩ := exists_of_unordered hsame hentry
    rw [hentry', Option.map_some, Option.map_some, hread _ _ heq]
  | none =>
    have hlength := length_unordered hsame
    rw [List.getElem?_eq_none_iff] at hentry
    rw [List.getElem?_eq_none (hlength ▸ hentry)]

theorem zipIdx_map_unordered (read : NormalizedEntry → ℕ → Value)
    (hread : ∀ entry entry', entry.unordered = entry'.unordered → read entry = read entry')
    (hsame : normalized.map (·.unordered) = normalized'.map (·.unordered)) :
    normalized.zipIdx.map (fun entry => read entry.1 entry.2) =
      normalized'.zipIdx.map fun entry => read entry.1 entry.2 := by
  apply ext_getElem?
  intro index
  have hentry := getElem?_map_unordered read hread hsame index
  rw [List.getElem?_map, List.getElem?_map, List.getElem?_zipIdx, List.getElem?_zipIdx,
    Option.map_map, Option.map_map]
  have happly := congrArg (Option.map fun read : ℕ → Value => read (0 + index)) hentry
  rwa [Option.map_map, Option.map_map] at happly

end Unordered

variable {occurrences : Occurrences} {id : String}

/-- The users of a module that the events record. -/
def usersOf (events : List (String × ℕ)) (id : String) : List ℕ :=
  (events.filter fun event => decide (event.1 = id)).map Prod.snd

/-- The uses of modules in the order in which they are met. -/
def uses (normalized : List NormalizedEntry) : List (String × ℕ) :=
  normalized.zipIdx.flatMap fun entry => entry.1.dependencies.map fun id => (id, entry.2)

/-- The occurrences list each used module once, with its users. -/
structure Recorded (events : List (String × ℕ)) (occurrences : Occurrences) : Prop where
  nodup : (occurrences.map Prod.fst).Nodup
  mem_iff : ∀ id members, (id, members) ∈ occurrences ↔
    members = usersOf events id ∧ members ≠ []

theorem usersOf_append (events : List (String × ℕ)) (event : String × ℕ) (id : String) :
    usersOf (events ++ [event]) id =
      usersOf events id ++ if event.1 = id then [event.2] else [] := by
  by_cases hid : event.1 = id
  · simp [usersOf, hid]
  · simp [usersOf, hid]

variable {events : List (String × ℕ)}

theorem Recorded.keys_iff (hrecorded : Recorded events occurrences) :
    id ∈ occurrences.map Prod.fst ↔ usersOf events id ≠ [] := by
  rw [mem_map]
  constructor
  · intro h
    obtain ⟨⟨_, members⟩, hmem, rfl⟩ := h
    obtain ⟨rfl, hne⟩ := (hrecorded.mem_iff _ _).mp hmem
    exact hne
  · intro hne
    exact ⟨(id, usersOf events id), (hrecorded.mem_iff _ _).mpr ⟨rfl, hne⟩, rfl⟩

theorem Recorded.record (hrecorded : Recorded events occurrences) (event : String × ℕ) :
    Recorded (events ++ [event]) (recordOccurrence occurrences event.2 event.1) := by
  obtain ⟨used, user⟩ := event
  unfold recordOccurrence
  split_ifs with hlisted
  · have hkeys : (occurrences.map fun occurrence : String × List ℕ =>
        if occurrence.1 = used then (used, occurrence.2 ++ [user]) else occurrence).map Prod.fst =
          occurrences.map Prod.fst := by
      rw [map_map]
      apply map_congr_left
      intro occurrence _
      by_cases hid : occurrence.1 = used <;> simp [hid]
    refine ⟨hkeys ▸ hrecorded.nodup, ?_⟩
    intro id members
    rw [usersOf_append, mem_map]
    by_cases hid : used = id
    · subst hid
      rw [if_pos rfl]
      constructor
      · intro h
        obtain ⟨⟨key, before⟩, hmem, heq⟩ := h
        by_cases hkey : key = used
        · subst hkey
          rw [if_pos rfl] at heq
          obtain ⟨rfl, -⟩ := (hrecorded.mem_iff _ _).mp hmem
          obtain ⟨-, rfl⟩ := Prod.mk.inj heq
          exact ⟨rfl, by simp⟩
        · rw [if_neg hkey] at heq
          exact absurd (Prod.mk.inj heq).1 hkey
      · intro h
        obtain ⟨rfl, -⟩ := h
        exact ⟨(used, usersOf events used),
          (hrecorded.mem_iff _ _).mpr ⟨rfl, hrecorded.keys_iff.mp hlisted⟩, if_pos rfl⟩
    · rw [if_neg hid, List.append_nil, ← hrecorded.mem_iff]
      constructor
      · intro h
        obtain ⟨⟨key, before⟩, hmem, heq⟩ := h
        by_cases hkey : key = used
        · rw [if_pos hkey] at heq
          exact absurd (Prod.mk.inj heq).1 hid
        · rw [if_neg hkey] at heq
          exact heq ▸ hmem
      · intro hmem
        exact ⟨(id, members), hmem, if_neg (Ne.symm hid)⟩
  · have hnone : usersOf events used = [] := by
      by_contra hne
      exact hlisted (hrecorded.keys_iff.mpr hne)
    refine ⟨?_, ?_⟩
    · rw [map_append]
      exact nodup_append.mpr ⟨hrecorded.nodup, nodup_singleton _,
        fun first hfirst second hsecond heq => by
          obtain rfl : second = used := by simpa using hsecond
          exact hlisted (heq ▸ hfirst)⟩
    · intro id members
      rw [usersOf_append, mem_append, mem_singleton, hrecorded.mem_iff, Prod.mk.injEq]
      by_cases hid : used = id
      · subst hid
        simp only [hnone, if_true, nil_append, true_and]
        constructor
        · intro h
          rcases h with ⟨rfl, hne⟩ | rfl
          · exact absurd rfl hne
          · exact ⟨rfl, by simp⟩
        · exact fun h => .inr h.1
      · simp [hid, Ne.symm hid]

theorem recorded_occurrences (normalized : List NormalizedEntry) :
    Recorded (uses normalized) (recordOccurrences normalized) := by
  have hfold : recordOccurrences normalized = (uses normalized).foldl
      (fun occurrences event => recordOccurrence occurrences event.2 event.1) [] := by
    rw [recordOccurrences, uses, foldl_flatMap]
    congr 1
    funext occurrences entry
    rw [foldl_map]
  have hall : ∀ (later : List (String × ℕ)) (earlier : List (String × ℕ))
      (occurrences : Occurrences), Recorded earlier occurrences →
        Recorded (earlier ++ later) (later.foldl
          (fun occurrences event => recordOccurrence occurrences event.2 event.1)
          occurrences) := by
    intro later
    induction later with
    | nil =>
      intro earlier occurrences hrecorded
      rwa [List.append_nil]
    | cons event rest ih =>
      intro earlier occurrences hrecorded
      rw [append_cons]
      exact ih _ _ (hrecorded.record event)
  rw [hfold]
  exact hall (uses normalized) [] [] ⟨by simp, by simp [usersOf]⟩

section Pairs

variable {pair : CandidatePair}

section

variable (hsame : normalized.map (·.unordered) = normalized'.map (·.unordered))
include hsame

theorem usersOf_unordered (id : String) :
    usersOf (uses normalized) id = usersOf (uses normalized') id := by
  have husers : ∀ normalized : List NormalizedEntry, usersOf (uses normalized) id =
      (normalized.zipIdx.map fun entry =>
        List.replicate (entry.1.dependencies.count id) entry.2).flatten := by
    intro normalized
    rw [usersOf, uses, filter_flatMap, map_flatMap, flatMap_def]
    congr 2
    funext entry
    rw [filter_map, map_map]
    change (entry.1.dependencies.filter fun other => decide (other = id)).map
      (fun _ => entry.2) = _
    rw [map_const', ← countP_eq_length_filter]
    rfl
  rw [husers, husers]
  congr 1
  apply zipIdx_map_unordered (fun entry index =>
    List.replicate (entry.dependencies.count id) index) _ hsame
  intro entry entry' hentry
  rw [(NormalizedEntry.unordered_eq_iff.mp hentry).2.1.count_eq]

/-- The same modules have the same users. -/
theorem recordOccurrences_unordered :
    (recordOccurrences normalized).Perm (recordOccurrences normalized') := by
  have hrecorded := recorded_occurrences normalized
  have hrecorded' := recorded_occurrences normalized'
  rw [perm_ext_iff_of_nodup hrecorded.nodup.of_map hrecorded'.nodup.of_map]
  intro occurrence
  rw [hrecorded.mem_iff, hrecorded'.mem_iff, usersOf_unordered hsame]

end

theorem membersOf_eq (normalized : List NormalizedEntry) (id : String) :
    membersOf (recordOccurrences normalized) id = usersOf (uses normalized) id := by
  have hrecorded := recorded_occurrences normalized
  rw [membersOf]
  cases hfind : (recordOccurrences normalized).find? fun occurrence =>
      decide (occurrence.1 = id) with
  | some occurrence =>
    obtain ⟨key, members⟩ := occurrence
    obtain rfl : key = id := by simpa using List.find?_some hfind
    exact ((hrecorded.mem_iff _ _).mp (mem_of_find?_eq_some hfind)).1
  | none =>
    by_contra hne
    obtain ⟨occurrence, hmem, hid⟩ :=
      mem_map.mp (hrecorded.keys_iff.mpr (Ne.symm hne))
    have hother := List.find?_eq_none.mp hfind occurrence hmem
    exact hother (decide_eq_true hid)

/-- The neighbours in a list, the smaller index first. -/
def neighbours (indices : List ℕ) : List CandidatePair :=
  (indices.zip indices.tail).map fun pair => if pair.2 < pair.1 then (pair.2, pair.1) else pair

variable {pairs : List CandidatePair}

theorem mem_connect {left right : ℕ} :
    pair ∈ connect pairs left right ↔
      pair ∈ pairs ∨ pair = if right < left then (right, left) else (left, right) := by
  unfold connect
  dsimp only
  generalize (if right < left then (right, left) else (left, right)) = added
  split_ifs with hlisted
  · exact ⟨.inl, fun h => h.elim id fun heq => heq ▸ hlisted⟩
  · rw [mem_append, mem_singleton]

theorem connect_nodup (hpairs : pairs.Nodup) (left right : ℕ) :
    (connect pairs left right).Nodup := by
  unfold connect
  dsimp only
  generalize (if right < left then (right, left) else (left, right)) = added
  split_ifs with hlisted
  · exact hpairs
  · exact concat_eq_append ▸ hpairs.concat hlisted

theorem connectChain_spec (hpairs : pairs.Nodup) (indices : List ℕ) :
    (connectChain pairs indices).Nodup ∧
      ∀ pair, pair ∈ connectChain pairs indices ↔ pair ∈ pairs ∨ pair ∈ neighbours indices := by
  unfold connectChain neighbours
  generalize indices.zip indices.tail = chain
  induction chain generalizing pairs with
  | nil => exact ⟨hpairs, by simp⟩
  | cons next rest ih =>
    obtain ⟨hnodup, hmem⟩ := ih (connect_nodup hpairs next.1 next.2)
    refine ⟨hnodup, ?_⟩
    intro pair
    rw [foldl_cons, hmem, mem_connect, map_cons, mem_cons, or_assoc]

theorem connectChains_spec (chains : List (String × List ℕ)) (hpairs : pairs.Nodup) :
    (chains.foldl (fun pairs chain => connectChain pairs chain.2) pairs).Nodup ∧
      ∀ pair, pair ∈ chains.foldl (fun pairs chain => connectChain pairs chain.2) pairs ↔
        pair ∈ pairs ∨ ∃ chain ∈ chains, pair ∈ neighbours chain.2 := by
  induction chains generalizing pairs with
  | nil => exact ⟨hpairs, by simp⟩
  | cons chain rest ih =>
    obtain ⟨hfirst, hchain⟩ := connectChain_spec hpairs chain.2
    obtain ⟨hnodup, hmem⟩ := ih hfirst
    refine ⟨hnodup, ?_⟩
    intro pair
    rw [foldl_cons, hmem, hchain]
    simp [or_assoc]

variable (bucket : ℕ → ℕ) (hsame : normalized.map (·.unordered) = normalized'.map (·.unordered))
include bucket hsame

theorem costOrder_unordered : costOrder bucket normalized = costOrder bucket normalized' := by
  have hplaced : normalized.zipIdx.map (fun entry => toLex (bucket entry.1.cost, entry.2)) =
      normalized'.zipIdx.map fun entry => toLex (bucket entry.1.cost, entry.2) :=
    zipIdx_map_unordered (fun entry index => toLex (bucket entry.cost, index))
      (fun entry entry' hentry => by
        rw [(NormalizedEntry.unordered_eq_iff.mp hentry).2.2]) hsame
  rw [costOrder, costOrder, hplaced]

/-- The same pairs are candidates, in some order. -/
theorem candidatePairs_unordered :
    (candidatePairs bucket normalized).Perm (candidatePairs bucket normalized') := by
  have hspec : ∀ normalized : List NormalizedEntry, (candidatePairs bucket normalized).Nodup ∧
      ∀ pair, pair ∈ candidatePairs bucket normalized ↔
        (∃ chain ∈ recordOccurrences normalized, chain.2.length ≠ normalized.length ∧
          pair ∈ neighbours chain.2) ∨ pair ∈ neighbours (costOrder bucket normalized) := by
    intro normalized
    obtain ⟨hfirst, hchains⟩ := connectChains_spec ((recordOccurrences normalized).filter
      fun occurrence => decide (occurrence.2.length ≠ normalized.length)) nodup_nil
    obtain ⟨hnodup, hmem⟩ := connectChain_spec hfirst (costOrder bucket normalized)
    refine ⟨hnodup, ?_⟩
    intro pair
    rw [candidatePairs, hmem, hchains]
    simp [and_assoc]
  rw [perm_ext_iff_of_nodup (hspec normalized).1 (hspec normalized').1]
  intro pair
  rw [(hspec normalized).2, (hspec normalized').2, costOrder_unordered bucket hsame,
    length_unordered hsame]
  simp only [(recordOccurrences_unordered hsame).mem_iff]

end Pairs

variable {costs costs' : KeyedMap String ℕ} {left right left' right' : List String} {score : ℕ}

/-- What a module of the smaller entry adds to the score. -/
def scoreEffect (costs : KeyedMap String ℕ) (normalized : List NormalizedEntry)
    (larger : List String) (id : String) : ℕ :=
  if id ∈ larger ∧ (usersOf (uses normalized) id).length < normalized.length then
    max 1 (costOf costs id / (usersOf (uses normalized) id).length)
  else 0

def scoreOf (costs : KeyedMap String ℕ) (normalized : List NormalizedEntry)
    (left right : List String) : ℕ :=
  if left.length ≤ right.length then (left.map (scoreEffect costs normalized right)).sum
  else (right.map (scoreEffect costs normalized left)).sum

theorem scoreStep_guarded (costs : KeyedMap String ℕ) (normalized : List NormalizedEntry)
    (larger : List String) :
    Guarded (fun score id =>
      if id ∈ larger ∧
          (membersOf (recordOccurrences normalized) id).length < normalized.length then
        addCost score (shareOf costs (recordOccurrences normalized) id)
      else .ok score) (fun _ => True) (scoreEffect costs normalized larger)
      (· ≤ maxSafeInteger) where
  bound_of_add := fun total extra => (Nat.le_add_right total extra).trans
  sound := by
    intro score id score' hok
    unfold scoreEffect
    rw [shareOf, membersOf_eq] at hok
    split_ifs at hok ⊢ with hshared
    · obtain ⟨rfl, hsafe⟩ := addCost_eq_ok.mp hok
      exact ⟨trivial, rfl, fun _ => hsafe⟩
    · obtain rfl := Except.ok.inj hok
      exact ⟨trivial, rfl, fun hsafe => hsafe⟩
  complete := by
    intro score id _ hsafe
    unfold scoreEffect at *
    rw [shareOf, membersOf_eq]
    split_ifs at hsafe ⊢ with hshared
    · exact addCost_eq_ok.mpr ⟨rfl, hsafe⟩
    · rfl

theorem scorePair_eq_ok : scorePair costs normalized left right = .ok score ↔
    scoreOf costs normalized left right ≤ maxSafeInteger ∧
      score = scoreOf costs normalized left right := by
  have hfold : ∀ smaller larger : List String, smaller.foldlM (fun score id =>
      if id ∈ larger ∧
          (membersOf (recordOccurrences normalized) id).length < normalized.length then
        addCost score (shareOf costs (recordOccurrences normalized) id)
      else .ok score) 0 = .ok score ↔
        (smaller.map (scoreEffect costs normalized larger)).sum ≤ maxSafeInteger ∧
          score = (smaller.map (scoreEffect costs normalized larger)).sum := by
    intro smaller larger
    have hguarded := scoreStep_guarded costs normalized larger
    constructor
    · intro hok
      obtain ⟨-, htotal, hsafe⟩ := hguarded.foldlM_sound hok
      rw [zero_add] at htotal
      exact ⟨htotal ▸ hsafe (Nat.zero_le _), htotal⟩
    · intro h
      obtain ⟨hsafe, rfl⟩ := h
      have hok := hguarded.foldlM_complete (fun id (_ : id ∈ smaller) => trivial)
        ((zero_add (smaller.map (scoreEffect costs normalized larger)).sum).symm ▸ hsafe)
      rwa [zero_add] at hok
  rw [scorePair, scoreOf]
  split_ifs with hsize
  · exact hfold left right
  · exact hfold right left

section

variable (hsame : normalized.map (·.unordered) = normalized'.map (·.unordered))
include hsame

/-- The score does not depend on the order of modules. -/
theorem scoreOf_unordered (hcosts : costOf costs = costOf costs') (hleft : left.Perm left')
    (hright : right.Perm right') :
    scoreOf costs normalized left right = scoreOf costs' normalized' left' right' := by
  have heffect : ∀ larger larger' : List String, larger.Perm larger' →
      scoreEffect costs normalized larger = scoreEffect costs' normalized' larger' := by
    intro larger larger' hperm
    funext id
    rw [scoreEffect, scoreEffect, usersOf_unordered hsame, length_unordered hsame, hcosts]
    simp only [hperm.mem_iff]
  rw [scoreOf, scoreOf, hleft.length_eq, hright.length_eq, heffect right right' hright,
    heffect left left' hleft, (hleft.map _).sum_eq, (hright.map _).sum_eq]

theorem dependenciesAt_unordered (index : ℕ) :
    (dependenciesAt normalized index).Perm (dependenciesAt normalized' index) := by
  have hentry := getElem?_map_unordered
    (fun entry => (entry.dependencies : Multiset String))
    (fun entry entry' hentry =>
      Multiset.coe_eq_coe.mpr (NormalizedEntry.unordered_eq_iff.mp hentry).2.1) hsame index
  rw [dependenciesAt, dependenciesAt]
  cases hfound : normalized[index]? with
  | none =>
    rw [hfound, Option.map_none] at hentry
    rw [Option.map_eq_none_iff.mp hentry.symm]
  | some entry =>
    rw [hfound, Option.map_some] at hentry
    obtain ⟨entry', hfound', heq⟩ := Option.map_eq_some_iff.mp hentry.symm
    rw [hfound']
    exact (Multiset.coe_eq_coe.mp heq).symm

/-- The scored pairs come in the same order. -/
theorem scoredPairs_unordered (hcosts : costOf costs = costOf costs') (bucket : ℕ → ℕ)
    {scored : List ScoredPair} (hscored : scoredPairs costs bucket normalized = .ok scored) :
    scoredPairs costs' bucket normalized' = .ok scored := by
  have hstep : ∀ (costs : KeyedMap String ℕ) (normalized : List NormalizedEntry)
      (pair : CandidatePair) (result : ScoredPair),
      (scorePair costs normalized (dependenciesAt normalized pair.1)
        (dependenciesAt normalized pair.2)).map
          (fun score => (⟨pair.1, pair.2, score⟩ : ScoredPair)) = .ok result ↔
        scoreOf costs normalized (dependenciesAt normalized pair.1)
            (dependenciesAt normalized pair.2) ≤ maxSafeInteger ∧
          result = ⟨pair.1, pair.2, scoreOf costs normalized (dependenciesAt normalized pair.1)
            (dependenciesAt normalized pair.2)⟩ := by
    intro costs normalized pair result
    rw [map_eq_ok]
    simp only [scorePair_eq_ok]
    constructor
    · intro h
      obtain ⟨_, ⟨hsafe, rfl⟩, rfl⟩ := h
      exact ⟨hsafe, rfl⟩
    · intro h
      obtain ⟨hsafe, rfl⟩ := h
      exact ⟨_, ⟨hsafe, rfl⟩, rfl⟩
  have hscore : ∀ pair : CandidatePair,
      scoreOf costs normalized (dependenciesAt normalized pair.1)
          (dependenciesAt normalized pair.2) =
        scoreOf costs' normalized' (dependenciesAt normalized' pair.1)
          (dependenciesAt normalized' pair.2) := fun pair =>
    scoreOf_unordered hsame hcosts (dependenciesAt_unordered hsame _)
      (dependenciesAt_unordered hsame _)
  have hpairs := candidatePairs_unordered bucket hsame
  obtain ⟨results, hresults, rfl⟩ := map_eq_ok.mp hscored
  obtain ⟨hsafe, rfl⟩ := (mapM_eq_ok_map_iff (hstep costs normalized)).mp hresults
  refine map_eq_ok.mpr ⟨_, (mapM_eq_ok_map_iff (hstep costs' normalized')).mpr ⟨?_, rfl⟩, ?_⟩
  · intro pair hpair
    rw [← hscore]
    exact hsafe pair (hpairs.mem_iff.mpr hpair)
  · simp only [← hscore]
    apply (KeySort.insertionSort_eq_of_perm _ (hpairs.map _) _).symm
    intro first _ second _ heq
    obtain ⟨left, right, score⟩ := first
    obtain ⟨left', right', score'⟩ := second
    simpa [Prod.ext_iff, and_comm, and_assoc] using heq

end

end ConvexWasm.EntryGrouping
