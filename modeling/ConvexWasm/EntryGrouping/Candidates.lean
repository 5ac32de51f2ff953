import ConvexWasm.EntryGrouping.Request

/-!
# Candidate pairs

Entries that neighbour each other among the users of a module, or in the order
of their rough costs, are candidates for one group.  Each pair is listed once
and scored by the costs of the modules that both use.
-/

namespace ConvexWasm.EntryGrouping

open Fallible

/-- The users of each module, in the order in which modules are first seen. -/
abbrev Occurrences := List (String × List ℕ)

variable (costs : KeyedMap String ℕ) (occurrences : Occurrences)

def recordOccurrence (index : ℕ) (id : String) : Occurrences :=
  if id ∈ occurrences.map Prod.fst then
    occurrences.map fun occurrence =>
      if occurrence.1 = id then (id, occurrence.2 ++ [index]) else occurrence
  else occurrences ++ [(id, [index])]

variable (normalized : List NormalizedEntry)

def recordOccurrences : Occurrences :=
  normalized.zipIdx.foldl (fun occurrences entry =>
    entry.1.dependencies.foldl (fun occurrences id => recordOccurrence occurrences entry.2 id)
      occurrences) []

def membersOf (id : String) : List ℕ :=
  ((occurrences.find? fun occurrence => decide (occurrence.1 = id)).map Prod.snd).getD []

/-- Two indices, the smaller one first. -/
abbrev CandidatePair := ℕ × ℕ

def connect (pairs : List CandidatePair) (left right : ℕ) : List CandidatePair :=
  let pair := if right < left then (right, left) else (left, right)
  if pair ∈ pairs then pairs else pairs ++ [pair]

/-- Connects each index of the list with the next one. -/
def connectChain (pairs : List CandidatePair) (indices : List ℕ) : List CandidatePair :=
  (indices.zip indices.tail).foldl (fun pairs neighbours =>
    connect pairs neighbours.1 neighbours.2) pairs

variable (bucket : ℕ → ℕ)

/-- The indices in the order of their buckets; `bucket` is the rounded logarithm of
a cost. -/
def costOrder (normalized : List NormalizedEntry) : List ℕ :=
  ((normalized.zipIdx.map fun entry => toLex (bucket entry.1.cost, entry.2)).insertionSort
    (· ≤ ·)).map fun placed => (ofLex placed).2

def candidatePairs (normalized : List NormalizedEntry) : List CandidatePair :=
  connectChain
    (((recordOccurrences normalized).filter fun occurrence =>
      decide (occurrence.2.length ≠ normalized.length)).foldl
        (fun pairs occurrence => connectChain pairs occurrence.2) [])
    (costOrder bucket normalized)

structure ScoredPair where
  left : ℕ
  right : ℕ
  score : ℕ
  deriving DecidableEq

/-- A shared module counts less the more entries use it.  The floor of a quotient of
safe integers is not affected by rounding. -/
def shareOf (id : String) : ℕ :=
  max 1 (costOf costs id / (membersOf occurrences id).length)

def scorePair (left right : List String) : Except String ℕ :=
  let occurrences := recordOccurrences normalized
  let smaller := if left.length ≤ right.length then left else right
  let larger := if left.length ≤ right.length then right else left
  smaller.foldlM (fun score id =>
    if id ∈ larger ∧ (membersOf occurrences id).length < normalized.length then
      addCost score (shareOf costs occurrences id)
    else .ok score) 0

def dependenciesAt (index : ℕ) : List String :=
  (normalized[index]?.map (·.dependencies)).getD []

/-- The scored pairs, the best one first. -/
def scoredPairs (normalized : List NormalizedEntry) : Except String (List ScoredPair) :=
  ((candidatePairs bucket normalized).mapM fun pair =>
    (scorePair costs normalized (dependenciesAt normalized pair.1)
      (dependenciesAt normalized pair.2)).map fun score => ⟨pair.1, pair.2, score⟩).map
    fun scored => scored.insertionSort fun first second : ScoredPair =>
      toLex (OrderDual.toDual first.score, toLex (first.left, first.right)) ≤
        toLex (OrderDual.toDual second.score, toLex (second.left, second.right))

end ConvexWasm.EntryGrouping
