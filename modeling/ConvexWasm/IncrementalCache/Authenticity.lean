import ConvexWasm.IncrementalCache.Sharing

/-!
# What a lookup returns was inserted

If codes are not forged and keys do not collide, a lookup returns only values that were
inserted under its namespace and key, whatever happens to the files, and it never changes
a file.  It may also end with an error.
-/

namespace ConvexWasm.IncrementalCache

variable {hashes : Hashes} {secret : Digest}

/-- The systems that follow one another. -/
structure Run (hashes : Hashes) (secret : Digest) where
  states : ℕ → System
  start : states 0 = .start
  step : ∀ n, Step hashes secret (states n) (states (n + 1))

/-- The key that is stored for a namespace and a key. -/
def storedKey (hashes : Hashes) (owner : Digest) (key : List UInt8) : Digest :=
  hashes.sha256 (magic ++ owner.bytes ++ key)

/-- A code that is verified was computed for an insertion. -/
def Unforged (hashes : Hashes) (secret : Digest) (system : System) : Prop :=
  ∀ process owner key position inode length header,
    system.processes process = .reading owner key (.headed position inode length header) →
    let value := readValue system.directory position.layout inode
    (cacheOf hashes secret owner).authenticates header value = true →
      ∃ insertion ∈ system.inserted, header.take 40 ++ value =
        named (storedKey hashes insertion.owner insertion.key) ++ insertion.value

/-- The key of a lookup collides with no other that was inserted. -/
def CollisionFree (hashes : Hashes) (system : System) : Prop :=
  ∀ process owner key at_, system.processes process = .reading owner key at_ →
    ∀ insertion ∈ system.inserted,
      storedKey hashes owner key = storedKey hashes insertion.owner insertion.key →
      owner = insertion.owner ∧ key = insertion.key

/-- The header that was read names the key, and the value that was found was inserted. -/
def Sound (hashes : Hashes) (inserted : List Insertion) (owner : Digest) (key : List UInt8) :
    Reading → Prop
  | .headed _ _ _ header => header.take 40 = named (storedKey hashes owner key)
  | .done (.ok (some value)) => ⟨owner, key, value⟩ ∈ inserted
  | _ => True

section Steps

variable {system : System} {process : ℕ} {owner : Digest} {key : List UInt8} {at_ : Reading}

/-- The first 40 bytes of a header are checked one part after the other. -/
theorem take_header {digest : Digest} {header : List UInt8} (hmagic : hasMagic header = true)
    (hkey : namesKey digest header = true) : header.take 40 = named digest := by
  have hfirst : header.take 8 = magic := of_decide_eq_true hmagic
  have hsecond : (header.drop 8).take 32 = digest.bytes := of_decide_eq_true hkey
  calc header.take 40 = header.take (8 + 32) := rfl
    _ = header.take 8 ++ (header.drop 8).take 32 := List.take_add
    _ = named digest := by rw [hfirst, hsecond, named]

variable (hunforged : Unforged hashes secret system) (hcollision : CollisionFree hashes system)
include hunforged hcollision

/-- A value whose code is verified was inserted under the key that the header names. -/
theorem mem_inserted {position : Position} {inode length : ℕ} {header : List UInt8}
    (hreading : system.processes process =
      .reading owner key (.headed position inode length header))
    (hheader : header.take 40 = named (storedKey hashes owner key))
    (hauthentic : (cacheOf hashes secret owner).authenticates header
      (readValue system.directory position.layout inode) = true) :
    ⟨owner, key, readValue system.directory position.layout inode⟩ ∈ system.inserted := by
  obtain ⟨insertion, hmem, hmessage⟩ := hunforged _ _ _ _ _ _ _ hreading hauthentic
  rw [hheader] at hmessage
  have hlength : (named (storedKey hashes owner key)).length =
      (named (storedKey hashes insertion.owner insertion.key)).length := by
    rw [length_named, length_named]
  obtain ⟨hnamed, hvalue⟩ := List.append_inj hmessage hlength
  obtain ⟨howner, hkey⟩ := hcollision _ _ _ _ hreading insertion hmem (named_injective hnamed)
  rw [howner, hkey, hvalue]
  exact hmem

/-- One step of a lookup. -/
theorem sound_readStep (hreading : system.processes process = .reading owner key at_)
    (hsound : Sound hashes system.inserted owner key at_) :
    Sound hashes system.inserted owner key
      ((cacheOf hashes secret owner).readStep (storedKey hashes owner key)
        system.directory at_) := by
  cases at_ with
  | hints later =>
    cases later with
    | nil => trivial
    | cons tier later =>
      rw [Cache.readStep]
      split <;> trivial
  | ways position =>
    obtain ⟨tier, layout, hinted, later⟩ := position
    cases hinted with
    | nil => trivial
    | cons way hinted =>
      rw [Cache.readStep]
      split <;> trivial
  | opened position inode =>
    rw [Cache.readStep]
    split <;> trivial
  | sized position inode length =>
    rw [Cache.readStep]
    split
    · trivial
    · split
      · trivial
      case isFalse hmagic =>
        split
        · trivial
        case isFalse hkey =>
          exact take_header (by simpa using hmagic) (by simpa using hkey)
  | headed position inode length header =>
    rw [Cache.readStep]
    split
    · trivial
    case isFalse hverified =>
      simp only [Bool.or_eq_true, not_or, Bool.not_eq_true, Bool.not_eq_false'] at hverified
      exact mem_inserted hunforged hcollision hreading hsound hverified.2
  | done result => exact hsound

end Steps

section Runs

variable {system system' : System}

/-- The lookups of a system are sound. -/
def AllSound (hashes : Hashes) (system : System) : Prop :=
  ∀ process owner key at_, system.processes process = .reading owner key at_ →
    Sound hashes system.inserted owner key at_

/-- More insertions leave a lookup sound. -/
theorem Sound.mono {inserted inserted' : List Insertion} {owner : Digest} {key : List UInt8}
    {at_ : Reading} (hsound : Sound hashes inserted owner key at_)
    (hsubset : inserted ⊆ inserted') : Sound hashes inserted' owner key at_ := by
  cases at_ with
  | headed position inode length header => exact hsound
  | done result =>
    cases result with
    | error message => trivial
    | ok found =>
      cases found with
      | none => trivial
      | some value => exact hsubset hsound
  | _ => trivial

/-- Only the process that takes a step is at another place. -/
theorem AllSound.set {process : ℕ} {state : Process} {inserted : List Insertion}
    (hall : AllSound hashes system) (hsubset : system.inserted ⊆ inserted)
    (hstate : ∀ owner key at_, state = .reading owner key at_ →
      Sound hashes inserted owner key at_) {other : ℕ} {owner : Digest} {key : List UInt8}
    {at_ : Reading}
    (hreading : (system.set process state).processes other = .reading owner key at_) :
    Sound hashes inserted owner key at_ := by
  by_cases hother : other = process
  · subst hother
    rw [System.set_processes_self] at hreading
    exact hstate _ _ _ hreading
  · rw [System.set_processes_of_ne system hother] at hreading
    exact (hall _ _ _ _ hreading).mono hsubset

theorem allSound_step (hunforged : Unforged hashes secret system)
    (hcollision : CollisionFree hashes system) (hall : AllSound hashes system)
    (hstep : Step hashes secret system system') : AllSound hashes system' := by
  intro other owner' key' at' hreading
  cases hstep with
  | lookup owner key hidle =>
    refine hall.set (List.Subset.refl _) (fun _ _ _ hstate => ?_) hreading
    cases hstate
    trivial
  | insert owner key value hidle =>
    refine hall.set (List.subset_cons_self _ _) (fun _ _ _ hstate => ?_) hreading
    cases hstate
  | read hprocess =>
    refine hall.set (List.Subset.refl _) (fun _ _ _ hstate => ?_) hreading
    cases hstate
    exact sound_readStep hunforged hcollision hprocess (hall _ _ _ _ hprocess)
  | write time hprocess hlock =>
    refine hall.set (List.Subset.refl _) (fun _ _ _ hstate => ?_) hreading
    cases hstate
  | stop process =>
    refine hall.set (List.Subset.refl _) (fun _ _ _ hstate => ?_) hreading
    cases hstate
  | corrupt directory => exact hall _ _ _ _ hreading

theorem Run.allSound (run : Run hashes secret)
    (hunforged : ∀ n, Unforged hashes secret (run.states n))
    (hcollision : ∀ n, CollisionFree hashes (run.states n)) (n : ℕ) :
    AllSound hashes (run.states n) := by
  induction n with
  | zero =>
    intro process owner key at_ hreading
    rw [run.start] at hreading
    cases hreading
  | succ n ih => exact allSound_step (hunforged n) (hcollision n) ih (run.step n)

/-- A step of a lookup changes no file. -/
theorem directory_of_lookup {process : ℕ} {owner : Digest} {key : List UInt8} {at_ : Reading}
    (hstep : Step hashes secret system system')
    (hreading : system.processes process = .reading owner key at_)
    (hmoved : system'.processes process ≠ system.processes process) :
    system'.directory = system.directory := by
  cases hstep with
  | write time hprocess hlock =>
    refine absurd (System.set_processes_of_ne system ?_ _) hmoved
    rintro rfl
    rw [hreading] at hprocess
    cases hprocess
  | corrupt directory => exact absurd rfl hmoved
  | _ => rfl

/-- Whatever happens to the files, a value that a lookup returns was inserted under its
namespace and key, and lookups, also those that miss or fail, change no file. -/
theorem lookup_authentic (run : Run hashes secret)
    (hunforged : ∀ n, Unforged hashes secret (run.states n))
    (hcollision : ∀ n, CollisionFree hashes (run.states n)) :
    (∀ n process owner key value,
      (run.states n).processes process = .reading owner key (.done (.ok (some value))) →
        ⟨owner, key, value⟩ ∈ (run.states n).inserted) ∧
      ∀ n process owner key at_, (run.states n).processes process = .reading owner key at_ →
        (run.states (n + 1)).processes process ≠ (run.states n).processes process →
        (run.states (n + 1)).directory = (run.states n).directory :=
  ⟨fun n _ _ _ _ hdone => run.allSound hunforged hcollision n _ _ _ _ hdone,
    fun n _ _ _ _ hreading hmoved => directory_of_lookup (run.step n) hreading hmoved⟩

/-- The code of the record and the hash of the key below. -/
def sampleHashes : Hashes where
  sha256 := fun _ =>
    ⟨[128, 154, 59, 118, 60, 44, 106, 124, 107, 186, 236, 213, 141, 107, 38, 59, 30, 132, 75, 60,
      102, 215, 68, 188, 122, 40, 241, 183, 166, 185, 218, 24], rfl⟩
  hmac := fun _ _ =>
    ⟨[24, 24, 121, 214, 244, 103, 18, 17, 184, 53, 159, 72, 123, 178, 217, 194, 226, 135, 89, 89,
      228, 84, 215, 13, 234, 35, 57, 100, 218, 2, 224, 26], rfl⟩

def sampleSecret : Digest := ⟨List.replicate 32 7, rfl⟩

def sampleInsertion : Insertion where
  owner := ⟨List.replicate 32 1, rfl⟩
  key := "f394".toList.map fun char => UInt8.ofNat char.toNat
  value := [1]

def sampleCache : Cache := cacheOf sampleHashes sampleSecret sampleInsertion.owner

def sampleKey : Digest := sampleHashes.sha256 []

/-- A record and its hint were copied here, and the index was cut behind the first set. -/
def sampleDirectory : Directory where
  index := sampleKey.bytes ++ List.replicate 2016 0
  entries := fun name => if name = .slot ⟨0, 0, 0⟩ then some (.file 0) else none
  contents := fun _ => sampleCache.record sampleKey [1]
  modified := fun _ => 0
  next := 1

variable (directory : Directory)

/-- Another process has begun to insert the value. -/
def sampleSystem : System where
  directory := directory
  processes := Function.update (fun _ => .idle) 1
    (.writing sampleInsertion.owner sampleInsertion.key sampleInsertion.value .sizing)
  holder := fun _ => none
  inserted := [sampleInsertion]

def sampleLookup (reading : Reading) : System :=
  (sampleSystem directory).set 0
    (.reading sampleInsertion.owner sampleInsertion.key reading)

variable (reading : ℕ → Reading)

def sampleStates : ℕ → System
  | 0 => .start
  | 1 => sampleSystem .empty
  | 2 => sampleSystem directory
  | n + 3 => sampleLookup directory (reading n)

theorem sampleLookup_step (reading : Reading) :
    Step sampleHashes sampleSecret (sampleLookup directory reading)
      (sampleLookup directory (sampleCache.readStep sampleKey directory reading)) := by
  have hreading : (sampleLookup directory reading).processes 0 =
      .reading sampleInsertion.owner sampleInsertion.key reading :=
    System.set_processes_self ..
  have hread : Step sampleHashes sampleSecret _ _ := .read hreading
  rw [System.set, sampleLookup, System.set] at hread
  rw [Function.update_idem] at hread
  exact hread

/-- A lookup that is alone with the damaged files. -/
def sampleRun (hstart : reading 0 = .hints tiers.zipIdx)
    (hnext : ∀ n, sampleCache.readStep sampleKey directory (reading n) = reading (n + 1)) :
    Run sampleHashes sampleSecret where
  states := sampleStates directory reading
  start := rfl
  step
    | 0 => by
      have hidle : System.start.processes 1 = .idle := rfl
      exact .insert _ _ _ hidle
    | 1 => .corrupt directory
    | 2 => by
      have hidle : (sampleSystem directory).processes 0 = .idle := rfl
      have hlookup : Step sampleHashes sampleSecret _ _ :=
        .lookup sampleInsertion.owner sampleInsertion.key hidle
      rw [← hstart] at hlookup
      exact hlookup
    | n + 3 => by
      have hread := sampleLookup_step directory (reading n)
      rw [hnext n] at hread
      exact hread

theorem sampleStates_reading {directory : Directory} {reading : ℕ → Reading} {n process : ℕ}
    {owner : Digest} {key : List UInt8} {at_ : Reading}
    (hreading : (sampleStates directory reading n).processes process =
      .reading owner key at_) :
    ∃ m, n = m + 3 ∧ at_ = reading m ∧ owner = sampleInsertion.owner ∧
      key = sampleInsertion.key := by
  have hnone : ∀ directory, (sampleSystem directory).processes process ≠
      .reading owner key at_ := by
    intro directory heq
    by_cases hwriter : process = 1
    · subst hwriter
      cases heq
    · have hidle : (sampleSystem directory).processes process = .idle := by
        simp [sampleSystem, hwriter]
      rw [hidle] at heq
      cases heq
  match n, hreading with
  | 0, hreading => cases hreading
  | 1, hreading => exact absurd hreading (hnone _)
  | 2, hreading => exact absurd hreading (hnone _)
  | m + 3, hreading =>
    rw [sampleStates, sampleLookup] at hreading
    by_cases hprocess : process = 0
    · subst hprocess
      cases hreading
      exact ⟨m, rfl, rfl, rfl, rfl⟩
    · rw [System.set_processes_of_ne _ hprocess] at hreading
      exact absurd hreading (hnone _)

/-- Only one key is used. -/
theorem sampleStates_collisionFree (n : ℕ) :
    CollisionFree sampleHashes (sampleStates directory reading n) := by
  intro process owner key at_ hreading insertion hmem _
  obtain ⟨m, rfl, _, rfl, rfl⟩ := sampleStates_reading hreading
  rw [List.mem_singleton.mp hmem]
  exact ⟨rfl, rfl⟩

/-- The places of a lookup that finds the copied record. -/
def foundReading : ℕ → Reading
  | 0 => .hints tiers.zipIdx
  | 1 => .ways ⟨0, ⟨384, 64, 4096⟩, [0], tiers.zipIdx.tail⟩
  | 2 => .opened ⟨0, ⟨384, 64, 4096⟩, [], tiers.zipIdx.tail⟩ 0
  | 3 => .sized ⟨0, ⟨384, 64, 4096⟩, [], tiers.zipIdx.tail⟩ 0 73
  | 4 => .headed ⟨0, ⟨384, 64, 4096⟩, [], tiers.zipIdx.tail⟩ 0 73
      (sampleCache.header sampleKey [1])
  | _ + 5 => .done (.ok (some [1]))

theorem foundReading_next (n : ℕ) :
    sampleCache.readStep sampleKey sampleDirectory (foundReading n) = foundReading (n + 1) := by
  match n with
  | 0 =>
    have hhints : readExactAt (indexSetOffset sampleKey 0 ⟨384, 64, 4096⟩) (64 * 32)
        sampleDirectory.index = some (slice 0 2048 sampleDirectory.index) := by decide +kernel
    have hhinted : ((List.range 64).filter fun way =>
        hintOf way (slice 0 2048 sampleDirectory.index) = sampleKey.bytes) = [0] := by
      decide +kernel
    have hstep : sampleCache.readStep sampleKey sampleDirectory (.hints tiers.zipIdx) =
        .ways ⟨0, ⟨384, 64, 4096⟩, (List.range 64).filter fun way =>
          hintOf way (slice 0 2048 sampleDirectory.index) = sampleKey.bytes,
          tiers.zipIdx.tail⟩ := by
      rw [show tiers.zipIdx = (⟨384, 64, 4096⟩, 0) :: tiers.zipIdx.tail from rfl,
        Cache.readStep]
      dsimp only
      rw [hhints]
      rfl
    rw [foundReading, hstep, hhinted]
    rfl
  | 1 => rfl
  | 2 => rfl
  | 3 => rfl
  | 4 => rfl
  | _ + 5 => rfl

theorem foundReading_unforged (n : ℕ) :
    Unforged sampleHashes sampleSecret (sampleStates sampleDirectory foundReading n) := by
  intro process owner key position inode length header hreading value _
  obtain ⟨m, rfl, hplace, _, _⟩ := sampleStates_reading hreading
  match m, hplace with
  | 4, hplace =>
    cases hplace
    exact ⟨sampleInsertion, List.mem_singleton_self _, rfl⟩

theorem lookup_authentic_sample :
    sampleInsertion ∈
      ((sampleRun sampleDirectory foundReading rfl foundReading_next).states 8).inserted :=
  (lookup_authentic (sampleRun sampleDirectory foundReading rfl foundReading_next)
    foundReading_unforged (sampleStates_collisionFree sampleDirectory foundReading)).1
    8 0 sampleInsertion.owner sampleInsertion.key sampleInsertion.value
    (System.set_processes_self ..)

/-- The places of a lookup that finds the index cut to nothing. -/
def cutReading : ℕ → Reading
  | 0 => .hints tiers.zipIdx
  | _ + 1 => .done (.error "failed to fill whole buffer")

theorem cutReading_next (n : ℕ) :
    sampleCache.readStep sampleKey { Directory.empty with index := [] } (cutReading n) =
      cutReading (n + 1) := by
  cases n with
  | zero =>
    have hhints : readExactAt (indexSetOffset sampleKey 0 ⟨384, 64, 4096⟩) (64 * 32) [] =
        none := by decide +kernel
    rw [cutReading, show tiers.zipIdx = (⟨384, 64, 4096⟩, 0) :: tiers.zipIdx.tail from rfl,
      Cache.readStep]
    rw [hhints]
    rfl
  | succ n => rfl

/-- A lookup that cannot read its hints neither returns a value nor misses. -/
theorem lookup_fails_of_cut_index : ∃ run : Run sampleHashes sampleSecret,
    (∀ n, Unforged sampleHashes sampleSecret (run.states n)) ∧
      (∀ n, CollisionFree sampleHashes (run.states n)) ∧
      ∃ n process owner key message,
        (run.states n).processes process = .reading owner key (.done (.error message)) := by
  refine ⟨sampleRun { Directory.empty with index := [] } cutReading rfl cutReading_next,
    fun n => ?_, sampleStates_collisionFree _ cutReading,
    4, 0, _, _, _, System.set_processes_self ..⟩
  intro process owner key position inode length header hreading
  obtain ⟨m, rfl, hplace, _, _⟩ := sampleStates_reading hreading
  cases m <;> cases hplace

end Runs

end ConvexWasm.IncrementalCache
