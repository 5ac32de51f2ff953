import ConvexWasm.Core.ByteFile
import ConvexWasm.Core.LittleEndian

/-!
# Records of the incremental cache

A record is a header of 72 bytes and a value.  The header names the key and
authenticates both; the tiers bound the size of a record.
-/

namespace ConvexWasm.IncrementalCache

open List

/-- 32 bytes. -/
structure Digest where
  bytes : List UInt8
  length_eq : bytes.length = 32
  deriving DecidableEq

theorem Digest.bytes_injective : Function.Injective Digest.bytes := by
  intro left right heq
  cases left
  cases right
  cases heq
  rfl

/-- SHA-256 and its authentication code, as the libraries compute them. -/
structure Hashes where
  sha256 : List UInt8 → Digest
  hmac : Digest → List UInt8 → Digest

def magic : List UInt8 := "CWCLIF01".toList.map fun char => UInt8.ofNat char.toNat

def headerBytes : ℕ := 72

def maxWays : ℕ := 64

structure CacheTier where
  sets : ℕ
  ways : ℕ
  recordLimit : ℕ

def tiers : List CacheTier :=
  [⟨384, 64, 4 * 1024⟩,
    ⟨64, 64, 8 * 1024⟩,
    ⟨32, 64, 16 * 1024⟩,
    ⟨32, 64, 32 * 1024⟩,
    ⟨40, 64, 64 * 1024⟩,
    ⟨28, 64, 128 * 1024⟩,
    ⟨16, 64, 256 * 1024⟩,
    ⟨7, 64, 512 * 1024⟩,
    ⟨4, 56, 1024 * 1024⟩,
    ⟨2, 40, 2 * 1024 * 1024⟩,
    ⟨1, 48, 4 * 1024 * 1024⟩,
    ⟨1, 16, 8 * 1024 * 1024⟩,
    ⟨1, 16, 16 * 1024 * 1024⟩]

/-- What one store was opened with. -/
structure Cache where
  hashes : Hashes
  owner : Digest
  secret : Digest

variable (cache : Cache)

def Cache.key (key : List UInt8) : Digest :=
  cache.hashes.sha256 (magic ++ cache.owner.bytes ++ key)

/-- The set of a key among so many. -/
def setOf (key : Digest) (sets : ℕ) : ℕ :=
  readLittleEndian (key.bytes.take 2) % sets

def precedingSlots (layout : List CacheTier) (tier : ℕ) : ℕ :=
  ((layout.take tier).map fun tier => tier.sets * tier.ways).sum

/-- Where the hints of the key's set begin in a tier. -/
def indexSetOffset (key : Digest) (tier : ℕ) (layout : CacheTier) : ℕ :=
  (precedingSlots tiers tier + setOf key layout.sets * layout.ways) * 32

def indexBytes : ℕ := (tiers.map fun tier => tier.sets * tier.ways * 32).sum

/-- The file of a slot. -/
structure Slot where
  tier : ℕ
  set : ℕ
  way : ℕ
  deriving DecidableEq

def slotOf (key : Digest) (tier : ℕ) (layout : CacheTier) (way : ℕ) : Slot :=
  ⟨tier, setOf key layout.sets, way⟩

section Records

/-- What is authenticated besides the value. -/
def named (key : Digest) : List UInt8 := magic ++ key.bytes

def Cache.header (key : Digest) (value : List UInt8) : List UInt8 :=
  named key ++ (cache.hashes.hmac cache.secret (named key ++ value)).bytes

def Cache.record (key : Digest) (value : List UInt8) : List UInt8 :=
  cache.header key value ++ value

def lengthAllowed (limit length : ℕ) : Bool :=
  headerBytes ≤ length && length ≤ limit

def hasMagic (header : List UInt8) : Bool :=
  header.take 8 = magic

def namesKey (key : Digest) (header : List UInt8) : Bool :=
  slice 8 32 header = key.bytes

def Cache.authenticates (header value : List UInt8) : Bool :=
  (cache.hashes.hmac cache.secret (header.take 40 ++ value)).bytes = header.drop 40

/-- The value of a record, when it is one of the key. -/
def Cache.readRecord (key : Digest) (limit : ℕ) (data : List UInt8) : Option (List UInt8) :=
  if !lengthAllowed limit data.length then none
  else
    let header := data.take headerBytes
    if !hasMagic header then none
    else if !namesKey key header then none
    else
      let value := (data.drop headerBytes).take (limit - headerBytes + 1)
      if value.length + headerBytes ≠ data.length || !cache.authenticates header value then none
      else some value

variable {cache} {key other : Digest} {value : List UInt8} {limit : ℕ}

theorem length_magic : magic.length = 8 := by decide

theorem length_named (key : Digest) : (named key).length = 40 := by
  rw [named, length_append, length_magic, key.length_eq]

theorem named_injective : Function.Injective named := fun _ _ heq =>
  Digest.bytes_injective (append_cancel_left heq)

theorem length_header : (cache.header key value).length = headerBytes := by
  rw [Cache.header, length_append, length_named, Digest.length_eq]
  rfl

theorem length_record : (cache.record key value).length = headerBytes + value.length := by
  rw [Cache.record, length_append, length_header]

theorem hasMagic_header : hasMagic (cache.header key value) = true := by
  refine decide_eq_true ?_
  rw [Cache.header, named, append_assoc]
  exact take_left' length_magic

theorem namesKey_header : namesKey other (cache.header key value) = decide (key = other) := by
  have hbytes : slice 8 32 (cache.header key value) = key.bytes := by
    rw [slice, Cache.header, named, append_assoc, drop_left' length_magic,
      take_left' key.length_eq]
  rw [namesKey, hbytes]
  exact decide_eq_decide.mpr Digest.bytes_injective.eq_iff

theorem authenticates_header : cache.authenticates (cache.header key value) value = true := by
  refine decide_eq_true ?_
  rw [Cache.header, take_left' (length_named key), drop_left' (length_named key)]

/-- A record is read under its key only. -/
theorem readRecord_record (hlimit : headerBytes + value.length ≤ limit) :
    cache.readRecord other limit (cache.record key value) =
      if key = other then some value else none := by
  have hallowed : lengthAllowed limit (cache.record key value).length = true := by
    rw [length_record, lengthAllowed, Bool.and_eq_true]
    exact ⟨decide_eq_true (Nat.le_add_right _ _), decide_eq_true hlimit⟩
  have hheader : (cache.record key value).take headerBytes = cache.header key value :=
    take_left' length_header
  have hvalue : ((cache.record key value).drop headerBytes).take (limit - headerBytes + 1) =
      value := by
    rw [Cache.record, drop_left' length_header, take_of_length_le (by omega)]
  rw [Cache.readRecord, hallowed]
  dsimp only
  rw [hheader, hvalue, hasMagic_header, namesKey_header, authenticates_header, length_record]
  by_cases hkey : key = other
  · rw [if_pos hkey, decide_eq_true hkey]
    simp [Nat.add_comm]
  · rw [if_neg hkey, decide_eq_false hkey]
    rfl

end Records

end ConvexWasm.IncrementalCache
