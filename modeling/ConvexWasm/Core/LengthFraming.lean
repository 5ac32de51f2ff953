import Mathlib

/-!
# Frames behind their lengths

A frame is a header and a payload behind their two big-endian lengths.  A
stream of frames whose lengths fit their fields is read back frame by frame,
so the bytes determine the frames.
-/

namespace ConvexWasm

open List

abbrev ByteString := List UInt8

/-- Big endian, truncated to `width` bytes. -/
def bigEndian : ℕ → ℕ → ByteString
  | 0, _ => []
  | width + 1, value => bigEndian width (value / 256) ++ [UInt8.ofNat (value % 256)]

def readBigEndian (bytes : ByteString) : ℕ :=
  bytes.foldl (fun value byte => value * 256 + byte.toNat) 0

@[simp]
theorem length_bigEndian (width value : ℕ) : (bigEndian width value).length = width := by
  induction width generalizing value with
  | zero => rfl
  | succ width ih => rw [bigEndian, length_append, ih]; rfl

theorem readBigEndian_bigEndian {width value : ℕ} (hvalue : value < 256 ^ width) :
    readBigEndian (bigEndian width value) = value := by
  induction width generalizing value with
  | zero => exact (Nat.lt_one_iff.mp hvalue).symm
  | succ width ih =>
    have hhigh : value / 256 < 256 ^ width :=
      Nat.div_lt_of_lt_mul (by rwa [pow_succ, Nat.mul_comm] at hvalue)
    have hlow : (UInt8.ofNat (value % 256)).toNat = value % 256 := by
      rw [UInt8.toNat_ofNat']
      omega
    calc readBigEndian (bigEndian (width + 1) value)
        = readBigEndian (bigEndian width (value / 256)) * 256 +
            (UInt8.ofNat (value % 256)).toNat := by
          rw [bigEndian, readBigEndian, foldl_append]
          rfl
      _ = value / 256 * 256 + value % 256 := by rw [ih hhigh, hlow]
      _ = value := Nat.div_add_mod' value 256

@[ext]
structure Frame where
  header : ByteString
  payload : ByteString
  deriving DecidableEq

namespace Frame

/-- A four-byte header length, an eight-byte payload length, the header, the
payload. -/
def encode (frame : Frame) : ByteString :=
  bigEndian 4 frame.header.length ++ bigEndian 8 frame.payload.length ++
    frame.header ++ frame.payload

structure Fits (frame : Frame) : Prop where
  header_lt : frame.header.length < 2 ^ 32
  payload_lt : frame.payload.length < 2 ^ 64

/-- One frame from the front of the bytes, with what follows it. -/
def readOne (bytes : ByteString) : Option (Frame × ByteString) :=
  let headerBytes := readBigEndian (bytes.take 4)
  let payloadBytes := readBigEndian ((bytes.drop 4).take 8)
  let body := bytes.drop 12
  if bytes.length < 12 ∨ body.length < headerBytes + payloadBytes then none
  else some (⟨body.take headerBytes, (body.drop headerBytes).take payloadBytes⟩,
    body.drop (headerBytes + payloadBytes))

/-- Reads frames until the bytes are used up; the fuel bounds their number. -/
def parse : ℕ → ByteString → Option (List Frame)
  | _, [] => some []
  | 0, _ :: _ => none
  | fuel + 1, byte :: bytes => do
      let (frame, rest) ← readOne (byte :: bytes)
      let later ← parse fuel rest
      return frame :: later

def parseAll (bytes : ByteString) : Option (List Frame) :=
  parse bytes.length bytes

theorem readOne_encode {frame : Frame} (hfits : frame.Fits) (rest : ByteString) :
    readOne (frame.encode ++ rest) = some (frame, rest) := by
  have hheader : readBigEndian (bigEndian 4 frame.header.length) = frame.header.length :=
    readBigEndian_bigEndian (hfits.header_lt.trans_le (by norm_num))
  have hpayload : readBigEndian (bigEndian 8 frame.payload.length) = frame.payload.length :=
    readBigEndian_bigEndian (hfits.payload_lt.trans_le (by norm_num))
  have hshape : frame.encode ++ rest = bigEndian 4 frame.header.length ++
      (bigEndian 8 frame.payload.length ++ (frame.header ++ (frame.payload ++ rest))) := by
    simp [encode]
  have hfour : (frame.encode ++ rest).take 4 = bigEndian 4 frame.header.length := by
    rw [hshape, take_left' (length_bigEndian 4 _)]
  have height : ((frame.encode ++ rest).drop 4).take 8 = bigEndian 8 frame.payload.length := by
    rw [hshape, drop_left' (length_bigEndian 4 _), take_left' (length_bigEndian 8 _)]
  have hbody : (frame.encode ++ rest).drop 12 = frame.header ++ (frame.payload ++ rest) := by
    rw [hshape, ← append_assoc, drop_left' (by simp)]
  have hlength : ¬ ((frame.encode ++ rest).length < 12 ∨
      (frame.header ++ (frame.payload ++ rest)).length <
        frame.header.length + frame.payload.length) := by
    simp [encode]
    omega
  rw [readOne, hfour, height, hbody, hheader, hpayload]
  simp only [if_neg hlength, take_left, drop_left, Option.some.injEq, Prod.mk.injEq,
    true_and]
  rw [← drop_drop, drop_left, drop_left]

theorem twelve_le_length_encode (frame : Frame) : 12 ≤ frame.encode.length := by
  simp [encode]
  omega

theorem parse_encode {frames : List Frame} (hfits : ∀ frame ∈ frames, frame.Fits) {fuel : ℕ}
    (hfuel : frames.length ≤ fuel) : parse fuel (frames.flatMap encode) = some frames := by
  induction frames generalizing fuel with
  | nil => cases fuel <;> rfl
  | cons frame later ih =>
    cases fuel with
    | zero => simp at hfuel
    | succ fuel =>
      have hread := readOne_encode (hfits frame mem_cons_self) (later.flatMap encode)
      have hlater := ih (fun other hother => hfits other (mem_cons_of_mem _ hother))
        (Nat.le_of_succ_le_succ hfuel)
      rw [flatMap_cons]
      cases hbytes : frame.encode ++ later.flatMap encode with
      | nil =>
        have hlong := twelve_le_length_encode frame
        rw [(append_eq_nil_iff.mp hbytes).1] at hlong
        simp at hlong
      | cons byte bytes =>
        rw [hbytes] at hread
        simp [parse, hread, hlater]

theorem length_le_length_flatMap (frames : List Frame) :
    frames.length ≤ (frames.flatMap encode).length := by
  induction frames with
  | nil => exact Nat.zero_le _
  | cons frame later ih =>
    have hlong := twelve_le_length_encode frame
    rw [flatMap_cons, length_append, length_cons]
    omega

theorem parseAll_encode {frames : List Frame} (hfits : ∀ frame ∈ frames, frame.Fits) :
    parseAll (frames.flatMap encode) = some frames :=
  parse_encode hfits (length_le_length_flatMap frames)

/-- No other frames have the same bytes. -/
theorem encode_frames_injective {frames others : List Frame}
    (hfits : ∀ frame ∈ frames, frame.Fits) (hothers : ∀ frame ∈ others, frame.Fits)
    (heq : frames.flatMap encode = others.flatMap encode) : frames = others := by
  have hparsed := parseAll_encode hfits
  rw [heq, parseAll_encode hothers] at hparsed
  exact (Option.some.inj hparsed).symm

end Frame

end ConvexWasm
