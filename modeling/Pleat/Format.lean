import Pleat.Data.LittleEndian
import Pleat.Machine
import Mathlib.Tactic.Common

/-!
# The serialization envelope

A serialized filter is a header of 32 bytes, the segments and a checksum (`format.rs`).
The decoder checks the magic bytes and the checksum, then every field of the header, with
arithmetic that is checked against the width of a pointer on the target.

What the encoder writes for a valid geometry, the decoder accepts, and it returns the
fields of the header and the segments written.
-/

namespace Pleat.Format

open LittleEndian

/-- Why a buffer is rejected. -/
inductive DecodeError
  | tooShort
  | badMagic
  | wrongFamily
  | wrongResultWidth
  | nonZeroReserved
  | badGeometry
  | lengthMismatch
  | badSeed
  | badChecksum
  deriving DecidableEq

/-- `MAGIC`, the bytes of `PLT1` -/
def magic : List U8 := [0x50, 0x4c, 0x54, 0x31]

/-- `HEADER_LEN` -/
def headerLen : ℕ := 32

/-- `CHECKSUM_LEN` -/
def checksumLen : ℕ := 8

/-- `FAMILY_HOMOG` -/
def familyHomog : U8 := 0

/-- `FAMILY_STD` -/
def familyStd : U8 := 1

/-- The FNV-1a hash of a byte string. -/
def fnv1a (bytes : List U8) : U64 :=
  bytes.foldl (fun h b => (h ^^^ b.setWidth 64) * 0x00000100000001b3) 0xcbf29ce484222325

/-- The header fields that the caller of the decoder needs. -/
structure Header where
  seed : U64
  numStarts : U64
  deriving DecidableEq

/-- The bytes of a word, least significant first. -/
def toLeBytes {w : ℕ} (x : BitVec w) : List U8 :=
  toLe (w / 8) x.toNat

/-- The word of a byte string. -/
def fromLeBytes (w : ℕ) (bytes : List U8) : BitVec w :=
  BitVec.ofNat w (ofLe bytes)

def writeHeader (family r : U8) (seed numStarts segmentCount : U64) : List U8 :=
  magic ++ [family, r] ++ [0, 0] ++ toLeBytes seed ++ toLeBytes numStarts
    ++ toLeBytes segmentCount

/-- Append the checksum of everything written so far. -/
def finish (buf : List U8) : List U8 :=
  buf ++ toLeBytes (fnv1a buf)

/-- The result of an operation on numbers up to `max`; a result past it is an overflow. -/
def checked (max result : ℕ) : Option ℕ :=
  if result ≤ max then some result else none

/-- `ok_or`: an overflow is an error. -/
def okOr {α : Type} (o : Option α) (e : DecodeError) : Except DecodeError α :=
  match o with
  | some a => .ok a
  | none => .error e

/-- The length of the payload that the geometry of a header asks for, with `len` bytes in
the whole buffer.  The sums and products of the `u64` fields are checked against 64 bits,
those of lengths against the width of a pointer. -/
def payloadLen (T : Target) (numStarts segmentCount : U64) (r : U8) (elemSize w len : ℕ) :
    Except DecodeError ℕ := do
  let numSlots ← okOr (checked (2 ^ 64 - 1) (numStarts.toNat + (w - 1))) .badGeometry
  if numStarts = 0 ∨ numSlots % w ≠ 0 ∨ numSlots < 2 * w then
    .error .badGeometry
  else do
    let _ ← okOr (checked T.usizeMax numSlots) .badGeometry
    let numBlocks := numSlots / w
    let expectSegments ← okOr (checked (2 ^ 64 - 1) (numBlocks * r.toNat)) .badGeometry
    if segmentCount.toNat ≠ expectSegments then
      .error .badGeometry
    else do
      let segmentCount ← okOr (checked T.usizeMax segmentCount.toNat) .badGeometry
      let payloadLen ← okOr (checked T.usizeMax (segmentCount * elemSize)) .badGeometry
      let totalLen ← okOr
        ((checked T.usizeMax (headerLen + payloadLen)).bind fun n =>
          checked T.usizeMax (n + checksumLen)) .badGeometry
      if totalLen ≠ len then
        .error .lengthMismatch
      else
        .ok payloadLen

/-- Check a buffer against the family and the width of the target type and decode its
header; returns the header and the payload.  A slice out of bounds is `none`. -/
def decode (T : Target) (bytes : List U8) (expectedFamily expectedR : U8) (elemSize w : ℕ) :
    Option (Except DecodeError (Header × List U8)) :=
  if bytes.length < headerLen + checksumLen then
    some (.error .tooShort)
  else do
    let first ← slice bytes 0 4
    if first ≠ magic then
      some (.error .badMagic)
    else do
      let checksumAt := bytes.length - checksumLen
      let stored ← slice bytes checksumAt bytes.length
      let body ← slice bytes 0 checksumAt
      if fnv1a body ≠ fromLeBytes 64 stored then
        some (.error .badChecksum)
      else do
        let family ← bytes[4]?
        if family ≠ expectedFamily then
          some (.error .wrongFamily)
        else do
          let r ← bytes[5]?
          if r ≠ expectedR then
            some (.error .wrongResultWidth)
          else do
            let reserved ← slice bytes 6 8
            if reserved ≠ [0, 0] then
              some (.error .nonZeroReserved)
            else do
              let seed ← slice bytes 8 16
              let numStarts ← slice bytes 16 24
              let segmentCount ← slice bytes 24 32
              match payloadLen T (fromLeBytes 64 numStarts) (fromLeBytes 64 segmentCount) r
                  elemSize w bytes.length with
              | .error e => some (.error e)
              | .ok n => do
                  let payload ← slice bytes headerLen (headerLen + n)
                  some (.ok ({
                    seed := fromLeBytes 64 seed
                    numStarts := fromLeBytes 64 numStarts }, payload))

/-! ### Reading back what was written -/

theorem slice_append {α : Type*} {l pre mid post : List α} {a b : ℕ} (hl : l = pre ++ mid ++ post)
    (ha : pre.length = a) (hb : a + mid.length = b) :
  slice l a b = some mid
  := by
  subst hl ha hb
  rw [slice_eq_some (Nat.le_add_right _ _) (by rw [List.length_append, List.length_append]; omega),
    Nat.add_sub_cancel_left, List.append_assoc, List.drop_left, List.take_left]

@[simp]
theorem length_toLeBytes {w : ℕ} (x : BitVec w) :
  (toLeBytes x).length = w / 8
  := length_toLe ..

/-- The word whose bytes were written is read back. -/
theorem fromLeBytes_toLeBytes {w : ℕ} (hw : w % 8 = 0) (x : BitVec w) :
  fromLeBytes w (toLeBytes x) = x
  := by
  have hlt : x.toNat < 256 ^ (w / 8) := by
    have hpow : 256 ^ (w / 8) = 2 ^ w := by
      rw [show 256 = 2 ^ 8 from rfl, ← Nat.pow_mul, Nat.mul_div_cancel' (Nat.dvd_of_mod_eq_zero hw)]
    rw [hpow]
    apply x.isLt
  rw [fromLeBytes, toLeBytes, ofLe_toLe hlt, BitVec.ofNat_toNat, BitVec.setWidth_eq]

/-- The words whose bytes were written are read back. -/
theorem map_fromLeBytes_chunksExact {w : ℕ} (hw : w % 8 = 0) (hpos : 0 < w) (l : List (BitVec w)) :
  (chunksExact (w / 8) (l.flatMap toLeBytes)).map (fromLeBytes w) = l
  := by
  rw [chunksExact_flatMap (by omega) length_toLeBytes, List.map_map]
  apply List.map_id''
  intro x
  apply fromLeBytes_toLeBytes hw x

@[simp]
theorem length_writeHeader (family r : U8) (seed numStarts segmentCount : U64) :
  (writeHeader family r seed numStarts segmentCount).length = headerLen
  := by
  simp [writeHeader, magic, headerLen]

@[simp]
theorem length_finish (buf : List U8) :
  (finish buf).length = buf.length + checksumLen
  := by
  simp [finish, checksumLen]

/-- The geometry of a filter of `n` slots and `R` columns whose segments take `elemSize`
bytes each, on a target where its buffer has a length. -/
structure Geometry (T : Target) (n R elemSize w : ℕ) (numStarts segmentCount : U64) : Prop where
  starts : numStarts.toNat = n - w + 1
  blocks : n % w = 0
  slots : 2 * w ≤ n
  positive : 0 < w
  elem : 0 < elemSize
  numSlots_le : n ≤ T.usizeMax
  segments : segmentCount.toNat = n / w * R
  length_le : headerLen + n / w * R * elemSize + checksumLen ≤ T.usizeMax

theorem isizeMax_le_usizeMax (T : Target) :
  T.isizeMax ≤ T.usizeMax
  := Nat.sub_le_sub_right (Nat.pow_le_pow_right Nat.two_pos (Nat.sub_le _ 1)) 1

theorem usizeMax_lt (T : Target) :
  T.usizeMax < 2 ^ 64
  := by
  have hpow : 2 ^ T.usizeBits ≤ 2 ^ 64 := Nat.pow_le_pow_right Nat.two_pos T.usizeBits_le
  rw [Target.usizeMax]
  have hpos := Nat.two_pow_pos T.usizeBits
  omega

/-- A segment of 32 columns is four bytes a slot, half of the least size of a row. -/
theorem payload_le_four_mul {n R elemSize w : ℕ} (hblocks : n % w = 0) (hw : w = 8 * elemSize)
    (hR : R ≤ 32) :
  n / w * R * elemSize ≤ 4 * n
  := by
  calc
    n / w * R * elemSize ≤ n / w * 32 * elemSize := by gcongr
    _ = 4 * (n / w * w) := by rw [hw]; ring
    _ = 4 * n := by rw [Nat.div_mul_cancel (Nat.dvd_of_mod_eq_zero hblocks)]

/-- A filter whose matrix was allocated, with a row of `elemSize` bytes for each of `n` slots,
has a valid geometry. -/
theorem geometry_of_alloc {T : Target} {n R elemSize w : ℕ} (hblocks : n % w = 0)
    (hslots : 2 * w ≤ n) (hw : w = 8 * elemSize) (helem : 8 ≤ elemSize) (hR : R ≤ 32)
    (halloc : n * elemSize ≤ T.isizeMax) :
  Geometry T n R elemSize w (BitVec.ofNat 64 (n - w + 1)) (BitVec.ofNat 64 (n / w * R))
  := by
  have hisize := isizeMax_le_usizeMax T
  have husize := usizeMax_lt T
  have hpayload := payload_le_four_mul hblocks hw hR
  have hcount : n / w * R ≤ n / w * R * elemSize := Nat.le_mul_of_pos_right _ (by omega)
  have hrows : n * 8 ≤ n * elemSize := Nat.mul_le_mul_left n helem
  constructor
  · rw [BitVec.toNat_ofNat]
    apply Nat.mod_eq_of_lt
    omega
  · apply hblocks
  · apply hslots
  · omega
  · omega
  · omega
  · rw [BitVec.toNat_ofNat]
    apply Nat.mod_eq_of_lt
    omega
  · rw [headerLen, checksumLen]
    omega

/-- Its bytes are no more than the largest power of two that can be allocated: the payload is
less than that, and both are multiples of 256. -/
theorem encoding_le_of_alloc {T : Target} {n R elemSize w : ℕ} (hblocks : n % w = 0)
    (hslots : 2 * w ≤ n) (hw : w = 8 * elemSize) (helem : 8 ≤ elemSize) (hdvd : 64 ∣ w)
    (hR : R ≤ 32) (halloc : n * elemSize ≤ T.isizeMax) :
  headerLen + n / w * R * elemSize + checksumLen ≤ 2 ^ (T.usizeBits - 2)
  := by
  have hpayload := payload_le_four_mul hblocks hw hR
  have hrows : n * 8 ≤ n * elemSize := Nat.mul_le_mul_left n helem
  have hrow : 8 * n < 2 ^ (T.usizeBits - 1) := by
    have hpos := Nat.two_pow_pos (T.usizeBits - 1)
    rw [Target.isizeMax] at halloc
    omega
  have hbits : 10 ≤ T.usizeBits - 1 := by
    by_contra hfew
    have hpow : 2 ^ (T.usizeBits - 1) ≤ 2 ^ 9 := Nat.pow_le_pow_right (by decide) (by omega)
    omega
  obtain ⟨m, hm⟩ := Nat.exists_eq_add_of_le hbits
  obtain ⟨q, rfl⟩ := hdvd.trans (Nat.dvd_of_mod_eq_zero hblocks)
  have hlast : 2 ^ (T.usizeBits - 2) = 2 ^ 9 * 2 ^ m := by
    rw [← pow_add, show T.usizeBits - 2 = 9 + m by omega]
  rw [hm, pow_add] at hrow
  rw [headerLen, checksumLen, hlast]
  omega

theorem checked_eq_some {max result : ℕ} (h : result ≤ max) :
  checked max result = some result
  := if_pos h

theorem okOr_checked {max result : ℕ} (h : result ≤ max) (e : DecodeError) :
  okOr (checked max result) e = .ok result
  := by
  rw [checked_eq_some h]
  rfl

theorem ok_bind {α β : Type} (a : α) (f : α → Except DecodeError β) :
  (Except.ok a >>= f) = f a
  := rfl

/-- A valid geometry passes all checks. -/
theorem Geometry.payloadLen_eq {T : Target} {n R elemSize w : ℕ} {numStarts segmentCount : U64}
    (h : Geometry T n R elemSize w numStarts segmentCount) {r : U8} (hr : r.toNat = R) {len : ℕ}
    (hlen : len = headerLen + n / w * R * elemSize + checksumLen) :
  payloadLen T numStarts segmentCount r elemSize w len = .ok (n / w * R * elemSize)
  := by
  have hmax := usizeMax_lt T
  have hpos := h.positive
  have hslots := h.slots
  have hn := h.numSlots_le
  have htotal := h.length_le
  have hstarts := h.starts
  have hsegments := h.segments
  have hlt := segmentCount.isLt
  have hsum : numStarts.toNat + (w - 1) = n := by omega
  have hne : numStarts ≠ 0 := by
    rintro rfl
    have hzero : (0 : U64).toNat = 0 := rfl
    omega
  have hvalid : ¬ (numStarts = 0 ∨ n % w ≠ 0 ∨ n < 2 * w) := by
    rintro (heq | hmod | hfew)
    · apply hne heq
    · apply hmod h.blocks
    · omega
  have hcount : n / w * R ≤ n / w * R * elemSize := Nat.le_mul_of_pos_right _ h.elem
  rw [payloadLen, hsum, okOr_checked (by omega), ok_bind, if_neg hvalid, okOr_checked hn, ok_bind,
    hr, hsegments]
  dsimp only
  rw [okOr_checked (by omega), ok_bind, if_neg (not_not.mpr rfl), okOr_checked (by omega), ok_bind,
    okOr_checked (by omega), ok_bind, checked_eq_some (by omega), Option.bind_some,
    okOr_checked (by omega), ok_bind, if_neg (not_not.mpr hlen.symm)]

/-- Decoding a buffer with a header and a correct checksum compares the family and the width, then
checks the geometry. -/
theorem decode_finish_writeHeader (T : Target) (family r : U8) (seed numStarts segmentCount : U64)
    (rest : List U8) (expectedFamily expectedR : U8) (elemSize w : ℕ) :
  decode T (finish (writeHeader family r seed numStarts segmentCount ++ rest)) expectedFamily
      expectedR elemSize w
    = if family ≠ expectedFamily then some (.error .wrongFamily)
      else if r ≠ expectedR then some (.error .wrongResultWidth)
      else
        match payloadLen T numStarts segmentCount r elemSize w
            (headerLen + rest.length + checksumLen) with
        | .error e => some (.error e)
        | .ok n =>
            (slice (finish (writeHeader family r seed numStarts segmentCount ++ rest)) headerLen
              (headerLen + n)).bind fun payload => some (.ok ({ seed, numStarts }, payload))
  := by
  let buf := writeHeader family r seed numStarts segmentCount ++ rest
  let sum := toLeBytes (fnv1a buf)
  have hlen : (finish buf).length = headerLen + rest.length + checksumLen := by
    rw [length_finish, List.length_append, length_writeHeader]
  have hbuf : (finish buf).length - checksumLen = buf.length := by
    rw [length_finish, Nat.add_sub_cancel]
  have hmagic : slice (finish buf) 0 4 = some magic := by
    apply slice_append (show finish buf = [] ++ magic ++ ([family, r] ++ [0, 0] ++ toLeBytes seed
      ++ toLeBytes numStarts ++ toLeBytes segmentCount ++ rest ++ sum) from _) rfl rfl
    simp [finish, buf, sum, writeHeader]
  have hstored : slice (finish buf) buf.length (finish buf).length = some sum := by
    apply slice_append (show finish buf = buf ++ sum ++ [] from _) rfl
    · rw [length_finish, length_toLeBytes]
      rfl
    · simp [finish, sum]
  have hbody : slice (finish buf) 0 buf.length = some buf := by
    apply slice_append (show finish buf = [] ++ buf ++ sum from rfl) rfl (Nat.zero_add _)
  have hfamily : (finish buf)[4]? = some family := by
    simp [finish, buf, writeHeader, magic]
  have hwidth : (finish buf)[5]? = some r := by
    simp [finish, buf, writeHeader, magic]
  have hreserved : slice (finish buf) 6 8 = some [0, 0] := by
    apply slice_append (show finish buf = (magic ++ [family, r]) ++ [0, 0] ++ (toLeBytes seed
      ++ toLeBytes numStarts ++ toLeBytes segmentCount ++ rest ++ sum) from _) rfl rfl
    simp [finish, buf, sum, writeHeader]
  have hseed : slice (finish buf) 8 16 = some (toLeBytes seed) := by
    apply slice_append (show finish buf = (magic ++ [family, r] ++ [0, 0]) ++ toLeBytes seed
      ++ (toLeBytes numStarts ++ toLeBytes segmentCount ++ rest ++ sum) from _)
    · simp [magic]
    · rw [length_toLeBytes]
    · simp [finish, buf, sum, writeHeader]
  have hstarts : slice (finish buf) 16 24 = some (toLeBytes numStarts) := by
    apply slice_append (show finish buf = (magic ++ [family, r] ++ [0, 0] ++ toLeBytes seed)
      ++ toLeBytes numStarts ++ (toLeBytes segmentCount ++ rest ++ sum) from _)
    · simp [magic]
    · rw [length_toLeBytes]
    · simp [finish, buf, sum, writeHeader]
  have hcount : slice (finish buf) 24 32 = some (toLeBytes segmentCount) := by
    apply slice_append (show finish buf = (magic ++ [family, r] ++ [0, 0] ++ toLeBytes seed
      ++ toLeBytes numStarts) ++ toLeBytes segmentCount ++ (rest ++ sum) from _)
    · simp [magic]
    · rw [length_toLeBytes]
    · simp [finish, buf, sum, writeHeader]
  have hchecksum : fromLeBytes 64 sum = fnv1a buf := fromLeBytes_toLeBytes rfl _
  rw [decode, if_neg (by rw [hlen]; omega)]
  simp only [Option.bind_eq_bind]
  rw [hmagic, Option.bind_some, if_neg (not_not.mpr rfl), hbuf, hstored, Option.bind_some, hbody,
    Option.bind_some, if_neg (not_not.mpr hchecksum.symm), hfamily, Option.bind_some, hwidth,
    Option.bind_some, hreserved, Option.bind_some, if_neg (not_not.mpr rfl), hseed,
    Option.bind_some, hstarts, Option.bind_some, hcount, Option.bind_some,
    fromLeBytes_toLeBytes rfl, fromLeBytes_toLeBytes rfl, fromLeBytes_toLeBytes rfl, hlen]

/-- Decoding what the encoder writes for a valid geometry gives back the seed, the number of
starts and the payload. -/
theorem decode_finish {T : Target} {n R elemSize w : ℕ} {numStarts segmentCount : U64}
    (h : Geometry T n R elemSize w numStarts segmentCount) {r : U8} (hr : r.toNat = R)
    {payload : List U8} (hpayload : payload.length = n / w * R * elemSize) (family : U8)
    (seed : U64) :
  decode T (finish (writeHeader family r seed numStarts segmentCount ++ payload)) family r
      elemSize w
    = some (.ok ({ seed, numStarts }, payload))
  := by
  let buf := writeHeader family r seed numStarts segmentCount ++ payload
  have hbytes : slice (finish buf) headerLen (headerLen + n / w * R * elemSize) = some payload := by
    apply slice_append (show finish buf
      = writeHeader family r seed numStarts segmentCount ++ payload ++ toLeBytes (fnv1a buf) from rfl)
    · rw [length_writeHeader]
    · rw [hpayload]
  rw [decode_finish_writeHeader, if_neg (not_not.mpr rfl), if_neg (not_not.mpr rfl),
    h.payloadLen_eq hr (by rw [hpayload])]
  dsimp only
  rw [hbytes]
  rfl

end Pleat.Format
