import Pleat.Checked.Arithmetic
import Pleat.Decoding
import Pleat.Bytes

/-!
# Decoding with arithmetic that can fail

The decoder and `from_bytes` with every operation of the machine written out.  On a target
with pointers of 32 or 64 bits no operation fails, whatever the bytes, and the result is
that of the decoder with the arithmetic of the numbers.
-/

namespace Pleat.Checked

open Format LittleEndian

/-- The length of the payload that the geometry of a header asks for. -/
def payloadLen (T : Target) (numStarts segmentCount : U64) (r : U8) (elemSize w len : ℕ) :
    Option (Except DecodeError ℕ) := do
  let w : U64 := BitVec.ofNat 64 w
  let past ← wordSub w 1
  match wordAdd numStarts past with
  | none => some (.error .badGeometry)
  | some numSlots => do
      let rem ← wordRem numSlots w
      let least ← wordMul 2 w
      if numStarts = 0 ∨ rem ≠ 0 ∨ numSlots < least then
        some (.error .badGeometry)
      else if T.usizeMax < numSlots.toNat then
        some (.error .badGeometry)
      else do
        let numBlocks ← wordDiv numSlots w
        match wordMul numBlocks (r.setWidth 64) with
        | none => some (.error .badGeometry)
        | some expectSegments =>
            if segmentCount ≠ expectSegments then
              some (.error .badGeometry)
            else if T.usizeMax < segmentCount.toNat then
              some (.error .badGeometry)
            else
              match T.mul segmentCount.toNat elemSize with
              | none => some (.error .badGeometry)
              | some payloadLen =>
                  match (T.add headerLen payloadLen).bind fun n => T.add n checksumLen with
                  | none => some (.error .badGeometry)
                  | some totalLen =>
                      if totalLen ≠ len then
                        some (.error .lengthMismatch)
                      else
                        some (.ok payloadLen)

/-- Check a buffer and decode its header; returns the header and the payload. -/
def decode (T : Target) (bytes : List U8) (expectedFamily expectedR : U8) (elemSize w : ℕ) :
    Option (Except DecodeError (Header × List U8)) := do
  let least ← T.add headerLen checksumLen
  if bytes.length < least then
    some (.error .tooShort)
  else do
    let first ← slice bytes 0 4
    if first ≠ magic then
      some (.error .badMagic)
    else do
      let checksumAt ← checkedSub bytes.length checksumLen
      let stored ← (slice bytes checksumAt bytes.length).bind (toArray 8)
      let body ← slice bytes 0 checksumAt
      if fnv1a body ≠ fromLeBytes 64 stored then
        some (.error .badChecksum)
      else do
        let family ← bytes[4]?
        if family ≠ expectedFamily then
          some (.error .wrongFamily)
        else do
          let r ← bytes[5]?
          if r ≠ expectedR then
            some (.error .wrongResultWidth)
          else do
            let reserved ← slice bytes 6 8
            if reserved ≠ [0, 0] then
              some (.error .nonZeroReserved)
            else do
              let seed ← (slice bytes 8 16).bind (toArray 8)
              let numStarts ← (slice bytes 16 24).bind (toArray 8)
              let segmentCount ← (slice bytes 24 32).bind (toArray 8)
              match ← payloadLen T (fromLeBytes 64 numStarts) (fromLeBytes 64 segmentCount) r
                  elemSize w bytes.length with
              | .error e => some (.error e)
              | .ok n => do
                  let payloadEnd ← T.add headerLen n
                  let payload ← slice bytes headerLen payloadEnd
                  some (.ok ({
                    seed := fromLeBytes 64 seed
                    numStarts := fromLeBytes 64 numStarts }, payload))

/-- The words of a payload. -/
def words (w : ℕ) (payload : List U8) : Option (List (BitVec w)) :=
  (chunksExact (w / 8) payload).mapM fun c => (toArray (w / 8) c).map (fromLeBytes w)

/-- The homogeneous filter of a byte string. -/
def ribbonFromBytes (T : Target) (R : ℕ) (bytes : List U8) :
    Option (Except DecodeError (Ribbon R)) := do
  match ← decode T bytes familyHomog (BitVec.ofNat 8 R) 8 W with
  | .error e => some (.error e)
  | .ok (hdr, payload) => do
      let segs ← words 64 payload
      some (.ok ⟨Solution.fromParts hdr.numStarts hdr.seed segs⟩)

/-- The standard filter of a byte string. -/
def stdRibbonFromBytes (T : Target) (R : ℕ) (bytes : List U8) :
    Option (Except DecodeError (StdRibbon R)) := do
  match ← decode T bytes familyStd (BitVec.ofNat 8 R) 16 W128 with
  | .error e => some (.error e)
  | .ok (hdr, payload) =>
      if seedCount ≤ hdr.seed.toNat then
        some (.error .badSeed)
      else do
        let segs ← words 128 payload
        some (.ok ⟨Solution128.fromParts hdr.numStarts (hdr.seed.setWidth 32) segs⟩)

/-! ### No operation fails -/

variable {T : Target}

theorem okOr_bind_some {α β : Type} (a : α) (e : DecodeError) (f : α → Except DecodeError β) :
  (okOr (some a) e >>= f) = f a
  := rfl

/-- A number too large for the target is an error. -/
theorem ite_okOr_checked {β : Type} {max x : ℕ} {e : DecodeError}
    {f : ℕ → Except DecodeError β} {g : Option (Except DecodeError β)} (h : g = some (f x)) :
  (if max < x then some (.error e) else g) = some (okOr (checked max x) e >>= f)
  := by
  by_cases hfit : x ≤ max
  · rw [if_neg (not_lt.mpr hfit), checked_eq_some hfit]
    apply h
  · rw [if_pos (not_le.mp hfit), checked_eq_none (not_le.mp hfit)]
    rfl

/-- A check that the decoder makes. -/
theorem ite_error {β : Type} {c c' : Prop} [Decidable c] [Decidable c'] {e : DecodeError}
    {f : Except DecodeError β} {g : Option (Except DecodeError β)} (hc : c ↔ c')
    (h : g = some f) :
  (if c then some (.error e) else g) = some (if c' then .error e else f)
  := by
  by_cases hc' : c'
  · rw [if_pos (hc.mpr hc'), if_pos hc']
  · rw [if_neg (mt hc.mp hc'), if_neg hc', h]

theorem toNat_blockSize {w : ℕ} (hword : 2 * w < 2 ^ 64) :
  (BitVec.ofNat 64 w).toNat = w
  := by
  rw [BitVec.toNat_ofNat]
  apply Nat.mod_eq_of_lt
  omega

theorem lt_two_mul_blockSize_iff {w : ℕ} (hword : 2 * w < 2 ^ 64) (x : U64) :
  x < 2 * BitVec.ofNat 64 w ↔ x.toNat < 2 * w
  := by
  have htwo : (2 : U64).toNat = 2 := rfl
  rw [BitVec.lt_def, BitVec.toNat_mul, htwo, toNat_blockSize hword, Nat.mod_eq_of_lt hword]

theorem rem_blockSize_ne_zero_iff {w : ℕ} (hword : 2 * w < 2 ^ 64) (x : U64) :
  x % BitVec.ofNat 64 w ≠ 0 ↔ x.toNat % w ≠ 0
  := by
  apply not_congr
  rw [BitVec.toNat_eq, BitVec.toNat_umod, toNat_blockSize hword]
  exact Iff.rfl

theorem blockSize_ne_zero {w : ℕ} (hw : 0 < w) (hword : 2 * w < 2 ^ 64) :
  BitVec.ofNat 64 w ≠ 0
  := by
  intro h
  have hzero := toNat_blockSize hword
  rw [h] at hzero
  apply hw.ne hzero

theorem wordSub_blockSize {w : ℕ} (hw : 0 < w) (hword : 2 * w < 2 ^ 64) :
  wordSub (BitVec.ofNat 64 w) 1 = some (BitVec.ofNat 64 w - 1)
    ∧ (BitVec.ofNat 64 w - 1).toNat = w - 1
  := by
  have hone : (1 : U64).toNat = 1 := rfl
  have hle : (1 : U64).toNat ≤ (BitVec.ofNat 64 w).toNat := by
    rw [hone, toNat_blockSize hword]
    omega
  rw [wordSub_eq hle, BitVec.toNat_sub_of_le (BitVec.le_def.mpr hle), hone,
    toNat_blockSize hword]
  exact ⟨rfl, rfl⟩

/-- The sum, the remainder, the quotient and the products of the `u64` fields are those of the
numbers. -/
theorem payloadLen_eq {numStarts segmentCount : U64} {r : U8} {elemSize w len : ℕ} (hw : 0 < w)
    (hword : 2 * w < 2 ^ 64) :
  payloadLen T numStarts segmentCount r elemSize w len
    = some (Format.payloadLen T numStarts segmentCount r elemSize w len)
  := by
  have hwNat := toNat_blockSize hword
  have hwNe := blockSize_ne_zero hw hword
  obtain ⟨hsub, hpast⟩ := wordSub_blockSize hw hword
  have htwo : (2 : U64).toNat * (BitVec.ofNat 64 w).toNat < 2 ^ 64 := by
    rw [hwNat]
    exact hword
  have hr : (r.setWidth 64).toNat = r.toNat := by
    rw [BitVec.toNat_setWidth]
    apply Nat.mod_eq_of_lt
    apply lt_of_lt_of_le r.isLt (by decide)
  have hadd := map_toNat_wordAdd numStarts (BitVec.ofNat 64 w - 1)
  rw [hpast] at hadd
  rw [payloadLen, Format.payloadLen, ← hadd, hsub, Option.bind_eq_bind, Option.bind_some]
  cases wordAdd numStarts (BitVec.ofNat 64 w - 1) with
  | none => rfl
  | some numSlots =>
      have hmul := map_toNat_wordMul (numSlots / BitVec.ofNat 64 w) (r.setWidth 64)
      rw [BitVec.toNat_udiv, hwNat, hr] at hmul
      rw [Option.map_some, okOr_bind_some]
      dsimp only
      rw [wordRem_eq hwNe, Option.bind_some, wordMul_eq htwo, Option.bind_some, ← hmul]
      apply ite_error
      · rw [rem_blockSize_ne_zero_iff hword, lt_two_mul_blockSize_iff hword]
      apply ite_okOr_checked
      rw [wordDiv_eq hwNe, Option.bind_some]
      cases wordMul (numSlots / BitVec.ofNat 64 w) (r.setWidth 64) with
      | none => rfl
      | some expectSegments =>
          rw [Option.map_some, okOr_bind_some]
          apply ite_error (not_congr BitVec.toNat_eq)
          apply ite_okOr_checked
          rw [Target.mul]
          cases checked T.usizeMax (segmentCount.toNat * elemSize) with
          | none => rfl
          | some payload =>
              rw [okOr_bind_some]
              change (match (checked T.usizeMax (headerLen + payload)).bind fun n =>
                checked T.usizeMax (n + checksumLen) with | none => _ | some _ => _) = _
              cases (checked T.usizeMax (headerLen + payload)).bind fun n =>
                  checked T.usizeMax (n + checksumLen) with
              | none => rfl
              | some total => apply ite_error Iff.rfl rfl

theorem slice_bind_toArray (bytes : List U8) {a b n : ℕ} (h : b - a = n) :
  (slice bytes a b).bind (toArray n) = slice bytes a b
  := by
  cases hslice : slice bytes a b with
  | none => rfl
  | some m => exact toArray_eq ((length_of_slice hslice).trans h)

/-- The decoder with the operations of the machine is the decoder. -/
theorem decode_eq (hT : T.usizeBits = 32 ∨ T.usizeBits = 64) (bytes : List U8) (family r : U8)
    {elemSize w : ℕ} (helem : 0 < elemSize) (hw : 0 < w) (hword : 2 * w < 2 ^ 64) :
  decode T bytes family r elemSize w = Format.decode T bytes family r elemSize w
  := by
  have hmax := Target.le_usizeMax hT
  have hheader : headerLen = 32 := rfl
  have hchecksum : checksumLen = 8 := rfl
  rw [decode, Format.decode, Target.add_eq (by omega), Option.bind_eq_bind, Option.bind_some]
  apply ite_congr rfl (fun _ => rfl)
  intro hlen
  rw [not_lt] at hlen
  rw [checkedSub_eq (by omega), Option.bind_some,
    slice_bind_toArray bytes (show bytes.length - (bytes.length - checksumLen) = 8 by omega),
    slice_bind_toArray bytes (show 16 - 8 = 8 from rfl),
    slice_bind_toArray bytes (show 24 - 16 = 8 from rfl),
    slice_bind_toArray bytes (show 32 - 24 = 8 from rfl)]
  apply Option.bind_congr
  intro first _
  apply ite_congr rfl (fun _ => rfl)
  intro _
  apply Option.bind_congr
  intro stored _
  apply Option.bind_congr
  intro body _
  apply ite_congr rfl (fun _ => rfl)
  intro _
  apply Option.bind_congr
  intro family' _
  apply ite_congr rfl (fun _ => rfl)
  intro _
  apply Option.bind_congr
  intro r' _
  apply ite_congr rfl (fun _ => rfl)
  intro _
  apply Option.bind_congr
  intro reserved _
  apply ite_congr rfl (fun _ => rfl)
  intro _
  apply Option.bind_congr
  intro seed _
  apply Option.bind_congr
  intro starts _
  apply Option.bind_congr
  intro count _
  rw [payloadLen_eq hw hword, Option.bind_eq_bind, Option.bind_some]
  cases hpayload : Format.payloadLen T (fromLeBytes 64 starts) (fromLeBytes 64 count) r' elemSize w
      bytes.length with
  | error e => rfl
  | ok n =>
      obtain ⟨_, hgeometry, rfl, _⟩ := of_payloadLen_eq_ok hw helem hpayload
      have hle := hgeometry.length_le
      dsimp only
      rw [Target.add_eq (by omega), Option.bind_some]

theorem words_eq {w : ℕ} (payload : List U8) :
  words w payload = some ((chunksExact (w / 8) payload).map (fromLeBytes w))
  := by
  apply mapM_eq_some_map
  intro c hc
  rw [toArray_eq (length_of_mem_chunksExact hc), Option.map_some]

/-- `from_bytes` with the operations of the machine is `from_bytes`. -/
theorem ribbonFromBytes_eq (hT : T.usizeBits = 32 ∨ T.usizeBits = 64) (R : ℕ) (bytes : List U8) :
  ribbonFromBytes T R bytes = Ribbon.fromBytes T R bytes
  := by
  rw [ribbonFromBytes, Ribbon.fromBytes, decode_eq hT bytes _ _ (by decide) (by decide) (by decide)]
  apply Option.bind_congr
  intro result _
  cases result with
  | error e => rfl
  | ok fields =>
      dsimp only
      rw [words_eq]
      rfl

theorem stdRibbonFromBytes_eq (hT : T.usizeBits = 32 ∨ T.usizeBits = 64) (R : ℕ)
    (bytes : List U8) :
  stdRibbonFromBytes T R bytes = StdRibbon.fromBytes T R bytes
  := by
  rw [stdRibbonFromBytes, StdRibbon.fromBytes,
    decode_eq hT bytes _ _ (by decide) (by decide) (by decide)]
  apply Option.bind_congr
  intro result _
  cases result with
  | error e => rfl
  | ok fields =>
      dsimp only
      rw [words_eq]
      rfl

end Pleat.Checked
