import Pleat.Corruption

/-!
# Decode errors

What `from_bytes` reports of a buffer that is accepted as a filter of some type, when it is
read as another type, on another target, after a change of one or two bytes, cut short or
extended (`format.rs`, `filter.rs`).  The magic bytes and the checksum are compared first, so
that a change is reported as such whatever field it hits; the geometry is checked last, in the
arithmetic of the target.
-/

namespace Pleat

open Format LittleEndian

namespace Format

variable {T : Target} {bytes : List U8} {family r : U8} {elemSize w : ℕ}

/-! ### The first checks -/

theorem decode_tooShort (hlen : bytes.length < headerLen + checksumLen) :
  decode T bytes family r elemSize w = some (.error .tooShort)
  := if_pos hlen

theorem slice_take {α : Type*} {l : List α} {k : ℕ} (hk : k ≤ l.length) :
  slice l 0 k = some (l.take k)
  := by
  rw [slice_eq_some (Nat.zero_le k) hk, List.drop_zero, Nat.sub_zero]

theorem decode_badMagic (hlen : headerLen + checksumLen ≤ bytes.length)
    (hmagic : bytes.take 4 ≠ magic) :
  decode T bytes family r elemSize w = some (.error .badMagic)
  := by
  have hheader : 4 ≤ headerLen := by decide
  rw [decode, if_neg (not_lt.mpr hlen), slice_take (by omega), Option.bind_eq_bind,
    Option.bind_some, if_pos hmagic]

/-- The last bytes of a buffer are the checksum of the others. -/
def ChecksumAgrees (bytes : List U8) : Prop :=
  fnv1a (bytes.take (bytes.length - checksumLen))
    = fromLeBytes 64 (bytes.drop (bytes.length - checksumLen))

instance : DecidablePred ChecksumAgrees :=
  fun _ => inferInstanceAs (Decidable (_ = _))

theorem eq_finish_of_checksumAgrees (hlen : checksumLen ≤ bytes.length) (h : ChecksumAgrees bytes) :
  bytes = finish (bytes.take (bytes.length - checksumLen))
  := by
  have hstored : (bytes.drop (bytes.length - checksumLen)).length = 64 / 8 := by
    rw [List.length_drop, Nat.sub_sub_self hlen]
    rfl
  rw [finish, h, toLeBytes_fromLeBytes rfl hstored, List.take_append_drop]

theorem decode_badChecksum (hlen : headerLen + checksumLen ≤ bytes.length)
    (hmagic : bytes.take 4 = magic) (hchecksum : ¬ ChecksumAgrees bytes) :
  decode T bytes family r elemSize w = some (.error .badChecksum)
  := by
  have hheader : 4 ≤ headerLen := by decide
  have hstored : slice bytes (bytes.length - checksumLen) bytes.length
      = some (bytes.drop (bytes.length - checksumLen)) := by
    apply slice_append (show bytes = bytes.take (bytes.length - checksumLen)
      ++ bytes.drop (bytes.length - checksumLen) ++ [] by simp)
      (List.length_take_of_le (Nat.sub_le ..))
    rw [List.length_drop]
    omega
  rw [decode, if_neg (not_lt.mpr hlen), slice_take (by omega), Option.bind_eq_bind,
    Option.bind_some, if_neg (not_not.mpr hmagic)]
  dsimp only
  rw [hstored, Option.bind_eq_bind, Option.bind_some, slice_take (Nat.sub_le ..), Option.bind_some]
  apply if_pos hchecksum

/-! ### The geometry on a target -/

/-- The geometry of a filter of `n` slots and `R` columns, on any target. -/
structure Layout (n R elemSize w : ℕ) (numStarts segmentCount : U64) : Prop where
  starts : numStarts.toNat = n - w + 1
  blocks : n % w = 0
  slots : 2 * w ≤ n
  positive : 0 < w
  elem : 0 < elemSize
  numSlots_lt : n < 2 ^ 64
  segments : segmentCount.toNat = n / w * R

theorem Geometry.layout {n R : ℕ} {numStarts segmentCount : U64}
    (h : Geometry T n R elemSize w numStarts segmentCount) :
  Layout n R elemSize w numStarts segmentCount
  := ⟨h.starts, h.blocks, h.slots, h.positive, h.elem, lt_of_le_of_lt h.numSlots_le (usizeMax_lt T),
    h.segments⟩

theorem okOr_checked_of_lt {max result : ℕ} (h : max < result) (e : DecodeError) :
  okOr (checked max result) e = .error e
  := by
  rw [checked, if_neg (not_le.mpr h)]
  rfl

theorem error_bind {α β : Type} (e : DecodeError) (f : α → Except DecodeError β) :
  (Except.error e >>= f) = .error e
  := rfl

/-- A geometry that is consistent fails only where a `usize` does not count the slots or the
buffer, and then where the buffer has another length. -/
theorem Layout.payloadLen_eq {n R : ℕ} {numStarts segmentCount : U64}
    (h : Layout n R elemSize w numStarts segmentCount) (T : Target) {r : U8} (hr : r.toNat = R)
    (len : ℕ) :
  payloadLen T numStarts segmentCount r elemSize w len
    = if n ≤ T.usizeMax ∧ headerLen + n / w * R * elemSize + checksumLen ≤ T.usizeMax then
        if headerLen + n / w * R * elemSize + checksumLen = len then .ok (n / w * R * elemSize)
        else .error .lengthMismatch
      else .error .badGeometry
  := by
  have hpos := h.positive
  have hslots := h.slots
  have hstarts := h.starts
  have hn := h.numSlots_lt
  have hlt := segmentCount.isLt
  rw [h.segments] at hlt
  have hsum : numStarts.toNat + (w - 1) = n := by omega
  have hvalid : ¬ (numStarts = 0 ∨ n % w ≠ 0 ∨ n < 2 * w) := by
    rintro (rfl | hmod | hfew)
    · have hzero : (0 : U64).toNat = 0 := rfl
      omega
    · apply hmod h.blocks
    · omega
  have hcount : n / w * R ≤ n / w * R * elemSize := Nat.le_mul_of_pos_right _ h.elem
  rw [payloadLen, hsum, okOr_checked (by omega), ok_bind, if_neg hvalid]
  by_cases hfits : n ≤ T.usizeMax
  · rw [okOr_checked hfits, ok_bind, hr, h.segments]
    dsimp only
    rw [okOr_checked (by omega), ok_bind, if_neg (not_not.mpr rfl)]
    by_cases htotal : headerLen + n / w * R * elemSize + checksumLen ≤ T.usizeMax
    · rw [if_pos ⟨hfits, htotal⟩, okOr_checked (by omega), ok_bind, okOr_checked (by omega), ok_bind,
        checked_eq_some (by omega), Option.bind_some, okOr_checked htotal, ok_bind, ite_not]
    · rw [if_neg (fun h => htotal h.2)]
      by_cases hsegments : n / w * R ≤ T.usizeMax
      · rw [okOr_checked hsegments, ok_bind]
        by_cases hpayload : n / w * R * elemSize ≤ T.usizeMax
        · rw [okOr_checked hpayload, ok_bind]
          by_cases hheader : headerLen + n / w * R * elemSize ≤ T.usizeMax
          · rw [checked_eq_some hheader, Option.bind_some, okOr_checked_of_lt (not_le.mp htotal),
              error_bind]
          · rw [checked, if_neg hheader]
            rfl
        · rw [okOr_checked_of_lt (not_le.mp hpayload), error_bind]
      · rw [okOr_checked_of_lt (not_le.mp hsegments), error_bind]
  · rw [if_neg (fun h => hfits h.1), okOr_checked_of_lt (not_le.mp hfits), error_bind]

end Format

/-! ### Reading an encoding -/

namespace FilterType

variable {T : Target} {t t' : FilterType} {n : ℕ} {hdr : Header} {payload bytes bytes' : List U8}
  {e : DecodeError}

/-- `from_bytes` of the type returns the error. -/
def FailsWith (T : Target) (bytes : List U8) (e : DecodeError) : FilterType → Prop
  | ribbon R => Ribbon.fromBytes T R bytes = some (.error e)
  | stdRibbon R => StdRibbon.fromBytes T R bytes = some (.error e)

theorem failsWith_of_decode
    (h : decode T bytes t.family (BitVec.ofNat 8 t.width) t.elemSize t.blockSize
      = some (.error e)) :
  t.FailsWith T bytes e
  := by
  cases t with
  | ribbon R =>
      change decode T bytes familyHomog (BitVec.ofNat 8 R) 8 W = _ at h
      rw [FailsWith, Ribbon.fromBytes, h]
      rfl
  | stdRibbon R =>
      change decode T bytes familyStd (BitVec.ofNat 8 R) 16 W128 = _ at h
      rw [FailsWith, StdRibbon.fromBytes, h]
      rfl

/-- An encoding is told from the other types by its family, and within the family by its width,
on every target. -/
theorem Encodes.failsWith_other (h : t.Encodes T n hdr payload bytes) (hwidth : checkWidth t'.width)
    (hne : t' ≠ t) (T' : Target) :
  t'.FailsWith T' bytes (if t'.family ≠ t.family then .wrongFamily else .wrongResultWidth)
  := by
  apply failsWith_of_decode
  rw [h.eq_finish, decode_finish_writeHeader]
  by_cases hfamily : t'.family = t.family
  · have hr : BitVec.ofNat 8 t.width ≠ BitVec.ofNat 8 t'.width := by
      intro heq
      apply hne
      apply eq_of_family_of_width hfamily
      rw [← hwidth.toNat_ofNat, ← heq, h.width.toNat_ofNat]
    rw [if_neg (not_not.mpr hfamily.symm), if_pos hr, if_neg (not_not.mpr hfamily)]
  · rw [if_pos (Ne.symm hfamily), if_pos hfamily]

/-- A change of one byte or two adjacent bytes is reported as wrong magic bytes if it hits them,
and else as a wrong checksum, whatever type is read. -/
theorem Encodes.failsWith_changed (h : t.Encodes T n hdr payload bytes) (t' : FilterType)
    {pre mid mid' post : List U8} (hbytes : bytes = pre ++ mid ++ post)
    (hlen : mid'.length = mid.length) (htwo : mid.length ≤ 2) (hne : mid' ≠ mid) (T' : Target) :
  t'.FailsWith T' (pre ++ mid' ++ post)
    (if (pre ++ mid' ++ post).take 4 ≠ magic then .badMagic else .badChecksum)
  := by
  have hlong : headerLen + checksumLen ≤ (pre ++ mid' ++ post).length := by
    have htotal := h.length_eq
    rw [hbytes, List.length_append, List.length_append] at htotal
    rw [List.length_append, List.length_append]
    omega
  apply failsWith_of_decode
  by_cases hmagic : (pre ++ mid' ++ post).take 4 = magic
  · rw [if_neg (not_not.mpr hmagic)]
    apply decode_badChecksum hlong hmagic
    intro hagrees
    have hfinish := eq_finish_of_checksumAgrees (by omega) hagrees
    apply hne
    apply (finish_window_injective (h.eq_finish.symm.trans hbytes) hfinish.symm hlen htwo).symm
  · rw [if_pos hmagic]
    apply decode_badMagic hlong hmagic

/-- What agrees with an encoding up to the shorter of the two lengths, and is long enough, starts
with its header. -/
theorem Encodes.take_eq (h : t.Encodes T n hdr payload bytes)
    (hcut : bytes' <+: bytes ∨ bytes <+: bytes') (hlong : headerLen ≤ bytes'.length) :
  bytes'.take headerLen = writeHeader t.family (BitVec.ofNat 8 t.width) hdr.seed hdr.numStarts
    (BitVec.ofNat 64 (n / t.blockSize * t.width))
  := by
  have hheader : bytes.take headerLen = writeHeader t.family (BitVec.ofNat 8 t.width) hdr.seed
      hdr.numStarts (BitVec.ofNat 64 (n / t.blockSize * t.width)) := by
    rw [h.eq_finish, finish, List.append_assoc, List.take_left' (length_writeHeader ..)]
  have hlen : headerLen ≤ bytes.length := by
    rw [h.length_eq]
    omega
  rw [← hheader]
  rcases hcut with ⟨rest, rfl⟩ | ⟨rest, rfl⟩
  · rw [List.take_append_of_le_length hlong]
  · rw [List.take_append_of_le_length hlen]

/-- An encoding cut short or extended is reported as too short, as having a wrong checksum, or,
where the checksum happens to be right, as having another length than its header says. -/
theorem Encodes.failsWith_resized (h : t.Encodes T n hdr payload bytes)
    (hcut : bytes' <+: bytes ∨ bytes <+: bytes') (hne : bytes' ≠ bytes) :
  t.FailsWith T bytes'
    (if bytes'.length < headerLen + checksumLen then .tooShort
      else if ¬ ChecksumAgrees bytes' then .badChecksum else .lengthMismatch)
  := by
  apply failsWith_of_decode
  by_cases hshort : bytes'.length < headerLen + checksumLen
  · rw [if_pos hshort]
    apply decode_tooShort hshort
  · rw [if_neg hshort]
    have hlong := not_lt.mp hshort
    have hheader := h.take_eq hcut (by omega)
    by_cases hagrees : ChecksumAgrees bytes'
    · rw [if_neg (not_not.mpr hagrees)]
      obtain ⟨body, rfl⟩ : ∃ body, bytes' = finish body :=
        ⟨_, eq_finish_of_checksumAgrees (by omega) hagrees⟩
      rw [length_finish] at hlong
      have hrest : body = writeHeader t.family (BitVec.ofNat 8 t.width) hdr.seed hdr.numStarts
          (BitVec.ofNat 64 (n / t.blockSize * t.width)) ++ body.drop headerLen := by
        rw [← hheader, finish, List.take_append_of_le_length (by omega), List.take_append_drop]
      have hlen : headerLen + n / t.blockSize * t.width * t.elemSize + checksumLen
          ≠ headerLen + (body.drop headerLen).length + checksumLen := by
        rw [← h.length_eq, List.length_drop]
        intro heq
        have hsame : (finish body).length = bytes.length := by
          rw [length_finish]
          omega
        apply hne
        rcases hcut with hcut | hcut
        · apply hcut.eq_of_length hsame
        · apply (hcut.eq_of_length hsame.symm).symm
      rw [hrest, decode_finish_writeHeader, if_neg (not_not.mpr rfl), if_neg (not_not.mpr rfl),
        h.geometry.layout.payloadLen_eq T h.width.toNat_ofNat,
        if_pos ⟨h.geometry.numSlots_le, h.geometry.length_le⟩, if_neg hlen]
    · rw [if_pos hagrees]
      apply decode_badChecksum hlong _ hagrees
      have htake : bytes'.take 4 = (bytes'.take headerLen).take 4 := by
        rw [List.take_take]
        rfl
      rw [htake, hheader]
      rfl

/-- On a target that does not count the slots or the bytes of an encoding, its geometry is bad. -/
theorem Encodes.failsWith_small (h : t.Encodes T n hdr payload bytes) {T' : Target}
    (hsmall : ¬ (n ≤ T'.usizeMax ∧ bytes.length ≤ T'.usizeMax)) :
  t.FailsWith T' bytes .badGeometry
  := by
  apply failsWith_of_decode
  rw [h.length_eq] at hsmall
  rw [h.eq_finish, decode_finish_writeHeader, if_neg (not_not.mpr rfl), if_neg (not_not.mpr rfl),
    h.geometry.layout.payloadLen_eq T' h.width.toNat_ofNat, if_neg hsmall]

end FilterType

/-- What `from_bytes` reports of a buffer accepted as a filter of some type: read as another type,
that the family or else the width is wrong; after a change of one byte or two adjacent bytes,
whatever type is read, that the magic bytes or else the checksum are wrong; cut short or
extended, that it is too short, or that the checksum or else the length is wrong. -/
theorem fromBytes_errors (T : Target) (t : FilterType) {bytes : List U8} (h : t.Accepts T bytes) :
  (∀ T' t', checkWidth t'.width → t' ≠ t →
    t'.FailsWith T' bytes (if t'.family ≠ t.family then .wrongFamily else .wrongResultWidth))
  ∧ (∀ T' t' pre mid mid' post, bytes = pre ++ mid ++ post → mid'.length = mid.length →
    mid.length ≤ 2 → mid' ≠ mid →
    FilterType.FailsWith T' (pre ++ mid' ++ post)
      (if (pre ++ mid' ++ post).take 4 ≠ magic then .badMagic else .badChecksum) t')
  ∧ ∀ bytes', (bytes' <+: bytes ∨ bytes <+: bytes') → bytes' ≠ bytes →
    t.FailsWith T bytes'
      (if bytes'.length < headerLen + checksumLen then .tooShort
        else if ¬ ChecksumAgrees bytes' then .badChecksum else .lengthMismatch)
  := by
  obtain ⟨n, hdr, payload, hencodes⟩ := h.exists_encodes
  refine ⟨?_, ?_, ?_⟩
  · intro T' t' hwidth hne
    apply hencodes.failsWith_other hwidth hne
  · intro T' t' pre mid mid' post hbytes hlen htwo hne
    apply hencodes.failsWith_changed t' hbytes hlen htwo hne
  · intro bytes' hcut hne
    apply hencodes.failsWith_resized hcut hne

set_option maxRecDepth 4000 in
/-- A filter of two empty blocks read as the other family and as another width, with its first
byte changed, and without its last byte. -/
theorem fromBytes_errors_empty :
  let T : Target := ⟨64, le_rfl⟩
  let bytes := Ribbon.encoding (R := 7) ⟨Solution.fromParts 65 0 (List.replicate 14 0)⟩
  (FilterType.stdRibbon 7).FailsWith T bytes .wrongFamily
    ∧ (FilterType.ribbon 8).FailsWith T bytes .wrongResultWidth
    ∧ (FilterType.ribbon 7).FailsWith T ([] ++ [0] ++ bytes.drop 1) .badMagic
    ∧ (FilterType.ribbon 7).FailsWith T (bytes.take 20) .tooShort
  := by
  intro T bytes
  have hR : checkWidth 7 := ⟨by decide, by decide⟩
  have haccepts : (FilterType.ribbon 7).Accepts T bytes :=
    ⟨hR, _, Ribbon.Decodable.fromBytes hR
      ⟨⟨by decide, by decide, by decide⟩, by decide, by decide⟩⟩
  obtain ⟨hother, hchanged, hresized⟩ := fromBytes_errors T _ haccepts
  refine ⟨?_, ?_, ?_, ?_⟩
  · apply hother T (.stdRibbon 7) hR (by decide)
  · apply hother T (.ribbon 8) ⟨by decide, by decide⟩ (by decide)
  · apply hchanged T (.ribbon 7) [] [0x50] [0] (bytes.drop 1) (by decide) rfl (by decide) (by decide)
  · apply hresized (bytes.take 20) (.inl (List.take_prefix ..)) (by decide)

/-- A buffer that one target accepts is read on every other target as the same filter, or as a
bad geometry where a `usize` does not count its slots or its bytes. -/
theorem fromBytes_portable (T T' : Target) {R : ℕ} (hR : checkWidth R) (bytes : List U8) :
  (∀ f : Ribbon R, Ribbon.fromBytes T R bytes = some (.ok f) →
    Ribbon.fromBytes T' R bytes
      = some (if f.soln.numSlots ≤ T'.usizeMax ∧ bytes.length ≤ T'.usizeMax then .ok f
          else .error .badGeometry))
  ∧ ∀ f : StdRibbon R, StdRibbon.fromBytes T R bytes = some (.ok f) →
    StdRibbon.fromBytes T' R bytes
      = some (if f.soln.numSlots ≤ T'.usizeMax ∧ bytes.length ≤ T'.usizeMax then .ok f
          else .error .badGeometry)
  := by
  constructor
  · intro f hf
    have hdecodable := Ribbon.decodable_of_fromBytes hR hf
    obtain ⟨n, hencodes, -⟩ := Ribbon.exists_encodes hR hf
    have hn : n = f.soln.numSlots := hencodes.numSlots_eq
    obtain rfl := Ribbon.encoding_of_fromBytes hR hf
    by_cases hfits : f.soln.numSlots ≤ T'.usizeMax ∧ f.encoding.length ≤ T'.usizeMax
    · rw [if_pos hfits]
      apply Ribbon.Decodable.fromBytes hR ⟨hdecodable.valid, hfits.1, hfits.2⟩
    · rw [if_neg hfits]
      rw [← hn] at hfits
      apply hencodes.failsWith_small hfits
  · intro f hf
    have hdecodable := StdRibbon.decodable_of_fromBytes hR hf
    obtain ⟨n, hencodes, -⟩ := StdRibbon.exists_encodes hR hf
    have hn : n = f.soln.numSlots := hencodes.numSlots_eq
    obtain rfl := StdRibbon.encoding_of_fromBytes hR hf
    by_cases hfits : f.soln.numSlots ≤ T'.usizeMax ∧ f.encoding.length ≤ T'.usizeMax
    · rw [if_pos hfits]
      apply StdRibbon.Decodable.fromBytes hR ⟨hdecodable.valid, hdecodable.rawSeed,
        hdecodable.ordinalSeed_lt, hfits.1, hfits.2⟩
    · rw [if_neg hfits]
      rw [← hn] at hfits
      apply hencodes.failsWith_small hfits

set_option maxRecDepth 4000 in
/-- A filter of two empty blocks, on a target of 32 bits. -/
theorem fromBytes_portable_empty :
  let bytes := Ribbon.encoding (R := 7) ⟨Solution.fromParts 65 0 (List.replicate 14 0)⟩
  ∃ f : Ribbon 7, Ribbon.fromBytes ⟨64, le_rfl⟩ 7 bytes = some (.ok f)
    ∧ Ribbon.fromBytes ⟨32, by decide⟩ 7 bytes
      = some (if f.soln.numSlots ≤ 2 ^ 32 - 1 ∧ bytes.length ≤ 2 ^ 32 - 1 then .ok f
          else .error .badGeometry)
  := by
  intro bytes
  have hR : checkWidth 7 := ⟨by decide, by decide⟩
  have hf : Ribbon.fromBytes ⟨64, le_rfl⟩ 7 bytes = some (.ok _) :=
    Ribbon.Decodable.fromBytes hR ⟨⟨by decide, by decide, by decide⟩, by decide, by decide⟩
  exact ⟨_, hf, (fromBytes_portable ⟨64, le_rfl⟩ ⟨32, by decide⟩ hR bytes).1 _ hf⟩

end Pleat
