import Pleat.Bytes
import Pleat.Decoding

/-!
# Canonical encodings

A buffer that is accepted as a filter is, byte for byte, the encoding of that filter, and
no buffer is accepted as filters of two types.  So the buffers accepted as filters of a
type are the encodings of the valid solutions of that type whose slots, and whose buffer,
a `usize` of the target can count.

On a target of 32 bits a valid solution may have more slots than that although its buffer
fits in memory, since a segment has fewer bits than its block has slots.  And a buffer of
more than 1 GiB may be accepted there, but the vector that the filter is written to cannot
grow to it.
-/

namespace Pleat

open Bits Format LittleEndian

namespace Format

theorem toLeBytes_injective {w : ℕ} (hw : w % 8 = 0) :
  Function.Injective (toLeBytes : BitVec w → List U8)
  := by
  intro x y h
  rw [← fromLeBytes_toLeBytes hw x, h, fromLeBytes_toLeBytes hw y]

/-- The fields of a header and what follows it can be told from the bytes. -/
theorem writeHeader_append_inj {family family' r r' : U8}
    {seed seed' numStarts numStarts' segmentCount segmentCount' : U64} {rest rest' : List U8}
    (h : writeHeader family r seed numStarts segmentCount ++ rest
      = writeHeader family' r' seed' numStarts' segmentCount' ++ rest') :
  family = family' ∧ r = r' ∧ seed = seed' ∧ numStarts = numStarts'
    ∧ segmentCount = segmentCount' ∧ rest = rest'
  := by
  have hlen : ∀ x y : U64, (toLeBytes x).length = (toLeBytes y).length := by
    intro x y
    rw [length_toLeBytes, length_toLeBytes]
  obtain ⟨h, hrest⟩ := List.append_inj h (by rw [length_writeHeader, length_writeHeader])
  obtain ⟨h, hcount⟩ := List.append_inj' h (hlen _ _)
  obtain ⟨h, hstarts⟩ := List.append_inj' h (hlen _ _)
  obtain ⟨h, hseed⟩ := List.append_inj' h (hlen _ _)
  have hbytes : [family, r] = [family', r'] :=
    List.append_cancel_left (List.append_cancel_right h)
  rw [List.cons.injEq, List.cons.injEq] at hbytes
  exact ⟨hbytes.1, hbytes.2.1, toLeBytes_injective rfl hseed, toLeBytes_injective rfl hstarts,
    toLeBytes_injective rfl hcount, hrest⟩

end Format

/-! ### The types of filters -/

/-- The types a buffer can be decoded as. -/
inductive FilterType
  | ribbon (R : ℕ)
  | stdRibbon (R : ℕ)
  deriving DecidableEq

namespace FilterType

/-- The number of result columns. -/
def width : FilterType → ℕ
  | ribbon R => R
  | stdRibbon R => R

/-- The family byte. -/
def family : FilterType → U8
  | ribbon _ => familyHomog
  | stdRibbon _ => familyStd

/-- The number of bytes of a segment. -/
def elemSize : FilterType → ℕ
  | ribbon _ => 8
  | stdRibbon _ => 16

/-- The number of slots of a block. -/
def blockSize : FilterType → ℕ
  | ribbon _ => W
  | stdRibbon _ => W128

/-- A buffer is accepted: `from_bytes` of the type returns a filter. -/
def Accepts (T : Target) (bytes : List U8) : FilterType → Prop
  | ribbon R => checkWidth R ∧ ∃ f : Ribbon R, Ribbon.fromBytes T R bytes = some (.ok f)
  | stdRibbon R => checkWidth R ∧ ∃ f : StdRibbon R, StdRibbon.fromBytes T R bytes = some (.ok f)

/-- The bytes are the encoding of a header and a payload for a table of `n` slots. -/
structure Encodes (T : Target) (t : FilterType) (n : ℕ) (hdr : Header) (payload bytes : List U8) :
    Prop where
  width : checkWidth t.width
  geometry : Geometry T n t.width t.elemSize t.blockSize hdr.numStarts
    (BitVec.ofNat 64 (n / t.blockSize * t.width))
  length : payload.length = n / t.blockSize * t.width * t.elemSize
  eq_finish : bytes = finish (writeHeader t.family (BitVec.ofNat 8 t.width) hdr.seed hdr.numStarts
    (BitVec.ofNat 64 (n / t.blockSize * t.width)) ++ payload)

variable {T : Target} {t t' : FilterType} {n n' : ℕ} {hdr hdr' : Header}
  {payload payload' bytes : List U8}

theorem elemSize_pos (t : FilterType) :
  0 < t.elemSize
  := by
  cases t with
  | ribbon R => apply Nat.succ_pos
  | stdRibbon R => apply Nat.succ_pos

theorem blockSize_pos (t : FilterType) :
  0 < t.blockSize
  := by
  cases t with
  | ribbon R => apply Nat.succ_pos
  | stdRibbon R => apply Nat.succ_pos

/-- What the decoder accepts is an encoding. -/
theorem encodes_of_decode (hwidth : checkWidth t.width)
    (h : decode T bytes t.family (BitVec.ofNat 8 t.width) t.elemSize t.blockSize
      = some (.ok (hdr, payload))) :
  ∃ n, t.Encodes T n hdr payload bytes
  := by
  obtain ⟨n, segmentCount, hgeometry, hpayload, hbytes⟩ :=
    (decode_eq_ok_iff t.blockSize_pos t.elemSize_pos).mp h
  rw [hwidth.toNat_ofNat] at hgeometry hpayload
  have hcount : BitVec.ofNat 64 (n / t.blockSize * t.width) = segmentCount := by
    rw [← hgeometry.segments, BitVec.ofNat_toNat, BitVec.setWidth_eq]
  rw [← hcount] at hgeometry hbytes
  exact ⟨n, hwidth, hgeometry, hpayload, hbytes⟩

/-- The family and the number of columns determine the type. -/
theorem eq_of_family_of_width (hfamily : t.family = t'.family) (hwidth : t.width = t'.width) :
  t = t'
  := by
  cases t with
  | ribbon R =>
      cases t' with
      | ribbon R' => exact congrArg ribbon hwidth
      | stdRibbon R' => nomatch hfamily
  | stdRibbon R =>
      cases t' with
      | ribbon R' => nomatch hfamily
      | stdRibbon R' => exact congrArg stdRibbon hwidth

/-- The length of an encoding. -/
theorem Encodes.length_eq (h : t.Encodes T n hdr payload bytes) :
  bytes.length = headerLen + n / t.blockSize * t.width * t.elemSize + checksumLen
  := by
  rw [h.eq_finish, length_finish, List.length_append, length_writeHeader, h.length]

/-- The header fixes the number of slots. -/
theorem Encodes.numSlots_eq (h : t.Encodes T n hdr payload bytes) :
  n = hdr.numStarts.toNat + t.blockSize - 1
  := by
  have hslots := h.geometry.slots
  have hpos := h.geometry.positive
  rw [h.geometry.starts]
  omega

end FilterType

/-! ### Homogeneous filters -/

namespace Ribbon

variable {T : Target} {R : ℕ} {bytes : List U8} {f : Ribbon R}

/-- `from_bytes` returns a filter or an error. -/
theorem exists_fromBytes (T : Target) (R : ℕ) (bytes : List U8) :
  ∃ result, fromBytes T R bytes = some result
  := by
  have hW : 0 < W := by decide
  obtain ⟨result, hdecode⟩ :=
    exists_decode T bytes familyHomog (BitVec.ofNat 8 R) hW (Nat.succ_pos 7)
  rw [fromBytes, hdecode]
  cases result with
  | error e => exact ⟨_, rfl⟩
  | ok fields => exact ⟨_, rfl⟩

theorem exists_encodes (hR : checkWidth R) (h : fromBytes T R bytes = some (.ok f)) :
  ∃ n, (FilterType.ribbon R).Encodes T n ⟨f.soln.rawSeed, f.soln.numStarts⟩
      (f.soln.segments.flatMap toLeBytes) bytes
    ∧ f.soln.segments.length = n / W * R
  := by
  rw [fromBytes] at h
  obtain ⟨result, hdecode, h⟩ := Option.bind_eq_some_iff.mp h
  cases result with
  | error e => cases Option.some_injective _ h
  | ok fields =>
      obtain ⟨hdr, payload⟩ := fields
      obtain rfl := Except.ok.inj (Option.some_injective _ h)
      obtain ⟨n, hencodes⟩ := FilterType.encodes_of_decode (t := .ribbon R) hR hdecode
      have hpayload : payload.length = n / W * R * 8 := hencodes.length
      have hsegs : ((chunksExact 8 payload).map (fromLeBytes 64)).flatMap toLeBytes = payload := by
        apply flatMap_toLeBytes_chunksExact rfl
        rw [hpayload]
        apply Nat.mul_mod_left
      refine ⟨n, ?_, ?_⟩
      · rw [Solution.fromParts, hsegs]
        apply hencodes
      · rw [Solution.fromParts, List.length_map, length_chunksExact, hpayload]
        apply Nat.mul_div_cancel _ (by decide)

/-- Encoding undoes decoding. -/
theorem encoding_of_fromBytes (hR : checkWidth R) (h : fromBytes T R bytes = some (.ok f)) :
  f.encoding = bytes
  := by
  obtain ⟨n, hencodes, hsegments⟩ := exists_encodes hR h
  rw [encoding, Solution.parts]
  dsimp only
  rw [hsegments]
  apply hencodes.eq_finish.symm

/-- The filters whose encoding is accepted. -/
structure Decodable (T : Target) (f : Ribbon R) : Prop where
  valid : f.soln.Valid
  numSlots_le : f.soln.numSlots ≤ T.usizeMax
  length_le : f.encoding.length ≤ T.usizeMax

theorem decodable_of_fromBytes (hR : checkWidth R) (h : fromBytes T R bytes = some (.ok f)) :
  f.Decodable T
  := by
  obtain ⟨n, hencodes, hsegments⟩ := exists_encodes hR h
  have hgeometry := hencodes.geometry
  have hslots : 2 * W ≤ n := hgeometry.slots
  have hstarts : f.soln.numStarts.toNat = n - W + 1 := hgeometry.starts
  have hW : 0 < W := by decide
  have hn : f.soln.numSlots = n := by
    rw [Solution.numSlots, hstarts]
    omega
  constructor
  · constructor
    · rw [hn]
      apply hgeometry.blocks
    · rw [hn]
      apply hslots
    · rw [hn, hsegments]
  · rw [hn]
    apply hgeometry.numSlots_le
  · rw [length_encoding, hsegments]
    apply hgeometry.length_le

theorem Decodable.fromBytes (hR : checkWidth R) (h : f.Decodable T) :
  fromBytes T R f.encoding = some (.ok f)
  := by
  have hslots := h.valid.slots
  have hlen := h.length_le
  have hmax := usizeMax_lt T
  have hW : 0 < W := by decide
  rw [length_encoding] at hlen
  apply fromBytes_of_geometry hR _ h.valid.segments
  exact {
    starts := by
      rw [Solution.numSlots] at hslots ⊢
      omega
    blocks := h.valid.blocks
    slots := hslots
    positive := hW
    elem := by decide
    numSlots_le := h.numSlots_le
    segments := by
      rw [← h.valid.segments, BitVec.toNat_ofNat]
      apply Nat.mod_eq_of_lt
      omega
    length_le := by
      rw [← h.valid.segments]
      apply hlen }

end Ribbon

/-! ### Standard filters -/

namespace StdRibbon

variable {T : Target} {R : ℕ} {bytes : List U8} {f : StdRibbon R}

/-- `from_bytes` returns a filter or an error. -/
theorem exists_fromBytes (T : Target) (R : ℕ) (bytes : List U8) :
  ∃ result, fromBytes T R bytes = some result
  := by
  have hW : 0 < W128 := by decide
  obtain ⟨result, hdecode⟩ :=
    exists_decode T bytes familyStd (BitVec.ofNat 8 R) hW (Nat.succ_pos 15)
  rw [fromBytes, hdecode]
  cases result with
  | error e => exact ⟨_, rfl⟩
  | ok fields =>
      obtain ⟨hdr, payload⟩ := fields
      by_cases hseed : seedCount ≤ hdr.seed.toNat
      · exact ⟨_, if_pos hseed⟩
      · exact ⟨_, if_neg hseed⟩

/-- The ordinal seed of an accepted buffer fits the narrow type it is kept in. -/
theorem exists_encodes (hR : checkWidth R) (h : fromBytes T R bytes = some (.ok f)) :
  ∃ n, (FilterType.stdRibbon R).Encodes T n ⟨f.soln.ordinalSeed.setWidth 64, f.soln.numStarts⟩
      (f.soln.segments.flatMap toLeBytes) bytes
    ∧ f.soln.segments.length = n / W128 * R
    ∧ f.soln.rawSeed = ordinalToRawSeed f.soln.ordinalSeed
    ∧ f.soln.ordinalSeed.toNat < seedCount
  := by
  rw [fromBytes] at h
  obtain ⟨result, hdecode, h⟩ := Option.bind_eq_some_iff.mp h
  cases result with
  | error e => cases Option.some_injective _ h
  | ok fields =>
      obtain ⟨hdr, payload⟩ := fields
      obtain ⟨hseed, h⟩ := of_ite_some_error h
      obtain rfl := Except.ok.inj (Option.some_injective _ h)
      rw [not_le, seedCount] at hseed
      obtain ⟨n, hencodes⟩ := FilterType.encodes_of_decode (t := .stdRibbon R) hR hdecode
      have hpayload : payload.length = n / W128 * R * 16 := hencodes.length
      have hsegs : ((chunksExact 16 payload).map (fromLeBytes 128)).flatMap toLeBytes
          = payload := by
        apply flatMap_toLeBytes_chunksExact rfl
        rw [hpayload]
        apply Nat.mul_mod_left
      have hnarrow : (hdr.seed.setWidth 32).toNat = hdr.seed.toNat := by
        rw [BitVec.toNat_setWidth]
        apply Nat.mod_eq_of_lt
        omega
      have hwide : (hdr.seed.setWidth 32).setWidth 64 = hdr.seed := by
        apply BitVec.eq_of_toNat_eq
        rw [BitVec.toNat_setWidth, hnarrow]
        apply Nat.mod_eq_of_lt hdr.seed.isLt
      refine ⟨n, ?_, ?_, rfl, ?_⟩
      · rw [Solution128.fromParts, hsegs, hwide]
        apply hencodes
      · rw [Solution128.fromParts, List.length_map, length_chunksExact, hpayload]
        apply Nat.mul_div_cancel _ (by decide)
      · rw [Solution128.fromParts, hnarrow]
        apply hseed

/-- Encoding undoes decoding. -/
theorem encoding_of_fromBytes (hR : checkWidth R) (h : fromBytes T R bytes = some (.ok f)) :
  f.encoding = bytes
  := by
  obtain ⟨n, hencodes, hsegments, -, -⟩ := exists_encodes hR h
  rw [encoding, Solution128.parts]
  dsimp only
  rw [hsegments]
  apply hencodes.eq_finish.symm

/-- The filters whose encoding is accepted. -/
structure Decodable (T : Target) (f : StdRibbon R) : Prop where
  valid : f.soln.Valid
  rawSeed : f.soln.rawSeed = ordinalToRawSeed f.soln.ordinalSeed
  ordinalSeed_lt : f.soln.ordinalSeed.toNat < seedCount
  numSlots_le : f.soln.numSlots ≤ T.usizeMax
  length_le : f.encoding.length ≤ T.usizeMax

theorem decodable_of_fromBytes (hR : checkWidth R) (h : fromBytes T R bytes = some (.ok f)) :
  f.Decodable T
  := by
  obtain ⟨n, hencodes, hsegments, hraw, hseed⟩ := exists_encodes hR h
  have hgeometry := hencodes.geometry
  have hslots : 2 * W128 ≤ n := hgeometry.slots
  have hstarts : f.soln.numStarts.toNat = n - W128 + 1 := hgeometry.starts
  have hW : 0 < W128 := by decide
  have hn : f.soln.numSlots = n := by
    rw [Solution128.numSlots, hstarts]
    omega
  constructor
  · constructor
    · rw [hn]
      apply hgeometry.blocks
    · rw [hn]
      apply hslots
    · rw [hn, hsegments]
  · apply hraw
  · apply hseed
  · rw [hn]
    apply hgeometry.numSlots_le
  · rw [length_encoding, hsegments]
    apply hgeometry.length_le

theorem Decodable.fromBytes (hR : checkWidth R) (h : f.Decodable T) :
  fromBytes T R f.encoding = some (.ok f)
  := by
  have hslots := h.valid.slots
  have hlen := h.length_le
  have hmax := usizeMax_lt T
  have hW : 0 < W128 := by decide
  rw [length_encoding] at hlen
  apply fromBytes_of_geometry hR _ h.valid.segments h.rawSeed h.ordinalSeed_lt
  exact {
    starts := by
      rw [Solution128.numSlots] at hslots ⊢
      omega
    blocks := h.valid.blocks
    slots := hslots
    positive := hW
    elem := by decide
    numSlots_le := h.numSlots_le
    segments := by
      rw [← h.valid.segments, BitVec.toNat_ofNat]
      apply Nat.mod_eq_of_lt
      omega
    length_le := by
      rw [← h.valid.segments]
      apply hlen }

end StdRibbon

/-! ### The encodings that are accepted -/

/-- An accepted buffer is the encoding of a header and a payload. -/
theorem FilterType.Accepts.exists_encodes {T : Target} {t : FilterType} {bytes : List U8}
    (h : t.Accepts T bytes) :
  ∃ n hdr payload, t.Encodes T n hdr payload bytes
  := by
  cases t with
  | ribbon R =>
      obtain ⟨hR, f, hf⟩ := h
      obtain ⟨n, hencodes, -⟩ := Ribbon.exists_encodes hR hf
      exact ⟨n, _, _, hencodes⟩
  | stdRibbon R =>
      obtain ⟨hR, f, hf⟩ := h
      obtain ⟨n, hencodes, -⟩ := StdRibbon.exists_encodes hR hf
      exact ⟨n, _, _, hencodes⟩

/-- A filter of `2 ^ 28` slots and 32 columns, with 1 GiB of segments. -/
def Ribbon.gibibyte : Ribbon 32 :=
  ⟨Solution.fromParts (BitVec.ofNat 64 (2 ^ 28 - 63)) 0 (List.replicate (2 ^ 27) 0)⟩

theorem Ribbon.length_encoding_gibibyte :
  Ribbon.gibibyte.encoding.length = 2 ^ 30 + 40
  := by
  have hsegments : Ribbon.gibibyte.soln.segments.length = 2 ^ 27 := List.length_replicate
  rw [Ribbon.length_encoding, hsegments, headerLen, checksumLen]
  norm_num

theorem Ribbon.decodable_gibibyte :
  Ribbon.gibibyte.Decodable ⟨32, by decide⟩
  := by
  have hslots : Ribbon.gibibyte.soln.numSlots = 2 ^ 28 := rfl
  have hsegments : Ribbon.gibibyte.soln.segments.length = 2 ^ 27 := List.length_replicate
  refine ⟨⟨?_, ?_, ?_⟩, ?_, ?_⟩
  · rw [hslots]
    decide
  · rw [hslots]
    decide
  · rw [hslots, hsegments]
    decide
  · rw [hslots]
    decide
  · rw [Ribbon.length_encoding_gibibyte]
    decide

end Pleat
