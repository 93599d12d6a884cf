import Pleat.Data.Capacity
import Pleat.Format

/-!
# Writing to a vector that grows

The bytes of a filter are written to a vector with room for the header, which grows with the
segments and the checksum (`format.rs`, `filter.rs`).  Its capacity doubles from the length of
a header, so that writing panics exactly when the bytes are more than the largest power of two
that can be allocated: 1 GiB on a target of 32 bits.
-/

namespace Pleat

open Capacity Format LittleEndian

namespace Checked

variable {T : Target} {w : ℕ}

/-- The least capacity but zero of a vector whose elements take `size` bytes. -/
def minNonZeroCap (size : ℕ) : ℕ :=
  if size = 1 then 8 else if size ≤ 1024 then 4 else 1

/-- A vector of bytes, of which `isize::MAX` can be allocated. -/
abbrev ByteVec (T : Target) : Type :=
  Vec U8 T.isizeMax

/-- `extend_from_slice` -/
def extendFromSlice (out : ByteVec T) (bytes : List U8) : Option (ByteVec T) :=
  out.extend (minNonZeroCap 1) bytes

/-- Write a header to a fresh vector. -/
def writeHeader (T : Target) (family r : U8) (seed numStarts segmentCount : U64) :
    Option (ByteVec T) := do
  let out ← Vec.withCapacity U8 T.isizeMax headerLen
  let out ← extendFromSlice out magic
  let out ← out.push (minNonZeroCap 1) family
  let out ← out.push (minNonZeroCap 1) r
  let out ← extendFromSlice out [0, 0]
  let out ← extendFromSlice out (toLeBytes seed)
  let out ← extendFromSlice out (toLeBytes numStarts)
  extendFromSlice out (toLeBytes segmentCount)

/-- Append the checksum of everything written so far. -/
def finish (buf : ByteVec T) : Option (ByteVec T) :=
  extendFromSlice buf (toLeBytes (fnv1a buf.elems))

/-- Write a header, the segments and the checksum. -/
def toBytes (T : Target) (family r : U8) (seed numStarts : U64) (segs : List (BitVec w)) :
    Option (List U8) := do
  let buf ← writeHeader T family r seed numStarts (BitVec.ofNat 64 segs.length)
  let buf ← segs.foldlM (fun buf s => extendFromSlice buf (toLeBytes s)) buf
  let buf ← finish buf
  some buf.elems

/-! ### When the vector can grow -/

/-- The pieces of a header. -/
def headerPieces (family r : U8) (seed numStarts segmentCount : U64) : List (List U8) :=
  [magic, [family], [r], [0, 0], toLeBytes seed, toLeBytes numStarts, toLeBytes segmentCount]

theorem flatten_headerPieces (family r : U8) (seed numStarts segmentCount : U64) :
  (headerPieces family r seed numStarts segmentCount).flatten
    = Format.writeHeader family r seed numStarts segmentCount
  := by
  simp [headerPieces, Format.writeHeader]

theorem length_le_of_mem_headerPieces {family r : U8} {seed numStarts segmentCount : U64}
    {piece : List U8} (h : piece ∈ headerPieces family r seed numStarts segmentCount) :
  piece.length ≤ headerLen
  := by
  have hbyte : ∀ x : U8, [x].length ≤ headerLen := by
    intro x
    rw [List.length_singleton]
    decide
  have hword : ∀ x : U64, (toLeBytes x).length ≤ headerLen := by
    intro x
    rw [length_toLeBytes]
    decide
  simp only [headerPieces, List.mem_cons, List.not_mem_nil, or_false] at h
  rcases h with rfl | rfl | rfl | rfl | rfl | rfl | rfl
  · decide
  · apply hbyte
  · apply hbyte
  · decide
  · apply hword
  · apply hword
  · apply hword

theorem writeHeader_eq (T : Target) (family r : U8) (seed numStarts segmentCount : U64) :
  writeHeader T family r seed numStarts segmentCount
    = (Vec.withCapacity U8 T.isizeMax headerLen).bind
        ((headerPieces family r seed numStarts segmentCount).foldlM (Vec.extend (minNonZeroCap 1)))
  := by
  simp [writeHeader, headerPieces, extendFromSlice, Vec.push]

/-- The header and the segments are written piece by piece, and then the checksum. -/
theorem toBytes_eq_bind (T : Target) (family r : U8) (seed numStarts : U64)
    (segs : List (BitVec w)) :
  toBytes T family r seed numStarts segs
    = (Vec.withCapacity U8 T.isizeMax headerLen).bind fun out =>
        ((headerPieces family r seed numStarts (BitVec.ofNat 64 segs.length)
          ++ segs.map toLeBytes).foldlM (Vec.extend (minNonZeroCap 1)) out).bind fun buf =>
        (finish buf).map Vec.elems
  := by
  have hsegs : ∀ buf : ByteVec T, (segs.map toLeBytes).foldlM (Vec.extend (minNonZeroCap 1)) buf
      = segs.foldlM (fun buf s => extendFromSlice buf (toLeBytes s)) buf :=
    fun _ => List.foldlM_map
  rw [toBytes, writeHeader_eq]
  simp only [List.foldlM_append, hsegs, Option.bind_eq_bind, Option.bind_assoc,
    Option.map_eq_bind]
  rfl

/-- The largest power of two that can be allocated is a doubling of the length of a header, if
a header can be allocated at all. -/
theorem exists_doubling (h : headerLen ≤ T.isizeMax) :
  ∃ m, headerLen * 2 ^ m = 2 ^ (T.usizeBits - 2) ∧ headerLen * 2 ^ m ≤ T.isizeMax
    ∧ T.isizeMax < headerLen * 2 ^ (m + 1)
  := by
  have hbits : 7 ≤ T.usizeBits := by
    by_contra hfew
    have hpow : 2 ^ (T.usizeBits - 1) ≤ 2 ^ 5 := Nat.pow_le_pow_right (by decide) (by omega)
    rw [Target.isizeMax, headerLen] at h
    omega
  obtain ⟨m, hm⟩ := Nat.exists_eq_add_of_le hbits
  have hpos := Nat.two_pow_pos m
  have hmax : 2 ^ (T.usizeBits - 1) = 2 ^ 6 * 2 ^ m := by
    rw [hm, ← pow_add, show 7 + m - 1 = 6 + m by omega]
  have hlast : 2 ^ (T.usizeBits - 2) = 2 ^ 5 * 2 ^ m := by
    rw [hm, ← pow_add, show 7 + m - 2 = 5 + m by omega]
  use m
  rw [Target.isizeMax, hmax, hlast, headerLen, pow_succ]
  omega

/-- Without room for a header no bytes can be written. -/
theorem two_pow_lt_of_small (h : ¬ headerLen ≤ T.isizeMax) :
  2 ^ (T.usizeBits - 2) < headerLen
  := by
  have hle : 2 ^ (T.usizeBits - 2) ≤ 2 ^ (T.usizeBits - 1) :=
    Nat.pow_le_pow_right (by decide) (by omega)
  rw [Target.isizeMax, headerLen] at h
  rw [headerLen]
  rcases Nat.lt_or_ge (T.usizeBits - 2) 5 with hfew | hmany
  · have hpow := Nat.pow_lt_pow_right (show 1 < 2 by decide) hfew
    omega
  · have hpow : 2 ^ 6 ≤ 2 ^ (T.usizeBits - 1) := Nat.pow_le_pow_right (by decide) (by omega)
    omega

/-- The bytes are written exactly when they are no more than the largest power of two that can
be allocated. -/
theorem toBytes_eq (T : Target) (family r : U8) (seed numStarts : U64) (segs : List (BitVec w))
    (hw : w / 8 ≤ headerLen) :
  let bytes := Format.finish (Format.writeHeader family r seed numStarts
    (BitVec.ofNat 64 segs.length) ++ segs.flatMap toLeBytes)
  toBytes T family r seed numStarts segs
    = if bytes.length ≤ 2 ^ (T.usizeBits - 2) then some bytes else none
  := by
  intro bytes
  rw [toBytes_eq_bind]
  by_cases hheader : headerLen ≤ T.isizeMax
  · obtain ⟨m, hlast, hm, hlimit⟩ := exists_doubling hheader
    have hleast : minNonZeroCap 1 ≤ 2 * headerLen := by decide
    obtain ⟨out, hout⟩ : ∃ out, Vec.withCapacity U8 T.isizeMax headerLen = some out :=
      ⟨_, dif_pos hheader⟩
    obtain ⟨hdoubled, hempty⟩ := Vec.doubled_withCapacity hout
    have hpieces : ∀ piece ∈ headerPieces family r seed numStarts (BitVec.ofNat 64 segs.length)
        ++ segs.map toLeBytes, piece.length ≤ headerLen := by
      intro piece hpiece
      rcases List.mem_append.mp hpiece with hpiece | hpiece
      · apply length_le_of_mem_headerPieces hpiece
      · obtain ⟨s, -, rfl⟩ := List.mem_map.mp hpiece
        rw [length_toLeBytes]
        apply hw
    have hwritten := hdoubled.foldlM_extend hleast hpieces hm hlimit
    rw [hempty, List.nil_append, List.flatten_append, flatten_headerPieces,
      ← List.flatMap_def] at hwritten
    rw [hout, Option.bind_some, ← hlast]
    rcases hwritten with ⟨buf, hbuf, hbufDoubled, helems⟩ | ⟨hnone, hmany⟩
    · have hsum : (toLeBytes (fnv1a buf.elems)).length ≤ headerLen := by
        rw [length_toLeBytes]
        decide
      have hbytes : buf.elems ++ toLeBytes (fnv1a buf.elems) = bytes := by
        rw [helems]
        rfl
      rw [hbuf, Option.bind_some, finish, extendFromSlice]
      rcases hbufDoubled.extend hleast hsum hm hlimit with
        ⟨full, hfull, -, hall, hroom⟩ | ⟨hnone, hmany⟩
      · rw [hbytes] at hall hroom
        rw [hfull, Option.map_some, hall, if_pos hroom]
      · rw [hbytes] at hmany
        rw [hnone, Option.map_none, if_neg (not_le.mpr hmany)]
    · have hlong : headerLen * 2 ^ m < bytes.length := by
        apply lt_of_lt_of_le hmany
        rw [length_finish]
        apply Nat.le_add_right
      rw [hnone, Option.bind_none, if_neg (not_le.mpr hlong)]
  · have hsmall := two_pow_lt_of_small hheader
    rw [Vec.withCapacity, dif_neg hheader, Option.bind_none, if_neg]
    rw [length_finish, List.length_append, length_writeHeader]
    omega

end Checked

end Pleat
