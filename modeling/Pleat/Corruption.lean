import Pleat.Canonical
import Pleat.Data.XorMultiply

/-!
# Corrupted buffers

A buffer that is accepted as a filter of some type is no longer accepted, as a filter of
any type, after one byte or two adjacent bytes of it have changed, after it has been cut
short, or after bytes have been appended.  The checksum tells the changes: two bodies that
differ in a window of two bytes have different sums, also when the window reaches into the
sum itself.  The header tells the length.
-/

namespace Pleat

open Format LittleEndian

namespace Format

/-- The multiplier of the checksum. -/
def fnvPrime : U64 := 0x00000100000001b3

theorem fnv1a_eq_hash (bytes : List U8) :
  fnv1a bytes = XorMultiply.hash fnvPrime 0xcbf29ce484222325 bytes
  := rfl

theorem spreading_fnvPrime :
  XorMultiply.Spreading fnvPrime
  := XorMultiply.spreading_of_mul_eq_one (q := 0xce965057aff6957b) (by decide) (by decide)
    (by decide)

/-- The bytes of a word above the lowest fix the word up to its lowest byte. -/
theorem ushiftRight_eq_of_toLeBytes {x y : U64} {b c : U8} {bytes : List U8}
    (hx : toLeBytes x = b :: bytes) (hy : toLeBytes y = c :: bytes) :
  x >>> 8 = y >>> 8
  := by
  have htail : toLe 7 (x.toNat / 256) = toLe 7 (y.toNat / 256) := by
    rw [(List.cons.inj hx).2, (List.cons.inj hy).2]
  have hfit : ∀ z : U64, z.toNat / 256 < 256 ^ 7 := by
    intro z
    have hz := z.isLt
    omega
  rw [XorMultiply.ushiftRight_eq_iff, ← ofLe_toLe (hfit x), htail, ofLe_toLe (hfit y)]

/-- A body that ends before the window is the same in both buffers. -/
theorem eq_take_of_finish {buf pre rest : List U8} (h : finish buf = pre ++ rest)
    (hle : buf.length ≤ pre.length) :
  buf = pre.take buf.length
  := by
  calc buf = (finish buf).take buf.length := (List.take_left ..).symm
    _ = pre.take buf.length := by rw [h, List.take_append_of_le_length hle]

/-- Two buffers that differ in a window of their bodies have the same checksum, and so the
same window. -/
theorem finish_window_injective_of_body {buf buf' pre mid mid' post : List U8}
    (h : finish buf = pre ++ mid ++ post) (h' : finish buf' = pre ++ mid' ++ post)
    (hlen : mid'.length = mid.length) (htwo : mid.length ≤ 2) (hbuf : buf'.length = buf.length)
    (hbody : pre.length + mid.length ≤ buf.length) :
  mid = mid'
  := by
  -- What the window leaves of the body, and the checksum.
  obtain ⟨rest, sum, rfl, hrest⟩ : ∃ rest sum, post = rest ++ sum
      ∧ pre.length + mid.length + rest.length = buf.length := by
    have htotal := congrArg List.length h
    rw [length_finish, List.length_append, List.length_append] at htotal
    use post.take (buf.length - pre.length - mid.length),
      post.drop (buf.length - pre.length - mid.length), (List.take_append_drop ..).symm
    have hchecksum : checksumLen = 8 := rfl
    rw [List.length_take]
    omega
  rw [← List.append_assoc] at h h'
  obtain ⟨hsame, hend⟩ := List.append_inj h (by
    rw [List.length_append, List.length_append, hrest])
  obtain ⟨hsame', hend'⟩ := List.append_inj h' (by
    rw [List.length_append, List.length_append, hlen, hrest, hbuf])
  have heq := toLeBytes_injective rfl (hend.trans hend'.symm)
  rw [fnv1a_eq_hash, fnv1a_eq_hash, hsame, hsame'] at heq
  apply XorMultiply.hash_window_injective spreading_fnvPrime (by decide) hlen htwo heq

/-- Two buffers that differ in the last byte of their bodies and the first of their checksums
have the same bodies: the other bytes of the checksums tell the last bytes apart. -/
theorem eq_of_finish_straddling {buf buf' pre post : List U8} {x x' c c' : U8}
    (h : finish buf = pre ++ [x, c] ++ post) (h' : finish buf' = pre ++ [x', c'] ++ post)
    (hbuf : buf.length = pre.length + 1) (hbuf' : buf'.length = pre.length + 1) :
  buf = buf'
  := by
  have hcut : ∀ y d : U8, pre ++ [y, d] ++ post = pre ++ [y] ++ (d :: post) := by
    simp
  rw [hcut] at h h'
  obtain ⟨hlast, hend⟩ := List.append_inj h (by rw [List.length_append, hbuf]; rfl)
  obtain ⟨hlast', hend'⟩ := List.append_inj h' (by rw [List.length_append, hbuf']; rfl)
  have hhigh := ushiftRight_eq_of_toLeBytes hend hend'
  rw [fnv1a_eq_hash, fnv1a_eq_hash, hlast, hlast', XorMultiply.hash_append,
    XorMultiply.hash_append] at hhigh
  have hbyte : x = x' := XorMultiply.step_spread spreading_fnvPrime (by decide) hhigh
  rw [hlast, hlast', hbyte]

/-- A change of one byte or of two adjacent bytes, wherever it is, leaves no buffer with a
correct checksum. -/
theorem finish_window_injective {buf buf' pre mid mid' post : List U8}
    (h : finish buf = pre ++ mid ++ post) (h' : finish buf' = pre ++ mid' ++ post)
    (hlen : mid'.length = mid.length) (htwo : mid.length ≤ 2) :
  mid = mid'
  := by
  have hsame : buf = buf' → mid = mid' := by
    rintro rfl
    apply List.append_cancel_left (List.append_cancel_right (h.symm.trans h'))
  have hbuf : buf'.length = buf.length := by
    have htotal := congrArg List.length h
    have htotal' := congrArg List.length h'
    rw [length_finish, List.length_append, List.length_append] at htotal htotal'
    omega
  by_cases hsum : buf.length ≤ pre.length
  · -- The window is in the checksum.
    apply hsame
    rw [List.append_assoc] at h h'
    rw [eq_take_of_finish h hsum, eq_take_of_finish h' (hbuf ▸ hsum), hbuf]
  · by_cases hbody : pre.length + mid.length ≤ buf.length
    · apply finish_window_injective_of_body h h' hlen htwo hbuf hbody
    · -- The window is the last byte of the body and the first of the checksum.
      have hmid : mid.length = 2 := by omega
      obtain ⟨x, c, rfl⟩ := List.length_eq_two.mp hmid
      obtain ⟨x', c', rfl⟩ := List.length_eq_two.mp (hlen.trans hmid)
      apply hsame
      apply eq_of_finish_straddling h h'
      · omega
      · omega

end Format

/-! ### Rejection -/

namespace FilterType

variable {T : Target} {t t' : FilterType} {n n' : ℕ} {hdr hdr' : Header}
  {payload payload' bytes more : List U8}

/-- A buffer is rejected: `from_bytes` of the type returns an error. -/
def Rejects (T : Target) (bytes : List U8) : FilterType → Prop
  | ribbon R => ∃ e, Ribbon.fromBytes T R bytes = some (.error e)
  | stdRibbon R => ∃ e, StdRibbon.fromBytes T R bytes = some (.error e)

/-- What is not accepted is rejected: `from_bytes` always returns. -/
theorem rejects_of_not_accepts (hwidth : checkWidth t.width) (h : ¬ t.Accepts T bytes) :
  t.Rejects T bytes
  := by
  cases t with
  | ribbon R =>
      obtain ⟨result, hresult⟩ := Ribbon.exists_fromBytes T R bytes
      cases result with
      | error e => exact ⟨e, hresult⟩
      | ok f => exact absurd ⟨hwidth, f, hresult⟩ h
  | stdRibbon R =>
      obtain ⟨result, hresult⟩ := StdRibbon.exists_fromBytes T R bytes
      cases result with
      | error e => exact ⟨e, hresult⟩
      | ok f => exact absurd ⟨hwidth, f, hresult⟩ h

/-- No encoding is a proper prefix of another: the header, which they share, fixes the type
and the number of slots, and with them the length. -/
theorem Encodes.eq_nil_of_append (h : t.Encodes T n hdr payload bytes)
    (h' : t'.Encodes T n' hdr' payload' (bytes ++ more)) :
  more = []
  := by
  have hall := h'.eq_finish
  rw [h.eq_finish, finish, finish, List.append_assoc, List.append_assoc, List.append_assoc] at hall
  obtain ⟨hfamily, hr, -, hstarts, -⟩ := writeHeader_append_inj hall
  obtain rfl : t = t' := by
    apply eq_of_family_of_width hfamily
    rw [← h.width.toNat_ofNat, hr, h'.width.toNat_ofNat]
  obtain rfl : n = n' := by rw [h.numSlots_eq, h'.numSlots_eq, hstarts]
  have hlen := h'.length_eq
  rw [List.length_append, h.length_eq] at hlen
  apply List.eq_nil_of_length_eq_zero
  omega

end FilterType

/-- A buffer accepted as a filter of some type is rejected as a filter of every type after a
change of one byte or of two adjacent bytes, at any position and to any values, after it
has been cut short, and after bytes have been appended. -/
theorem fromBytes_rejects_corrupted (T : Target) (t : FilterType) {bytes : List U8}
    (h : t.Accepts T bytes) (t' : FilterType) (hwidth : checkWidth t'.width) :
  (∀ pre mid mid' post, bytes = pre ++ mid ++ post → mid'.length = mid.length →
      mid.length ≤ 2 → mid' ≠ mid → t'.Rejects T (pre ++ mid' ++ post))
  ∧ (∀ kept cut, bytes = kept ++ cut → cut ≠ [] → t'.Rejects T kept)
  ∧ ∀ more, more ≠ [] → t'.Rejects T (bytes ++ more)
  := by
  obtain ⟨n, hdr, payload, hencodes⟩ := h.exists_encodes
  refine ⟨?_, ?_, ?_⟩
  · intro pre mid mid' post hbytes hlen htwo hne
    apply FilterType.rejects_of_not_accepts hwidth
    intro h'
    obtain ⟨n', hdr', payload', hencodes'⟩ := h'.exists_encodes
    apply hne
    apply (finish_window_injective (hencodes.eq_finish.symm.trans hbytes)
      hencodes'.eq_finish.symm hlen htwo).symm
  · rintro kept cut rfl hne
    apply FilterType.rejects_of_not_accepts hwidth
    intro h'
    obtain ⟨n', hdr', payload', hencodes'⟩ := h'.exists_encodes
    apply hne (hencodes'.eq_nil_of_append hencodes)
  · intro more hne
    apply FilterType.rejects_of_not_accepts hwidth
    intro h'
    obtain ⟨n', hdr', payload', hencodes'⟩ := h'.exists_encodes
    apply hne (hencodes.eq_nil_of_append hencodes')

set_option maxRecDepth 4000 in
/-- A filter of two empty blocks is rejected with a byte of its payload changed, without its
last byte and with one byte more. -/
theorem fromBytes_rejects_corrupted_empty :
  let T : Target := ⟨64, le_rfl⟩
  let bytes := Ribbon.encoding (R := 7) ⟨Solution.fromParts 65 0 (List.replicate 14 0)⟩
  (FilterType.ribbon 7).Accepts T bytes
    ∧ (FilterType.ribbon 7).Rejects T (bytes.take 40 ++ [1] ++ bytes.drop 41)
    ∧ (FilterType.ribbon 7).Rejects T (bytes.take 151)
    ∧ (FilterType.stdRibbon 3).Rejects T (bytes ++ [0])
  := by
  intro T bytes
  have hR : checkWidth 7 := ⟨by decide, by decide⟩
  have hR' : checkWidth 3 := ⟨by decide, by decide⟩
  have haccepts : (FilterType.ribbon 7).Accepts T bytes :=
    ⟨hR, _, Ribbon.Decodable.fromBytes hR
      ⟨⟨by decide, by decide, by decide⟩, by decide, by decide⟩⟩
  have hchange : bytes = bytes.take 40 ++ [0] ++ bytes.drop 41 := by decide
  have hcut : bytes = bytes.take 151 ++ [bytes.getD 151 0] := by decide
  obtain ⟨hwindow, htruncated, -⟩ := fromBytes_rejects_corrupted T _ haccepts (.ribbon 7) hR
  obtain ⟨-, -, hextended⟩ := fromBytes_rejects_corrupted T _ haccepts (.stdRibbon 3) hR'
  refine ⟨haccepts, ?_, ?_, ?_⟩
  · apply hwindow _ [0] [1] _ hchange rfl (by decide) (by decide)
  · apply htruncated _ _ hcut (by decide)
  · apply hextended [0] (by decide)

end Pleat
