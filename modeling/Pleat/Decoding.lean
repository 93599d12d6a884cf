import Pleat.Format

/-!
# What the decoder accepts

A buffer that the decoder accepts is what the encoder writes for the fields returned: every
byte of it is pinned by a check or carried into the value, and its geometry is valid on
the target.  With the round trip this makes the decoder accept exactly the encodings of
valid geometries.
-/

namespace Pleat.Format

open LittleEndian

/-- The bytes read as a word are those written for it. -/
theorem toLeBytes_fromLeBytes {w : ℕ} (hw : w % 8 = 0) {bytes : List U8}
    (h : bytes.length = w / 8) :
  toLeBytes (fromLeBytes w bytes) = bytes
  := by
  have hlt : ofLe bytes < 2 ^ w := by
    have hpow : 256 ^ (w / 8) = 2 ^ w := by
      rw [show 256 = 2 ^ 8 from rfl, ← Nat.pow_mul, Nat.mul_div_cancel' (Nat.dvd_of_mod_eq_zero hw)]
    rw [← hpow, ← h]
    apply ofLe_lt
  rw [toLeBytes, fromLeBytes, BitVec.toNat_ofNat, Nat.mod_eq_of_lt hlt, ← h, toLe_ofLe]

/-- The bytes read as words are those written for them. -/
theorem flatMap_toLeBytes_chunksExact {w : ℕ} (hw : w % 8 = 0) {bytes : List U8}
    (h : bytes.length % (w / 8) = 0) :
  ((chunksExact (w / 8) bytes).map (fromLeBytes w)).flatMap toLeBytes = bytes
  := by
  rw [List.flatMap_map]
  have hid : ∀ chunk ∈ chunksExact (w / 8) bytes, toLeBytes (fromLeBytes w chunk) = chunk :=
    fun chunk hchunk => toLeBytes_fromLeBytes hw (length_of_mem_chunksExact hchunk)
  rw [List.flatMap_def, List.map_congr_left hid, List.map_id', flatten_chunksExact h]

/-! ### Slices that follow one another -/

theorem slice_eq_some_iff {α : Type*} {l m : List α} {a b : ℕ} :
  slice l a b = some m ↔ (a ≤ b ∧ b ≤ l.length) ∧ (l.drop a).take (b - a) = m
  := by
  rw [slice]
  split
  · rename_i h
    simp [h]
  · rename_i h
    simp [h]

theorem length_of_slice {α : Type*} {l m : List α} {a b : ℕ} (h : slice l a b = some m) :
  m.length = b - a
  := by
  obtain ⟨⟨hab, hb⟩, rfl⟩ := slice_eq_some_iff.mp h
  rw [List.length_take, List.length_drop]
  omega

theorem slice_append_slice {α : Type*} {l m m' : List α} {a b c : ℕ} (h : slice l a b = some m)
    (h' : slice l b c = some m') :
  slice l a c = some (m ++ m')
  := by
  obtain ⟨⟨hab, -⟩, rfl⟩ := slice_eq_some_iff.mp h
  obtain ⟨⟨hbc, hc⟩, rfl⟩ := slice_eq_some_iff.mp h'
  have hlen : c - a = (b - a) + (c - b) := by omega
  rw [slice_eq_some (by omega) hc, hlen, List.take_add, List.drop_drop, Nat.add_sub_cancel' hab]

theorem slice_self {α : Type*} (l : List α) :
  slice l 0 l.length = some l
  := by
  rw [slice_eq_some (Nat.zero_le _) le_rfl, List.drop_zero, Nat.sub_zero, List.take_length]

theorem slice_of_getElem? {α : Type*} {l : List α} {i : ℕ} {x : α} (h : l[i]? = some x) :
  slice l i (i + 1) = some [x]
  := by
  obtain ⟨hi, rfl⟩ := List.getElem?_eq_some_iff.mp h
  rw [slice_eq_some (Nat.le_add_right i 1) hi, Nat.add_sub_cancel_left, List.drop_eq_getElem_cons hi,
    List.take_succ_cons, List.take_zero]

/-! ### The checks -/

theorem of_ite_error {α : Type} {c : Prop} [Decidable c] {e : DecodeError} {a : α}
    {x : Except DecodeError α} (h : (if c then .error e else x) = .ok a) :
  ¬ c ∧ x = .ok a
  := by
  by_cases hc : c
  · rw [if_pos hc] at h
    nomatch h
  · rw [if_neg hc] at h
    exact ⟨hc, h⟩

theorem of_ite_some_error {α : Type} {c : Prop} [Decidable c] {e : DecodeError} {a : α}
    {x : Option (Except DecodeError α)} (h : (if c then some (.error e) else x) = some (.ok a)) :
  ¬ c ∧ x = some (.ok a)
  := by
  by_cases hc : c
  · rw [if_pos hc] at h
    nomatch h
  · rw [if_neg hc] at h
    exact ⟨hc, h⟩

theorem of_okOr_bind {α β : Type} {o : Option α} {e : DecodeError} {f : α → Except DecodeError β}
    {b : β} (h : (okOr o e >>= f) = .ok b) :
  ∃ a, o = some a ∧ f a = .ok b
  := by
  cases o with
  | none => nomatch h
  | some a => exact ⟨a, rfl, h⟩

theorem of_checked {max result a : ℕ} (h : checked max result = some a) :
  result ≤ max ∧ result = a
  := by
  rw [checked] at h
  split at h
  · rename_i hle
    exact ⟨hle, Option.some_injective _ h⟩
  · nomatch h

/-- What passes all checks of the geometry has a valid geometry. -/
theorem of_payloadLen_eq_ok {T : Target} {numStarts segmentCount : U64} {r : U8}
    {elemSize w len m : ℕ} (hw : 0 < w) (helem : 0 < elemSize)
    (h : payloadLen T numStarts segmentCount r elemSize w len = .ok m) :
  ∃ n, Geometry T n r.toNat elemSize w numStarts segmentCount
    ∧ m = n / w * r.toNat * elemSize ∧ len = headerLen + m + checksumLen
  := by
  rw [payloadLen] at h
  obtain ⟨n, hn, h⟩ := of_okOr_bind h
  obtain ⟨-, hsum⟩ := of_checked hn
  obtain ⟨hvalid, h⟩ := of_ite_error h
  obtain ⟨_, hfit, h⟩ := of_okOr_bind h
  obtain ⟨expect, hexpect, h⟩ := of_okOr_bind h
  obtain ⟨hcount, h⟩ := of_ite_error h
  obtain ⟨_, hcountFit, h⟩ := of_okOr_bind h
  obtain ⟨payload, hpayload, h⟩ := of_okOr_bind h
  obtain ⟨total, htotal, h⟩ := of_okOr_bind h
  obtain ⟨hlen, h⟩ := of_ite_error h
  obtain rfl := Except.ok.inj h
  obtain ⟨_, hheader, htrailer⟩ := Option.bind_eq_some_iff.mp htotal
  obtain ⟨-, rfl⟩ := of_checked hexpect
  obtain ⟨-, rfl⟩ := of_checked hcountFit
  obtain ⟨-, rfl⟩ := of_checked hpayload
  obtain ⟨-, rfl⟩ := of_checked hheader
  obtain ⟨hfits, rfl⟩ := of_checked htrailer
  rw [not_or, not_or, not_not, not_lt] at hvalid
  obtain ⟨-, hblocks, hslots⟩ := hvalid
  have hsegments : segmentCount.toNat = n / w * r.toNat := not_not.mp hcount
  rw [hsegments] at hfits hlen ⊢
  refine ⟨n, ?_, rfl, (not_not.mp hlen).symm⟩
  exact {
    starts := by omega
    blocks := hblocks
    slots := hslots
    positive := hw
    elem := helem
    numSlots_le := (of_checked hfit).1
    segments := hsegments
    length_le := hfits }

/-- An accepted buffer is the encoding of the fields returned, with a valid geometry. -/
theorem of_decode_eq_ok {T : Target} {bytes : List U8} {family r : U8} {elemSize w : ℕ}
    (hw : 0 < w) (helem : 0 < elemSize) {hdr : Header} {payload : List U8}
    (h : decode T bytes family r elemSize w = some (.ok (hdr, payload))) :
  ∃ n segmentCount, Geometry T n r.toNat elemSize w hdr.numStarts segmentCount
    ∧ payload.length = n / w * r.toNat * elemSize
    ∧ bytes = finish (writeHeader family r hdr.seed hdr.numStarts segmentCount ++ payload)
  := by
  rw [decode] at h
  obtain ⟨-, h⟩ := of_ite_some_error h
  obtain ⟨first, hfirst, h⟩ := Option.bind_eq_some_iff.mp h
  obtain ⟨hmagic, h⟩ := of_ite_some_error h
  obtain ⟨stored, hstored, h⟩ := Option.bind_eq_some_iff.mp h
  obtain ⟨body, hbody, h⟩ := Option.bind_eq_some_iff.mp h
  obtain ⟨hsum, h⟩ := of_ite_some_error h
  obtain ⟨family', hfamily, h⟩ := Option.bind_eq_some_iff.mp h
  obtain ⟨hfamilyEq, h⟩ := of_ite_some_error h
  obtain ⟨r', hr, h⟩ := Option.bind_eq_some_iff.mp h
  obtain ⟨hrEq, h⟩ := of_ite_some_error h
  obtain ⟨reserved, hreserved, h⟩ := Option.bind_eq_some_iff.mp h
  obtain ⟨hzero, h⟩ := of_ite_some_error h
  obtain ⟨seed, hseed, h⟩ := Option.bind_eq_some_iff.mp h
  obtain ⟨starts, hstarts, h⟩ := Option.bind_eq_some_iff.mp h
  obtain ⟨count, hcount, h⟩ := Option.bind_eq_some_iff.mp h
  cases hlen : payloadLen T (fromLeBytes 64 starts) (fromLeBytes 64 count) r' elemSize w
      bytes.length with
  | error e =>
      rw [hlen] at h
      cases Option.some_injective _ h
  | ok m =>
      rw [hlen] at h
      obtain ⟨payload', hpayload, h⟩ := Option.bind_eq_some_iff.mp h
      obtain ⟨rfl, rfl⟩ := Prod.mk.inj (Except.ok.inj (Option.some_injective _ h))
      rw [not_not] at hmagic hsum hfamilyEq hrEq hzero
      subst hmagic hfamilyEq hrEq hzero
      obtain ⟨n, hgeometry, rfl, htotal⟩ := of_payloadLen_eq_ok hw helem hlen
      refine ⟨n, fromLeBytes 64 count, hgeometry, ?_, ?_⟩
      · rw [length_of_slice hpayload, Nat.add_sub_cancel_left]
      · have hcut : bytes.length - checksumLen = headerLen + n / w * r'.toNat * elemSize := by
          omega
        have hword : ∀ {a b : ℕ} {m : List U8}, slice bytes a b = some m → b - a = 8 →
            toLeBytes (fromLeBytes 64 m) = m :=
          fun hm hab => toLeBytes_fromLeBytes rfl ((length_of_slice hm).trans hab)
        -- The fields follow one another up to the checksum.
        have hheader := slice_append_slice (slice_append_slice (slice_append_slice
          (slice_append_slice (slice_append_slice hfirst (slice_append_slice
            (slice_of_getElem? hfamily) (slice_of_getElem? hr))) hreserved) hseed) hstarts) hcount
        have hall := slice_append_slice hheader hpayload
        rw [hcut] at hbody hstored
        rw [hall, Option.some.injEq] at hbody
        have hend := slice_append_slice hall hstored
        rw [slice_self, Option.some.injEq] at hend
        rw [← hbody] at hsum
        rw [finish, writeHeader, hword hseed rfl, hword hstarts rfl, hword hcount rfl]
        have htrailer : toLeBytes (fnv1a (magic ++ ([family'] ++ [r']) ++ [0, 0] ++ seed ++ starts
            ++ count ++ payload')) = stored := by
          rw [hsum]
          apply hword hstored
          have htrailing : checksumLen = 8 := rfl
          omega
        rw [← htrailer] at hend
        apply hend

/-! ### Totality -/

theorem exists_ite_error {α : Type} {c : Prop} [Decidable c] {e : DecodeError}
    {x : Option (Except DecodeError α)} (h : ¬ c → ∃ result, x = some result) :
  ∃ result, (if c then some (.error e) else x) = some result
  := by
  by_cases hc : c
  · exact ⟨.error e, if_pos hc⟩
  · rw [if_neg hc]
    apply h hc

theorem exists_slice_bind {α β : Type} {l : List α} {a b : ℕ} {f : List α → Option β} (hab : a ≤ b)
    (hb : b ≤ l.length) (h : ∀ m, ∃ result, f m = some result) :
  ∃ result, (slice l a b >>= f) = some result
  := by
  rw [slice_eq_some hab hb]
  apply h

theorem exists_getElem?_bind {α β : Type} {l : List α} {i : ℕ} {f : α → Option β}
    (hi : i < l.length) (h : ∀ x, ∃ result, f x = some result) :
  ∃ result, (l[i]? >>= f) = some result
  := by
  rw [List.getElem?_eq_getElem hi]
  apply h

/-- The decoder returns a header and a payload or an error: no slice is out of bounds. -/
theorem exists_decode (T : Target) (bytes : List U8) (family r : U8) {elemSize w : ℕ}
    (hw : 0 < w) (helem : 0 < elemSize) :
  ∃ result, decode T bytes family r elemSize w = some result
  := by
  have hheader : headerLen = 32 := rfl
  have hchecksum : checksumLen = 8 := rfl
  rw [decode]
  apply exists_ite_error
  intro hlen
  apply exists_slice_bind (by omega) (by omega)
  intro first
  apply exists_ite_error
  intro _
  apply exists_slice_bind (by omega) (by omega)
  intro stored
  apply exists_slice_bind (by omega) (by omega)
  intro body
  apply exists_ite_error
  intro _
  apply exists_getElem?_bind (by omega)
  intro family'
  apply exists_ite_error
  intro _
  apply exists_getElem?_bind (by omega)
  intro r'
  apply exists_ite_error
  intro _
  apply exists_slice_bind (by omega) (by omega)
  intro reserved
  apply exists_ite_error
  intro _
  apply exists_slice_bind (by omega) (by omega)
  intro seed
  apply exists_slice_bind (by omega) (by omega)
  intro starts
  apply exists_slice_bind (by omega) (by omega)
  intro count
  cases hpayload : payloadLen T (fromLeBytes 64 starts) (fromLeBytes 64 count) r' elemSize w
      bytes.length with
  | error e => exact ⟨_, rfl⟩
  | ok n =>
      obtain ⟨-, -, -, htotal⟩ := of_payloadLen_eq_ok hw helem hpayload
      apply exists_slice_bind (by omega) (by omega)
      exact fun _ => ⟨_, rfl⟩

/-- The decoder accepts a buffer exactly when it is the encoding of the fields returned, with
a valid geometry. -/
theorem decode_eq_ok_iff {T : Target} {bytes : List U8} {family r : U8} {elemSize w : ℕ}
    (hw : 0 < w) (helem : 0 < elemSize) {hdr : Header} {payload : List U8} :
  decode T bytes family r elemSize w = some (.ok (hdr, payload))
    ↔ ∃ n segmentCount, Geometry T n r.toNat elemSize w hdr.numStarts segmentCount
      ∧ payload.length = n / w * r.toNat * elemSize
      ∧ bytes = finish (writeHeader family r hdr.seed hdr.numStarts segmentCount ++ payload)
  := by
  constructor
  · apply of_decode_eq_ok hw helem
  · rintro ⟨n, segmentCount, hgeometry, hpayload, rfl⟩
    apply decode_finish hgeometry rfl hpayload

end Pleat.Format
