import Pleat.Assignment
import Pleat.Homogeneous.RowSpace
import Pleat.Standard.RowSpace

/-!
# The walk of an insertion

The loop of an insertion has no bound of its own, and adding a stored row may extend what
is left of the key's row to the right of the key's own band.  But the rows of a reachable
matrix have their low bit set and do not reach past the last slot.  Then so does what is
left of the row after every turn, and every turn moves it up: the slots the loop visits
increase, and none is out of bounds.
-/

namespace Pleat

open Bits

variable {w : ℕ} {coeffRows : List (BitVec w)}

/-- The loop of an insertion at slot `i`, with `cr` left of the row, reads the slots of a list
in this order, none of them out of bounds, and returns at the last one. -/
inductive Visits (coeffRows : List (BitVec w)) : ℕ → BitVec w → List ℕ → Prop
  | placed {i : ℕ} {cr : BitVec w} (h : coeffRows[i]? = some 0) : Visits coeffRows i cr [i]
  | vanished {i : ℕ} {cr crAtI : BitVec w} (h : coeffRows[i]? = some crAtI) (hne : crAtI ≠ 0)
      (hzero : cr ^^^ crAtI = 0) : Visits coeffRows i cr [i]
  | advanced {i : ℕ} {cr crAtI : BitVec w} {slots : List ℕ} (h : coeffRows[i]? = some crAtI)
      (hne : crAtI ≠ 0) (hzero : cr ^^^ crAtI ≠ 0)
      (rest : Visits coeffRows (i + (cr ^^^ crAtI).ctz.toNat)
        ((cr ^^^ crAtI) >>> (cr ^^^ crAtI).ctz.toNat) slots) :
      Visits coeffRows i cr (i :: slots)

/-- The slots visited are determined. -/
theorem Visits.unique {i : ℕ} {cr : BitVec w} {slots slots' : List ℕ}
    (h : Visits coeffRows i cr slots) (h' : Visits coeffRows i cr slots') :
  slots = slots'
  := by
  induction h generalizing slots' with
  | placed hread =>
      cases h' with
      | placed => rfl
      | vanished => rfl
      | advanced hread' hne =>
          rw [hread, Option.some.injEq] at hread'
          exact absurd hread'.symm hne
  | vanished hread hne hzero =>
      cases h' with
      | placed => rfl
      | vanished => rfl
      | advanced hread' _ hrest =>
          rw [hread, Option.some.injEq] at hread'
          subst hread'
          exact absurd hzero hrest
  | advanced hread hne hrest _ ih =>
      cases h' with
      | placed hread' =>
          rw [hread, Option.some.injEq] at hread'
          exact absurd hread' hne
      | vanished hread' _ hzero =>
          rw [hread, Option.some.injEq] at hread'
          subst hread'
          exact absurd hzero hrest
      | advanced hread' _ _ rest =>
          rw [hread, Option.some.injEq] at hread'
          subst hread'
          rw [ih rest]

/-- The rows of a well-formed table are in reach. -/
theorem inReach_of_wellFormed {r : ℕ} {results : List (BitVec r)}
    (h : (Table.ofLists 0 coeffRows results).WellFormed coeffRows.length) :
  InReach coeffRows
  := by
  intro i c hc hne
  have hrow := Table.ofLists_add 0 coeffRows results i
  rw [Nat.zero_add, List.getD_eq_getElem?_getD, hc, Option.getD_some] at hrow
  have hwithin := h.within i
  rw [hrow] at hwithin
  apply within_iff.mp (hwithin hne)

/-- Over rows in reach the loop returns, and the slots it visits increase and are in bounds. -/
theorem InReach.exists_visits (hreach : InReach coeffRows) {i : ℕ} {cr : BitVec w}
    (h : Within coeffRows.length i cr) :
  ∃ slots, Visits coeffRows i cr slots ∧ (∀ k ∈ slots, i ≤ k ∧ k < coeffRows.length)
    ∧ slots.Pairwise (· < ·) ∧ i + slots.length ≤ coeffRows.length
  := by
  -- The slots from `i` on that are left become fewer at every turn.
  induction hm : coeffRows.length - i using Nat.strong_induction_on generalizing i cr with
  | _ m ih =>
      have hi := h.slot_lt
      have hread : coeffRows[i]? = some coeffRows[i] := List.getElem?_eq_getElem hi
      have hlast : ∀ k ∈ [i], i ≤ k ∧ k < coeffRows.length := by
        intro k hk
        obtain rfl := List.mem_singleton.mp hk
        exact ⟨le_refl k, hi⟩
      by_cases hempty : coeffRows[i] = 0
      · rw [hempty] at hread
        exact ⟨[i], .placed hread, hlast, List.pairwise_singleton _ i, hi⟩
      · by_cases hzero : cr ^^^ coeffRows[i] = 0
        · exact ⟨[i], .vanished hread hempty hzero, hlast, List.pairwise_singleton _ i, hi⟩
        · have hstored := within_iff.mpr (hreach i _ hread hempty)
          obtain ⟨hpos, hadv⟩ := h.advance hstored hzero
          obtain ⟨slots, hvisits, hbounds, hincr, hcount⟩ := ih _ (by omega) hadv rfl
          refine ⟨i :: slots, .advanced hread hempty hzero hvisits, ?_, ?_, ?_⟩
          · intro k hk
            rcases List.mem_cons.mp hk with rfl | hk
            · exact ⟨le_refl k, hi⟩
            · obtain ⟨hle, hlt⟩ := hbounds k hk
              exact ⟨by omega, hlt⟩
          · rw [List.pairwise_cons]
            use fun k hk => by have := (hbounds k hk).1; omega
          · rw [List.length_cons]
            omega

/-- A row that starts in the matrix takes at most as many turns as there are slots. -/
theorem InReach.exists_walk (hreach : InReach coeffRows) {i : ℕ} {cr : BitVec w}
    (h : Within coeffRows.length i cr) :
  ∃ slots, Visits coeffRows i cr slots ∧ (∀ k ∈ slots, k < coeffRows.length)
    ∧ slots.Pairwise (· < ·) ∧ slots.length ≤ coeffRows.length
  := by
  obtain ⟨slots, hvisits, hbounds, hincr, hcount⟩ := hreach.exists_visits h
  exact ⟨slots, hvisits, fun k hk => (hbounds k hk).2, hincr, by omega⟩

/-! ### The two loops -/

/-- The homogeneous loop takes a turn for each slot of the walk. -/
theorem Banding.isSome_addLoop_iff {coeffRows : List U64} {i : ℕ} {cr : U64} {slots : List ℕ}
    (h : Visits coeffRows i cr slots) (fuel : ℕ) :
  (Banding.addLoop coeffRows fuel i cr).isSome ↔ slots.length ≤ fuel
  := by
  induction h generalizing fuel with
  | placed h =>
      cases fuel with
      | zero => simp [Banding.addLoop]
      | succ fuel => simp [Banding.addLoop_placed h]
  | vanished h hne hzero =>
      cases fuel with
      | zero => simp [Banding.addLoop]
      | succ fuel => simp [Banding.addLoop_vanished h hne hzero]
  | advanced h hne hrest _ ih =>
      cases fuel with
      | zero => simp [Banding.addLoop]
      | succ fuel =>
          rw [Banding.addLoop_advanced h hne hrest, List.length_cons, Nat.succ_le_succ_iff]
          apply ih fuel

/-- The standard loop takes a turn for each slot of the walk. -/
theorem Banding128.isSome_addLoop_iff {coeffRows : List U128} {resultRows : List U32}
    (hlen : resultRows.length = coeffRows.length) {i : ℕ} {cr : U128} {slots : List ℕ}
    (h : Visits coeffRows i cr slots) (rr : U32) (fuel : ℕ) :
  (Banding128.addLoop coeffRows resultRows fuel i cr rr).isSome ↔ slots.length ≤ fuel
  := by
  have hresult : ∀ {i : ℕ} {c : U128}, coeffRows[i]? = some c → ∃ b, resultRows[i]? = some b := by
    intro i c h
    have hi : i < resultRows.length := hlen ▸ (List.getElem?_eq_some_iff.mp h).1
    exact ⟨_, List.getElem?_eq_getElem hi⟩
  induction h generalizing rr fuel with
  | placed h =>
      obtain ⟨b, hb⟩ := hresult h
      cases fuel with
      | zero => simp [Banding128.addLoop]
      | succ fuel => simp [Banding128.addLoop_placed h hb]
  | vanished h hne hzero =>
      obtain ⟨b, hb⟩ := hresult h
      cases fuel with
      | zero => simp [Banding128.addLoop]
      | succ fuel => simp [Banding128.addLoop_vanished h hb hne hzero]
  | advanced h hne hrest _ ih =>
      obtain ⟨b, hb⟩ := hresult h
      cases fuel with
      | zero => simp [Banding128.addLoop]
      | succ fuel =>
          rw [Banding128.addLoop_advanced h hb hne hrest, List.length_cons, Nat.succ_le_succ_iff]
          apply ih (rr ^^^ b) fuel

/-! ### Reachable matrices -/

/-- The rows of a matrix of the standard form are in reach. -/
theorem Banding128.Sound.inReach {R n : ℕ} {b : Banding128 R} (h : b.Sound n) :
  InReach b.coeffRows
  := by
  have htable := h.table
  rw [← h.shape.coeffs] at htable
  apply inReach_of_wellFormed htable

/-- Inserting a key into a matrix of the standard form takes at most as many turns as there are
slots. -/
theorem Banding128.Sound.exists_walk {R n : ℕ} {b : Banding128 R} (h : b.Sound n) (key : U64) :
  ∃ slots,
    let h := ribbonHash key (b.rawSeed.setWidth 64)
    Visits b.coeffRows (start h b.numStarts).toNat (coeffRow128 h) slots
      ∧ (∀ k ∈ slots, k < n) ∧ slots.Pairwise (· < ·) ∧ slots.length ≤ n
  := by
  have hstart := h.shape.within_start key
  rw [← h.shape.coeffs] at hstart ⊢
  apply h.inReach.exists_walk hstart

/-- In every reachable matrix of `n` slots, of either family, the rows have their low bit set
and do not reach past slot `n`, and inserting a key visits slots below `n` only and returns
after one turn for each, at most `n`. -/
theorem elimination_in_reach (R n : ℕ) :
  (∀ (seed : U64) (keys : List U64) (b : Banding R), Banding.Reachable R n seed keys b →
      b.coeffRows.length = n ∧ InReach b.coeffRows
      ∧ ∀ key, ∃ slots,
        let h := ribbonHash key b.rawSeed
        let i := (start h b.numStarts).toNat
        Visits b.coeffRows i (coeffRow h) slots
          ∧ (∀ k ∈ slots, k < n) ∧ slots.Pairwise (· < ·) ∧ slots.length ≤ n
          ∧ (∀ fuel, (Banding.addLoop b.coeffRows fuel i (coeffRow h)).isSome
              ↔ slots.length ≤ fuel)
          ∧ (b.add key).isSome)
  ∧ (∀ b : Banding128 R, Banding128.Reachable R n b →
      b.coeffRows.length = n ∧ InReach b.coeffRows
      ∧ ∀ key, ∃ slots,
        let h := ribbonHash key (b.rawSeed.setWidth 64)
        let i := (start h b.numStarts).toNat
        Visits b.coeffRows i (coeffRow128 h) slots
          ∧ (∀ k ∈ slots, k < n) ∧ slots.Pairwise (· < ·) ∧ slots.length ≤ n
          ∧ (∀ fuel, (Banding128.addLoop b.coeffRows b.resultRows fuel i (coeffRow128 h)
                (resultRow h)).isSome ↔ slots.length ≤ fuel)
          ∧ (b.add key).isSome)
  := by
  constructor
  · intro seed keys b hb
    have hwf := hb.holds.wellFormed
    have hlen : b.coeffRows.length = n := hb.holds.slots
    have hreach : InReach b.coeffRows := inReach_of_wellFormed hwf.table
    refine ⟨hlen, hreach, ?_⟩
    intro key
    obtain ⟨slots, hvisits, hbounds, hincr, hcount⟩ := hreach.exists_walk (hwf.within_start key)
    obtain ⟨rows, hadd, -⟩ := Banding.add_insertion hwf key
    rw [hlen] at hbounds hcount
    refine ⟨slots, hvisits, hbounds, hincr, hcount, Banding.isSome_addLoop_iff hvisits, ?_⟩
    rw [hadd, Option.isSome_some]
  · intro b hb
    have hsound := hb.sound
    have hlen := hsound.shape.coeffs
    have hresults := hsound.shape.results.trans hlen.symm
    refine ⟨hlen, hsound.inReach, ?_⟩
    intro key
    obtain ⟨slots, hvisits, hbounds, hincr, hcount⟩ := hsound.exists_walk key
    obtain ⟨coeffs, results, ok, hadd, -⟩ := hsound.add key
    refine ⟨slots, hvisits, hbounds, hincr, hcount,
      Banding128.isSome_addLoop_iff hresults hvisits _, ?_⟩
    rw [hadd, Option.isSome_some]

/-- Matrices of two blocks that hold keys, and a key that is reduced by their rows: it starts at
the slot where two of them do. -/
theorem elimination_in_reach_two_blocks :
  (∃ b : Banding 3, Banding.Reachable 3 128 0 [1, 311] b ∧ InReach b.coeffRows
    ∧ ∃ slots,
      let h := ribbonHash 518 b.rawSeed
      Visits b.coeffRows (start h b.numStarts).toNat (coeffRow h) slots
        ∧ slots.Pairwise (· < ·) ∧ slots.length ≤ 128 ∧ (b.add 518).isSome)
  ∧ ∃ b b₁ : Banding128 3, Banding128.Reachable 3 256 b
    ∧ b.addEach [0x64464700ac253162, 0x097deac5069133c0] = some (b₁, true)
    ∧ InReach b₁.coeffRows
    ∧ ∃ slots,
      let h := ribbonHash 0x723b2945ed56d908 (b₁.rawSeed.setWidth 64)
      Visits b₁.coeffRows (start h b₁.numStarts).toNat (coeffRow128 h) slots
        ∧ slots.Pairwise (· < ·) ∧ slots.length ≤ 256 ∧ (b₁.add 0x723b2945ed56d908).isSome
  := by
  constructor
  · have hblocks : 128 % W = 0 := by decide
    have hslots : W ≤ 128 := by decide
    obtain ⟨b, hnew, hb⟩ := Banding.exists_new 3 0 hblocks hslots
    obtain ⟨b₁, hadd₁, hb₁⟩ := hb.add 1
    obtain ⟨b₂, hadd₂, -⟩ := hb₁.add 311
    have hb₂ : Banding.Reachable 3 128 0 [1, 311] b₂ := .add (.add (.new hnew) hadd₁) hadd₂
    obtain ⟨-, hreach, hends⟩ := (elimination_in_reach 3 128).1 0 [1, 311] b₂ hb₂
    obtain ⟨slots, hvisits, -, hincr, hlen, -, hsome⟩ := hends 518
    exact ⟨b₂, hb₂, hreach, slots, hvisits, hincr, hlen, hsome⟩
  · have hrun : ((Banding128.new 3 256).bind fun b =>
        ((b.reset 0).addEach [0x64464700ac253162, 0x097deac5069133c0]).map Prod.snd)
        = some true := by
      decide +kernel
    obtain ⟨b, hnew, hrun⟩ := Option.bind_eq_some_iff.mp hrun
    obtain ⟨⟨b₁, ok⟩, hheld, rfl⟩ := Option.map_eq_some_iff.mp hrun
    have hb : Banding128.Reachable 3 256 (b.reset 0) := .reset (.new hnew) 0
    obtain ⟨-, hreach, hends⟩ := (elimination_in_reach 3 256).2 b₁ (hb.addEach hheld)
    obtain ⟨slots, hvisits, -, hincr, hlen, -, hsome⟩ := hends 0x723b2945ed56d908
    exact ⟨b.reset 0, b₁, hb, hheld, hreach, slots, hvisits, hincr, hlen, hsome⟩

end Pleat
