import Mathlib.Algebra.Order.Group.Nat
import Mathlib.Data.List.Basic
import Mathlib.Data.Option.Basic
import Mathlib.Tactic.Common

/-!
# Vectors that grow

A vector has its elements and a capacity, the number of elements there is room for; no more
than `limit` can be allocated.  A vector that has no room for what is appended is allocated
again, with twice its capacity, or with what is needed if that is more, and with room for
`least` elements at least.

When each piece appended is no longer than the first capacity, the capacity doubles each time.
So appending fails exactly when there are more elements than the last doubling that can be
allocated has room for.  As long as the elements take up at most half of what can be allocated,
appending does not fail, whatever the first capacity.
-/

namespace Capacity

/-- The elements of a vector and the number of elements there is room for. -/
structure Vec (α : Type*) (limit : ℕ) where
  elems : List α
  capacity : ℕ
  fits : elems.length ≤ capacity
  allocated : capacity ≤ limit

namespace Vec

variable {α : Type*} {limit least c m n : ℕ}

/-- An empty vector with room for `n` elements. -/
def withCapacity (α : Type*) (limit n : ℕ) : Option (Vec α limit) :=
  if h : n ≤ limit then some ⟨[], n, Nat.zero_le n, h⟩ else none

/-- The capacity with `more` elements. -/
def capacityFor (least : ℕ) (v : Vec α limit) (more : ℕ) : ℕ :=
  if v.elems.length + more ≤ v.capacity then
    v.capacity
  else
    max least (max (2 * v.capacity) (v.elems.length + more))

theorem le_capacityFor (least : ℕ) (v : Vec α limit) (more : ℕ) :
  v.elems.length + more ≤ v.capacityFor least more
  := by
  rw [capacityFor]
  split
  · assumption
  · apply le_trans (le_max_right ..) (le_max_right ..)

/-- Append a list. -/
def extend (least : ℕ) (v : Vec α limit) (xs : List α) : Option (Vec α limit) :=
  if h : v.capacityFor least xs.length ≤ limit then
    some {
      elems := v.elems ++ xs
      capacity := v.capacityFor least xs.length
      fits := List.length_append.trans_le (v.le_capacityFor least xs.length)
      allocated := h }
  else
    none

/-- Append an element. -/
def push (least : ℕ) (v : Vec α limit) (x : α) : Option (Vec α limit) :=
  v.extend least [x]

variable {v v' : Vec α limit} {xs : List α} {x : α}

theorem extend_eq_some_iff :
  v.extend least xs = some v'
    ↔ v'.elems = v.elems ++ xs ∧ v'.capacity = v.capacityFor least xs.length
  := by
  rw [extend]
  constructor
  · intro h
    split at h
    · rw [← Option.some_injective _ h]
      exact ⟨rfl, rfl⟩
    · cases h
  · rintro ⟨helems, hcapacity⟩
    obtain ⟨elems, capacity, hfits, hallocated⟩ := v'
    obtain rfl := helems
    obtain rfl := hcapacity
    apply dif_pos hallocated

/-- A vector whose elements, with one more, are at most half of what can be allocated takes one
more. -/
theorem exists_push (hleast : least ≤ limit) (hroom : 2 * (v.elems.length + 1) ≤ limit) (x : α) :
  ∃ v', v.push least x = some v' ∧ v'.elems = v.elems ++ [x]
  := by
  have hallocated := v.allocated
  have hcapacity : v.capacityFor least [x].length ≤ limit := by
    rw [capacityFor, List.length_singleton]
    split <;> omega
  exact ⟨_, dif_pos hcapacity, rfl⟩

theorem elems_of_push (h : v.push least x = some v') :
  v'.elems = v.elems ++ [x]
  := (extend_eq_some_iff.mp h).1

/-! ### Doubling -/

/-- The capacity is a doubling of `c`. -/
def Doubled (c : ℕ) (v : Vec α limit) : Prop :=
  ∃ k, v.capacity = c * 2 ^ k

theorem doubled_withCapacity (h : withCapacity α limit c = some v) :
  v.Doubled c ∧ v.elems = []
  := by
  rw [withCapacity] at h
  split at h
  · rw [← Option.some_injective _ h]
    exact ⟨⟨0, (Nat.mul_one c).symm⟩, rfl⟩
  · cases h

/-- A piece no longer than `c` asks for one doubling at most. -/
theorem Doubled.capacityFor (h : v.Doubled c) (hleast : least ≤ 2 * c) (hn : n ≤ c) :
  ∃ k, v.capacityFor least n = c * 2 ^ k
  := by
  obtain ⟨k, hk⟩ := h
  rw [Vec.capacityFor]
  split
  · exact ⟨k, hk⟩
  · use k + 1
    have hfits := v.fits
    have hpos : c ≤ c * 2 ^ k := Nat.le_mul_of_pos_right c (Nat.two_pow_pos k)
    have hdouble : c * 2 ^ (k + 1) = 2 * (c * 2 ^ k) := by
      rw [pow_succ, Nat.mul_comm 2, Nat.mul_assoc]
    rw [hk] at hfits ⊢
    omega

/-- A doubling of `c` that can be allocated is at most the last that can. -/
theorem le_of_doubling {a k : ℕ} (ha : a = c * 2 ^ k) (hle : a ≤ limit)
    (hlimit : limit < c * 2 ^ (m + 1)) :
  a ≤ c * 2 ^ m
  := by
  rw [ha] at hle ⊢
  have hlt : 2 ^ k < 2 ^ (m + 1) := Nat.lt_of_mul_lt_mul_left (lt_of_le_of_lt hle hlimit)
  have hk : k ≤ m := Nat.le_of_lt_succ ((Nat.pow_lt_pow_iff_right (by decide)).mp hlt)
  apply Nat.mul_le_mul_left c (Nat.pow_le_pow_right (by decide) hk)

/-- Appending a piece no longer than `c` returns if there is room for it in the last doubling
that can be allocated, and fails if there is none. -/
theorem Doubled.extend (h : v.Doubled c) (hleast : least ≤ 2 * c) (hxs : xs.length ≤ c)
    (hm : c * 2 ^ m ≤ limit) (hlimit : limit < c * 2 ^ (m + 1)) :
  (∃ v', v.extend least xs = some v' ∧ v'.Doubled c ∧ v'.elems = v.elems ++ xs
    ∧ (v.elems ++ xs).length ≤ c * 2 ^ m)
  ∨ (v.extend least xs = none ∧ c * 2 ^ m < (v.elems ++ xs).length)
  := by
  obtain ⟨k, hk⟩ := h.capacityFor hleast hxs
  have hroom := v.le_capacityFor least xs.length
  by_cases hle : v.capacityFor least xs.length ≤ limit
  · left
    refine ⟨_, dif_pos hle, ⟨k, hk⟩, rfl, ?_⟩
    rw [List.length_append]
    apply le_trans hroom (le_of_doubling hk hle hlimit)
  · right
    refine ⟨dif_neg hle, ?_⟩
    rw [List.length_append]
    by_contra hfew
    obtain ⟨j, hj⟩ := h
    -- There was no room, so the capacity has doubled from one below the last.
    have hgrown : ¬ v.elems.length + xs.length ≤ v.capacity := by
      intro hfits
      rw [Vec.capacityFor, if_pos hfits] at hle
      apply hle v.allocated
    have hlt : c * 2 ^ j < c * 2 ^ m := by omega
    have hjm : j < m :=
      (Nat.pow_lt_pow_iff_right (by decide)).mp (Nat.lt_of_mul_lt_mul_left hlt)
    have hdouble : c * 2 ^ (j + 1) ≤ c * 2 ^ m :=
      Nat.mul_le_mul_left c (Nat.pow_le_pow_right (by decide) hjm)
    have hpos : c ≤ c * 2 ^ j := Nat.le_mul_of_pos_right c (Nat.two_pow_pos j)
    have htwice : c * 2 ^ (j + 1) = 2 * (c * 2 ^ j) := by
      rw [pow_succ, Nat.mul_comm 2, Nat.mul_assoc]
    rw [Vec.capacityFor, if_neg hgrown] at hle
    omega

/-- The same for one piece after another, by induction on the pieces. -/
theorem Doubled.foldlM_extend (h : v.Doubled c) (hleast : least ≤ 2 * c) {pieces : List (List α)}
    (hpieces : ∀ xs ∈ pieces, xs.length ≤ c) (hm : c * 2 ^ m ≤ limit)
    (hlimit : limit < c * 2 ^ (m + 1)) :
  (∃ v', pieces.foldlM (Vec.extend least) v = some v' ∧ v'.Doubled c
    ∧ v'.elems = v.elems ++ pieces.flatten)
  ∨ (pieces.foldlM (Vec.extend least) v = none
    ∧ c * 2 ^ m < (v.elems ++ pieces.flatten).length)
  := by
  induction pieces generalizing v with
  | nil => exact .inl ⟨v, rfl, h, (List.append_nil _).symm⟩
  | cons xs pieces ih =>
      obtain ⟨hxs, hrest⟩ := List.forall_mem_cons.mp hpieces
      rw [List.foldlM_cons, List.flatten_cons, ← List.append_assoc]
      rcases h.extend hleast hxs hm hlimit with ⟨v₁, hextend, hv₁, helems, -⟩ | ⟨hnone, hmany⟩
      · rw [hextend, ← helems]
        apply ih hv₁ hrest
      · right
        rw [hnone, List.length_append]
        exact ⟨rfl, lt_of_lt_of_le hmany (Nat.le_add_right ..)⟩

end Vec

/-! ### Computations with vectors -/

/-- The computation `x'` returns what `x` returns, or fails, and then `P`. -/
def SameUnless {α : Type*} (P : Prop) (x' x : Option α) : Prop :=
  x' = x ∨ P ∧ x' = none

namespace SameUnless

variable {α β : Type*} {P : Prop} {x' x : Option α} {f' f : α → Option β}

theorem refl (P : Prop) (x : Option α) :
  SameUnless P x x
  := .inl rfl

theorem eq (h : SameUnless P x' x) (hP : ¬ P) :
  x' = x
  := h.resolve_right fun hnone => hP hnone.1

theorem bind (h : SameUnless P x' x) (hf : ∀ a, x = some a → SameUnless P (f' a) (f a)) :
  SameUnless P (x'.bind f') (x.bind f)
  := by
  rcases h with rfl | ⟨hP, rfl⟩
  · cases hx : x' with
    | none => apply refl
    | some a => apply hf a hx
  · exact .inr ⟨hP, rfl⟩

theorem map (h : SameUnless P x' x) (g : α → β) :
  SameUnless P (x'.map g) (x.map g)
  := by
  rcases h with rfl | ⟨hP, rfl⟩
  · apply refl
  · exact .inr ⟨hP, rfl⟩

end SameUnless

end Capacity
