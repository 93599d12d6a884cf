import Mathlib.Algebra.Order.Ring.Nat
import Mathlib.Data.List.Range

/-!
# The machine

The fixed-width integers of the source are bit vectors, whose operations wrap.  `usize` is
`ℕ`; the width of a pointer on the target matters only where the source asks for it.
-/

namespace Pleat

abbrev U8 : Type := BitVec 8
abbrev U32 : Type := BitVec 32
abbrev U64 : Type := BitVec 64
abbrev U128 : Type := BitVec 128

/-- A compilation target: the number of bits of a `usize`, at most 64. -/
structure Target where
  usizeBits : ℕ
  usizeBits_le : usizeBits ≤ 64

namespace Target

/-- `usize::MAX` -/
def usizeMax (T : Target) : ℕ :=
  2 ^ T.usizeBits - 1

/-- `isize::MAX`, which bounds the bytes of every allocation. -/
def isizeMax (T : Target) : ℕ :=
  2 ^ (T.usizeBits - 1) - 1

end Target

/-- Division rounded up. -/
def divCeil (a b : ℕ) : ℕ :=
  (a + b - 1) / b

/-- The slice `l[a..b]`; out of bounds is `none`. -/
def slice {α : Type*} (l : List α) (a b : ℕ) : Option (List α) :=
  if a ≤ b ∧ b ≤ l.length then some ((l.drop a).take (b - a)) else none

theorem slice_eq_some {α : Type*} {l : List α} {a b : ℕ} (hab : a ≤ b) (hb : b ≤ l.length) :
  slice l a b = some ((l.drop a).take (b - a))
  := if_pos ⟨hab, hb⟩

/-- The list of the values of `f` below `n`. -/
def tabulate {α : Type*} (n : ℕ) (f : ℕ → α) : List α :=
  (List.range n).map f

variable {α : Type*} {n : ℕ} {f : ℕ → α}

@[simp]
theorem length_tabulate :
  (tabulate n f).length = n
  := by
  simp [tabulate]

theorem getElem?_tabulate {i : ℕ} (hi : i < n) :
  (tabulate n f)[i]? = some (f i)
  := by
  simp [tabulate, hi]

/-- Writing to a tabulated list tabulates the updated function. -/
theorem set_tabulate (i : ℕ) (x : α) :
  (tabulate n f).set i x = tabulate n (Function.update f i x)
  := by
  apply List.ext_getElem
  · simp
  · intro k hk _
    rw [List.getElem_set]
    by_cases hik : i = k
    · subst hik
      simp [tabulate]
    · simp [tabulate, hik, Function.update_of_ne (Ne.symm hik)]

theorem tabulate_congr {g : ℕ → α} (h : ∀ i < n, f i = g i) :
  tabulate n f = tabulate n g
  := by
  apply List.map_congr_left
  intro i hi
  apply h i (List.mem_range.mp hi)

theorem replicate_eq_tabulate (x : α) :
  List.replicate n x = tabulate n (fun _ => x)
  := by
  simp [tabulate]

/-- A loop whose every step succeeds. -/
theorem mapM_eq_some_map {β : Type*} {f : α → Option β} {g : α → β} {l : List α}
    (h : ∀ x ∈ l, f x = some (g x)) :
  l.mapM f = some (l.map g)
  := by
  induction l with
  | nil => rfl
  | cons x l ih =>
      rw [List.mapM_cons, h x (List.mem_cons_self ..),
        ih (fun y hy => h y (List.mem_cons_of_mem x hy))]
      rfl

/-- A loop that carries a state, every step of which succeeds and keeps the invariant `Inv`. -/
theorem foldlM_eq_some_foldl {σ : Type*} (Inv : σ → Prop) {f : σ → α → Option σ} {g : σ → α → σ}
    {l : List α} (h : ∀ s, Inv s → ∀ x ∈ l, f s x = some (g s x) ∧ Inv (g s x)) {s : σ}
    (hs : Inv s) :
  l.foldlM f s = some (l.foldl g s) ∧ Inv (l.foldl g s)
  := by
  induction l generalizing s with
  | nil => exact ⟨rfl, hs⟩
  | cons x l ih =>
      obtain ⟨hx, hinv⟩ := h s hs x (List.mem_cons_self ..)
      rw [List.foldlM_cons, hx, List.foldl_cons]
      apply ih (fun s hs y hy => h s hs y (List.mem_cons_of_mem x hy)) hinv

end Pleat
