import Pleat.Canonical
import Pleat.Checked.Decode
import Pleat.Checked.Query
import Mathlib.Logic.Relation

/-!
# Hostile input

Decoding any bytes returns a filter or an error.  Every filter decoded, and every filter
built, can be queried for any key, one by one or in batches, and prefetched from, without
an overflow and within bounds; and so can it after its storage has been relocated any
number of times.  What makes it so is that the filter has an encoding that is accepted,
and the numbers of slots and segments, which decide it, are not changed by a relocation.
-/

namespace Pleat

open Format

/-! ### Homogeneous filters -/

namespace Ribbon

variable {T : Target} {R : ℕ} {f f' : Ribbon R}

/-- The filter after some relocations of its storage that returned normally. -/
def Relocated : Ribbon R → Ribbon R → Prop :=
  Relation.ReflTransGen fun f f' => ∃ relocate, f.relocateStorage relocate = some f'

/-- Queries for any key, and batches of any length, return what the plain query answers, and
the segments prefetched exist. -/
structure Accessible (T : Target) (f : Ribbon R) : Prop where
  contains : ∀ key, Checked.contains T f.soln key = some (f.soln.plainContains key)
  batch : ∀ keys out, keys.length = out.length →
    Checked.containsBatch T f.soln keys out = some (keys.map f.soln.plainContains)
  prefetch : ∀ key, ∃ touched, Checked.prefetch T f.soln key = some touched
    ∧ ∀ i ∈ touched, i < f.soln.segments.length

/-- What a relocation keeps. -/
theorem of_relocateStorage {relocate : List U64 → List U64}
    (h : f.relocateStorage relocate = some f') :
  f'.soln.segments.length = f.soln.segments.length ∧ f'.soln.numStarts = f.soln.numStarts
  := by
  obtain ⟨s, hs, rfl⟩ := Option.map_eq_some_iff.mp h
  rw [Solution.relocateStorage] at hs
  split at hs
  · rename_i hlen
    obtain rfl := Option.some_injective _ hs
    exact ⟨hlen, rfl⟩
  · nomatch hs

theorem Decodable.relocateStorage {relocate : List U64 → List U64} (hf : f.Decodable T)
    (h : f.relocateStorage relocate = some f') :
  f'.Decodable T
  := by
  obtain ⟨hlen, hstarts⟩ := of_relocateStorage h
  have hslots : f'.soln.numSlots = f.soln.numSlots := by
    rw [Solution.numSlots, Solution.numSlots, hstarts]
  refine ⟨⟨?_, ?_, ?_⟩, ?_, ?_⟩
  · rw [hslots]
    apply hf.valid.blocks
  · rw [hslots]
    apply hf.valid.slots
  · rw [hslots, hlen]
    apply hf.valid.segments
  · rw [hslots]
    apply hf.numSlots_le
  · rw [length_encoding, hlen, ← length_encoding]
    apply hf.length_le

/-- By induction on the relocations. -/
theorem Decodable.relocated (hf : f.Decodable T) (h : f.Relocated f') :
  f'.Decodable T
  := by
  induction h with
  | refl => apply hf
  | tail _ hstep ih =>
      obtain ⟨relocate, hrelocate⟩ := hstep
      apply ih.relocateStorage hrelocate

/-- The slots and the segments are counted by a `usize`. -/
theorem Decodable.addressable (hR : checkWidth R) (hf : f.Decodable T) :
  Checked.Addressable T R W f.soln.numSlots f.soln.segments.length
  where
  blocks := hf.valid.blocks
  positive := by decide
  segments := hf.valid.segments
  slots_le := hf.numSlots_le
  segments_le := by
    have hlen := hf.length_le
    have hwide := hR.2
    have hheader : headerLen = 32 := rfl
    rw [length_encoding] at hlen
    omega

theorem Decodable.accessible (hR : checkWidth R) (hf : f.Decodable T) :
  f.Accessible T
  := by
  have haddressable := hf.addressable hR
  have hcontains : ∀ key, Checked.contains T f.soln key = some (f.soln.plainContains key) := by
    intro key
    rw [Checked.contains_eq hf.valid haddressable, Solution.contains_eq_plain hf.valid]
  have hprefetch := Checked.prefetch_eq hf.valid haddressable hR
  constructor
  · apply hcontains
  · exact fun keys out hlen => batch_eq hlen (fun key => ⟨_, hprefetch key⟩) hcontains
  · intro key
    use f.soln.prefetch key, hprefetch key
    intro i hi
    apply of_decide_eq_true (List.mem_filter.mp hi).2

/-- A filter that a builder returns has an encoding that is accepted. -/
theorem Built.decodable {sizing : ℕ → ℕ → ℕ} {keys : List U64} (hR : checkWidth R)
    (hf : f.Built T sizing keys) :
  f.Decodable T
  := decodable_of_fromBytes hR (hf.fromBytes_eq_ok hR)

end Ribbon

/-! ### Standard filters -/

namespace StdRibbon

variable {T : Target} {R : ℕ} {f f' : StdRibbon R}

/-- The filter after some relocations of its storage that returned normally. -/
def Relocated : StdRibbon R → StdRibbon R → Prop :=
  Relation.ReflTransGen fun f f' => ∃ relocate, f.relocateStorage relocate = some f'

/-- Queries for any key, and batches of any length, return what the plain query answers, and
the segments prefetched exist. -/
structure Accessible (T : Target) (f : StdRibbon R) : Prop where
  contains : ∀ key, Checked.contains128 T f.soln key = some (f.soln.plainContains key)
  batch : ∀ keys out, keys.length = out.length →
    Checked.containsBatch128 T f.soln keys out = some (keys.map f.soln.plainContains)
  prefetch : ∀ key, ∃ touched, Checked.prefetch128 T f.soln key = some touched
    ∧ ∀ i ∈ touched, i < f.soln.segments.length

/-- What a relocation keeps. -/
theorem of_relocateStorage {relocate : List U128 → List U128}
    (h : f.relocateStorage relocate = some f') :
  f'.soln.segments.length = f.soln.segments.length ∧ f'.soln.numStarts = f.soln.numStarts
    ∧ f'.soln.rawSeed = f.soln.rawSeed ∧ f'.soln.ordinalSeed = f.soln.ordinalSeed
  := by
  obtain ⟨s, hs, rfl⟩ := Option.map_eq_some_iff.mp h
  rw [Solution128.relocateStorage] at hs
  split at hs
  · rename_i hlen
    obtain rfl := Option.some_injective _ hs
    exact ⟨hlen, rfl, rfl, rfl⟩
  · nomatch hs

theorem Decodable.relocateStorage {relocate : List U128 → List U128} (hf : f.Decodable T)
    (h : f.relocateStorage relocate = some f') :
  f'.Decodable T
  := by
  obtain ⟨hlen, hstarts, hraw, hseed⟩ := of_relocateStorage h
  have hslots : f'.soln.numSlots = f.soln.numSlots := by
    rw [Solution128.numSlots, Solution128.numSlots, hstarts]
  refine ⟨⟨?_, ?_, ?_⟩, ?_, ?_, ?_, ?_⟩
  · rw [hslots]
    apply hf.valid.blocks
  · rw [hslots]
    apply hf.valid.slots
  · rw [hslots, hlen]
    apply hf.valid.segments
  · rw [hraw, hseed]
    apply hf.rawSeed
  · rw [hseed]
    apply hf.ordinalSeed_lt
  · rw [hslots]
    apply hf.numSlots_le
  · rw [length_encoding, hlen, ← length_encoding]
    apply hf.length_le

/-- By induction on the relocations. -/
theorem Decodable.relocated (hf : f.Decodable T) (h : f.Relocated f') :
  f'.Decodable T
  := by
  induction h with
  | refl => apply hf
  | tail _ hstep ih =>
      obtain ⟨relocate, hrelocate⟩ := hstep
      apply ih.relocateStorage hrelocate

/-- The slots and the segments are counted by a `usize`. -/
theorem Decodable.addressable (hR : checkWidth R) (hf : f.Decodable T) :
  Checked.Addressable T R W128 f.soln.numSlots f.soln.segments.length
  where
  blocks := hf.valid.blocks
  positive := by decide
  segments := hf.valid.segments
  slots_le := hf.numSlots_le
  segments_le := by
    have hlen := hf.length_le
    have hwide := hR.2
    have hheader : headerLen = 32 := rfl
    rw [length_encoding] at hlen
    omega

theorem Decodable.accessible (hR : checkWidth R) (hf : f.Decodable T) :
  f.Accessible T
  := by
  have haddressable := hf.addressable hR
  have hcontains : ∀ key, Checked.contains128 T f.soln key = some (f.soln.plainContains key) := by
    intro key
    rw [Checked.contains128_eq hf.valid haddressable hR, Solution128.contains_eq_plain hf.valid]
  have hprefetch := Checked.prefetch128_eq hf.valid haddressable hR
  constructor
  · apply hcontains
  · exact fun keys out hlen => batch_eq hlen (fun key => ⟨_, hprefetch key⟩) hcontains
  · intro key
    use f.soln.prefetch key, hprefetch key
    intro i hi
    apply of_decide_eq_true (List.mem_filter.mp hi).2

/-- A filter that a builder returns has an encoding that is accepted. -/
theorem Built.decodable {sizing : ℕ → ℕ → ℕ} {keys : List U64} (hR : checkWidth R)
    (hf : f.Built T sizing keys) :
  f.Decodable T
  := decodable_of_fromBytes hR (hf.fromBytes_eq_ok hR)

end StdRibbon

/-! ### Both families -/

/-- On a target with pointers of 32 or 64 bits decoding any bytes returns a filter or an error,
and every filter decoded or built can be accessed for any key after any relocations. -/
theorem hostile_input_safe (T : Target) (hT : T.usizeBits = 32 ∨ T.usizeBits = 64) {R : ℕ}
    (hR : checkWidth R) (bytes : List U8) :
  (∃ result, Checked.ribbonFromBytes T R bytes = some result)
  ∧ (∃ result, Checked.stdRibbonFromBytes T R bytes = some result)
  ∧ (∀ f : Ribbon R,
      (Checked.ribbonFromBytes T R bytes = some (.ok f)
        ∨ ∃ sizing keys, f.Built T sizing keys) →
      ∀ f', f.Relocated f' → f'.Accessible T)
  ∧ (∀ f : StdRibbon R,
      (Checked.stdRibbonFromBytes T R bytes = some (.ok f)
        ∨ ∃ sizing keys, f.Built T sizing keys) →
      ∀ f', f.Relocated f' → f'.Accessible T)
  := by
  rw [Checked.ribbonFromBytes_eq hT, Checked.stdRibbonFromBytes_eq hT]
  refine ⟨Ribbon.exists_fromBytes T R bytes, StdRibbon.exists_fromBytes T R bytes, ?_, ?_⟩
  · intro f hf f' hrelocated
    have hdecodable : f.Decodable T := by
      rcases hf with hdecoded | ⟨sizing, keys, hbuilt⟩
      · apply Ribbon.decodable_of_fromBytes hR hdecoded
      · apply hbuilt.decodable hR
    apply (hdecodable.relocated hrelocated).accessible hR
  · intro f hf f' hrelocated
    have hdecodable : f.Decodable T := by
      rcases hf with hdecoded | ⟨sizing, keys, hbuilt⟩
      · apply StdRibbon.decodable_of_fromBytes hR hdecoded
      · apply hbuilt.decodable hR
    apply (hdecodable.relocated hrelocated).accessible hR

/-- A filter of two empty blocks, decoded on a target of 32 bits, after its storage has been
replaced by other values. -/
theorem hostile_input_safe_empty :
  let T : Target := ⟨32, by decide⟩
  let f : Ribbon 7 := ⟨Solution.fromParts 65 0 (List.replicate 14 0)⟩
  let f' : Ribbon 7 := ⟨Solution.fromParts 65 0 (List.replicate 14 5)⟩
  (∃ result, Checked.ribbonFromBytes T 7 f.encoding = some result) ∧ f'.Accessible T
  := by
  intro T f f'
  have hT : T.usizeBits = 32 ∨ T.usizeBits = 64 := .inl rfl
  have hR : checkWidth 7 := ⟨by decide, by decide⟩
  have hdecodable : f.Decodable T :=
    ⟨⟨by decide, by decide, by decide⟩, by decide, by rw [Ribbon.length_encoding]; decide⟩
  obtain ⟨hreturns, -, hsafe, -⟩ := hostile_input_safe T hT hR f.encoding
  use hreturns
  apply hsafe f
  · left
    rw [Checked.ribbonFromBytes_eq hT]
    apply hdecodable.fromBytes hR
  · apply Relation.ReflTransGen.single
    exact ⟨fun _ => List.replicate 14 5, rfl⟩

end Pleat
