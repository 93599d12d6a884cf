import Pleat.Checked.Safety
import Pleat.Data.Calls
import Pleat.DecodeErrors

/-!
# The life of a filter

A caller holds one filter and uses it through the methods of its type, in any order:
queries, batches, prefetches, relocations of the storage, saving, and loading, which
replaces the filter if the bytes are accepted and is refused otherwise (`filter.rs`).  The
methods are those with the arithmetic that can fail.

A run of calls panics exactly at its first batch whose places for the answers are not as
many as its keys, its first relocation that returns another number of segments, or the first
time it saves a filter of more bytes than the largest power of two that can be allocated; a
filter that bytes were loaded into is as safe as one that was built.  A run of calls that
keep to what the methods ask for leaves the filter as it was built, answers each key in the
same way throughout, finds each key it was built from, and loads none but its own bytes.
-/

namespace Pleat

open Format

/-- The methods of a filter type, its segments and the bytes that stand for it; `none` is a
panic. -/
structure Interface (F S : Type) where
  contains : F → U64 → Option Bool
  containsBatch : F → List U64 → List Bool → Option (List Bool)
  prefetch : F → U64 → Option (List ℕ)
  segments : F → List S
  relocateStorage : (List S → List S) → F → Option F
  encoding : F → List U8
  toBytes : F → Option (List U8)
  fromBytes : List U8 → Option (Except DecodeError F)

/-- What a caller may ask for. -/
inductive Call (S : Type)
  | contains (key : U64)
  | containsBatch (keys : List U64) (out : List Bool)
  | prefetch (key : U64)
  | relocateStorage (relocate : List S → List S)
  | toBytes
  | fromBytes (bytes : List U8)

/-- What a call returns; a prefetch returns nothing, of it the segments touched are kept. -/
inductive Reply
  | answer (found : Bool)
  | answers (out : List Bool)
  | touched (indices : List ℕ)
  | relocated
  | saved (bytes : List U8)
  | loaded
  | refused (e : DecodeError)

namespace Interface

variable {F S : Type} (I : Interface F S)

/-- Make a call on the filter `f`. -/
def call (f : F) : Call S → Option (F × Reply)
  | .contains key => do
      let found ← I.contains f key
      some (f, .answer found)
  | .containsBatch keys out => do
      let out ← I.containsBatch f keys out
      some (f, .answers out)
  | .prefetch key => do
      let touched ← I.prefetch f key
      some (f, .touched touched)
  | .relocateStorage relocate => do
      let f ← I.relocateStorage relocate f
      some (f, .relocated)
  | .toBytes => do
      let bytes ← I.toBytes f
      some (f, .saved bytes)
  | .fromBytes bytes => do
      match ← I.fromBytes bytes with
      | .ok f' => some (f', .loaded)
      | .error e => some (f, .refused e)

/-- What the methods assert: the places of a batch are as many as its keys, and a relocation
returns as many segments as it was given.  Saving needs a vector that can grow to the bytes. -/
def Allowed (T : Target) (f : F) : Call S → Prop
  | .containsBatch keys out => keys.length = out.length
  | .relocateStorage relocate => (relocate (I.segments f)).length = (I.segments f).length
  | .toBytes => (I.encoding f).length ≤ 2 ^ (T.usizeBits - 2)
  | _ => True

end Interface

/-- What has become of bytes: one byte or two adjacent bytes of them have changed, or they have
been cut short or extended. -/
def Damaged (bytes bytes' : List U8) : Prop :=
  (∃ pre mid mid' post, bytes = pre ++ mid ++ post ∧ bytes' = pre ++ mid' ++ post
    ∧ mid'.length = mid.length ∧ mid.length ≤ 2 ∧ mid' ≠ mid)
  ∨ ((bytes' <+: bytes ∨ bytes <+: bytes') ∧ bytes' ≠ bytes)

namespace Interface

variable {F S : Type} (I : Interface F S)

/-- What the documentation asks for besides: a relocation returns the values it was given, and
the bytes loaded are those of the filter, whole or damaged. -/
def Honoured (f : F) : Call S → Prop
  | .containsBatch keys out => keys.length = out.length
  | .relocateStorage relocate => relocate (I.segments f) = I.segments f
  | .fromBytes bytes => bytes = I.encoding f ∨ Damaged (I.encoding f) bytes
  | _ => True

/-- What a call on the filter `f` returns, which answers by `answer`. -/
def Expected (f : F) (answer : U64 → Bool) : Call S → Reply → Prop
  | .contains key, .answer found => found = answer key
  | .containsBatch keys _, .answers out => out = keys.map answer
  | .prefetch _, .touched indices => ∀ i ∈ indices, i < (I.segments f).length
  | .relocateStorage _, .relocated => True
  | .toBytes, .saved bytes => bytes = I.encoding f
  | .fromBytes bytes, .loaded => bytes = I.encoding f
  | .fromBytes bytes, .refused _ => bytes ≠ I.encoding f
  | _, _ => False

/-- What the methods do on the filters that satisfy `Inv`. -/
structure Lawful (T : Target) (Inv : F → Prop) (answer : F → U64 → Bool) : Prop where
  contains : ∀ {f}, Inv f → ∀ key, I.contains f key = some (answer f key)
  batch : ∀ {f}, Inv f → ∀ keys out, I.containsBatch f keys out
    = if keys.length = out.length then some (keys.map (answer f)) else none
  prefetch : ∀ {f}, Inv f → ∀ key, ∃ indices, I.prefetch f key = some indices
    ∧ ∀ i ∈ indices, i < (I.segments f).length
  relocated : ∀ {f relocate}, Inv f → (relocate (I.segments f)).length = (I.segments f).length →
    ∃ f', I.relocateStorage relocate f = some f' ∧ Inv f'
      ∧ (relocate (I.segments f) = I.segments f → f' = f)
  resized : ∀ {f relocate}, (relocate (I.segments f)).length ≠ (I.segments f).length →
    I.relocateStorage relocate f = none
  toBytes : ∀ f, I.toBytes f
    = if (I.encoding f).length ≤ 2 ^ (T.usizeBits - 2) then some (I.encoding f) else none
  returns : ∀ bytes, ∃ result, I.fromBytes bytes = some result
  loaded : ∀ {bytes f}, I.fromBytes bytes = some (.ok f) → Inv f
  saved : ∀ {f}, Inv f → I.fromBytes (I.encoding f) = some (.ok f)
  damaged : ∀ {f bytes}, Inv f → Damaged (I.encoding f) bytes →
    ∃ e, I.fromBytes bytes = some (.error e)

variable {I} {T : Target} {Inv : F → Prop} {answer : F → U64 → Bool}

/-! ### One call -/

/-- An allowed call returns and leaves a filter that satisfies the invariant; every other call
panics. -/
theorem Lawful.guarded (h : I.Lawful T Inv answer) :
  Calls.Guarded I.call Inv (I.Allowed T)
  where
  returns := by
    intro f call hf hallowed
    cases call with
    | contains key =>
        refine ⟨f, .answer (answer f key), ?_, hf⟩
        rw [Interface.call, h.contains hf]
        rfl
    | containsBatch keys out =>
        have hlen : keys.length = out.length := hallowed
        refine ⟨f, .answers (keys.map (answer f)), ?_, hf⟩
        rw [Interface.call, h.batch hf, if_pos hlen]
        rfl
    | prefetch key =>
        obtain ⟨indices, hprefetch, -⟩ := h.prefetch hf key
        refine ⟨f, .touched indices, ?_, hf⟩
        rw [Interface.call, hprefetch]
        rfl
    | relocateStorage relocate =>
        obtain ⟨f', hrelocate, hf', -⟩ := h.relocated hf hallowed
        refine ⟨f', .relocated, ?_, hf'⟩
        rw [Interface.call, hrelocate]
        rfl
    | toBytes =>
        have hroom : (I.encoding f).length ≤ 2 ^ (T.usizeBits - 2) := hallowed
        refine ⟨f, .saved (I.encoding f), ?_, hf⟩
        rw [Interface.call, h.toBytes, if_pos hroom]
        rfl
    | fromBytes bytes =>
        obtain ⟨result, hresult⟩ := h.returns bytes
        cases result with
        | ok f' =>
            refine ⟨f', .loaded, ?_, h.loaded hresult⟩
            rw [Interface.call, hresult]
            rfl
        | error e =>
            refine ⟨f, .refused e, ?_, hf⟩
            rw [Interface.call, hresult]
            rfl
  panics := by
    intro f call hf hnot
    cases call with
    | containsBatch keys out =>
        have hlen : keys.length ≠ out.length := hnot
        rw [Interface.call, h.batch hf, if_neg hlen]
        rfl
    | relocateStorage relocate =>
        rw [Interface.call, h.resized hnot]
        rfl
    | toBytes =>
        have hroom : ¬ (I.encoding f).length ≤ 2 ^ (T.usizeBits - 2) := hnot
        rw [Interface.call, h.toBytes, if_neg hroom]
        rfl
    | contains key => exact absurd trivial hnot
    | prefetch key => exact absurd trivial hnot
    | fromBytes bytes => exact absurd trivial hnot

/-- A call that is honoured returns what is expected and leaves the filter, if that can be
saved. -/
theorem Lawful.steady (h : I.Lawful T Inv answer) {f : F} (hf : Inv f)
    (hsave : I.toBytes f = some (I.encoding f)) {call : Call S} (hcall : I.Honoured f call) :
  ∃ reply, I.call f call = some (f, reply) ∧ I.Expected f (answer f) call reply
  := by
  cases call with
  | contains key =>
      refine ⟨.answer (answer f key), ?_, rfl⟩
      rw [Interface.call, h.contains hf]
      rfl
  | containsBatch keys out =>
      have hlen : keys.length = out.length := hcall
      refine ⟨.answers (keys.map (answer f)), ?_, rfl⟩
      rw [Interface.call, h.batch hf, if_pos hlen]
      rfl
  | prefetch key =>
      obtain ⟨indices, hprefetch, hlt⟩ := h.prefetch hf key
      refine ⟨.touched indices, ?_, hlt⟩
      rw [Interface.call, hprefetch]
      rfl
  | relocateStorage relocate =>
      obtain ⟨f', hrelocate, -, hsame⟩ := h.relocated hf (congrArg List.length hcall)
      obtain rfl := hsame hcall
      refine ⟨.relocated, ?_, trivial⟩
      rw [Interface.call, hrelocate]
      rfl
  | toBytes =>
      refine ⟨.saved (I.encoding f), ?_, rfl⟩
      rw [Interface.call, hsave]
      rfl
  | fromBytes bytes =>
      rcases hcall with rfl | hdamaged
      · refine ⟨.loaded, ?_, rfl⟩
        rw [Interface.call, h.saved hf]
        rfl
      · obtain ⟨e, he⟩ := h.damaged hf hdamaged
        refine ⟨.refused e, ?_, ?_⟩
        · rw [Interface.call, he]
          rfl
        · rintro rfl
          cases (h.saved hf).symm.trans he

end Interface

/-! ### Homogeneous filters -/

theorem FilterType.Encodes.exists_failsWith {T : Target} {t : FilterType} {n : ℕ} {hdr : Header}
    {payload bytes bytes' : List U8} (h : t.Encodes T n hdr payload bytes)
    (hdamaged : Damaged bytes bytes') :
  ∃ e, t.FailsWith T bytes' e
  := by
  rcases hdamaged with ⟨pre, mid, mid', post, hbytes, rfl, hlen, htwo, hne⟩ | ⟨hcut, hne⟩
  · exact ⟨_, h.failsWith_changed t hbytes hlen htwo hne T⟩
  · exact ⟨_, h.failsWith_resized hcut hne⟩

theorem batch_eq_ite {α : Type} {prefetch : U64 → Option α} {contains : U64 → Option Bool}
    {answer : U64 → Bool} (hprefetch : ∀ k, ∃ touched, prefetch k = some touched)
    (hcontains : ∀ k, contains k = some (answer k)) (keys : List U64) (out : List Bool) :
  batch prefetch contains keys out
    = if keys.length = out.length then some (keys.map answer) else none
  := by
  by_cases hlen : keys.length = out.length
  · rw [if_pos hlen, batch_eq hlen hprefetch hcontains]
  · rw [if_neg hlen, batch, if_pos hlen]

namespace Ribbon

variable {T : Target} {R : ℕ} {f : Ribbon R} {relocate : List U64 → List U64}

theorem relocateStorage_eq_some (hlen : (relocate f.soln.segments).length = f.soln.segments.length) :
  f.relocateStorage relocate = some ⟨{ f.soln with segments := relocate f.soln.segments }⟩
  := by
  rw [relocateStorage, Solution.relocateStorage, if_pos hlen]
  rfl

theorem relocateStorage_eq_none (hlen : (relocate f.soln.segments).length ≠ f.soln.segments.length) :
  f.relocateStorage relocate = none
  := by
  rw [relocateStorage, Solution.relocateStorage, if_neg hlen]
  rfl

/-- The methods of a homogeneous filter. -/
def interface (T : Target) (R : ℕ) : Interface (Ribbon R) U64 where
  contains f := Checked.contains T f.soln
  containsBatch f := Checked.containsBatch T f.soln
  prefetch f := Checked.prefetch T f.soln
  segments f := f.soln.segments
  relocateStorage := relocateStorage
  encoding := encoding
  toBytes := toBytes T
  fromBytes := Checked.ribbonFromBytes T R

theorem lawful (hT : T.usizeBits = 32 ∨ T.usizeBits = 64) (hR : checkWidth R) :
  (interface T R).Lawful T (Decodable T) (fun f => f.soln.plainContains)
  where
  contains hf := (hf.accessible hR).contains
  batch := by
    intro f hf keys out
    apply batch_eq_ite _ (hf.accessible hR).contains
    intro key
    obtain ⟨touched, htouched, -⟩ := (hf.accessible hR).prefetch key
    exact ⟨touched, htouched⟩
  prefetch hf := (hf.accessible hR).prefetch
  relocated := by
    intro f relocate hf hlen
    have hrelocate := relocateStorage_eq_some hlen
    refine ⟨_, hrelocate, hf.relocateStorage hrelocate, ?_⟩
    intro hsame
    change relocate f.soln.segments = f.soln.segments at hsame
    rw [hsame]
  resized := relocateStorage_eq_none
  toBytes := toBytes_eq T
  returns bytes := by
    change ∃ result, Checked.ribbonFromBytes T R bytes = some result
    rw [Checked.ribbonFromBytes_eq hT]
    apply exists_fromBytes
  loaded {bytes f} h := by
    refine @decodable_of_fromBytes T R bytes f hR ?_
    rw [← Checked.ribbonFromBytes_eq hT]
    apply h
  saved {f} hf := by
    change Checked.ribbonFromBytes T R f.encoding = some (.ok f)
    rw [Checked.ribbonFromBytes_eq hT]
    apply hf.fromBytes hR
  damaged {f bytes} hf hdamaged := by
    obtain ⟨n, hencodes, -⟩ := exists_encodes hR (hf.fromBytes hR)
    obtain ⟨e, he⟩ := hencodes.exists_failsWith hdamaged
    use e
    change Checked.ribbonFromBytes T R bytes = some (.error e)
    rw [Checked.ribbonFromBytes_eq hT]
    apply he

end Ribbon

/-! ### Standard filters -/

namespace StdRibbon

variable {T : Target} {R : ℕ} {f : StdRibbon R} {relocate : List U128 → List U128}

theorem relocateStorage_eq_some (hlen : (relocate f.soln.segments).length = f.soln.segments.length) :
  f.relocateStorage relocate = some ⟨{ f.soln with segments := relocate f.soln.segments }⟩
  := by
  rw [relocateStorage, Solution128.relocateStorage, if_pos hlen]
  rfl

theorem relocateStorage_eq_none (hlen : (relocate f.soln.segments).length ≠ f.soln.segments.length) :
  f.relocateStorage relocate = none
  := by
  rw [relocateStorage, Solution128.relocateStorage, if_neg hlen]
  rfl

/-- The methods of a standard filter. -/
def interface (T : Target) (R : ℕ) : Interface (StdRibbon R) U128 where
  contains f := Checked.contains128 T f.soln
  containsBatch f := Checked.containsBatch128 T f.soln
  prefetch f := Checked.prefetch128 T f.soln
  segments f := f.soln.segments
  relocateStorage := relocateStorage
  encoding := encoding
  toBytes := toBytes T
  fromBytes := Checked.stdRibbonFromBytes T R

theorem lawful (hT : T.usizeBits = 32 ∨ T.usizeBits = 64) (hR : checkWidth R) :
  (interface T R).Lawful T (Decodable T) (fun f => f.soln.plainContains)
  where
  contains hf := (hf.accessible hR).contains
  batch := by
    intro f hf keys out
    apply batch_eq_ite _ (hf.accessible hR).contains
    intro key
    obtain ⟨touched, htouched, -⟩ := (hf.accessible hR).prefetch key
    exact ⟨touched, htouched⟩
  prefetch hf := (hf.accessible hR).prefetch
  relocated := by
    intro f relocate hf hlen
    have hrelocate := relocateStorage_eq_some hlen
    refine ⟨_, hrelocate, hf.relocateStorage hrelocate, ?_⟩
    intro hsame
    change relocate f.soln.segments = f.soln.segments at hsame
    rw [hsame]
  resized := relocateStorage_eq_none
  toBytes := toBytes_eq T
  returns bytes := by
    change ∃ result, Checked.stdRibbonFromBytes T R bytes = some result
    rw [Checked.stdRibbonFromBytes_eq hT]
    apply exists_fromBytes
  loaded {bytes f} h := by
    refine @decodable_of_fromBytes T R bytes f hR ?_
    rw [← Checked.stdRibbonFromBytes_eq hT]
    apply h
  saved {f} hf := by
    change Checked.stdRibbonFromBytes T R f.encoding = some (.ok f)
    rw [Checked.stdRibbonFromBytes_eq hT]
    apply hf.fromBytes hR
  damaged {f bytes} hf hdamaged := by
    obtain ⟨n, hencodes, -⟩ := exists_encodes hR (hf.fromBytes hR)
    obtain ⟨e, he⟩ := hencodes.exists_failsWith hdamaged
    use e
    change Checked.stdRibbonFromBytes T R bytes = some (.error e)
    rw [Checked.stdRibbonFromBytes_eq hT]
    apply he

end StdRibbon

/-! ### The filters of keys and of items -/

namespace Ribbon

variable {T : Target} {sizing : ℕ → ℕ → ℕ} {R : ℕ} {keys : List U64} {f : Ribbon R}

/-- Build in arrival order, with seed 0. -/
def fromKeys (sizing : ℕ → ℕ → ℕ) (R : ℕ) (keys : List U64) : Option (Ribbon R) :=
  fromKeysSeeded sizing R keys 0

/-- Build pleated, with seed 0 and the default window. -/
def fromKeysPleated (T : Target) (sizing : ℕ → ℕ → ℕ) (R : ℕ) (keys : List U64) :
    Option (Ribbon R) :=
  fromKeysPleatedSeeded T sizing R keys 0 defaultWindowShift

/-- Build in parallel, with seed 0 and the default window. -/
def fromKeysParallel (T : Target) (sizing : ℕ → ℕ → ℕ) (R : ℕ) (keys : List U64) (threads : ℕ)
    (schedule : List ℕ) : Option (Ribbon R) :=
  fromKeysParallelSeeded T sizing R keys 0 defaultWindowShift threads schedule

/-- Build from items, each of which `hashKey` hashes to a key. -/
def fromHashable {K : Type} (hashKey : K → U64) (T : Target) (sizing : ℕ → ℕ → ℕ) (R : ℕ)
    (items : List K) : Option (Ribbon R) :=
  fromKeysPleated T sizing R (items.map hashKey)

/-- Is the item possibly in the set? -/
def containsHashable {K : Type} (hashKey : K → U64) (f : Ribbon R) (item : K) : Option Bool :=
  f.soln.contains (hashKey item)

theorem Built.plainContains (hR : checkWidth R) (hf : f.Built T sizing keys) {key : U64}
    (hkey : key ∈ keys) :
  f.soln.plainContains key = true
  := by
  have hplain := Solution.contains_eq_plain (hf.decodable hR).valid key
  obtain ⟨b, seed, rfl, hb⟩ := hf.exists_holds
  rw [hb.contains hkey] at hplain
  apply (Option.some_injective _ hplain).symm

end Ribbon

namespace StdRibbon

variable {T : Target} {sizing : ℕ → ℕ → ℕ} {R : ℕ} {keys : List U64} {f : StdRibbon R}

/-- Build from items, each of which `hashKey` hashes to a key. -/
def fromHashable {K : Type} (hashKey : K → U64) (T : Target) (sizing : ℕ → ℕ → ℕ) (R : ℕ)
    (items : List K) : Option (Except BuildError (StdRibbon R)) :=
  fromKeysPleated T sizing R (items.map hashKey)

/-- Is the item possibly in the set? -/
def containsHashable {K : Type} (hashKey : K → U64) (f : StdRibbon R) (item : K) : Option Bool :=
  f.soln.contains (hashKey item)

theorem Built.plainContains (hR : checkWidth R) (hf : f.Built T sizing keys) {key : U64}
    (hkey : key ∈ keys) :
  f.soln.plainContains key = true
  := by
  have hplain := Solution128.contains_eq_plain (hf.decodable hR).valid key
  obtain ⟨o, -, hout⟩ := List.exists_of_findSome?_eq_some hf.firstOutcome_eq
  rw [Banding128.contains_of_outcome hout hkey] at hplain
  apply (Option.some_injective _ hplain).symm

end StdRibbon

/-- Whatever hashes the items, each of them is found in the filter built from them, and so is
every other item with the hash of one of them. -/
theorem fromHashable_contains {T : Target} (hshift : defaultWindowShift < T.usizeBits)
    (sizing : ℕ → ℕ → ℕ) (R : ℕ) {K : Type} (hashKey : K → U64) (items : List K) :
  (∃ f : Ribbon R, Ribbon.fromHashable hashKey T sizing R items = some f
    ∧ Ribbon.fromKeys sizing R (items.map hashKey) = some f
    ∧ ∀ item, hashKey item ∈ items.map hashKey → f.containsHashable hashKey item = some true)
  ∧ ∃ result, StdRibbon.fromHashable hashKey T sizing R items = some result
    ∧ StdRibbon.fromKeys sizing R (items.map hashKey) = some result
    ∧ ∀ f, result = .ok f → ∀ item, hashKey item ∈ items.map hashKey →
      f.containsHashable hashKey item = some true
  := by
  constructor
  · obtain ⟨b, hbuild, hb⟩ := Ribbon.fromKeysPleatedSeeded_eq_some sizing R (items.map hashKey) 0
      hshift
    exact ⟨_, hbuild, Ribbon.fromKeysSeeded_eq_of_holds hb, fun item hitem => hb.contains hitem⟩
  · refine ⟨_, ?_, StdRibbon.fromKeys_eq .., ?_⟩
    · rw [StdRibbon.fromHashable, StdRibbon.fromKeysPleated,
        buildStd128Pleated_eq_firstOutcome _ _ _ _ hshift]
      rfl
    · intro f hf item hitem
      obtain ⟨o, -, hout⟩ := List.exists_of_findSome?_eq_some (StdRibbon.ofSolution_eq_ok hf)
      apply Banding128.contains_of_outcome hout hitem

/-! ### Runs -/

namespace Interface

variable {F S : Type} (I : Interface F S)

/-- A run from the filter panics exactly at its first call that is not allowed, and the filter it
leaves is read back from its bytes. -/
def Safe (T : Target) (f : F) : Prop :=
  ∀ calls,
    (Calls.run I.call f calls = none
      ↔ ∃ pre call post f' replies, calls = pre ++ call :: post
        ∧ Calls.run I.call f pre = some (f', replies) ∧ ¬ I.Allowed T f' call)
    ∧ ∀ f' replies, Calls.run I.call f calls = some (f', replies) →
      I.fromBytes (I.encoding f') = some (.ok f')

/-- A run of calls that are honoured leaves the filter, and each returns what is expected. -/
def Steady (f : F) (answer : U64 → Bool) : Prop :=
  ∀ calls, (∀ call ∈ calls, I.Honoured f call) →
    ∃ replies, Calls.run I.call f calls = some (f, replies)
      ∧ List.Forall₂ (I.Expected f answer) calls replies

variable {I} {T : Target} {Inv : F → Prop} {answer : F → U64 → Bool} {f : F}

theorem Lawful.safe (h : I.Lawful T Inv answer) (hf : Inv f) :
  I.Safe T f
  := by
  intro calls
  use h.guarded.run_eq_none_iff hf calls
  intro f' replies hrun
  apply h.saved (h.guarded.run hf hrun)

theorem Lawful.steadily (h : I.Lawful T Inv answer) (hf : Inv f)
    (hsave : I.toBytes f = some (I.encoding f)) :
  I.Steady f (answer f)
  := by
  intro calls hcalls
  apply Calls.exists_run_of_steady
  exact fun call hcall => h.steady hf hsave (hcalls call hcall)

end Interface

/-- On a target with pointers of 32 or 64 bits, and whatever a caller asks of a filter that was
built or decoded, a run panics exactly at the first call that breaks what its method asserts, or
that saves a filter of more bytes than a vector can grow to; and the filter that a run leaves is
read back from its bytes. -/
theorem calls_safe (T : Target) (hT : T.usizeBits = 32 ∨ T.usizeBits = 64) {R : ℕ}
    (hR : checkWidth R) :
  (∀ f : Ribbon R,
    ((∃ bytes, Checked.ribbonFromBytes T R bytes = some (.ok f))
      ∨ ∃ sizing keys, f.Built T sizing keys) →
    (Ribbon.interface T R).Safe T f)
  ∧ ∀ f : StdRibbon R,
    ((∃ bytes, Checked.stdRibbonFromBytes T R bytes = some (.ok f))
      ∨ ∃ sizing keys, f.Built T sizing keys) →
    (StdRibbon.interface T R).Safe T f
  := by
  constructor
  · intro f hf
    apply (Ribbon.lawful hT hR).safe
    rcases hf with ⟨bytes, hbytes⟩ | ⟨sizing, keys, hbuilt⟩
    · apply (Ribbon.lawful hT hR).loaded hbytes
    · apply hbuilt.decodable hR
  · intro f hf
    apply (StdRibbon.lawful hT hR).safe
    rcases hf with ⟨bytes, hbytes⟩ | ⟨sizing, keys, hbuilt⟩
    · apply (StdRibbon.lawful hT hR).loaded hbytes
    · apply hbuilt.decodable hR

set_option maxRecDepth 4000 in
/-- A filter of two empty blocks, decoded on a target of 64 bits, and a batch of one key with no
place for its answer; and one of 1 GiB, decoded on a target of 32 bits, that is to be saved. -/
theorem calls_safe_empty :
  Calls.run (Ribbon.interface ⟨64, le_rfl⟩ 7).call
    ⟨Solution.fromParts 65 0 (List.replicate 14 0)⟩ [.containsBatch [5] [], .contains 5] = none
  ∧ Calls.run (Ribbon.interface ⟨32, by decide⟩ 32).call Ribbon.gibibyte [.toBytes] = none
  := by
  have hT : (⟨64, le_rfl⟩ : Target).usizeBits = 32 ∨ (⟨64, le_rfl⟩ : Target).usizeBits = 64 :=
    .inr rfl
  have hT' : (⟨32, by decide⟩ : Target).usizeBits = 32
      ∨ (⟨32, by decide⟩ : Target).usizeBits = 64 :=
    .inl rfl
  have hR : checkWidth 7 := ⟨by decide, by decide⟩
  have hR' : checkWidth 32 := ⟨by decide, by decide⟩
  have hdecodable : (⟨Solution.fromParts 65 0 (List.replicate 14 0)⟩ : Ribbon 7).Decodable
      ⟨64, le_rfl⟩ :=
    ⟨⟨by decide, by decide, by decide⟩, by decide, by decide⟩
  have hsafe := (calls_safe ⟨64, le_rfl⟩ hT hR).1 _
    (.inl ⟨_, (Ribbon.lawful hT hR).saved hdecodable⟩)
  have hsafe' := (calls_safe ⟨32, by decide⟩ hT' hR').1 _
    (.inl ⟨_, (Ribbon.lawful hT' hR').saved Ribbon.decodable_gibibyte⟩)
  constructor
  · apply (hsafe _).1.mpr
    refine ⟨[], .containsBatch [5] [], [.contains 5], _, [], rfl, rfl, ?_⟩
    exact Nat.one_ne_zero
  · apply (hsafe' _).1.mpr
    refine ⟨[], .toBytes, [], _, [], rfl, rfl, ?_⟩
    change ¬ Ribbon.gibibyte.encoding.length ≤ 2 ^ 30
    rw [Ribbon.length_encoding_gibibyte]
    decide

/-- A caller that keeps to what the methods ask for finds each key the filter was built from and
the same answer for each other key throughout, and the filter is never changed: not by queries,
not by relocations that return the values they were given, not by loading its own bytes, and not
by loading them damaged, which is refused. -/
theorem calls_steady (T : Target) (hT : T.usizeBits = 32 ∨ T.usizeBits = 64) {R : ℕ}
    (hR : checkWidth R) (sizing : ℕ → ℕ → ℕ) (keys : List U64) :
  (∀ f : Ribbon R, f.Built T sizing keys →
    (∀ key ∈ keys, f.soln.plainContains key = true)
      ∧ (Ribbon.interface T R).Steady f f.soln.plainContains)
  ∧ ∀ f : StdRibbon R, f.Built T sizing keys →
    (∀ key ∈ keys, f.soln.plainContains key = true)
      ∧ (StdRibbon.interface T R).Steady f f.soln.plainContains
  := by
  constructor
  · intro f hf
    use fun key hkey => hf.plainContains hR hkey
    apply (Ribbon.lawful hT hR).steadily (hf.decodable hR) (hf.toBytes_eq_some hR)
  · intro f hf
    use fun key hkey => hf.plainContains hR hkey
    apply (StdRibbon.lawful hT hR).steadily (hf.decodable hR) (hf.toBytes_eq_some hR)

/-- A filter of one key, which is queried, moved and saved. -/
theorem calls_steady_five :
  ∃ f : Ribbon 7, Ribbon.fromKeysSeeded (fun _ _ => 0) 7 [5] 0 = some f
    ∧ f.soln.plainContains 5 = true
    ∧ ∃ replies, Calls.run (Ribbon.interface ⟨64, le_rfl⟩ 7).call f
        [.contains 5, .relocateStorage id, .toBytes] = some (f, replies)
  := by
  have hT : (⟨64, le_rfl⟩ : Target).usizeBits = 32 ∨ (⟨64, le_rfl⟩ : Target).usizeBits = 64 :=
    .inr rfl
  have hR : checkWidth 7 := ⟨by decide, by decide⟩
  obtain ⟨b, hbuild, -⟩ := Ribbon.fromKeysSeeded_eq_some (fun _ _ => 0) 7 [5] 0
  obtain ⟨hfound, hsteady⟩ := (calls_steady ⟨64, le_rfl⟩ hT hR (fun _ _ => 0) [5]).1 _
    (.fromKeysSeeded (by decide) hbuild)
  obtain ⟨replies, hrun, -⟩ := hsteady [.contains 5, .relocateStorage id, .toBytes] (by
    rintro call (_ | ⟨_, _ | ⟨_, _ | ⟨_, ⟨⟩⟩⟩⟩)
    · trivial
    · rfl
    · trivial)
  exact ⟨_, hbuild, hfound 5 (List.mem_singleton_self 5), replies, hrun⟩

end Pleat
