import Vecvec.Hnsw.Codec
import Vecvec.Machinery.RelyGuarantee
import Vecvec.Persist.Frame

/-!
# Segment/Store — segment files, and the segments decoded from them

A store keeps one file a segment and, beside the files, a cache of weak references: to load a
segment is to upgrade its reference, or else to map the file, check its frame, decode it and cache a
reference to the result.  The cache's mutex is held for the look-up and for the insertion, not in
between; loads of one segment may both decode it, a file may be removed while it is decoded, and a
segment removed may be cached after that.

None of this shows in what a load returns (`loads_written`): as a segment is never written twice
under one id with different contents, **every load that succeeds returns the segment that was
written**, and a load fails only for want of the file.
-/

namespace Vecvec.Hnsw

open Machinery

/-! ## The code -/

/-- `SEGMENT_FORMAT_VERSION` -/
def segmentFormatVersion : UInt32 := 2

/-- `segment_path`, below the store's directory. -/
def segmentPath (id : SegmentId) : String := s!"{id}.seg"

/-- Why a segment is not loaded, or not written. -/
inductive StoreError
  /-- `CoreError::Io` -/
  | io (path : String)
  /-- an error of `parse_framed` -/
  | frame (e : FrameError)
  /-- `CoreError::UnsupportedVersion` -/
  | unsupportedVersion (path : String) (found supported : UInt32)
  /-- an error of `decode_segment` -/
  | decode (e : DecodeError)
  /-- Not an error value of the source: a panic of `parse_framed`. -/
  | aborted

/-- A segment in memory, and how many strong references to it there are. -/
structure Arc (K : Kernels) where
  /-- The segment. -/
  segment : SealedSegment K
  /-- The strong references. -/
  strong : ℕ

/-- The directory of a store, its cache, and the segments in memory. -/
structure SegmentStore (K : Kernels) where
  /-- The segment files. -/
  files : SegmentId → Option Slice
  /-- The weak references of the cache. -/
  cache : SegmentId → Option ℕ
  /-- The segments in memory; those whose last strong reference went are gone. -/
  arcs : ℕ → Option (Arc K)
  /-- The next segment in memory is this one. -/
  next : ℕ

/-- The atomic actions on a store. -/
inductive StoreOp (K : Kernels)
  /-- `write_atomic` on a segment's path -/
  | replaceFile (id : SegmentId) (bytes : Slice)
  /-- `remove_file` -/
  | removeFile (id : SegmentId)
  /-- `cache.lock().remove(&id)` -/
  | uncache (id : SegmentId)
  /-- `cache.lock().get(&id).and_then(Weak::upgrade)` -/
  | upgrade (id : SegmentId)
  /-- `File::open`, mapped: a mapping outlives the name -/
  | mapFile (id : SegmentId)
  /-- `Arc::new` -/
  | newArc (segment : SealedSegment K)
  /-- `cache.lock().insert(id, Arc::downgrade(&segment))` -/
  | insertWeak (id : SegmentId) (handle : ℕ)
  /-- a strong reference dropped -/
  | release (handle : ℕ)

/-- What an action answers. -/
@[reducible] def StoreOp.Ret {K : Kernels} : StoreOp K → Type
  | replaceFile .. => Unit
  | removeFile _ => Unit
  | uncache _ => Unit
  | upgrade _ => Option (ℕ × SealedSegment K)
  | mapFile _ => Option Slice
  | newArc _ => ℕ
  | insertWeak .. => Unit
  | release _ => Unit

/-- The interface of a store. -/
@[reducible] def storeInterface (K : Kernels) : Interface := ⟨StoreOp K, StoreOp.Ret⟩

/-- A call on a store. -/
abbrev StoreProg (K : Kernels) := Prog (storeInterface K)

variable {K : Kernels}

namespace SegmentStore

/-- `SegmentStore::new`, over a directory with these files. -/
def new (files : SegmentId → Option Slice) : SegmentStore K :=
  ⟨files, fun _ => none, fun _ => none, 0⟩

/-- Performs one action. -/
abbrev perform (o : StoreOp K) : StoreProg K o.Ret := @Prog.perform (storeInterface K) o

/-- What an action does. -/
def step : Handler (storeInterface K) (SegmentStore K)
  | _, .replaceFile id bytes, s =>
    some ((), { s with files := Function.update s.files id (some bytes) })
  | _, .removeFile id, s => some ((), { s with files := Function.update s.files id none })
  | _, .uncache id, s => some ((), { s with cache := Function.update s.cache id none })
  | _, .upgrade id, s =>
    match s.cache id with
    | none => some (none, s)
    | some handle =>
      match s.arcs handle with
      | none => some (none, s)
      | some arc => some (some (handle, arc.segment),
          { s with
            arcs := Function.update s.arcs handle (some { arc with strong := arc.strong + 1 }) })
  | _, .mapFile id, s => some (s.files id, s)
  | _, .newArc segment, s => some (s.next,
      { s with arcs := Function.update s.arcs s.next (some ⟨segment, 1⟩), next := s.next + 1 })
  | _, .insertWeak id handle, s =>
    some ((), { s with cache := Function.update s.cache id (some handle) })
  | _, .release handle, s =>
    match s.arcs handle with
    | none => none
    | some arc => some ((),
        { s with
          arcs := Function.update s.arcs handle
            (if arc.strong ≤ 1 then none else some { arc with strong := arc.strong - 1 }) })

variable (C : SegmentCodec) (crc32 : List UInt8 → UInt32) (checks : Bool)

/-- The bytes of a segment's file. -/
def segmentBytes (segment : SealedSegment K) : List UInt8 :=
  writeAtomicBytes crc32 .segment segmentFormatVersion (encodeSegment C segment)

/-- `write_sealed`.  No file is longer than a slice can be. -/
def writeSealed (segment : SealedSegment K) : StoreProg K (Except StoreError Unit) := do
  if h : (segmentBytes C crc32 segment).length < 2 ^ 63 then
    perform (.replaceFile segment.id ⟨segmentBytes C crc32 segment, h⟩)
    return .ok ()
  else
    return .error (.io (segmentPath segment.id))

/-- `remove` -/
def remove (id : SegmentId) : StoreProg K Unit := do
  perform (.removeFile id)
  perform (.uncache id)

/-- What `load` makes of a mapped file. -/
def readSegment (K : Kernels) (id : SegmentId) (bytes : Slice) :
    Except StoreError (SealedSegment K) :=
  match (parseFramed crc32 checks (segmentPath id) bytes).run with
  | none => .error .aborted
  | some (.error e) => .error (.frame e)
  | some (.ok view) =>
    if segmentFormatVersion < view.formatVersion then
      .error (.unsupportedVersion (segmentPath id) view.formatVersion segmentFormatVersion)
    else (decodeSegment C K id view.payload).mapError .decode

/-- `load`: the caller holds a strong reference to what it returns. -/
def load (id : SegmentId) : StoreProg K (Except StoreError (ℕ × SealedSegment K)) := do
  match ← perform (.upgrade id) with
  | some existing => return .ok existing
  | none =>
    match ← perform (.mapFile id) with
    | none => return .error (.io (segmentPath id))
    | some bytes =>
      match readSegment C crc32 checks K id bytes with
      | .error e => return .error e
      | .ok segment =>
        let handle ← perform (.newArc segment)
        perform (.insertWeak id handle)
        return .ok (handle, segment)

end SegmentStore

/-! ## Round trip -/

section

variable {C : SegmentCodec} {crc32 : List UInt8 → UInt32} {checks : Bool}

/-- A segment that can be stored: what sealing makes, of sizes that fit. -/
structure SealedSegment.Storable (C : SegmentCodec) (crc32 : List UInt8 → UInt32)
    (seg : SealedSegment K) : Prop where
  /-- What is rebuilt on decoding is what it holds. -/
  intact : seg.Intact
  /-- The dimensionality fits. -/
  dim : seg.index.vectors.dim < 2 ^ 32
  /-- The configuration fits. -/
  config : seg.index.config.Fits
  /-- So does the file. -/
  fits : (SegmentStore.segmentBytes C crc32 seg).length < 2 ^ 63

/-- **What sealing makes can be stored.** -/
theorem AppendableSegment.Seals.storable {s : AppendableSegment} {id : SegmentId}
    {config : HnswConfig} {lv : Levels s.vectors.count} {seg : SealedSegment K}
    (h : s.Seals id config lv seg) (hs : s.ids = .fromGlobalIds s.ids.localToGlobal)
    (hdim : s.vectors.dim < 2 ^ 32) (hconfig : config.Fits)
    (hfits : (SegmentStore.segmentBytes C crc32 seg).length < 2 ^ 63) :
    seg.Storable C crc32 := by
  obtain ⟨rfl, hvectors, hintact⟩ := h.intact hs seg.index.deleted
  exact ⟨hintact, hvectors ▸ hdim, hconfig, hfits⟩

/-- **A segment is read back from its file.** -/
theorem SealedSegment.Storable.readSegment {seg : SealedSegment K} (h : seg.Storable C crc32)
    {bytes : Slice} (hb : bytes.bytes = SegmentStore.segmentBytes C crc32 seg) :
    SegmentStore.readSegment C crc32 checks K seg.id bytes = .ok seg := by
  rw [SegmentStore.readSegment, parseFramed_frameBytes hb]
  change (if segmentFormatVersion < segmentFormatVersion then _ else _) = _
  rw [if_neg (by decide), h.intact.decode C h.dim h.config]
  rfl

end

/-! ## Callers -/

/-- A call on a store; a reference dropped is one too. -/
inductive StoreCall (K : Kernels)
  | write (segment : SealedSegment K)
  | load (id : SegmentId)
  | remove (id : SegmentId)
  | release (handle : ℕ)

/-- What a load answered. -/
abbrev Loaded (K : Kernels) := SegmentId × Except StoreError (ℕ × SealedSegment K)

/-- Calls one after another; what the loads among them answered. -/
def StoreCall.progs (C : SegmentCodec) (crc32 : List UInt8 → UInt32) (checks : Bool) :
    List (StoreCall K) → StoreProg K (List (Loaded K))
  | [] => return []
  | .write segment :: calls => do
    let _ ← SegmentStore.writeSealed C crc32 segment
    progs C crc32 checks calls
  | .load id :: calls => do
    let answer ← SegmentStore.load C crc32 checks id
    let answers ← progs C crc32 checks calls
    return (id, answer) :: answers
  | .remove id :: calls => do
    SegmentStore.remove id
    progs C crc32 checks calls
  | .release handle :: calls => do
    SegmentStore.perform (.release handle)
    progs C crc32 checks calls

/-- The call writes only the segment that belongs to its id, and removes none that is kept. -/
def StoreCall.Obeys (G : SegmentId → SealedSegment K) (kept : Set SegmentId) : StoreCall K → Prop
  | write segment => segment = G segment.id
  | remove id => id ∉ kept
  | _ => True

/-! ## Coherence -/

namespace SegmentStore

variable {C : SegmentCodec} {crc32 : List UInt8 → UInt32} {checks : Bool}
  {G : SegmentId → SealedSegment K} {kept : Set SegmentId} {s s' : SegmentStore K} {t : ℕ}
  {α : Type}

/-- Every file and every cached segment is the one that belongs to its id. -/
structure Coherent (C : SegmentCodec) (crc32 : List UInt8 → UInt32)
    (G : SegmentId → SealedSegment K) (kept : Set SegmentId) (s : SegmentStore K) : Prop where
  /-- The files. -/
  files : ∀ id bytes, s.files id = some bytes → bytes.bytes = segmentBytes C crc32 (G id)
  /-- The cache. -/
  cached : ∀ id handle, s.cache id = some handle → handle < s.next ∧
    ∀ arc, s.arcs handle = some arc → arc.segment = G id
  /-- Handles are given out once. -/
  fresh : ∀ handle, s.next ≤ handle → s.arcs handle = none
  /-- The files that are kept are there. -/
  kept : ∀ id ∈ kept, (s.files id).isSome

/-- What a caller relies on: a segment in memory stays what it is, or goes. -/
def Holds (_ : ℕ) (s s' : SegmentStore K) : Prop :=
  s.next ≤ s'.next ∧ ∀ handle < s.next, ∀ arc', s'.arcs handle = some arc' →
    ∃ arc, s.arcs handle = some arc ∧ arc'.segment = arc.segment

theorem holds_refl (t : ℕ) (s : SegmentStore K) : Holds t s s :=
  ⟨le_rfl, fun _ _ arc h => ⟨arc, h, rfl⟩⟩

theorem holds_trans (t : ℕ) (s s' s'' : SegmentStore K) (h : Holds t s s') (h' : Holds t s' s'') :
    Holds t s s'' := by
  refine ⟨h.1.trans h'.1, fun handle hlt arc'' harc'' => ?_⟩
  obtain ⟨arc', harc', heq'⟩ := h'.2 handle (hlt.trans_le h.1) arc'' harc''
  obtain ⟨arc, harc, heq⟩ := h.2 handle hlt arc' harc'
  exact ⟨arc, harc, heq'.trans heq⟩

theorem coherent_new {files : SegmentId → Option Slice}
    (hfiles : ∀ id bytes, files id = some bytes → bytes.bytes = segmentBytes C crc32 (G id))
    (hkept : ∀ id ∈ kept, (files id).isSome) : (new files).Coherent C crc32 G kept :=
  ⟨hfiles, fun _ _ h => (by cases h), fun _ _ => rfl, hkept⟩

/-- An action on the files. -/
theorem Coherent.setFiles (h : s.Coherent C crc32 G kept) {files : SegmentId → Option Slice}
    (hfiles : ∀ id bytes, files id = some bytes → bytes.bytes = segmentBytes C crc32 (G id))
    (hkept : ∀ id ∈ kept, (files id).isSome) : Coherent C crc32 G kept { s with files := files } :=
  ⟨hfiles, h.cached, h.fresh, hkept⟩

/-- **A count that changes, or a segment that goes**: what is left holds what it held. -/
theorem Coherent.setArc (h : s.Coherent C crc32 G kept) {handle : ℕ} {arc : Arc K}
    (harc : s.arcs handle = some arc) {o : Option (Arc K)}
    (ho : ∀ arc', o = some arc' → arc'.segment = arc.segment) :
    Coherent C crc32 G kept { s with arcs := Function.update s.arcs handle o } ∧
      Holds t s { s with arcs := Function.update s.arcs handle o } := by
  have hset : ∀ i arc', Function.update s.arcs handle o i = some arc' →
      ∃ arc, s.arcs i = some arc ∧ arc'.segment = arc.segment := by
    intro i arc' hi
    by_cases he : i = handle
    · subst he
      rw [Function.update_self] at hi
      exact ⟨arc, harc, ho arc' hi⟩
    · rw [Function.update_of_ne he] at hi
      exact ⟨arc', hi, rfl⟩
  refine ⟨⟨h.files, fun id i hi => ?_, fun i hi => ?_, h.kept⟩,
    le_rfl, fun i _ arc' harc' => hset i arc' harc'⟩
  · obtain ⟨hlt, hall⟩ := h.cached id i hi
    refine ⟨hlt, fun arc' harc' => ?_⟩
    obtain ⟨arc, harc, heq⟩ := hset i arc' harc'
    exact heq.trans (hall arc harc)
  · have hne : i ≠ handle := fun he => by cases (h.fresh i hi).symm.trans (he ▸ harc)
    exact (Function.update_of_ne hne ..).trans (h.fresh i hi)

/-- **A new segment in memory** is behind no reference yet. -/
theorem Coherent.newArc (h : s.Coherent C crc32 G kept) (segment : SealedSegment K) :
    Coherent C crc32 G kept { s with
      arcs := Function.update s.arcs s.next (some ⟨segment, 1⟩), next := s.next + 1 } ∧
    Holds t s { s with
      arcs := Function.update s.arcs s.next (some ⟨segment, 1⟩), next := s.next + 1 } := by
  have hold : ∀ i < s.next, Function.update s.arcs s.next (some ⟨segment, 1⟩) i = s.arcs i :=
    fun i hi => Function.update_of_ne hi.ne ..
  refine ⟨⟨h.files, fun id i hi => ?_, fun i hi => ?_, h.kept⟩, Nat.le_succ _,
    fun i hi arc harc => ⟨arc, (hold i hi).symm.trans harc, rfl⟩⟩
  · obtain ⟨hlt, hall⟩ := h.cached id i hi
    exact ⟨hlt.trans (Nat.lt_succ_self _), fun arc harc => hall arc ((hold i hlt).symm.trans harc)⟩
  · exact (Function.update_of_ne (Nat.lt_of_succ_le hi).ne' ..).trans
      (h.fresh i ((Nat.le_succ _).trans hi))

/-- **Caching** a reference to a segment that belongs to the id. -/
theorem Coherent.insertWeak (h : s.Coherent C crc32 G kept) {id : SegmentId} {handle : ℕ}
    (hlt : handle < s.next) (hall : ∀ arc, s.arcs handle = some arc → arc.segment = G id) :
    Coherent C crc32 G kept { s with cache := Function.update s.cache id (some handle) } := by
  refine ⟨h.files, fun i handle' hi => ?_, h.fresh, h.kept⟩
  by_cases he : i = id
  · subst he
    have hi : Function.update s.cache i (some handle) i = some handle' := hi
    rw [Function.update_self] at hi
    cases hi
    exact ⟨hlt, hall⟩
  · have hi : Function.update s.cache id (some handle) i = some handle' := hi
    rw [Function.update_of_ne he] at hi
    exact h.cached i handle' hi

theorem Coherent.uncache (h : s.Coherent C crc32 G kept) (id : SegmentId) :
    Coherent C crc32 G kept { s with cache := Function.update s.cache id none } := by
  refine ⟨h.files, fun i handle hi => ?_, h.fresh, h.kept⟩
  by_cases he : i = id
  · subst he
    cases (Function.update_self i none s.cache).symm.trans hi
  · exact h.cached i handle ((Function.update_of_ne he ..).symm.trans hi)

/-! ## Each call -/

/-- A caller's duty, and what it learns. -/
abbrev Triple (C : SegmentCodec) (crc32 : List UInt8 → UInt32) (G : SegmentId → SealedSegment K)
    (kept : Set SegmentId) (t : ℕ) (A : SegmentStore K → Prop) (p : StoreProg K α)
    (Q : α → SegmentStore K → Prop) : Prop :=
  Machinery.Triple step Config.anyOrder (Coherent C crc32 G kept) Holds t A p Q

theorem stable_fact {φ : Prop} : Stable (Coherent C crc32 G kept) Holds t fun _ => φ :=
  fun _ _ _ h _ _ => h

/-- The segment behind a handle is the one that belongs to the id, or gone. -/
def Behind (G : SegmentId → SealedSegment K) (id : SegmentId) (handle : ℕ) (s : SegmentStore K) :
    Prop :=
  handle < s.next ∧ ∀ arc, s.arcs handle = some arc → arc.segment = G id

theorem stable_behind (id : SegmentId) (handle : ℕ) :
    Stable (Coherent C crc32 G kept) Holds t (Behind G id handle) := by
  rintro s s' - ⟨hlt, hall⟩ hr -
  refine ⟨hlt.trans_le hr.1, fun arc' harc' => ?_⟩
  obtain ⟨arc, harc, heq⟩ := hr.2 handle hlt arc' harc'
  exact heq.trans (hall arc harc)

theorem triple_writeSealed {segment : SealedSegment K} (h : segment = G segment.id) :
    Triple C crc32 G kept t (fun _ => True) (writeSealed C crc32 segment) fun _ _ => True := by
  unfold writeSealed
  split
  · rename_i hlen
    refine .act stable_fact (M := fun _ _ => True) (fun s r s' hI _ _ hs => ?_) fun _ =>
      .ret stable_fact fun _ _ _ => trivial
    cases hs
    refine ⟨hI.setFiles (fun id bytes hb => ?_) (fun id hid => ?_), fun u _ => holds_refl u _,
      trivial⟩
    · by_cases he : id = segment.id
      · subst he
        cases (Function.update_self ..).symm.trans hb
        exact congrArg (segmentBytes C crc32) h
      · exact hI.files id bytes ((Function.update_of_ne he ..).symm.trans hb)
    · by_cases he : id = segment.id
      · subst he
        rw [Function.update_self]
        rfl
      · rw [Function.update_of_ne he]
        exact hI.kept id hid
  · exact .ret stable_fact fun _ _ _ => trivial

theorem triple_remove {id : SegmentId} (h : id ∉ kept) :
    Triple C crc32 G kept t (fun _ => True) (remove id) fun _ _ => True := by
  refine .act stable_fact (M := fun _ _ => True) (fun s r s' hI _ _ hs => ?_) fun _ =>
    .act stable_fact (M := fun _ _ => True) (fun s r s' hI _ _ hs => ?_) fun _ =>
    .ret stable_fact fun _ _ _ => trivial
  · cases hs
    refine ⟨hI.setFiles (fun i bytes hb => ?_) (fun i hi => ?_), fun u _ => holds_refl u _, trivial⟩
    · by_cases he : i = id
      · subst he
        cases (Function.update_self i none s.files).symm.trans hb
      · exact hI.files i bytes ((Function.update_of_ne he ..).symm.trans hb)
    · rw [Function.update_of_ne fun he => h (by rwa [← he])]
      exact hI.kept i hi
  · cases hs
    exact ⟨hI.uncache id, fun u _ => holds_refl u _, trivial⟩

theorem triple_release (handle : ℕ) :
    Triple C crc32 G kept t (fun _ => True) (perform (.release handle)) fun _ _ => True := by
  refine .act stable_fact (M := fun _ _ => True) (fun s r s' hI _ _ hs => ?_) fun _ =>
    .ret stable_fact fun _ _ _ => trivial
  rw [step] at hs
  split at hs
  · cases hs
  · rename_i arc harc
    cases hs
    have hsame : ∀ arc', (if arc.strong ≤ 1 then none
        else some { arc with strong := arc.strong - 1 } : Option (Arc K)) = some arc' →
        arc'.segment = arc.segment := by
      intro arc' h
      split at h
      · cases h
      · cases h
        rfl
    exact ⟨(hI.setArc (t := t) harc hsame).1, fun u _ => (hI.setArc harc hsame).2, trivial⟩

/-- What a load of the segment may answer. -/
def Answers (G : SegmentId → SealedSegment K) (kept : Set SegmentId) (id : SegmentId) :
    Except StoreError (ℕ × SealedSegment K) → Prop
  | .ok existing => existing.2 = G id
  | .error e => e = .io (segmentPath id) ∧ id ∉ kept

/-- **A load**: the reference is upgraded, or the file is decoded and cached. -/
theorem triple_load (hG : ∀ id, (G id).id = id ∧ (G id).Storable C crc32) (id : SegmentId) :
    Triple C crc32 G kept t (fun _ => True) (load C crc32 checks id)
      fun answer _ => Answers G kept id answer := by
  refine .act stable_fact (M := fun r _ => ∀ existing, r = some existing → existing.2 = G id) ?_
    fun r => ?_
  · intro s r s' hI _ _ hs
    rw [step] at hs
    split at hs
    · cases hs
      exact ⟨hI, fun u _ => holds_refl u _, nofun⟩
    · rename_i handle hcache
      split at hs
      · cases hs
        exact ⟨hI, fun u _ => holds_refl u _, nofun⟩
      · rename_i arc harc
        cases hs
        have hset (u : ℕ) := hI.setArc (t := u) harc
          (o := some { arc with strong := arc.strong + 1 }) (fun arc' h => by cases h; rfl)
        refine ⟨(hset t).1, fun u _ => (hset u).2, fun existing h => ?_⟩
        cases h
        exact (hI.cached id handle hcache).2 arc harc
  cases r with
  | some existing => exact .ret stable_fact fun _ _ h => h existing rfl
  | none =>
    refine .conseq (.act (P := fun _ => True) stable_fact (M := fun r _ =>
      (r = none → id ∉ kept) ∧ ∀ bytes : Slice, r = some bytes →
        bytes.bytes = segmentBytes C crc32 (G id)) (fun s r s' hI _ _ hs => ?_) fun r => ?_)
      (fun _ _ _ => trivial) fun _ _ _ h => h
    · cases hs
      refine ⟨hI, fun u _ => holds_refl u _, fun hnone hmem => ?_, hI.files id⟩
      have hsome := hI.kept id hmem
      rw [hnone] at hsome
      cases hsome
    cases r with
    | none => exact .ret stable_fact fun _ _ h => ⟨rfl, h.1 rfl⟩
    | some bytes =>
      have hread (hb : bytes.bytes = segmentBytes C crc32 (G id)) :
          readSegment C crc32 checks K id bytes = .ok (G id) := by
        obtain ⟨hid, hstor⟩ := hG id
        have h := @SealedSegment.Storable.readSegment K C crc32 checks (G id) hstor bytes hb
        rwa [hid] at h
      refine .conseq (.of_pure (P := fun _ => True) fun hb => ?_)
        (fun _ _ h => ⟨h.2 bytes rfl, trivial⟩) fun _ _ _ h => h
      dsimp only [Prog.bind]
      rw [hread hb]
      refine .act stable_fact (M := fun handle s => Behind G id handle s)
        (fun s r s' hI _ _ hs => ?_) fun handle =>
        .act (stable_behind id handle) (M := fun _ _ => True) (fun s r s' hI hbehind _ hs => ?_)
          fun _ => .ret stable_fact fun _ _ _ => rfl
      · cases hs
        refine ⟨(hI.newArc (t := t) (G id)).1, fun u _ => (hI.newArc (G id)).2,
          Nat.lt_succ_self _, fun arc harc => ?_⟩
        cases (Function.update_self ..).symm.trans harc
        rfl
      · cases hs
        exact ⟨hI.insertWeak hbehind.1 hbehind.2, fun u _ => holds_refl u _, trivial⟩

theorem triple_progs (hG : ∀ id, (G id).id = id ∧ (G id).Storable C crc32)
    (calls : List (StoreCall K)) (hcalls : ∀ k ∈ calls, k.Obeys G kept) :
    Triple C crc32 G kept t (fun _ => True) (StoreCall.progs C crc32 checks calls)
      fun answers _ => ∀ a ∈ answers, Answers G kept a.1 a.2 := by
  induction calls with
  | nil => exact .ret stable_fact fun _ _ _ a h => by cases h
  | cons k calls ih =>
    have ih := ih fun k hk => hcalls k (List.mem_cons_of_mem _ hk)
    have hk := hcalls k List.mem_cons_self
    cases k with
    | write segment => exact .bind (holds_refl t) (triple_writeSealed hk) fun _ => ih
    | remove id => exact .bind (holds_refl t) (triple_remove hk) fun _ => ih
    | release handle => exact .bind (holds_refl t) (triple_release handle) fun _ => ih
    | load id =>
      refine .bind (holds_refl t) (triple_load hG id) fun answer =>
        .conseq (.of_pure (P := fun _ => True) fun hanswer => ?_) (fun _ _ h => ⟨h, trivial⟩)
          fun _ _ _ h => h
      refine .bind (holds_refl t) ih fun answers => .ret stable_fact fun _ _ hanswers => ?_
      exact List.forall_mem_cons.mpr ⟨hanswer, hanswers⟩

end SegmentStore

/-- **A load returns the segment that was written.**  In any interleaving of writes, loads, removals
and releases of references on one store, where each id is only ever written with one segment: a load
that succeeds returns that segment, from the cache or from the file; and it fails only for want of
the file, never if nobody removes it. -/
theorem loads_written {C : SegmentCodec} {crc32 : List UInt8 → UInt32} (checks : Bool)
    {G : SegmentId → SealedSegment K} (hG : ∀ id, (G id).id = id ∧ (G id).Storable C crc32)
    {files : SegmentId → Option Slice}
    (hfiles : ∀ id bytes, files id = some bytes →
      bytes.bytes = SegmentStore.segmentBytes C crc32 (G id))
    {calls : ℕ → List (StoreCall K)}
    (hwrites : ∀ t segment, .write segment ∈ calls t → segment = G segment.id)
    {x : Config (storeInterface K) (SegmentStore K) (List (Loaded K))}
    (hsteps : Config.Steps SegmentStore.step Config.anyOrder
      ⟨.new files, fun t => StoreCall.progs C crc32 checks (calls t)⟩ x)
    {t : ℕ} {answers : List (Loaded K)} (ha : x.pool t = .ret answers) {id : SegmentId}
    {answer : Except StoreError (ℕ × SealedSegment K)} (hmem : (id, answer) ∈ answers) :
    (∀ existing, answer = .ok existing → existing.2 = G id) ∧
      ∀ e, answer = .error e → e = .io (segmentPath id) ∧
        ((files id).isSome → ∃ u, .remove id ∈ calls u) := by
  obtain ⟨kept, hkept⟩ : ∃ kept : Set SegmentId,
      ∀ id, id ∈ kept ↔ (files id).isSome ∧ ∀ u, .remove id ∉ calls u := ⟨_, fun _ => Iff.rfl⟩
  have hobeys : ∀ t, ∀ k ∈ calls t, k.Obeys G kept := by
    intro t k hk
    cases k with
    | write segment => exact hwrites t segment hk
    | remove id => exact fun hid => ((hkept id).mp hid).2 t hk
    | load id => trivial
    | release handle => trivial
  have hstart : (SegmentStore.new files).Coherent C crc32 G kept :=
    SegmentStore.coherent_new hfiles fun id hid => ((hkept id).mp hid).1
  have hsafe : Config.Safe SegmentStore.step Config.anyOrder
      (SegmentStore.Coherent C crc32 G kept) SegmentStore.Holds
      (fun _ answers _ => ∀ a ∈ answers, SegmentStore.Answers G kept a.1 a.2) x := by
    refine Config.safe_of_steps SegmentStore.holds_refl SegmentStore.holds_trans
      ⟨hstart, fun t => ?_⟩ hsteps
    exact SegmentStore.triple_progs hG (calls t) (hobeys t) _ hstart trivial
  have hanswer := hsafe.returned SegmentStore.holds_refl ha (id, answer) hmem
  constructor
  · rintro existing rfl
    exact hanswer
  · rintro e rfl
    refine ⟨hanswer.1, fun hfile => ?_⟩
    by_contra hno
    exact hanswer.2 ((hkept id).mpr ⟨hfile, fun u hu => hno ⟨u, hu⟩⟩)

/-! ## A load -/

/-- A load by itself, of a segment that is not cached. -/
theorem SegmentStore.run_load {C : SegmentCodec} {crc32 : List UInt8 → UInt32} {checks : Bool}
    {s : SegmentStore K} {t : ℕ} {id : SegmentId} {bytes : Slice} {segment : SealedSegment K}
    (hcache : s.cache id = none) (hfile : s.files id = some bytes)
    (hread : readSegment C crc32 checks K id bytes = .ok segment) :
    run step t (load C crc32 checks id) s = some (.ok (s.next, segment), { s with
      arcs := Function.update s.arcs s.next (some ⟨segment, 1⟩)
      next := s.next + 1
      cache := Function.update s.cache id (some s.next) }) := by
  have hup : step t (.upgrade id) s = some (none, s) := by rw [step, hcache]
  have hmap : step t (.mapFile id) s = some (some bytes, s) :=
    congrArg (fun o => some (o, s)) hfile
  refine (run_perform_bind hup).trans ((run_perform_bind hmap).trans ?_)
  dsimp only
  rw [hread]
  exact (run_perform_bind rfl).trans (run_perform_bind rfl)

/-- A load by itself, of a segment that is cached and still in memory. -/
theorem SegmentStore.run_load_cached {C : SegmentCodec} {crc32 : List UInt8 → UInt32}
    {checks : Bool} {s : SegmentStore K} {t : ℕ} {id : SegmentId} {handle : ℕ} {arc : Arc K}
    (hcache : s.cache id = some handle) (harc : s.arcs handle = some arc) :
    run step t (load C crc32 checks id) s = some (.ok (handle, arc.segment), { s with
      arcs := Function.update s.arcs handle (some { arc with strong := arc.strong + 1 }) }) := by
  have hup : step t (.upgrade id) s = some (some (handle, arc.segment), { s with
      arcs := Function.update s.arcs handle (some { arc with strong := arc.strong + 1 }) }) := by
    simp only [step, hcache, harc]
  exact (run_perform_bind hup).trans rfl

/-- A load by itself, of a segment that is neither cached nor on disk. -/
theorem SegmentStore.run_load_missing {C : SegmentCodec} {crc32 : List UInt8 → UInt32}
    {checks : Bool} {s : SegmentStore K} {t : ℕ} {id : SegmentId} (hcache : s.cache id = none)
    (hfile : s.files id = none) :
    run step t (load C crc32 checks id) s = some (.error (.io (segmentPath id)), s) := by
  have hup : step t (.upgrade id) s = some (none, s) := by rw [step, hcache]
  have hmap : step t (.mapFile id) s = some (none, s) := congrArg (fun o => some (o, s)) hfile
  refine (run_perform_bind hup).trans ((run_perform_bind hmap).trans ?_)
  rfl

/-- A removal by itself. -/
theorem SegmentStore.run_remove (s : SegmentStore K) (t : ℕ) (id : SegmentId) :
    run step t (remove id) s = some ((), { s with
      files := Function.update s.files id none
      cache := Function.update s.cache id none }) := rfl

/-- A segment of one row that can be stored, whatever its id. -/
theorem exists_storable : ∃ G : SegmentId → SealedSegment Sample.kernels,
    ∀ id, (G id).id = id ∧ (G id).Storable codecSample fun _ => 0 := by
  let s : AppendableSegment := ⟨⟨[0], 1, .dot, 1, by decide, rfl⟩, .fromGlobalIds [7]⟩
  let lv : Levels s.vectors.count := ⟨[0], rfl, by decide, by decide⟩
  obtain ⟨ix, hix, hdata⟩ : ∃ ix : HnswIndex Sample.kernels,
      HnswIndex.build s.vectors oneRowConfig lv = some ix ∧
        ∀ id, (⟨id, ix, s.ids⟩ : SealedSegment _).data = oneRow := by
    refine ⟨_, rfl, fun id => ?_⟩
    have hsort : (∅ : Finset ℕ).sort (· ≤ ·) = [] := Finset.sort_empty _
    simp only [SealedSegment.data, HnswIndex.ofGraph, hsort]
    rfl
  have hbytes (id : SegmentId) : SegmentStore.segmentBytes codecSample (fun _ => 0)
      (⟨id, ix, s.ids⟩ : SealedSegment Sample.kernels) =
        writeAtomicBytes (fun _ => 0) .segment segmentFormatVersion oneRowBytes := by
    rw [SegmentStore.segmentBytes, encodeSegment, hdata]
    exact congrArg _ (if_pos rfl)
  refine ⟨fun id => ⟨id, ix, s.ids⟩, fun id => ⟨rfl, ?_⟩⟩
  have hseals : s.Seals id oneRowConfig lv (⟨id, ix, s.ids⟩ : SealedSegment Sample.kernels) :=
    ⟨by rw [HnswIndex.BuiltParallel, if_pos (by decide)]; exact hix, rfl, rfl⟩
  exact hseals.storable rfl (by decide) ⟨by decide, by decide, by decide, by decide⟩
    (by rw [hbytes]; decide)

/-- One caller loads and removes the segment, the other loads it twice. -/
def twoCallers : ℕ → List (StoreCall Sample.kernels)
  | 0 => [.load 5, .remove 5]
  | 1 => [.load 5, .load 5]
  | _ => []

/-- A store with one file: the first caller decodes it, the second finds it in the cache, and once
the first has removed it the second is told so. -/
theorem loads_written_sample : ∃ (G : SegmentId → SealedSegment Sample.kernels)
    (files : SegmentId → Option Slice) (x : Config _ _ _) (handle handle' : ℕ)
    (segment segment' : SealedSegment _) (e : StoreError),
    Config.Steps SegmentStore.step Config.anyOrder ⟨.new files, fun t =>
      StoreCall.progs codecSample (fun _ => 0) true (twoCallers t)⟩ x ∧
    x.pool 0 = .ret [(5, .ok (handle, segment))] ∧
    x.pool 1 = .ret [(5, .ok (handle', segment')), (5, .error e)] ∧
    segment = G 5 ∧ segment' = G 5 ∧ e = .io (segmentPath 5) ∧
      ((files 5).isSome → ∃ u, .remove 5 ∈ twoCallers u) := by
  obtain ⟨G, hG⟩ := exists_storable
  let bytes : Slice := ⟨_, (hG 5).2.fits⟩
  let files : SegmentId → Option Slice := Function.update (fun _ => none) 5 (some bytes)
  have hread := @SealedSegment.Storable.readSegment _ _ _ true (G 5) (hG 5).2 bytes rfl
  rw [(hG 5).1] at hread
  have hfile : files 5 = some bytes := Function.update_self ..
  obtain ⟨s₁, hload, hcache, harc⟩ : ∃ s₁ : SegmentStore Sample.kernels,
      run SegmentStore.step 0 (SegmentStore.load codecSample (fun _ => 0) true 5) (.new files) =
        some (.ok (0, G 5), s₁) ∧ s₁.cache 5 = some 0 ∧ s₁.arcs 0 = some ⟨G 5, 1⟩ :=
    ⟨_, SegmentStore.run_load rfl hfile hread, rfl, rfl⟩
  obtain ⟨s₂, hcached⟩ : ∃ s₂, run SegmentStore.step 1
      (SegmentStore.load codecSample (fun _ => 0) true 5) s₁ = some (.ok (0, G 5), s₂) :=
    ⟨_, SegmentStore.run_load_cached hcache harc⟩
  obtain ⟨s₃, hremove, hcache, hgone⟩ : ∃ s₃ : SegmentStore Sample.kernels,
      run SegmentStore.step 0 (SegmentStore.remove 5) s₂ = some ((), s₃) ∧
        s₃.cache 5 = none ∧ s₃.files 5 = none :=
    ⟨_, SegmentStore.run_remove s₂ 0 5, rfl, rfl⟩
  have hmissing := @SegmentStore.run_load_missing _ codecSample (fun _ => 0) true s₃ 1 5 hcache
    hgone
  obtain ⟨os₁, hst₁⟩ := run_eq_some_iff.mp hload
  obtain ⟨os₂, hst₂⟩ := run_eq_some_iff.mp hcached
  obtain ⟨os₃, hst₃⟩ := run_eq_some_iff.mp hremove
  obtain ⟨os₄, hst₄⟩ := run_eq_some_iff.mp hmissing
  -- the second caller stands between its loads while the first removes the file
  obtain ⟨x, hsteps, hret₀, hret₁⟩ : ∃ x, Config.Steps SegmentStore.step Config.anyOrder
      ⟨.new files, fun t => StoreCall.progs codecSample (fun _ => 0) true (twoCallers t)⟩ x ∧
      x.pool 0 = .ret [(5, .ok (0, G 5))] ∧
      x.pool 1 = .ret [(5, .ok (0, G 5)), (5, .error (.io (segmentPath 5)))] := by
    refine ⟨_, (((Config.steps_of_call (t := 0) _ (hst₁.bind _)).trans
      (Config.steps_of_pool_eq (t := 1) rfl (hst₂.bind _))).trans
      (Config.steps_of_pool_eq (t := 0) rfl ((hst₃.bind _).bind _))).trans
      (Config.steps_of_pool_eq (t := 1) rfl ((hst₄.bind _).bind _)), rfl, rfl⟩
  have hfiles : ∀ id b, files id = some b →
      b.bytes = SegmentStore.segmentBytes codecSample (fun _ => 0) (G id) := by
    intro id b hb
    by_cases hid : id = 5
    · subst hid
      cases (Function.update_self ..).symm.trans hb
      rfl
    · cases (Function.update_of_ne hid ..).symm.trans hb
  have hwrites : ∀ t segment, .write segment ∈ twoCallers t → segment = G segment.id := by
    rintro (_ | _ | t) segment h <;> simp [twoCallers] at h
  have hwritten := @loads_written _ _ _ true G hG files hfiles twoCallers hwrites x hsteps
  obtain ⟨he, hremoved⟩ := (hwritten hret₁ (List.mem_cons_of_mem _ List.mem_cons_self)).2 _ rfl
  exact ⟨G, files, x, 0, 0, G 5, G 5, _, hsteps, hret₀, hret₁,
    (hwritten hret₀ List.mem_cons_self).1 _ rfl, (hwritten hret₁ List.mem_cons_self).1 _ rfl, he,
    hremoved⟩

end Vecvec.Hnsw
