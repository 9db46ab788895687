import Mathlib.Algebra.Ring.Nat
import Mathlib.Data.Finset.Basic
import Mathlib.Data.List.Sort

/-!
# Basic — identifiers, vectors, payloads and errors

The values every layer of the engine passes around.  A vector is a list of `f32` bit patterns: no
operation modelled here computes on its components except the floating-point kernels, which enter as
functions of the platform (`Persist/Wal`).
-/

namespace Vecvec

/-- A collection-global point id (`u64`), allocated in increasing order. -/
abbrev GlobalId := ℕ

/-- The id of an immutable segment (`u64`), allocated in increasing order. -/
abbrev SegmentId := ℕ

/-- The id of a committed version (`u64`). -/
abbrev VersionId := ℕ

/-- An `f32`, as its bit pattern. -/
abbrev F32 := BitVec 32

/-- A row of a segment: a point's global id and its stored vector. -/
abbrev Row := GlobalId × List F32

/-- A JSON number, as `serde_json` keeps it. -/
inductive Number
  | posInt (n : ℕ)
  | negInt (n : ℤ)
  | float (bits : BitVec 64)
  deriving DecidableEq

/-- A point's metadata: a JSON value. -/
inductive Payload
  | null
  | bool (b : Bool)
  | number (n : Number)
  | string (s : String)
  | array (items : List Payload)
  | object (fields : List (String × Payload))

/-- The collection's payloads, keyed by global id. -/
abbrev PayloadMap := GlobalId → Option Payload

/-- Tombstoned global ids. -/
abbrev DeletionVector := Finset GlobalId

/-- A vector-space metric. -/
inductive Metric
  | cosine
  | dot
  | euclidean
  deriving DecidableEq

namespace Metric

/-- Whether a larger raw score is a better match. -/
def higherIsBetter : Metric → Bool
  | cosine | dot => true
  | euclidean => false

/-- Whether vectors are L2-normalised at ingest. -/
def requiresNormalization : Metric → Bool
  | cosine => true
  | dot | euclidean => false

end Metric

/-- The errors of the operations modelled here. -/
inductive CoreError
  | dimensionMismatch (expected got : ℕ)
  | version (detail : String)
  | io (path : String)
  /-- The text is the decoder's own, and left out. -/
  | serialization
  /-- Not an error value of the source: an `expect` that fails, and aborts the call. -/
  | aborted (message : String)
  deriving DecidableEq

/-- The ids a `BTreeSet` collects from a list, in its (ascending) order. -/
def sortedIds (ids : List ℕ) : List ℕ := ids.dedup.insertionSort (· ≤ ·)

@[simp] theorem mem_sortedIds {ids : List ℕ} {i : ℕ} : i ∈ sortedIds ids ↔ i ∈ ids := by
  rw [sortedIds, List.mem_insertionSort, List.mem_dedup]

theorem nodup_sortedIds (ids : List ℕ) : (sortedIds ids).Nodup :=
  (List.perm_insertionSort _ _).nodup_iff.mpr ids.nodup_dedup

/-- `sort_by_key` on the global id (stable). -/
def sortById (rows : List Row) : List Row := rows.insertionSort fun a b => a.1 ≤ b.1

@[simp] theorem mem_sortById {rows : List Row} {r : Row} : r ∈ sortById rows ↔ r ∈ rows :=
  List.mem_insertionSort _

theorem sortById_perm (rows : List Row) : (sortById rows).Perm rows := List.perm_insertionSort _ _

end Vecvec
