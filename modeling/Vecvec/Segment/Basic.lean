import Vecvec.Persist.Wal

/-!
# Segment/Basic — the appendable segment and the sealed ones

All writes land in one appendable segment; sealing freezes its rows under a segment id.  A row's
local id is its position, and the `IdMap` of a segment sends a global id to the position it was
pushed at last.
-/

namespace Vecvec

/-- The vector stored for a global id: the row pushed last under it. -/
def vectorOf (rows : List Row) (g : GlobalId) : Option (List F32) := rows.reverse.lookup g

/-- Whether a global id is mapped by some row. -/
def containsId (rows : List Row) (g : GlobalId) : Bool := rows.any fun r => r.1 == g

/-- The inclusive range between the ids of the first and the last row. -/
def globalIdRange (rows : List Row) : Option (GlobalId × GlobalId) :=
  match rows.head?, rows.getLast? with
  | some lo, some hi => some (min lo.1 hi.1, max lo.1 hi.1)
  | _, _ => none

/-- The mutable segment, searched by a flat scan. -/
structure AppendableSegment where
  /-- The rows, by local id. -/
  rows : List Row

/-- An immutable segment. -/
structure SealedSegment where
  /-- The segment's id. -/
  id : SegmentId
  /-- The rows, by local id. -/
  rows : List Row

/-- The immutable set of sealed segments a reader takes in one load. -/
abbrev SegmentSet := List SealedSegment

namespace Metric

/-- The stored form of a vector: normalised for cosine. -/
def stored (P : Platform) (m : Metric) (vector : List F32) : List F32 :=
  if m.requiresNormalization then P.l2Normalize vector else vector

/-- Ingesting an ingested vector again changes nothing, if normalising is idempotent. -/
theorem stored_stored {P : Platform} (hidem : ∀ v, P.l2Normalize (P.l2Normalize v) =
    P.l2Normalize v)
    (m : Metric) (v : List F32) : m.stored P (m.stored P v) = m.stored P v := by
  unfold stored
  split
  exacts [hidem v, rfl]

end Metric

namespace AppendableSegment

/-- An empty segment. -/
def new : AppendableSegment := ⟨[]⟩

/-- Appends a row. -/
def append (P : Platform) (m : Metric) (s : AppendableSegment) (id : GlobalId)
    (vector : List F32) : AppendableSegment := ⟨s.rows ++ [(id, m.stored P vector)]⟩

/-- Freezes the rows under a segment id (`seal`). -/
def sealAs (s : AppendableSegment) (id : SegmentId) : SealedSegment := ⟨id, s.rows⟩

@[simp] theorem new_rows : new.rows = [] := rfl

@[simp] theorem append_rows (P : Platform) (m : Metric) (s : AppendableSegment) (id : GlobalId)
    (v : List F32) : (s.append P m id v).rows = s.rows ++ [(id, m.stored P v)] := rfl

@[simp] theorem sealAs_id (s : AppendableSegment) (id : SegmentId) : (s.sealAs id).id = id := rfl

@[simp] theorem sealAs_rows (s : AppendableSegment) (id : SegmentId) :
    (s.sealAs id).rows = s.rows :=
  rfl

end AppendableSegment

/-- All rows of a segment set. -/
def SegmentSet.rows (segs : SegmentSet) : List Row := segs.flatMap SealedSegment.rows

@[simp] theorem SegmentSet.rows_nil : SegmentSet.rows [] = [] := rfl

@[simp] theorem SegmentSet.rows_cons (s : SealedSegment) (segs : SegmentSet) :
    SegmentSet.rows (s :: segs) = s.rows ++ SegmentSet.rows segs := rfl

@[simp] theorem SegmentSet.rows_append (a b : SegmentSet) :
    SegmentSet.rows (a ++ b) = SegmentSet.rows a ++ SegmentSet.rows b := List.flatMap_append

theorem SegmentSet.mem_rows {segs : SegmentSet} {r : Row} :
    r ∈ segs.rows ↔ ∃ s ∈ segs, r ∈ s.rows := List.mem_flatMap

/-! ## Looking a point up -/

theorem containsId_iff {rows : List Row} {g : GlobalId} :
    containsId rows g = true ↔ ∃ v, (g, v) ∈ rows := by
  simp [containsId]

theorem containsId_eq_false_iff {rows : List Row} {g : GlobalId} :
    containsId rows g = false ↔ ∀ v, (g, v) ∉ rows := by
  rw [← Bool.not_eq_true, containsId_iff, not_exists]

theorem mem_of_vectorOf {rows : List Row} {g : GlobalId} {v : List F32}
    (h : vectorOf rows g = some v) : (g, v) ∈ rows := by
  rw [vectorOf, List.lookup_eq_some_iff] at h
  obtain ⟨l₁, l₂, hl, -⟩ := h
  exact List.mem_reverse.mp (hl ▸ List.mem_append_right _ List.mem_cons_self)

theorem vectorOf_eq_none_iff {rows : List Row} {g : GlobalId} :
    vectorOf rows g = none ↔ ∀ v, (g, v) ∉ rows := by
  rw [vectorOf, List.lookup_eq_none_iff]
  simp only [List.mem_reverse, Prod.forall, bne_iff_ne, ne_eq]
  exact ⟨fun h v hv => h g v hv rfl, fun h a v hv hga => h v (hga ▸ hv)⟩

theorem isSome_vectorOf (rows : List Row) (g : GlobalId) :
    (vectorOf rows g).isSome = containsId rows g := by
  rw [Bool.eq_iff_iff, containsId_iff, Option.isSome_iff_ne_none, ne_eq, vectorOf_eq_none_iff]
  push Not
  rfl

end Vecvec
