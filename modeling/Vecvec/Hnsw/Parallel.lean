import Vecvec.Machinery.RelyGuarantee
import Vecvec.Hnsw.Builder

/-!
# Hnsw/Parallel — the concurrent builder

Points are inserted by many threads at once.  Each point's lists sit behind a lock of their own and
the entry behind another; a thread holds one lock at a time, so an insertion is a call made of
atomic lock sections: read the entry, copy one point's links out, merge into the point's own list,
push onto a neighbour's, raise the entry.  Searches read the graph as the other insertions leave it.
-/

namespace Vecvec.Hnsw

open Machinery

/-- What the threads share. -/
structure ConcurrentBuilder where
  /-- The links of each point on each layer. -/
  links : Links
  /-- Where searches start. -/
  entry : Option ℕ
  /-- The top layer. -/
  maxLevel : ℕ
  /-- Some thread has used an index that is out of range. -/
  panicked : Bool

/-- The lock sections of an insertion. -/
inductive BuildOp
  /-- `self.entry.read()` -/
  | readEntry
  /-- The links of a point on a layer, copied out under its lock. -/
  | readLinks (c layer : ℕ)
  /-- A point's own links: those chosen, merged with those pushed already. -/
  | mergeOwn (point layer : ℕ) (selected : List ℕ)
  /-- The reverse link, on a neighbour's list. -/
  | pushBack (nb layer point : ℕ)
  /-- `self.entry.write()`: raises the entry, unless another point has raised it as far. -/
  | raiseEntry (point level : ℕ)

/-- The lock sections and what they answer. -/
def BuildOps : Interface where
  Op := BuildOp
  Ret
    | .readEntry => Option (ℕ × ℕ)
    | .readLinks _ _ => List ℕ
    | .mergeOwn _ _ _ => Unit
    | .pushBack _ _ _ => Unit
    | .raiseEntry _ _ => Unit

/-- `if !list.contains(&s) { list.push(s) }` -/
def pushNew (list : List ℕ) (s : ℕ) : List ℕ := if s ∈ list then list else list ++ [s]

namespace ConcurrentBuilder

section

variable (config : HnswConfig) (pts : Points)

/-- `enforce_bound`: a list cut down to the degree bound. -/
def enforceBound (base layer : ℕ) (list : List ℕ) : List ℕ := shrink config pts base layer list

/-- Replaces a list, if it is there. -/
def write (s : ConcurrentBuilder) (p layer : ℕ) (list : List ℕ) : ConcurrentBuilder :=
  if p < pts.size ∧ layer ≤ pts.level p then { s with links := setLinks s.links p layer list }
  else { s with panicked := true }

/-- What a lock section does. -/
def step : Handler BuildOps ConcurrentBuilder := fun _ o s =>
  match o with
  | .readEntry => some (s.entry.map fun e => (e, s.maxLevel), s)
  | .readLinks c layer =>
    if c < pts.size then some (s.links c layer, s) else some ([], { s with panicked := true })
  | .mergeOwn point layer selected =>
    some ((), s.write pts point layer
      (enforceBound config pts point layer (selected.foldl pushNew (s.links point layer))))
  | .pushBack nb layer point =>
    some ((), s.write pts nb layer
      (enforceBound config pts nb layer (pushNew (s.links nb layer) point)))
  | .raiseEntry point level =>
    some ((), if s.maxLevel < level then { s with maxLevel := level, entry := some point } else s)

/-- The loop of `search_layer`: each point expanded has its links copied out. -/
def searchLoop (layer ef : ℕ) (dist : ℕ → F32) : ℕ → Beam → Prog BuildOps Beam
  | 0, b => .ret b
  | fuel + 1, b =>
    match b.pop ef with
    | none => .ret b
    | some (c, b) => .act (.readLinks c layer) fun nbuf =>
      searchLoop layer ef dist fuel (nbuf.foldl (Beam.visit ef dist fun _ => true) b)

/-- `search_layer` for a point; everything is admitted. -/
def searchLayer (point layer ef : ℕ) (entryPoints : List ℕ) :
    Prog BuildOps (List (F32 × ℕ)) := do
  let b ← searchLoop layer ef (pts.dist point) pts.size
    (entryPoints.foldl (Beam.enter ef (pts.dist point) fun _ => true) Beam.empty)
  return b.results

/-- `select_ids` -/
def selectIds (base : ℕ) (candidates : List (F32 × ℕ)) (m : ℕ) : List ℕ :=
  selectNeighbors pts.dist base candidates m config.keepPruned

/-- The greedy descent through the layers above the point's own. -/
def descend (point : ℕ) : List ℕ → List ℕ → Prog BuildOps (List ℕ)
  | [], ep => .ret ep
  | layer :: rest, ep => do
    let w ← searchLayer pts point layer 1 ep
    match w with
    | best :: _ => descend point rest [best.2]
    | [] => descend point rest ep

/-- One layer of the wiring, answering with the entry points of the next. -/
def connect (point layer : ℕ) (ep : List ℕ) : Prog BuildOps (List ℕ) := do
  let w ← searchLayer pts point layer config.efConstruction ep
  let selected := selectIds config pts point w (config.maxConn layer)
  Prog.perform (S := BuildOps) (.mergeOwn point layer selected)
  selected.forM fun nb => Prog.perform (S := BuildOps) (.pushBack nb layer point)
  return w.map Prod.snd

/-- All layers of the wiring. -/
def connectAll (point : ℕ) : List ℕ → List ℕ → Prog BuildOps Unit
  | [], _ => .ret ()
  | layer :: rest, ep => do
    let ep ← connect config pts point layer ep
    connectAll point rest ep

/-- `insert` once the entry has been read. -/
def insertFrom (point entry startLevel : ℕ) : Prog BuildOps Unit := do
  let level := pts.level point
  let ep ← descend pts point (layersAbove level startLevel) [entry]
  connectAll config pts point (layersDown (min level startLevel)) ep
  if startLevel < level then Prog.perform (S := BuildOps) (.raiseEntry point level) else .ret ()

/-- `insert` -/
def insert (point : ℕ) : Prog BuildOps Unit := do
  let e ← Prog.perform (S := BuildOps) .readEntry
  match e with
  | none => .ret ()
  | some (entry, startLevel) => insertFrom config pts point entry startLevel

/-- No point inserted. -/
def new : ConcurrentBuilder := ⟨fun _ _ => [], none, 0, false⟩

/-- Point 0, if there is one, is the entry. -/
def seeded : ConcurrentBuilder :=
  if pts.size = 0 then new else { new with entry := some 0, maxLevel := pts.level 0 }

/-- Every other point is inserted by a call of its own. -/
def calls (t : ℕ) : Prog BuildOps Unit :=
  if 1 ≤ t ∧ t < pts.size then insert config pts t else .ret ()

/-- `into_graph_layers` -/
def intoGraphLayers (s : ConcurrentBuilder) : GraphLayers :=
  Hnsw.intoGraphLayers pts.levels s.links s.entry s.maxLevel

/-- **`build_concurrent_graph` may leave the builder so**: under some interleaving of the
insertions, once all have returned.  `allow` restricts the interleavings. -/
def Builds (allow : ℕ → BuildOp → ConcurrentBuilder → Prop) (s : ConcurrentBuilder) : Prop :=
  ∃ pool, Config.Steps (step config pts) allow ⟨seeded pts, calls config pts⟩ ⟨s, pool⟩ ∧
    ∀ t, pool t = .ret ()

end

end ConcurrentBuilder

end Vecvec.Hnsw
