import Mathlib.Data.Fin.VecNotation
import Mathlib.Tactic.FinCases
import Vecvec.Machinery.Locks

/-!
# Durable/Locking — the locks of a durable collection, and when its calls wait forever

A durable collection is guarded by ten small locks.  Each definition below is the locking of one
method of the source: the sections it holds them in, in order and nested as they are.  A write
batch, a checkpoint and a delete hold the log's lock all the way; below it, nearly all sections are
single.

Two reads are not: a time-travel search takes the registry and then the payloads, and a time-travel
scroll the payloads and then the registry.  Both only read, so neither keeps the other waiting, but
two writers may come in between: **calls can deadlock exactly if the locks are fair and a search and
a scroll of past versions meet a write batch** (`canDeadlock_iff`).
-/

namespace Vecvec

open Machinery

/-- The locks of a durable collection and of what it is made of. -/
inductive Lock
  /-- The log. -/
  | wal
  /-- The automatic-commit trigger. -/
  | trigger
  /-- The automatic-compaction trigger. -/
  | compaction
  /-- The ids of the segments that are on disk. -/
  | persistedSegments
  /-- The cache of the segment store. -/
  | cache
  /-- The appendable segment. -/
  | appendable
  /-- The registry of sealed segments. -/
  | allSegments
  /-- The payloads. -/
  | payloads
  /-- The commit DAG. -/
  | versions
  /-- The pool of visited lists of an index. -/
  | visitedPool
  deriving DecidableEq

namespace Sections

/-! ## The collection -/

/-- `lock()`, let go at once. -/
def lock (l : Lock) : Locking Lock := .hold .write l .skip

/-- `read()`, let go at once. -/
def read (l : Lock) : Locking Lock := .hold .read l .skip

/-- It may end here. -/
def orReturn (p : Locking Lock) : Locking Lock := .alt .skip p

/-- `insert_with_id_and_payload` -/
def insertWithIdAndPayload : Locking Lock :=
  orReturn (.seq (lock .appendable) (orReturn (lock .payloads)))

/-- `delete` -/
def deletePoint : Locking Lock := read .appendable

/-- The search of one segment, with a visited list of its pool. -/
def searchSegment : Locking Lock := .seq (lock .visitedPool) (lock .visitedPool)

/-- `search` -/
def search : Locking Lock :=
  orReturn (.hold .read .payloads (.seq (.loop searchSegment) (read .appendable)))

/-- `search_at` -/
def searchAt : Locking Lock :=
  orReturn (.seq (lock .versions)
    (orReturn (.hold .read .allSegments (.hold .read .payloads (.loop searchSegment)))))

/-- `seal` -/
def sealAppendable : Locking Lock := .seq (lock .appendable) (orReturn (lock .allSegments))

/-- `commit` -/
def commitVersion : Locking Lock := .seq sealAppendable (lock .versions)

/-- `restore` -/
def restoreVersion : Locking Lock :=
  .seq (lock .versions)
    (orReturn (.seq (read .allSegments) (.seq (lock .appendable) commitVersion)))

/-- `get_vector` -/
def getVector : Locking Lock := read .appendable

/-- `get_point` -/
def getPoint : Locking Lock := orReturn (.seq getVector (orReturn (read .payloads)))

/-- `scroll`, of the live points -/
def scroll : Locking Lock := .hold .read .payloads (read .appendable)

/-- `scroll`, as of a version -/
def scrollAt : Locking Lock :=
  .hold .read .payloads (.seq (lock .versions) (orReturn (read .allSegments)))

/-- `recommend` -/
def recommend : Locking Lock := .seq (.loop getVector) (orReturn search)

/-- `compact` -/
def compactSegments : Locking Lock := orReturn (lock .allSegments)

/-- `gc` -/
def gcVersions : Locking Lock := .seq (lock .versions) (lock .allSegments)

/-- `get_segment` -/
def getSegment : Locking Lock := read .allSegments

/-! ## The durable collection -/

/-- `persist_versions` -/
def persistVersions : Locking Lock :=
  .seq (lock .versions)
    (.seq (.loop (.seq (lock .persistedSegments)
      (orReturn (.seq getSegment (orReturn (lock .persistedSegments))))))
      (orReturn (lock .versions)))

/-- `write_batch`: what it does under the log's lock, and the automatic commit that may follow. -/
def writeBatch : Locking Lock :=
  orReturn (.seq
    (.hold .write .wal (orReturn (.seq (.loop deletePoint)
      (.seq (.loop insertWithIdAndPayload) (orReturn (.seq commitVersion persistVersions))))))
    (orReturn (.seq (lock .trigger)
      (orReturn (.seq commitVersion (.seq (lock .trigger) persistVersions))))))

/-- `delete` -/
def delete : Locking Lock := .hold .write .wal (orReturn deletePoint)

/-- `commit` -/
def commit : Locking Lock := .seq commitVersion persistVersions

/-- `restore` -/
def restore : Locking Lock := .seq restoreVersion (orReturn persistVersions)

/-- `create_tag` and `create_branch` -/
def createRef : Locking Lock := .seq (lock .versions) (orReturn persistVersions)

/-- `checkpoint` -/
def checkpoint : Locking Lock :=
  .hold .write .wal (.seq sealAppendable (.seq (lock .versions)
    (.seq (.loop (.seq getSegment (orReturn (lock .persistedSegments))))
      (orReturn (read .payloads)))))

/-- `compact` -/
def compact : Locking Lock := .seq compactSegments (orReturn checkpoint)

/-- `maybe_compact` -/
def maybeCompact : Locking Lock :=
  .seq (lock .compaction) (orReturn (.seq compact (orReturn (lock .compaction))))

/-- `gc` -/
def gc : Locking Lock :=
  .seq gcVersions (.seq (.loop (.seq (lock .cache) (lock .persistedSegments))) persistVersions)

end Sections

/-! ## Calls -/

/-- The calls on a durable collection. -/
inductive DurableCall
  | len | scroll | scrollAt | getPoint | payload | headVersion | listVersions | search | searchAt
  | recommend | diff | createTag | createBranch | upsert | writeBatch | delete | commit | restore
  | compact | maybeCompact | exportTo | gc | checkpoint
  deriving DecidableEq

namespace DurableCall

/-- The locking of a call. -/
def locking : DurableCall → Locking Lock
  | len => Sections.read .appendable
  | scroll => Sections.scroll
  | scrollAt => Sections.scrollAt
  | getPoint => Sections.getPoint
  | payload => Sections.read .payloads
  | headVersion | listVersions | diff => Sections.lock .versions
  | search => Sections.search
  | searchAt => Sections.searchAt
  | recommend => Sections.recommend
  | createTag | createBranch => Sections.createRef
  | upsert | writeBatch => Sections.writeBatch
  | delete => Sections.delete
  | commit => Sections.commit
  | restore => Sections.restore
  | compact => Sections.compact
  | maybeCompact => Sections.maybeCompact
  | exportTo | checkpoint => Sections.checkpoint
  | gc => Sections.gc

/-- Whether it writes a batch; an upsert is one without deletes. -/
def writes : DurableCall → Bool
  | upsert | writeBatch => true
  | _ => false

/-- Threads that are about to make some calls, one after the other. -/
def start {T : Type} (calls : T → List DurableCall) : Stacks T Lock :=
  fun t => (calls t).map fun call => .run call.locking

end DurableCall

/-- **Calls of some kinds can deadlock**, from any number of threads and in some interleaving. -/
def CanDeadlock (fair : Bool) (K : Set DurableCall) : Prop :=
  ∃ (n : ℕ) (calls : Fin n → List DurableCall) (c : Stacks (Fin n) Lock) (D : Set (Fin n)),
    (∀ t, ∀ call ∈ calls t, call ∈ K) ∧ Stacks.Steps fair (DurableCall.start calls) c ∧
      Deadlocked fair c D

/-! ## Orders -/

namespace Lock

/-- The log first, then the two that are read in either order, then those that are held for a
moment. -/
def rank (registry payload : ℕ) : Lock → ℕ
  | wal => 0
  | allSegments => registry
  | payloads => payload
  | versions => 3
  | appendable => 4
  | trigger | compaction | persistedSegments | cache | visitedPool => 5

theorem rank_le {registry payload : ℕ} (h : registry ≤ 9) (h' : payload ≤ 9) (l : Lock) :
    rank registry payload l ≤ 9 := by
  cases l with
  | allSegments => exact h
  | payloads => exact h'
  | _ => exact Nat.le_of_ble_eq_true rfl

theorem rank_of_ne_payloads {l : Lock} (h : l ≠ payloads) (registry payload payload' : ℕ) :
    rank registry payload l = rank registry payload' l := by
  cases l with
  | payloads => exact absurd rfl h
  | _ => rfl

/-- An order in which readers and writers are at the same place. -/
def orderOf (fair : Bool) (registry payload : ℕ) (h : registry ≤ 9) (h' : payload ≤ 9) :
    Order Lock fair where
  written _ := true
  want _ := rank registry payload
  held _ := rank registry payload
  top := 9
  want_le_top _ := rank_le h h'
  read_le _ _ := le_rfl
  write_le _ _ _ := le_rfl
  fair_le _ _ _ := le_rfl

/-- Without a time-travel scroll: the registry before the payloads. -/
def registryFirst (fair : Bool) : Order Lock fair := orderOf fair 1 2 (by decide) (by decide)

/-- Without a time-travel search: the payloads before the registry. -/
def payloadsFirst (fair : Bool) : Order Lock fair := orderOf fair 2 1 (by decide) (by decide)

/-- Without a write batch nobody writes the payloads, and they may be read under anything. -/
def payloadsUnwritten (fair : Bool) : Order Lock fair where
  written l := decide (l ≠ payloads)
  want _ := rank 2 9
  held _ := rank 2 0
  top := 9
  want_le_top _ := rank_le (by decide) le_rfl
  read_le l hl := (rank_of_ne_payloads (of_decide_eq_true hl) ..).le
  write_le _ l hl := (rank_of_ne_payloads (of_decide_eq_true hl) ..).le
  fair_le _ _ _ := le_rfl

/-- What readers want, if locks are not fair: the two that are read in either order keep only their
writers waiting, and these hold nothing else. -/
def wantUnfair : Mode → Lock → ℕ
  | .read => rank 2 2
  | .write => rank 1 1

/-- What is held, if locks are not fair. -/
def heldUnfair : Mode → Lock → ℕ
  | .read => rank 1 1
  | .write => rank 2 2

/-- Without fairness. -/
def unfair : Order Lock false where
  written _ := true
  want := wantUnfair
  held := heldUnfair
  top := 9
  want_le_top m := by cases m <;> exact rank_le (by decide) (by decide)
  read_le _ _ := le_rfl
  write_le m l _ := by cases m <;> cases l <;> decide
  fair_le h := absurd h (by decide)

end Lock

namespace DurableCall

variable {T : Type} {fair : Bool} {r : Order Lock fair} {calls : T → List DurableCall}

/-- Threads whose calls rise are sorted. -/
theorem sorted_start (h : ∀ t, ∀ call ∈ calls t, r.Rises 0 call.locking) (t : T) :
    r.Sorted (start calls t) := by
  have hsorted (l : List DurableCall) (hl : ∀ call ∈ l, r.Rises 0 call.locking) :
      r.floor (l.map fun call => Frame.run call.locking) = 0 ∧
        r.Sorted (l.map fun call => Frame.run call.locking) := by
    induction l with
    | nil => exact ⟨rfl, trivial⟩
    | cons call l ih =>
      obtain ⟨hfloor, hsort⟩ := ih fun call' h' => hl call' (List.mem_cons_of_mem _ h')
      exact ⟨hfloor, hfloor.symm ▸ hl call List.mem_cons_self, hsort⟩
  exact (hsorted (calls t) (h t)).2

theorem rises_registryFirst {call : DurableCall} (h : call ≠ .scrollAt) :
    (Lock.registryFirst fair).Rises 0 call.locking := by
  cases call with
  | scrollAt => exact absurd rfl h
  | _ => exact of_decide_eq_true rfl

theorem rises_payloadsFirst {call : DurableCall} (h : call ≠ .searchAt) :
    (Lock.payloadsFirst fair).Rises 0 call.locking := by
  cases call with
  | searchAt => exact absurd rfl h
  | _ => exact of_decide_eq_true rfl

theorem rises_payloadsUnwritten {call : DurableCall} (h : call.writes = false) :
    (Lock.payloadsUnwritten fair).Rises 0 call.locking := by
  cases call with
  | upsert => cases h
  | writeBatch => cases h
  | _ => exact of_decide_eq_true rfl

theorem rises_unfair (call : DurableCall) : Lock.unfair.Rises 0 call.locking := by
  cases call <;> exact of_decide_eq_true rfl

/-- **Calls that respect an order** cannot deadlock. -/
theorem not_canDeadlock {K : Set DurableCall} (h : ∀ call ∈ K, r.Rises 0 call.locking) :
    ¬ CanDeadlock fair K := by
  rintro ⟨n, calls, c, D, hK, hst, hd⟩
  exact Order.not_deadlocked
    (Order.sorted_of_steps (sorted_start fun t call hcall => h call (hK t call hcall)) hst) hd

/-! ## The circle -/

/-- A search and a scroll of past versions, and two calls that write. -/
def four (call : DurableCall) : Fin 4 → List DurableCall :=
  ![[.searchAt], [.scrollAt], [call], [call]]

/-- The turns of taking a lock and letting it go. -/
def locked : List Bool := [true, true, true, true]

/-- The turns of a batch until it has appended its first row. -/
def appended : List Bool :=
  [false, true, true, true, false, true, false, true, true, false, true] ++ locked

/-- The search holds the registry and the scroll the payloads; one batch is about to commit what it
has written and shuts the registry, the other shuts the payloads. -/
def schedule : List (Fin 4 × Bool) :=
  ([false, true] ++ locked ++ [false, true]).map (fun go => (0, go)) ++
  ([true, true] ++ locked ++ [false]).map (fun go => (1, go)) ++
  (appended ++ [true, true, false, true, true, true] ++ [false, true] ++ locked ++
    [false, true, true, true] ++ locked ++ [false, true]).map (fun go => (3, go)) ++
  (appended ++ [false, true]).map (fun go => (2, go))

/-- The search waits for a batch, that for the scroll, that for the other batch, and that for the
search. -/
structure Circle (c : Stacks (Fin 4) Lock) : Prop where
  search : (c 0).head? = some (.run (.hold .read .payloads (.loop Sections.searchSegment)))
  scroll : (c 1).head? = some (.run (.hold .read .allSegments .skip))
  writer : (c 2).head? = some (.drain .payloads)
  committer : (c 3).head? = some (.drain .allSegments)
  registryRead : .release .read .allSegments ∈ c 0
  payloadsRead : .release .read .payloads ∈ c 1
  payloadsShut : .release .write .payloads ∈ c 2
  registryShut : .release .write .allSegments ∈ c 3

theorem circle_iff (c : Stacks (Fin 4) Lock) : Circle c ↔
    ((c 0).head? = some (.run (.hold .read .payloads (.loop Sections.searchSegment))) ∧
      (c 1).head? = some (.run (.hold .read .allSegments .skip)) ∧
      (c 2).head? = some (.drain .payloads) ∧ (c 3).head? = some (.drain .allSegments)) ∧
    .release .read .allSegments ∈ c 0 ∧ .release .read .payloads ∈ c 1 ∧
      .release .write .payloads ∈ c 2 ∧ .release .write .allSegments ∈ c 3 :=
  ⟨fun ⟨h₁, h₂, h₃, h₄, h₅, h₆, h₇, h₈⟩ => ⟨⟨h₁, h₂, h₃, h₄⟩, h₅, h₆, h₇, h₈⟩,
    fun ⟨⟨h₁, h₂, h₃, h₄⟩, h₅, h₆, h₇, h₈⟩ => ⟨h₁, h₂, h₃, h₄, h₅, h₆, h₇, h₈⟩⟩

instance : DecidablePred Circle := fun c => decidable_of_iff _ (circle_iff c).symm

theorem Circle.deadlocked {c : Stacks (Fin 4) Lock} (h : Circle c) :
    Deadlocked true c Set.univ := by
  refine ⟨⟨0, trivial⟩, fun t _ => ?_⟩
  obtain ⟨k₀, h₀⟩ := List.head?_eq_some_iff.mp h.search
  obtain ⟨k₁, h₁⟩ := List.head?_eq_some_iff.mp h.scroll
  obtain ⟨k₂, h₂⟩ := List.head?_eq_some_iff.mp h.writer
  obtain ⟨k₃, h₃⟩ := List.head?_eq_some_iff.mp h.committer
  fin_cases t
  · exact ⟨2, trivial, .read _ _ _ h₀ h.payloadsShut⟩
  · exact ⟨3, trivial, .read _ _ _ h₁ h.registryShut⟩
  · exact ⟨1, trivial, .drain _ _ h₂ h.payloadsRead⟩
  · exact ⟨0, trivial, .drain _ _ h₃ h.registryRead⟩

theorem any_circle {call : DurableCall} (h : call.writes = true) :
    ((start (four call)).replay true schedule).any (fun c => Circle c) = true := by
  cases call with
  | upsert => decide
  | writeBatch => decide
  | _ => cases h

theorem canDeadlock_of_writes {K : Set DurableCall} {call : DurableCall} (hcall : call ∈ K)
    (hwrites : call.writes = true) (hsearch : .searchAt ∈ K) (hscroll : .scrollAt ∈ K) :
    CanDeadlock true K := by
  obtain ⟨c, hc, hcircle⟩ := (Option.any_eq_true _ _).mp (any_circle hwrites)
  refine ⟨4, four call, c, Set.univ, fun t call' hmem => ?_, Stacks.steps_of_replay hc,
    (of_decide_eq_true hcircle).deadlocked⟩
  fin_cases t
  · exact List.mem_singleton.mp hmem ▸ hsearch
  · exact List.mem_singleton.mp hmem ▸ hscroll
  · exact List.mem_singleton.mp hmem ▸ hcall
  · exact List.mem_singleton.mp hmem ▸ hcall

end DurableCall

/-- **When calls can deadlock**: if locks are fair, and a search and a scroll of past versions may
meet a write batch. -/
theorem canDeadlock_iff (fair : Bool) (K : Set DurableCall) : CanDeadlock fair K ↔
    fair = true ∧ .searchAt ∈ K ∧ .scrollAt ∈ K ∧ ∃ call ∈ K, call.writes = true := by
  constructor
  · intro h
    by_contra hnot
    cases fair with
    | false => exact DurableCall.not_canDeadlock (fun call _ => call.rises_unfair) h
    | true =>
      by_cases hsearch : .searchAt ∈ K
      · by_cases hscroll : .scrollAt ∈ K
        · refine DurableCall.not_canDeadlock (r := Lock.payloadsUnwritten true)
            (fun call hcall => ?_) h
          refine DurableCall.rises_payloadsUnwritten (Bool.eq_false_iff.mpr fun hwrites => ?_)
          exact hnot ⟨rfl, hsearch, hscroll, call, hcall, hwrites⟩
        · exact DurableCall.not_canDeadlock (fun call hcall =>
            DurableCall.rises_registryFirst fun heq => hscroll (heq ▸ hcall)) h
      · exact DurableCall.not_canDeadlock (fun call hcall =>
          DurableCall.rises_payloadsFirst fun heq => hsearch (heq ▸ hcall)) h
  · rintro ⟨rfl, hsearch, hscroll, call, hcall, hwrites⟩
    exact DurableCall.canDeadlock_of_writes hcall hwrites hsearch hscroll

/-- Calls that cannot deadlock go on until all are over. -/
theorem exists_step_of_not_canDeadlock {fair : Bool} {K : Set DurableCall}
    (h : ¬ CanDeadlock fair K) {n : ℕ} {calls : Fin n → List DurableCall}
    (hK : ∀ t, ∀ call ∈ calls t, call ∈ K)
    {c : Stacks (Fin n) Lock} (hst : Stacks.Steps fair (DurableCall.start calls) c) {t : Fin n}
    (ht : c t ≠ []) : ∃ c', c.Step fair c' := by
  by_contra hnone
  have hstuck (c' : Stacks (Fin n) Lock) : ¬ c.Step fair c' := fun hstep => hnone ⟨c', hstep⟩
  exact h ⟨n, calls, c, _, hK, hst, deadlocked_of_stuck hstuck ht⟩

end Vecvec
