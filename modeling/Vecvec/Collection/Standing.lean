import Vecvec.Collection.Alone

/-!
# Collection/Standing — what a working state stands for

A ledger says which points were acknowledged: for each live id the vector it was given and its
payload.  A working state stands for one (`Standing.ledger`): which ids it holds, which of them are
tombstoned, their payloads and the allocator are what a record of the log acts on, and sealing and
compacting move rows around without touching it.
-/

namespace Vecvec

open Machinery

/-! ## Ledgers -/

/-- The points acknowledged: for each live id, the vector it was given and its payload. -/
abbrev Ledger := GlobalId → Option (List F32 × Option Payload)

/-- What a record does to the points. -/
def Ledger.apply (M : Ledger) : WalOp → Ledger
  | .upsert id v p => Function.update M id (some (v, p))
  | .delete id => Function.update M id none

/-- A list of records, in order. -/
abbrev Ledger.applyAll (M : Ledger) (ops : List WalOp) : Ledger := ops.foldl Ledger.apply M

/-- The point a record is about. -/
def WalOp.target : WalOp → GlobalId
  | .upsert id _ _ | .delete id => id

theorem Ledger.apply_of_target {M : Ledger} {op : WalOp} {id : GlobalId} (h : op.target ≠ id) :
    M.apply op id = M id := by
  cases op <;> exact Function.update_of_ne (Ne.symm h) _ _

/-- **Records about other points** leave a point alone. -/
theorem Ledger.applyAll_of_target {M : Ledger} {ops : List WalOp} {id : GlobalId}
    (h : ∀ op ∈ ops, op.target ≠ id) : M.applyAll ops id = M id := by
  induction ops generalizing M with
  | nil => rfl
  | cons op ops ih =>
    obtain ⟨hop, h⟩ := List.forall_mem_cons.mp h
    exact (ih h).trans (apply_of_target hop)

/-- The vectors given under the ids, after a record. -/
def learn (L : GlobalId → List F32) : WalOp → GlobalId → List F32
  | .upsert id v _ => Function.update L id v
  | .delete _ => L

/-! ## The allocator -/

/-- The allocator after a record is replayed. -/
def bump (cfg : CollectionConfig) (n : GlobalId) : WalOp → GlobalId
  | .upsert id v _ => if v.length = cfg.dim then max n (id + 1) else n
  | .delete _ => n

variable {P : Platform} {cfg : CollectionConfig} {op : WalOp} {ops ops' : List WalOp} {n : GlobalId}
  {c : Collection}

theorem Collection.replay_nextGlobalId (c : Collection) (op : WalOp) :
    (c.replay P cfg op).nextGlobalId = bump cfg c.nextGlobalId op := by
  cases op with
  | upsert id v p =>
    rw [replay, bump]
    split <;> rfl
  | delete id => exact remove_nextGlobalId

theorem Collection.foldl_replay_nextGlobalId (ops : List WalOp) (c : Collection) :
    (ops.foldl (Collection.replay P cfg) c).nextGlobalId = ops.foldl (bump cfg) c.nextGlobalId := by
  induction ops generalizing c with
  | nil => rfl
  | cons op ops ih => rw [List.foldl_cons, ih, replay_nextGlobalId, List.foldl_cons]

theorem le_bump (n : GlobalId) (op : WalOp) : n ≤ bump cfg n op := by
  cases op with
  | upsert id v p =>
    rw [bump]
    split
    · exact le_max_left _ _
    · exact le_rfl
  | delete id => exact le_rfl

theorem le_foldl_bump (ops : List WalOp) (n : GlobalId) : n ≤ ops.foldl (bump cfg) n := by
  induction ops generalizing n with
  | nil => exact le_rfl
  | cons op ops ih => exact (le_bump n op).trans (ih _)

/-- **Every id in the log is below the allocator.** -/
theorem lt_foldl_bump {id : GlobalId} {v : List F32} {p : Option Payload}
    (h : .upsert id v p ∈ ops) (hv : v.length = cfg.dim) (n : GlobalId) :
    id < ops.foldl (bump cfg) n := by
  induction ops generalizing n with
  | nil => cases h
  | cons op ops ih =>
    rcases List.mem_cons.mp h with rfl | h
    · refine lt_of_lt_of_le ?_ (le_foldl_bump ops _)
      rw [bump, if_pos hv]
      exact lt_of_lt_of_le (Nat.lt_succ_self id) (le_max_right _ _)
    · exact ih h _

/-- The ids of the upserts are the allocator's, which stands at `n`. -/
def Numbered (cfg : CollectionConfig) : GlobalId → List WalOp → Prop
  | _, [] => True
  | n, .delete _ :: ops => Numbered cfg n ops
  | n, .upsert id v _ :: ops => id = n ∧ v.length = cfg.dim ∧ Numbered cfg (n + 1) ops

theorem bump_upsert {v : List F32} {p : Option Payload} (hv : v.length = cfg.dim) :
    bump cfg n (.upsert n v p) = n + 1 := by
  rw [bump, if_pos hv]
  exact max_eq_right (Nat.le_succ n)

/-- A numbered record, and those behind it. -/
theorem numbered_cons :
    Numbered cfg n (op :: ops) ↔ Numbered cfg n [op] ∧ Numbered cfg (bump cfg n op) ops := by
  cases op with
  | delete id => exact ⟨fun h => ⟨trivial, h⟩, And.right⟩
  | upsert id v p =>
    constructor
    · rintro ⟨rfl, hv, h⟩
      exact ⟨⟨rfl, hv, trivial⟩, by rwa [bump_upsert hv]⟩
    · rintro ⟨⟨rfl, hv, -⟩, h⟩
      exact ⟨rfl, hv, by rwa [bump_upsert hv] at h⟩

theorem numbered_append : Numbered cfg n (ops ++ ops') ↔
    Numbered cfg n ops ∧ Numbered cfg (ops.foldl (bump cfg) n) ops' := by
  induction ops generalizing n with
  | nil => exact ⟨fun h => ⟨trivial, h⟩, And.right⟩
  | cons op ops ih =>
    rw [List.cons_append, numbered_cons, ih, ← and_assoc, ← numbered_cons, List.foldl_cons]

theorem Numbered.of_isPrefix (h : Numbered cfg n ops) (hp : ops' <+: ops) :
    Numbered cfg n ops' := by
  obtain ⟨rest, rfl⟩ := hp
  exact (numbered_append.mp h).1

/-- The id of a numbered upsert is not below the allocator, and its vector has the right
dimension. -/
theorem Numbered.of_mem {id : GlobalId} {v : List F32} {p : Option Payload}
    (h : Numbered cfg n ops) (hmem : .upsert id v p ∈ ops) : n ≤ id ∧ v.length = cfg.dim := by
  induction ops generalizing n with
  | nil => cases hmem
  | cons op ops ih =>
    obtain ⟨hop, hrest⟩ := numbered_cons.mp h
    rcases List.mem_cons.mp hmem with rfl | hmem
    · exact ⟨hop.1.ge, hop.2.1⟩
    · obtain ⟨hle, hv⟩ := ih hrest hmem
      exact ⟨(le_bump n op).trans hle, hv⟩

/-- The vectors below the allocator are those learned before. -/
theorem Numbered.learn_of_lt (h : Numbered cfg n ops) (L : GlobalId → List F32) {id : GlobalId}
    (hid : id < n) : ops.foldl learn L id = L id := by
  induction ops generalizing n L with
  | nil => rfl
  | cons op ops ih =>
    obtain ⟨hop, hrest⟩ := numbered_cons.mp h
    rw [List.foldl_cons, ih hrest _ (hid.trans_le (le_bump n op))]
    cases op with
    | delete => rfl
    | upsert id' v p => exact Function.update_of_ne (hop.1 ▸ hid.ne) _ _

/-- What is learned of an upsert is its vector. -/
theorem Numbered.learn_of_mem {id : GlobalId} {v : List F32} {p : Option Payload}
    (h : Numbered cfg n ops) (L : GlobalId → List F32) (hmem : .upsert id v p ∈ ops) :
    ops.foldl learn L id = v := by
  induction ops generalizing n L with
  | nil => cases hmem
  | cons op ops ih =>
    obtain ⟨hop, hrest⟩ := numbered_cons.mp h
    rcases List.mem_cons.mp hmem with rfl | hmem
    · obtain ⟨rfl, hv, -⟩ := hop
      rw [List.foldl_cons, hrest.learn_of_lt _ (by rw [bump_upsert hv]; exact Nat.lt_succ_self _)]
      exact Function.update_self ..
    · exact ih hrest _ hmem

/-! ## What a working state stands for -/

/-- What a working state stands for, but for the vectors. -/
@[ext] structure Standing where
  /-- Whether a row carries the id. -/
  held : GlobalId → Bool
  /-- The tombstones. -/
  deletions : DeletionVector
  /-- The payloads. -/
  payloads : PayloadMap
  /-- The global-id allocator. -/
  next : GlobalId

/-- The payloads after an upsert. -/
def recordPayload (m : PayloadMap) (id : GlobalId) : Option Payload → PayloadMap
  | some p => Function.update m id (some p)
  | none => m

theorem recordPayload_self {m : PayloadMap} {id : GlobalId} (h : m id = none) (p : Option Payload) :
    recordPayload m id p id = p := by
  cases p with
  | none => exact h
  | some p => exact Function.update_self ..

theorem recordPayload_of_ne {m : PayloadMap} {id g : GlobalId} (h : g ≠ id) (p : Option Payload) :
    recordPayload m id p g = m g := by
  cases p with
  | none => rfl
  | some p => exact Function.update_of_ne h _ _

namespace Standing

/-- What a replayed record does to it. -/
def replay (cfg : CollectionConfig) (s : Standing) : WalOp → Standing
  | .upsert id v p =>
    if v.length = cfg.dim then
      { s with
        held := Function.update s.held id true
        payloads := recordPayload s.payloads id p
        next := max s.next (id + 1) }
    else s
  | .delete id => if s.held id then { s with deletions := insert id s.deletions } else s

/-- The points it stands for, the vectors being known. -/
def ledger (s : Standing) (L : GlobalId → List F32) : Ledger := fun id =>
  if s.held id = true ∧ id ∉ s.deletions then some (L id, s.payloads id) else none

/-- Everything in it is below the allocator. -/
structure Bounded (s : Standing) : Prop where
  /-- The ids held. -/
  held : ∀ id, s.held id = true → id < s.next
  /-- The tombstones. -/
  deletions : ∀ id ∈ s.deletions, id < s.next
  /-- The payloads. -/
  payloads : ∀ id, s.next ≤ id → s.payloads id = none

variable {s : Standing} {L L' : GlobalId → List F32}

theorem replay_next (s : Standing) (op : WalOp) : (s.replay cfg op).next = bump cfg s.next op := by
  cases op with
  | upsert id v p =>
    rw [replay, bump]
    split <;> rfl
  | delete id =>
    rw [replay]
    split <;> rfl

theorem foldl_replay_next (ops : List WalOp) (s : Standing) :
    (ops.foldl (replay cfg) s).next = ops.foldl (bump cfg) s.next := by
  induction ops generalizing s with
  | nil => rfl
  | cons op ops ih => rw [List.foldl_cons, ih, replay_next, List.foldl_cons]

theorem Bounded.replay (h : s.Bounded) (hn : Numbered cfg s.next [op]) :
    (s.replay cfg op).Bounded := by
  cases op with
  | upsert id v p =>
    obtain ⟨rfl, hv, -⟩ := hn
    rw [Standing.replay, if_pos hv]
    have hle : ∀ g, g < s.next → g < max s.next (s.next + 1) := fun g hg => lt_max_of_lt_left hg
    refine ⟨fun g hg => ?_, fun g hg => hle g (h.deletions g hg), fun g hg => ?_⟩
    · by_cases hgn : g = s.next
      · exact hgn ▸ lt_max_of_lt_right (Nat.lt_succ_self _)
      · exact hle g (h.held g ((Function.update_of_ne hgn _ _).symm.trans hg))
    · have hlt : s.next < g := (max_le_iff.mp hg).2
      exact (recordPayload_of_ne hlt.ne' p).trans (h.payloads g hlt.le)
  | delete id =>
    rw [Standing.replay]
    split
    · refine ⟨h.held, fun g hg => ?_, h.payloads⟩
      rcases Finset.mem_insert.mp hg with rfl | hg
      · exact h.held _ ‹_›
      · exact h.deletions g hg
    · exact h

theorem Bounded.foldl_replay (h : s.Bounded) (hn : Numbered cfg s.next ops) :
    (ops.foldl (Standing.replay cfg) s).Bounded := by
  induction ops generalizing s with
  | nil => exact h
  | cons op ops ih =>
    obtain ⟨hop, hrest⟩ := numbered_cons.mp hn
    exact ih (h.replay hop) (by rwa [replay_next])

theorem ledger_congr (h : ∀ id, s.held id = true → L id = L' id) : s.ledger L = s.ledger L' := by
  funext id
  rw [ledger, ledger]
  split
  · rw [h id (‹_ ∧ _›).1]
  · rfl

/-- No point is live from the allocator on. -/
theorem Bounded.ledger_eq_none (h : s.Bounded) {id : GlobalId} (hid : s.next ≤ id) :
    s.ledger L id = none :=
  if_neg fun hn => (h.held id hn.1).not_ge hid

/-- **A replayed record** does to the points what it says. -/
theorem Bounded.ledger_replay (h : s.Bounded) (hn : Numbered cfg s.next [op])
    (hL : ∀ id v p, op = .upsert id v p → L id = v) :
    (s.replay cfg op).ledger L = (s.ledger L).apply op := by
  funext g
  cases op with
  | upsert id v p =>
    obtain ⟨rfl, hv, -⟩ := hn
    have hfresh : s.next ∉ s.deletions := fun hd => (h.deletions _ hd).false
    rw [Standing.replay, if_pos hv, Ledger.apply]
    by_cases hg : g = s.next
    · subst hg
      rw [ledger, if_pos ⟨Function.update_self .., hfresh⟩, Function.update_self, hL _ _ _ rfl]
      exact congrArg (fun p => some (v, p)) (recordPayload_self (h.payloads _ le_rfl) p)
    · rw [Function.update_of_ne hg, ledger, ledger]
      simp only [Function.update_of_ne hg, recordPayload_of_ne hg]
  | delete id =>
    rw [Standing.replay, Ledger.apply]
    by_cases hg : g = id
    · subst hg
      rw [Function.update_self]
      split
      · simp [ledger]
      · simp [ledger, ‹¬ _›]
    · rw [Function.update_of_ne hg]
      split
      · simp [ledger, hg]
      · rfl

theorem Bounded.ledger_foldl_replay (h : s.Bounded) (hn : Numbered cfg s.next ops)
    (hL : ∀ id v p, .upsert id v p ∈ ops → L id = v) :
    (ops.foldl (Standing.replay cfg) s).ledger L = (s.ledger L).applyAll ops := by
  induction ops generalizing s with
  | nil => rfl
  | cons op ops ih =>
    obtain ⟨hop, hrest⟩ := numbered_cons.mp hn
    rw [List.foldl_cons, ih (h.replay hop) (by rwa [replay_next])
      (fun id v p hmem => hL id v p (List.mem_cons_of_mem _ hmem)),
      h.ledger_replay hop fun id v p he => hL id v p (he ▸ List.mem_cons_self)]
    rfl

/-- **Records that are numbered** do to the points what they say, their vectors being learned. -/
theorem Bounded.ledger_learn (h : s.Bounded) (hn : Numbered cfg s.next ops) :
    (ops.foldl (Standing.replay cfg) s).ledger (ops.foldl learn L) =
      (s.ledger L).applyAll ops := by
  rw [h.ledger_foldl_replay hn fun id v p hmem => hn.learn_of_mem L hmem,
    ledger_congr fun id hid => hn.learn_of_lt L (h.held id hid)]

end Standing

namespace Collection

/-- What a collection stands for. -/
def standing (c : Collection) : Standing :=
  ⟨c.holds, c.workingDeletions, c.payloads, c.nextGlobalId⟩

theorem holds_put (id : GlobalId) (v : List F32) (p : Option Payload) :
    (c.put P cfg id v p).holds = Function.update c.holds id true := by
  funext g
  rw [holds, put_appendable_rows, put_working]
  by_cases hg : g = id
  · subst hg
    simp [containsId]
  · simp [containsId, Function.update_of_ne hg, holds, beq_eq_false_iff_ne.mpr (Ne.symm hg)]

/-- **Replaying a record** does to a collection's standing what it does to any. -/
theorem standing_replay (op : WalOp) :
    (c.replay P cfg op).standing = c.standing.replay cfg op := by
  cases op with
  | upsert id v p =>
    rw [replay, Standing.replay]
    split
    · refine Standing.ext (holds_put id v p) rfl ?_ rfl
      cases p <;> rfl
    · rfl
  | delete id =>
    change (c.remove id).standing = if c.holds id = true then _ else _
    rw [remove]
    split
    · rfl
    · rfl

theorem standing_foldl_replay (ops : List WalOp) (c : Collection) :
    (ops.foldl (replay P cfg) c).standing = ops.foldl (Standing.replay cfg) c.standing := by
  induction ops generalizing c with
  | nil => rfl
  | cons op ops ih => rw [List.foldl_cons, ih, standing_replay, List.foldl_cons]

/-- **Sealing** moves rows only. -/
theorem standing_sealNow : c.sealNow.standing = c.standing := by
  have hh : c.sealNow.holds = c.holds := by
    funext g
    unfold sealNow
    split
    · rfl
    · simp [holds, containsId, AppendableSegment.new, Bool.or_comm]
  exact Standing.ext hh sealNow_workingDeletions sealNow_payloads sealNow_nextGlobalId

theorem standing_commitNow {trigger : String} {message tag : Option String} :
    (c.commitNow trigger message tag).standing = c.standing := standing_sealNow

/-- **Compacting** moves rows only, their vectors apart. -/
theorem standing_compactNow : (c.compactNow P cfg).standing = c.standing := by
  have hids : ∀ g, containsId (mergedRows P cfg c.working).rows g =
      c.working.any fun s => containsId s.rows g := by
    intro g
    rw [Bool.eq_iff_iff, containsId_iff, List.any_eq_true, mergedRows, foldl_append_rows]
    constructor
    · rintro ⟨v, hv⟩
      obtain ⟨r, hr, hrv⟩ := List.mem_map.mp hv
      cases hrv
      obtain ⟨s, hs, hr⟩ := SegmentSet.mem_rows.mp (mem_sortById.mp hr)
      exact ⟨s, hs, containsId_iff.mpr ⟨r.2, hr⟩⟩
    · rintro ⟨s, hs, hg⟩
      obtain ⟨v, hv⟩ := containsId_iff.mp hg
      exact ⟨_, List.mem_map.mpr ⟨(g, v), mem_sortById.mpr (SegmentSet.mem_rows.mpr ⟨s, hs, hv⟩),
        rfl⟩⟩
  have hh : (c.compactNow P cfg).holds = c.holds := by
    funext g
    rw [holds, holds, compactNow, List.any_cons, List.any_nil, Bool.or_false]
    exact congrArg _ (hids g)
  exact Standing.ext hh rfl rfl rfl

end Collection

end Vecvec
