import Vecvec.Basic
import Vecvec.Machinery.Rcu

/-!
# Index/Deleted — tombstones set by any number of threads

A delete adds an id to a bitmap behind a pointer, by read, copy, update, and answers whether the id
was new to it.  Threads delete lists of ids, each in its order, with any overlap and any
interleaving.  **Every id requested is tombstoned, and for each that was not before exactly one call
answers that it was new** (`counted`): the answers are a tally of the ids added (`Tally.mark`), and
the retries do not matter (`Machinery/Rcu`).

* `Deleting` — what is left of a thread's deletes, looks at other things in between.
* `Deletes` — the invariant of the threads together.
-/

namespace Vecvec

open Machinery

/-- The closure of the update: the next bitmap, and whether the id was new. -/
def withTombstone (id : ℕ) (current : Finset ℕ) : Finset ℕ × Bool :=
  (insert id current, decide (id ∉ current))

/-! ## The tally -/

/-- The calls of a family, with the ids they want tombstoned and the answers they have had so far,
against the tombstones. -/
structure Tally {C : Type} (want : C → Option ℕ) (initial marks : Finset ℕ)
    (answer : C → Option Bool) : Prop where
  mem : ∀ id, id ∈ marks ↔ id ∈ initial ∨ ∃ c, want c = some id ∧ (answer c).isSome = true
  once : ∀ id ∈ marks, id ∉ initial → ∃! c, want c = some id ∧ answer c = some true
  old : ∀ id ∈ initial, ∀ c, want c = some id → answer c ≠ some true

namespace Tally

variable {C : Type} {want : C → Option ℕ} {initial marks : Finset ℕ} {answer : C → Option Bool}

/-- No calls have been answered. -/
theorem start (hnone : ∀ c, answer c = none) : Tally want initial initial answer where
  mem id := by
    refine ⟨.inl, fun h => h.elim (fun h => h) ?_⟩
    rintro ⟨c, -, hc⟩
    rw [hnone] at hc
    cases hc
  once _ hmem hnot := absurd hmem hnot
  old _ _ c _ hc := by
    rw [hnone] at hc
    cases hc

variable [DecidableEq C]

/-- **One more call is answered.** -/
theorem mark (h : Tally want initial marks answer) {c : C} {id : ℕ} (hwant : want c = some id)
    (hnone : answer c = none) : Tally want initial (withTombstone id marks).1
      (Function.update answer c (some (withTombstone id marks).2)) := by
  have hother {c' : C} (hc' : answer c' ≠ none) :
      Function.update answer c (some (withTombstone id marks).2) c' = answer c' := by
    refine Function.update_of_ne ?_ ..
    rintro rfl
    exact hc' hnone
  have hself : Function.update answer c (some (withTombstone id marks).2) c =
      some (decide (id ∉ marks)) := Function.update_self ..
  -- a call that answers "new" is this one, with a new id, or an earlier one
  have hnew {c' : C} (hc' : Function.update answer c (some (withTombstone id marks).2) c' =
      some true) :
      c' = c ∧ id ∉ marks ∨ answer c' = some true := by
    by_cases heq : c' = c
    · subst heq
      rw [hself] at hc'
      exact .inl ⟨rfl, of_decide_eq_true (Option.some.inj hc')⟩
    · rw [Function.update_of_ne heq] at hc'
      exact .inr hc'
  refine ⟨fun i => ?_, fun i hi hold => ?_, fun i hi c' hc' htrue => ?_⟩
  · change i ∈ insert id marks ↔ _
    rw [Finset.mem_insert, h.mem]
    constructor
    · rintro (rfl | hi | ⟨c', hc', hsome⟩)
      · exact .inr ⟨c, hwant, by rw [Function.update_self]; rfl⟩
      · exact .inl hi
      · refine .inr ⟨c', hc', ?_⟩
        rwa [hother fun h0 => by rw [h0] at hsome; cases hsome]
    · rintro (hi | ⟨c', hc', hsome⟩)
      · exact .inr (.inl hi)
      · by_cases heq : c' = c
        · subst heq
          exact .inl (Option.some.inj (hc'.symm.trans hwant))
        · rw [Function.update_of_ne heq] at hsome
          exact .inr (.inr ⟨c', hc', hsome⟩)
  · by_cases hmem : i ∈ marks
    · obtain ⟨c', ⟨hc', htrue⟩, huniq⟩ := h.once i hmem hold
      refine ⟨c', ⟨hc', (hother fun h0 => ?_).trans htrue⟩, ?_⟩
      · rw [h0] at htrue
        cases htrue
      · rintro c'' ⟨hc'', htrue''⟩
        rcases hnew htrue'' with ⟨rfl, hid⟩ | htrue''
        · exact absurd (Option.some.inj (hc''.symm.trans hwant) ▸ hmem) hid
        · exact huniq c'' ⟨hc'', htrue''⟩
    · obtain rfl : i = id := (Finset.mem_insert.mp hi).resolve_right hmem
      refine ⟨c, ⟨hwant, hself.trans (congrArg some (decide_eq_true hmem))⟩, ?_⟩
      rintro c'' ⟨hc'', htrue''⟩
      rcases hnew htrue'' with ⟨rfl, -⟩ | htrue''
      · rfl
      · exact absurd ((h.mem i).mpr (.inr ⟨c'', hc'', by rw [htrue'']; rfl⟩)) hmem
  · rcases hnew htrue with ⟨rfl, hid⟩ | htrue
    · obtain rfl := Option.some.inj (hc'.symm.trans hwant)
      exact hid ((h.mem i).mpr (.inl hi))
    · exact h.old i hi c' hc' htrue

end Tally

/-! ## Threads -/

/-- The id of a thread's call, by its place in the thread's list. -/
def wantOf (ids : ℕ → List ℕ) (c : ℕ × ℕ) : Option ℕ := (ids c.1)[c.2]?

/-- Its answer. -/
def answerOf (answers : ℕ → List Bool) (c : ℕ × ℕ) : Option Bool := (answers c.1)[c.2]?

theorem answerOf_update (answers : ℕ → List Bool) (t : ℕ) (b : Bool) :
    answerOf (Function.update answers t (answers t ++ [b])) =
      Function.update (answerOf answers) (t, (answers t).length) (some b) := by
  funext ⟨u, i⟩
  rw [answerOf]
  dsimp only
  by_cases hu : u = t
  · subst hu
    rw [Function.update_self]
    by_cases hi : i = (answers u).length
    · subst hi
      rw [List.getElem?_concat_length, Function.update_self]
    · rw [Function.update_of_ne (fun heq => hi (Prod.mk.inj heq).2), answerOf]
      dsimp only
      rcases Nat.lt_or_gt_of_ne hi with hlt | hgt
      · rw [List.getElem?_append_left hlt]
      · rw [List.getElem?_eq_none (by rw [List.length_append, List.length_singleton]; omega),
          List.getElem?_eq_none (by omega)]
  · rw [Function.update_of_ne hu, Function.update_of_ne (fun heq => hu (Prod.mk.inj heq).1)]
    rfl

section

variable {S : Interface} {σ : Type} (h : Handler S σ) (I : σ → Prop) (marks : σ → Finset ℕ)

/-- What is left of a thread that has had its `answers` and deletes `rest`; under `I` it sets
tombstones and looks at other things. -/
inductive Deleting : Prog S (List Bool) → List Bool → List ℕ → Prop
  | ret (answers : List Bool) : Deleting (.ret answers) answers []
  | look {o : S.Op} {k : S.Ret o → Prog S (List Bool)} {answers : List Bool} {rest : List ℕ}
      (hlook : ∀ t s r s', I s → h t o s = some (r, s') → s' = s)
      (hk : ∀ t s r s', I s → h t o s = some (r, s') → Deleting (k r) answers rest) :
      Deleting (.act o k) answers rest
  | tombstone {o : S.Op} {k : S.Ret o → Prog S (List Bool)} {answers : List Bool} {id : ℕ}
      {rest : List ℕ}
      (hmarks : ∀ t s r s', I s → h t o s = some (r, s') →
        I s' ∧ marks s' = (withTombstone id (marks s)).1)
      (hk : ∀ t s r s', I s → h t o s = some (r, s') →
        Deleting (k r) (answers ++ [(withTombstone id (marks s)).2]) rest) :
      Deleting (.act o k) answers (id :: rest)

/-- The threads after some of their steps. -/
structure Deletes (ids : ℕ → List ℕ) (initial : Finset ℕ) (c : Config S σ (List Bool)) : Prop where
  inv : I c.shared
  answers : ∃ answers : ℕ → List Bool, (∀ t, (answers t).length ≤ (ids t).length ∧
    Deleting h I marks (c.pool t) (answers t) ((ids t).drop (answers t).length)) ∧
      Tally (wantOf ids) initial (marks c.shared) (answerOf answers)

variable {h I marks} {ids : ℕ → List ℕ} {initial : Finset ℕ} {c c' : Config S σ (List Bool)}

theorem Deleting.of_ret {l answers : List Bool} {rest : List ℕ}
    (hdel : Deleting h I marks (.ret l) answers rest) : answers = l ∧ rest = [] := by
  cases hdel
  exact ⟨rfl, rfl⟩

/-- **One step** of one of them. -/
theorem Deletes.step (hc : Deletes h I marks ids initial c)
    (hst : Config.Step h Config.anyOrder c c') : Deletes h I marks ids initial c' := by
  obtain ⟨hp, -, hs⟩ := hst
  rename_i t o k r s'
  obtain ⟨hI, answers, hall, htally⟩ := hc
  have hother {u : ℕ} (hu : u ≠ t) (p : Prog S (List Bool)) :
      Function.update c.pool t p u = c.pool u := Function.update_of_ne hu ..
  obtain ⟨hle, hdel⟩ := hall t
  generalize hrest : (ids t).drop (answers t).length = rest at hdel
  rw [hp] at hdel
  cases hdel with
  | look hlook hk =>
    obtain rfl := hlook t _ r s' hI hs
    refine ⟨hI, answers, fun u => ?_, htally⟩
    by_cases hu : u = t
    · subst hu
      dsimp only
      rw [Function.update_self, hrest]
      exact ⟨hle, hk u _ r _ hI hs⟩
    · dsimp only
      rw [hother hu]
      exact hall u
  | @tombstone _ _ _ id rest hmarks hk =>
    obtain ⟨hI', hset⟩ := hmarks t _ r s' hI hs
    have hget : (ids t)[(answers t).length]? = some id := by
      rw [← List.head?_drop, hrest]
      rfl
    have hlt : (answers t).length < (ids t).length := (List.getElem?_eq_some_iff.mp hget).1
    refine ⟨hI', Function.update answers t
      (answers t ++ [(withTombstone id (marks c.shared)).2]), fun u => ?_, ?_⟩
    · by_cases hu : u = t
      · subst hu
        dsimp only
        rw [Function.update_self, Function.update_self, List.length_append, List.length_singleton,
          ← List.drop_drop, hrest]
        exact ⟨hlt, hk u _ r s' hI hs⟩
      · dsimp only
        rw [hother hu, Function.update_of_ne hu]
        exact hall u
    · rw [answerOf_update]
      dsimp only
      rw [hset]
      exact htally.mark hget (List.getElem?_eq_none le_rfl)

theorem Deletes.steps (hc : Deletes h I marks ids initial c)
    (hst : Config.Steps h Config.anyOrder c c') : Deletes h I marks ids initial c' := by
  induction hst with
  | refl => exact hc
  | tail _ hst ih => exact ih.step hst

end

/-- **What deletes owe** when all have returned: the tombstones are those at first and all ids
requested, and for each new one exactly one call has answered that it was. -/
structure CountedOnce (ids : ℕ → List ℕ) (initial final : Finset ℕ) (answers : ℕ → List Bool) :
    Prop where
  length : ∀ t, (answers t).length = (ids t).length
  final : ∀ id, id ∈ final ↔ id ∈ initial ∨ ∃ t, id ∈ ids t
  once : ∀ id ∉ initial, (∃ t, id ∈ ids t) →
    ∃! c, wantOf ids c = some id ∧ answerOf answers c = some true
  old : ∀ id ∈ initial, ∀ c, wantOf ids c = some id → answerOf answers c = some false

section

variable {S : Interface} {σ : Type} {h : Handler S σ} {I : σ → Prop} {marks : σ → Finset ℕ}
  {ids : ℕ → List ℕ} {initial : Finset ℕ} {c : Config S σ (List Bool)}

theorem Deletes.countedOnce (hc : Deletes h I marks ids initial c) {answers : ℕ → List Bool}
    (hret : ∀ t, c.pool t = .ret (answers t)) :
    CountedOnce ids initial (marks c.shared) answers := by
  obtain ⟨-, answers', hall, htally⟩ := hc
  have hdone (t : ℕ) : answers' t = answers t ∧ (ids t).length ≤ (answers' t).length := by
    obtain ⟨-, hdel⟩ := hall t
    rw [hret] at hdel
    obtain ⟨heq, hrest⟩ := hdel.of_ret
    exact ⟨heq, List.drop_eq_nil_iff.mp hrest⟩
  obtain rfl : answers' = answers := funext fun t => (hdone t).1
  have hlength (t : ℕ) : (answers' t).length = (ids t).length :=
    (hall t).1.antisymm (hdone t).2
  -- every call has an answer
  have hanswered {c : ℕ × ℕ} {id : ℕ} (hwant : wantOf ids c = some id) :
      ∃ b, answerOf answers' c = some b := by
    obtain ⟨hlt, -⟩ := List.getElem?_eq_some_iff.mp hwant
    exact ⟨_, List.getElem?_eq_getElem (hlt.trans_eq (hlength c.1).symm)⟩
  have hmem (id : ℕ) : id ∈ marks c.shared ↔ id ∈ initial ∨ ∃ t, id ∈ ids t := by
    rw [htally.mem]
    refine or_congr_right ⟨?_, ?_⟩
    · rintro ⟨c, hwant, -⟩
      exact ⟨c.1, List.mem_of_getElem? hwant⟩
    · rintro ⟨t, ht⟩
      obtain ⟨i, hi⟩ := List.getElem?_of_mem ht
      obtain ⟨b, hb⟩ := @hanswered (t, i) id hi
      exact ⟨(t, i), hi, by rw [hb]; rfl⟩
  refine ⟨hlength, hmem, fun id hold hrequested => ?_, fun id hid c hwant => ?_⟩
  · exact htally.once id ((hmem id).mpr (.inr hrequested)) hold
  · obtain ⟨b, hb⟩ := hanswered hwant
    rcases b with _ | _
    exacts [hb, absurd hb (htally.old id hid c hwant)]

/-- **Threads that delete lists**, by a delete that sets a tombstone and otherwise looks. -/
theorem deletes_start {delete : ℕ → Prog S Bool} {s : σ} (hI : I s)
    (hdelete : ∀ t, ∀ id ∈ ids t, ∀ (k : Bool → Prog S (List Bool)) answers rest,
      (∀ b, Deleting h I marks (k b) (answers ++ [b]) rest) →
      Deleting h I marks (delete id >>= k) answers (id :: rest)) :
    Deletes h I marks ids (marks s) ⟨s, fun t => (ids t).mapM delete⟩ := by
  have hall (l : List ℕ) (hl : ∃ t, ∀ id ∈ l, id ∈ ids t) (answers : List Bool) :
      Deleting h I marks (l.mapM delete >>= fun bs => .ret (answers ++ bs)) answers l := by
    induction l generalizing answers with
    | nil =>
      rw [List.mapM_nil, Prog.pure_eq, Prog.ret_bind, List.append_nil]
      exact .ret answers
    | cons id l ih =>
      obtain ⟨t, ht⟩ := hl
      rw [List.mapM_cons, bind_assoc]
      refine hdelete t id (ht id List.mem_cons_self) _ answers l fun b => ?_
      have hrest := ih ⟨t, fun id hid => ht id (List.mem_cons_of_mem _ hid)⟩ (answers ++ [b])
      simp only [List.append_assoc, List.singleton_append] at hrest
      rw [bind_assoc]
      exact hrest
  refine ⟨hI, fun _ => [], fun t => ⟨Nat.zero_le _, ?_⟩, .start fun _ => rfl⟩
  have hstart := hall (ids t) ⟨t, fun _ h => h⟩ []
  rwa [show (fun bs : List Bool => Prog.ret (S := S) ([] ++ bs)) = pure from rfl, bind_pure]
    at hstart

end

/-! ## A segment's tombstones -/

/-- The actions on the bitmap of a `SoftDeleteSet`. -/
inductive SoftDeleteOp
  /-- `bitmap.rcu(..)`: whether the id was newly added -/
  | rcuInsert (id : ℕ)

/-- What they answer. -/
def softDeleteInterface : Interface := ⟨SoftDeleteOp, fun _ => Bool⟩

namespace SoftDeleteSet

/-- What an action does to the bitmap. -/
def step : Handler softDeleteInterface (Finset ℕ)
  | _, .rcuInsert id, bitmap => some ((withTombstone id bitmap).2, (withTombstone id bitmap).1)

/-- `delete`: whether the id was newly tombstoned. -/
def delete (id : ℕ) : Prog softDeleteInterface Bool :=
  Prog.perform (S := softDeleteInterface) (.rcuInsert id)

/-- The bitmap behind its pointer, and the closure that updates it. -/
def cell : RcuCell softDeleteInterface (Finset ℕ) (Finset ℕ) where
  get bitmap := bitmap
  set bitmap _ := bitmap
  update | .rcuInsert id => some (withTombstone id)

theorem lawful_cell : cell.Lawful step where
  get_set _ _ := rfl
  handler := by
    rintro t ⟨id⟩ f bitmap ⟨⟩
    rfl

/-- **Deletes on a segment's tombstones are counted once**, however their retries interleave. -/
theorem counted_delete {ids : ℕ → List ℕ} {initial : Finset ℕ}
    {c : Racing softDeleteInterface (Finset ℕ) (Finset ℕ) (List Bool)}
    (hrun : Racing.Steps step cell (.start initial fun t => (ids t).mapM delete) c)
    {answers : ℕ → List Bool} (hret : ∀ t, c.pool t = .calm (.ret (answers t))) :
    CountedOnce ids initial c.shared answers := by
  have hstart : Deletes step (fun _ => True) (fun bitmap => bitmap) ids initial
      ⟨initial, fun t => (ids t).mapM delete⟩ := by
    refine deletes_start trivial fun t id _ k answers rest hk => ?_
    refine .tombstone (fun _ s r s' _ hs => ?_) fun _ s r s' _ hs => ?_
    · cases hs
      exact ⟨trivial, rfl⟩
    · cases hs
      exact hk _
  exact (hstart.steps (hrun.atomic lawful_cell (Racing.sound_start _ _)).2).countedOnce
    fun t => congrArg Caller.rest (hret t)

end SoftDeleteSet

end Vecvec
