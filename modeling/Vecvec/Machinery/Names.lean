import Mathlib.Data.Finset.Basic
import Mathlib.Data.List.Infix
import Mathlib.Logic.Function.Basic

/-!
# Machinery/Names — names of a file system, and what a power loss spares

A file is found under its name, and a name is an entry of a directory: it outlives a power loss for
sure only once that directory has been synced after the name was made.  A path is **durable** when
this holds of each name on it (`Durable`); making and syncing keep it so, and a power loss spares it
(`Durable.loses`).

A whole file may be renamed over another.  Until the directory is synced a power loss may bring the
old file back: the files that may be found under a name are kept in a list, the last one first, and
a sync leaves that one only.

Paths are relative to a directory that is always there, the empty path.
-/

namespace Machinery

variable {α β : Type}

/-- The paths there are, those whose last name has been synced since it was made, and the whole
files renamed to them. -/
structure Names (α β : Type) where
  /-- The paths there are. -/
  made : Finset (List α)
  /-- Those whose name has been synced. -/
  kept : Finset (List α)
  /-- The whole files that may be found under a name, the last one first. -/
  files : List α → List β

/-- What is done to names. -/
inductive NameOp (α β : Type)
  /-- a file or directory made -/
  | create (p : List α)
  /-- a whole file renamed to the path -/
  | replace (p : List α) (x : β)
  /-- a file removed -/
  | remove (p : List α)
  /-- an `fsync` of a directory -/
  | sync (d : List α)

/-- Every directory down to a path (`create_dir_all`). -/
def NameOp.createDirAll (p : List α) : List (NameOp α β) :=
  (p.inits.filter fun q => q ≠ []).map .create

/-- The step is an `fsync`. -/
def NameOp.isSync : NameOp α β → Bool
  | .sync _ => true
  | _ => false

/-- The step makes a path, or renames a file to it. -/
def NameOp.Makes (q : List α) : NameOp α β → Prop
  | .create p | .replace p _ => p = q
  | _ => False

theorem NameOp.of_mem_createDirAll {p : List α} {op : NameOp α β} (h : op ∈ createDirAll p) :
    ∃ q, q <+: p ∧ op = .create q := by
  obtain ⟨q, hq, rfl⟩ := List.mem_map.mp h
  exact ⟨q, (List.mem_inits q p).mp (List.mem_filter.mp hq).1, rfl⟩

theorem NameOp.create_mem_createDirAll {p q : List α} (h : q <+: p) (hne : q ≠ []) :
    (.create q : NameOp α β) ∈ createDirAll p :=
  List.mem_map.mpr ⟨q, List.mem_filter.mpr ⟨(List.mem_inits q p).mpr h, decide_eq_true hne⟩, rfl⟩

namespace Names

/-! ## Durable paths -/

/-- Each name on the path has been synced. -/
def Durable (N : Names α β) (p : List α) : Prop := ∀ q ∈ p.inits, q ≠ [] → q ∈ N.kept

/-- What a power loss may leave: some of the names, in directories that are left; the durable ones
among them; under each one of the whole files it may have; and what is left is on the disk. -/
structure Loses (N N' : Names α β) : Prop where
  /-- Nothing is new. -/
  made : N'.made ⊆ N.made
  /-- A file is found through its directories. -/
  closed : ∀ p ∈ N'.made, ∀ q ∈ p.inits, q ≠ [] → q ∈ N'.made
  /-- Durable paths are spared. -/
  spares : ∀ p, p ≠ [] → N.Durable p → p ∈ N'.made
  /-- What is left is on the disk. -/
  kept : N'.kept = N'.made
  /-- A name that is lost has no file. -/
  gone : ∀ p, p ∉ N'.made → N'.files p = []
  /-- A name that is left has one of its files, if it has any. -/
  left : ∀ p ∈ N'.made, N'.files p = [] ∧ N.files p = [] ∨ ∃ x ∈ N.files p, N'.files p = [x]

variable {N N' : Names α β} {p q d : List α} {ops : List (NameOp α β)}

/-- A name below a durable path, itself synced. -/
theorem Durable.concat {a : α} (h : N.Durable p) (ha : p ++ [a] ∈ N.kept) :
    N.Durable (p ++ [a]) := by
  intro q hq hne
  rcases List.prefix_concat_iff.mp ((List.mem_inits q _).mp hq) with rfl | hq
  · exact ha
  · exact h q ((List.mem_inits q p).mpr hq) hne

theorem Durable.of_prefix (h : N.Durable p) (hq : q <+: p) : N.Durable q :=
  fun r hr hne => h r ((List.mem_inits r p).mpr (((List.mem_inits r q).mp hr).trans hq)) hne

/-- **A power loss spares a durable path**, and leaves it durable. -/
theorem Durable.loses (h : N.Durable p) (hl : N.Loses N') : N'.Durable p := by
  intro q hq hne
  rw [hl.kept]
  exact hl.spares q hne (h.of_prefix ((List.mem_inits q p).mp hq))

/-- **Under a durable path, the file is the one it must be**, if all that may be there are that. -/
theorem Loses.files_of_durable (hl : N.Loses N') (hp : N.Durable p) (hne : p ≠ []) {x : β}
    (hsome : N.files p ≠ []) (hx : ∀ y ∈ N.files p, y = x) : N'.files p = [x] := by
  rcases hl.left p (hl.spares p hne hp) with ⟨-, h⟩ | ⟨y, hy, h⟩
  · exact absurd h hsome
  · rw [h, hx y hy]

/-- **Under a durable path, one file** stays as it is; and so does none. -/
theorem Loses.files_eq (hl : N.Loses N') (hne : p ≠ []) (hp : N.files p ≠ [] → N.Durable p)
    (hlen : (N.files p).length ≤ 1) : N'.files p = N.files p := by
  by_cases hf : N.files p = []
  · by_cases hm : p ∈ N'.made
    · obtain ⟨h, -⟩ | ⟨x, hx, -⟩ := hl.left p hm
      · rw [h, hf]
      · rw [hf] at hx
        cases hx
    · rw [hl.gone p hm, hf]
  · obtain ⟨x, hx⟩ := List.length_eq_one_iff.mp (le_antisymm hlen (List.length_pos_iff.mpr hf))
    rw [hx]
    exact hl.files_of_durable (hp hf) hne hf fun y hy => List.mem_singleton.mp (hx ▸ hy)

/-! ## Steps -/

variable [DecidableEq α]

instance : Decidable (N.Durable p) := by
  unfold Durable
  infer_instance

/-- The synced names are there, in synced directories. -/
def Rooted (N : Names α β) : Prop := N.kept ⊆ N.made ∧ ∀ p ∈ N.kept, N.Durable p

instance : Decidable N.Rooted := by
  unfold Rooted
  infer_instance

/-- What a power loss leaves at least: the synced names, each with the last of its files. -/
def synced (N : Names α β) : Names α β :=
  ⟨N.kept, N.kept, fun p => if p ∈ N.kept then (N.files p).take 1 else []⟩

/-- **Every name that was not synced may go**, where the synced ones are rooted. -/
theorem Rooted.loses (h : N.Rooted) : N.Loses N.synced := by
  refine ⟨h.1, h.2, fun p hne hp => hp p ((List.mem_inits p p).mpr List.prefix_rfl) hne, rfl,
    fun p hp => if_neg hp, fun p hp => ?_⟩
  have hp : N.synced.files p = (N.files p).take 1 := if_pos hp
  rw [hp]
  cases N.files p with
  | nil => exact .inl ⟨rfl, rfl⟩
  | cons x xs => exact .inr ⟨x, List.mem_cons_self, rfl⟩

/-- What a step does. -/
def perform (N : Names α β) : NameOp α β → Names α β
  | .create p => { N with made := insert p N.made }
  | .replace p x =>
    { N with made := insert p N.made, files := Function.update N.files p (x :: N.files p) }
  | .remove p => ⟨N.made.erase p, N.kept.erase p, Function.update N.files p []⟩
  | .sync d =>
    { N with
      kept := N.kept ∪ N.made.filter fun p => p ≠ [] ∧ p.dropLast = d
      files := fun p => if p ≠ [] ∧ p.dropLast = d then (N.files p).take 1 else N.files p }

/-- Steps, one after another. -/
abbrev performAll (N : Names α β) (ops : List (NameOp α β)) : Names α β := ops.foldl perform N

theorem mem_made_perform {op : NameOp α β} :
    q ∈ (N.perform op).made ↔ op.Makes q ∨ q ∈ N.made ∧ op ≠ .remove q := by
  cases op with
  | create p | replace p =>
    refine Finset.mem_insert.trans (or_congr eq_comm ?_)
    exact (and_iff_left nofun).symm
  | remove p =>
    refine Finset.mem_erase.trans ?_
    simp [NameOp.Makes, and_comm, eq_comm]
  | sync d => simp [perform, NameOp.Makes]

theorem mem_kept_sync : q ∈ (N.perform (.sync d)).kept ↔
    q ∈ N.kept ∨ q ∈ N.made ∧ q ≠ [] ∧ q.dropLast = d := by
  rw [perform, Finset.mem_union, Finset.mem_filter]

/-- What is not removed stays synced. -/
theorem mem_kept_perform {op : NameOp α β} (hop : op ≠ .remove q) (hq : q ∈ N.kept) :
    q ∈ (N.perform op).kept := by
  cases op with
  | create | replace => exact hq
  | remove p => exact Finset.mem_erase.mpr ⟨fun h => hop (h ▸ rfl), hq⟩
  | sync d => exact Finset.mem_union_left _ hq

/-- What is neither made nor removed is there if it was. -/
theorem mem_made_performAll (hc : ∀ op ∈ ops, ¬ op.Makes q) (hr : .remove q ∉ ops) :
    q ∈ (N.performAll ops).made ↔ q ∈ N.made := by
  induction ops generalizing N with
  | nil => exact Iff.rfl
  | cons op ops ih =>
    rw [List.mem_cons, not_or] at hr
    obtain ⟨hop, hc⟩ := List.forall_mem_cons.mp hc
    refine (ih hc hr.2).trans (mem_made_perform.trans ?_)
    rw [or_iff_right hop, and_iff_left (Ne.symm hr.1)]

theorem mem_kept_performAll (hr : .remove q ∉ ops) (hq : q ∈ N.kept) :
    q ∈ (N.performAll ops).kept := by
  induction ops generalizing N with
  | nil => exact hq
  | cons op ops ih =>
    rw [List.mem_cons, not_or] at hr
    exact ih hr.2 (mem_kept_perform (Ne.symm hr.1) hq)

/-- What is there, or is made, and is not removed is there. -/
theorem mem_made_performAll_of (h : q ∈ N.made ∨ ∃ op ∈ ops, op.Makes q) (hr : .remove q ∉ ops) :
    q ∈ (N.performAll ops).made := by
  induction ops generalizing N with
  | nil => exact h.resolve_right fun ⟨_, hop, _⟩ => List.not_mem_nil hop
  | cons op ops ih =>
    rw [List.mem_cons, not_or] at hr
    refine ih ?_ hr.2
    rw [mem_made_perform]
    rcases h with h | ⟨op', hop', hm⟩
    · exact .inl (.inr ⟨h, Ne.symm hr.1⟩)
    · rcases List.mem_cons.mp hop' with rfl | hop'
      · exact .inl (.inl hm)
      · exact .inr ⟨op', hop', hm⟩

/-- What is removed and not made is gone. -/
theorem notMem_made_of_remove (hr : .remove q ∈ ops) (hc : ∀ op ∈ ops, ¬ op.Makes q) :
    q ∉ (N.performAll ops).made := by
  induction ops generalizing N with
  | nil => cases hr
  | cons op ops ih =>
    obtain ⟨hop, hcs⟩ := List.forall_mem_cons.mp hc
    by_cases hrs : .remove q ∈ ops
    · exact ih hrs hcs
    · intro h
      obtain h | ⟨-, h⟩ := mem_made_perform.mp ((mem_made_performAll hcs hrs).mp h)
      · exact hop h
      · exact h ((List.mem_cons.mp hr).resolve_right hrs).symm

/-- Steps that remove nothing of a path leave it durable. -/
theorem Durable.performAll (h : N.Durable p) (hr : ∀ q, q <+: p → .remove q ∉ ops) :
    (N.performAll ops).Durable p := fun q hq hne =>
  mem_kept_performAll (hr q ((List.mem_inits q p).mp hq)) (h q hq hne)

/-- **After a sync**, every name in the directory has been synced, -/
theorem mem_kept_perform_sync {a : α} (hq : d ++ [a] ∈ N.made) :
    d ++ [a] ∈ (N.perform (.sync d)).kept :=
  mem_kept_sync.mpr (.inr ⟨hq, List.append_ne_nil_of_right_ne_nil _ (by simp), by simp⟩)

/-- and the file last renamed to it is the only one it may have. -/
theorem files_perform_sync {a : α} :
    (N.perform (.sync d)).files (d ++ [a]) = (N.files (d ++ [a])).take 1 := if_pos (by simp)

/-- A sync leaves the last file of a name. -/
theorem files_sync (N : Names α β) (d q : List α) : (N.perform (.sync d)).files q = N.files q ∨
    (N.perform (.sync d)).files q = (N.files q).take 1 := by
  change (if _ then _ else _) = _ ∨ (if _ then _ else _) = _
  split
  · exact .inr rfl
  · exact .inl rfl

end Names

end Machinery
