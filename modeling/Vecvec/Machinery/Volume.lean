import Mathlib.Data.Set.Insert
import Mathlib.Logic.Function.Basic

/-!
# Machinery/Volume — files behind names, and what a power loss leaves of them

A name leads to an inode, and an inode has bytes.  Neither is on the disk at once: an inode's bytes
are after it was synced, and a name leads where it leads after its directory was.  Until then a
power loss may leave anything of the bytes, and of a name any place it has led to since the last
sync of its directory, of every name on its own.

What matters to the readers of a name is its **slot**: what it reads now, and what it may read after
a power loss.  A file that is replaced by renaming a synced one onto it has a slot of whole files.
-/

namespace Machinery

/-- A volume. -/
structure Volume (N α : Type) where
  /-- The bytes of an inode, as they are read. -/
  bytes : ℕ → List α
  /-- Whether they are on the disk. -/
  synced : ℕ → Bool
  /-- The inodes in use are below. -/
  next : ℕ
  /-- Where a name leads. -/
  entry : N → Option ℕ
  /-- Where it has led since its directory was synced. -/
  kept : N → List (Option ℕ)

/-- What a name reads, and what it may read after a power loss. -/
@[ext] structure Slot (α : Type) where
  now : Option (List α)
  may : Set (Option (List α))

namespace Slot

variable {α : Type}

/-- A file renamed onto the name. -/
def install (s : Slot α) (b : List α) : Slot α := ⟨some b, insert (some b) s.may⟩

/-- The name's directory synced. -/
def settle (s : Slot α) : Slot α := ⟨s.now, {s.now}⟩

/-- A power loss. -/
structure Lose (s s' : Slot α) : Prop where
  now : s'.now ∈ s.may
  may : s'.may = {s'.now}

end Slot

namespace Volume

variable {N α : Type}

/-! ## Operations -/

section

variable [DecidableEq N] (v : Volume N α)

/-- A name made to lead elsewhere. -/
def setEntry (n : N) (o : Option ℕ) : Volume N α :=
  { v with
    entry := Function.update v.entry n o
    kept := Function.update v.kept n (v.kept n ++ [o]) }

/-- A new file. -/
def create (n : N) : Volume N α :=
  { v.setEntry n (some v.next) with
    bytes := Function.update v.bytes v.next []
    synced := Function.update v.synced v.next false
    next := v.next + 1 }

/-- Bytes appended to a file. -/
def write (i : ℕ) (bs : List α) : Volume N α :=
  { v with
    bytes := Function.update v.bytes i (v.bytes i ++ bs)
    synced := Function.update v.synced i false }

/-- A file synced. -/
def sync (i : ℕ) : Volume N α := { v with synced := Function.update v.synced i true }

/-- A file renamed. -/
def rename (n n' : N) : Volume N α := (v.setEntry n' (v.entry n)).setEntry n none

/-- A name removed. -/
def unlink (n : N) : Volume N α := v.setEntry n none

end

variable (v : Volume N α)

/-- The names of a directory synced. -/
def syncDir (inside : N → Bool) : Volume N α :=
  { v with kept := fun n => if inside n then [v.entry n] else v.kept n }

/-- A power loss. -/
structure PowerLoss (v v' : Volume N α) : Prop where
  entry : ∀ n, v'.entry n ∈ v.kept n
  kept : ∀ n, v'.kept n = [v'.entry n]
  bytes : ∀ i, v.synced i = true → v'.bytes i = v.bytes i
  synced : ∀ i, v'.synced i = true
  next : v'.next = v.next

/-! ## Slots -/

/-- What a name reads. -/
def read (n : N) : Option (List α) := (v.entry n).map v.bytes

/-- The slot of a name. -/
def slot (n : N) : Slot α := ⟨v.read n, {b | ∃ o ∈ v.kept n, b = o.map v.bytes}⟩

/-- The name has led to an inode since its directory was synced. -/
def Leads (n : N) (i : ℕ) : Prop := some i ∈ v.kept n

/-- The files that a name leads to are on the disk. -/
def Whole (n : N) : Prop := ∀ i, v.Leads n i → v.synced i = true

/-- Names lead to inodes in use. -/
structure WellFormed : Prop where
  mem_kept : ∀ n, v.entry n ∈ v.kept n
  lt_next : ∀ n i, v.Leads n i → i < v.next

/-- A volume without files. -/
def empty : Volume N α := ⟨fun _ => [], fun _ => true, 0, fun _ => none, fun _ => [none]⟩

theorem not_leads_empty (n : N) (i : ℕ) : ¬ (empty : Volume N α).Leads n i := fun h => by
  cases List.mem_singleton.mp h

theorem wellFormed_empty : (empty : Volume N α).WellFormed where
  mem_kept _ := List.mem_singleton_self _
  lt_next n i h := absurd h (not_leads_empty n i)

variable {v} {v' : Volume N α} {n m : N} {o : Option ℕ} {i : ℕ} {bs : List α}

/-- A name's slot depends on the name and on the bytes of the inodes it leads to. -/
theorem slot_congr (hwf : v.WellFormed) (hentry : v'.entry n = v.entry n)
    (hkept : v'.kept n = v.kept n) (hbytes : ∀ i, v.Leads n i → v'.bytes i = v.bytes i) :
    v'.slot n = v.slot n := by
  have hmap (o : Option ℕ) (ho : o ∈ v.kept n) : o.map v'.bytes = o.map v.bytes := by
    cases o with
    | none => rfl
    | some i => exact congrArg some (hbytes i ho)
  ext b
  · rw [slot, slot, read, read, hentry, hmap _ (hwf.mem_kept n)]
  · rw [slot, slot, hkept]
    exact exists_congr fun o => and_congr_right fun ho => by rw [hmap o ho]

theorem now_mem_may (hwf : v.WellFormed) (n : N) : (v.slot n).now ∈ (v.slot n).may :=
  ⟨v.entry n, hwf.mem_kept n, rfl⟩

theorem WellFormed.leads_of_entry (hwf : v.WellFormed) (h : v.entry n = some i) : v.Leads n i := by
  rw [Leads, ← h]
  exact hwf.mem_kept n

/-! ## Bytes -/

theorem WellFormed.write (hwf : v.WellFormed) : (v.write i bs).WellFormed := ⟨hwf.1, hwf.2⟩

theorem slot_write (hwf : v.WellFormed) (h : ¬ v.Leads n i) : (v.write i bs).slot n = v.slot n := by
  refine slot_congr hwf rfl rfl fun j hj => Function.update_of_ne (fun heq => h ?_) ..
  rwa [← heq]

theorem WellFormed.sync (hwf : v.WellFormed) : (v.sync i).WellFormed := ⟨hwf.1, hwf.2⟩

theorem slot_sync (hwf : v.WellFormed) : (v.sync i).slot n = v.slot n :=
  slot_congr hwf rfl rfl fun _ _ => rfl

/-! ## Directories -/

theorem WellFormed.leads_of_syncDir (hwf : v.WellFormed) {inside : N → Bool}
    (h : (v.syncDir inside).Leads n i) : v.Leads n i := by
  cases hn : inside n with
  | false => simpa [Leads, Volume.syncDir, hn] using h
  | true =>
    have hentry : some i = v.entry n := by simpa [Leads, Volume.syncDir, hn] using h
    exact hwf.leads_of_entry hentry.symm

theorem WellFormed.syncDir (hwf : v.WellFormed) (inside : N → Bool) :
    (v.syncDir inside).WellFormed where
  mem_kept n := by
    cases hn : inside n with
    | false => simpa [Volume.syncDir, hn] using hwf.mem_kept n
    | true => simp [Volume.syncDir, hn]
  lt_next n i h := hwf.lt_next n i (hwf.leads_of_syncDir h)

/-- **A sync settles the names of its directory**, and no others. -/
theorem slot_syncDir (n : N) (inside : N → Bool) :
    (v.syncDir inside).slot n = if inside n then (v.slot n).settle else v.slot n := by
  cases hn : inside n with
  | false => simp [slot, read, syncDir, hn]
  | true => simp [slot, read, syncDir, hn, Slot.settle]

theorem WellFormed.powerLoss (hwf : v.WellFormed) (h : v.PowerLoss v') : v'.WellFormed where
  mem_kept n := h.kept n ▸ List.mem_singleton_self _
  lt_next n i hi := by
    rw [Leads, h.kept n, List.mem_singleton] at hi
    refine h.next ▸ hwf.lt_next n i ?_
    rw [Leads, hi]
    exact h.entry n

/-- A power loss that brings back every name as it was when its directory was last synced. -/
def reverted (v : Volume N α) : Volume N α where
  bytes := v.bytes
  synced _ := true
  next := v.next
  entry n := (v.kept n).head?.join
  kept n := [(v.kept n).head?.join]

theorem WellFormed.powerLoss_reverted (hwf : v.WellFormed) : v.PowerLoss v.reverted where
  entry n := by
    change (v.kept n).head?.join ∈ v.kept n
    cases hk : v.kept n with
    | nil =>
      have := hwf.mem_kept n
      rw [hk] at this
      cases this
    | cons o os => exact List.mem_cons_self
  kept _ := rfl
  bytes _ _ := rfl
  synced _ := rfl
  next := rfl

/-- **A power loss leaves a whole file** of those the name has led to, if they are all whole. -/
theorem lose_slot (h : v.PowerLoss v') (hn : v.Whole n) : (v.slot n).Lose (v'.slot n) where
  now := by
    refine ⟨v'.entry n, h.entry n, ?_⟩
    rw [slot, read]
    cases hi : v'.entry n with
    | none => rfl
    | some i =>
      have hleads : v.Leads n i := by
        rw [Leads, ← hi]
        exact h.entry n
      exact congrArg some (h.bytes i (hn i hleads))
  may := by simp [slot, read, h.kept n]

section

variable [DecidableEq N]

/-! ## One entry -/

@[simp] theorem entry_setEntry_self : (v.setEntry n o).entry n = o := Function.update_self ..

theorem entry_setEntry_of_ne (h : m ≠ n) : (v.setEntry n o).entry m = v.entry m :=
  Function.update_of_ne h ..

@[simp] theorem kept_setEntry_self : (v.setEntry n o).kept n = v.kept n ++ [o] :=
  Function.update_self ..

theorem kept_setEntry_of_ne (h : m ≠ n) : (v.setEntry n o).kept m = v.kept m :=
  Function.update_of_ne h ..

theorem leads_setEntry_self : (v.setEntry n o).Leads n i ↔ v.Leads n i ∨ o = some i := by
  rw [Leads, kept_setEntry_self, List.mem_append, List.mem_singleton, eq_comm (a := some i)]
  exact Iff.rfl

theorem leads_setEntry_of_ne (h : m ≠ n) : (v.setEntry n o).Leads m i ↔ v.Leads m i := by
  rw [Leads, kept_setEntry_of_ne h, Leads]

theorem WellFormed.mem_kept_setEntry (hwf : v.WellFormed) (n : N) (o : Option ℕ) (m : N) :
    (v.setEntry n o).entry m ∈ (v.setEntry n o).kept m := by
  rcases eq_or_ne m n with rfl | hne
  · rw [entry_setEntry_self, kept_setEntry_self]
    exact List.mem_append_right _ (List.mem_singleton_self _)
  · rw [entry_setEntry_of_ne hne, kept_setEntry_of_ne hne]
    exact hwf.mem_kept m

theorem WellFormed.setEntry (hwf : v.WellFormed) (ho : ∀ i, o = some i → i < v.next) :
    (v.setEntry n o).WellFormed where
  mem_kept := hwf.mem_kept_setEntry n o
  lt_next m i h := by
    rcases eq_or_ne m n with rfl | hne
    · exact (leads_setEntry_self.mp h).elim (hwf.lt_next m i) (ho i)
    · exact hwf.lt_next m i ((leads_setEntry_of_ne hne).mp h)

theorem slot_setEntry_of_ne (hwf : v.WellFormed) (h : m ≠ n) : (v.setEntry n o).slot m = v.slot m :=
  slot_congr hwf (entry_setEntry_of_ne h) (kept_setEntry_of_ne h) fun _ _ => rfl

/-- A name that leads to a file from now on. -/
theorem slot_setEntry_self : (v.setEntry n (some i)).slot n = (v.slot n).install (v.bytes i) := by
  ext b
  · rw [slot, read, entry_setEntry_self]
    rfl
  · rw [slot, kept_setEntry_self]
    constructor
    · rintro ⟨o, ho, rfl⟩
      rcases List.mem_append.mp ho with ho | ho
      · exact Set.mem_insert_of_mem _ ⟨o, ho, rfl⟩
      · rw [List.mem_singleton.mp ho]
        exact Set.mem_insert ..
    · rintro (rfl | ⟨o, ho, rfl⟩)
      · exact ⟨some i, List.mem_append_right _ (List.mem_singleton_self _), rfl⟩
      · exact ⟨o, List.mem_append_left _ ho, rfl⟩

/-! ## Files that no name leads to -/

theorem WellFormed.create (hwf : v.WellFormed) : (v.create n).WellFormed where
  mem_kept := hwf.mem_kept_setEntry n _
  lt_next m i h := by
    rcases eq_or_ne m n with rfl | hne
    · rcases leads_setEntry_self.mp h with h | h
      · exact Nat.lt_succ_of_lt (hwf.lt_next m i h)
      · exact Option.some.inj h ▸ Nat.lt_succ_self _
    · exact Nat.lt_succ_of_lt (hwf.lt_next m i ((leads_setEntry_of_ne hne).mp h))

theorem slot_create_of_ne (hwf : v.WellFormed) (h : m ≠ n) : (v.create n).slot m = v.slot m :=
  slot_congr hwf (entry_setEntry_of_ne h) (kept_setEntry_of_ne h) fun i hi =>
    Function.update_of_ne (hwf.lt_next m i hi).ne ..

theorem leads_create_of_ne (h : m ≠ n) : (v.create n).Leads m i ↔ v.Leads m i :=
  leads_setEntry_of_ne h

/-! ## Renaming -/

variable {n' : N}

theorem WellFormed.rename (hwf : v.WellFormed) (n n' : N) : (v.rename n n').WellFormed :=
  (hwf.setEntry fun i h => hwf.lt_next n i (hwf.leads_of_entry h)).setEntry nofun

theorem WellFormed.unlink (hwf : v.WellFormed) (n : N) : (v.unlink n).WellFormed :=
  hwf.setEntry nofun

theorem leads_rename (h : n' ≠ n) :
    (v.rename n n').Leads n' i ↔ v.Leads n' i ∨ v.entry n = some i :=
  (leads_setEntry_of_ne h).trans leads_setEntry_self

theorem leads_rename_of_ne (h : m ≠ n) (h' : m ≠ n') : (v.rename n n').Leads m i ↔ v.Leads m i :=
  (leads_setEntry_of_ne h).trans (leads_setEntry_of_ne h')

theorem entry_rename_of_ne (h : m ≠ n) (h' : m ≠ n') : (v.rename n n').entry m = v.entry m :=
  (entry_setEntry_of_ne h).trans (entry_setEntry_of_ne h')

/-- **A renamed file is installed** under its new name. -/
theorem slot_rename (hwf : v.WellFormed) (h : n' ≠ n) (hi : v.entry n = some i) :
    (v.rename n n').slot n' = (v.slot n').install (v.bytes i) := by
  have hset : (v.setEntry n' (v.entry n)).WellFormed :=
    hwf.setEntry fun j hj => hwf.lt_next n j (hwf.leads_of_entry hj)
  rw [rename, slot_setEntry_of_ne hset h, hi]
  exact slot_setEntry_self

theorem slot_rename_of_ne (hwf : v.WellFormed) (h : m ≠ n) (h' : m ≠ n') :
    (v.rename n n').slot m = v.slot m := by
  have hset : (v.setEntry n' (v.entry n)).WellFormed :=
    hwf.setEntry fun j hj => hwf.lt_next n j (hwf.leads_of_entry hj)
  exact (slot_setEntry_of_ne hset h).trans (slot_setEntry_of_ne hwf h')

end

end Volume

end Machinery
