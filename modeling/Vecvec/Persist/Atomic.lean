import Vecvec.Machinery.Volume
import Vecvec.Persist.Frame

/-!
# Persist/Atomic — files replaced as a whole

`write_atomic` writes a temporary file beside its target, syncs it, renames it onto the target and
syncs the directory.  Calls run on any number of threads; each system call of each may fail, the
process may be killed and the power may fail at any moment.

Two guarantees hold of every run.  **A target reads as a whole frame**, one that some call for it
has renamed there, or as what was there at first (`reads_whole`).  **A call that has returned is not
undone**: its target reads as its own frame or as one renamed there later (`reads_returned`).  What
the documentation says beyond that, that a failed call leaves the target untouched, holds of those
that have not come to the rename.
-/

namespace Vecvec

open Machinery

variable {D T Θ : Type}

/-! ## The code -/

/-- The names in the directories of the targets. -/
inductive AtomicName (D T : Type)
  | target (t : T)
  /-- a name of `NamedTempFile::new_in` -/
  | temp (d : D) (k : ℕ)
  deriving DecidableEq

/-- The arguments of a `write_atomic`. -/
structure AtomicWrite (T : Type) where
  path : T
  kind : FileKind
  formatVersion : UInt32
  payload : List UInt8

/-- The path an error of `write_atomic` names. -/
inductive AtomicError (D T : Type)
  | parent (d : D)
  | file (n : AtomicName D T)

/-- How far a call has come. -/
inductive AtomicPhase (D T : Type)
  | entered
  /-- The rest is to be written to the temporary file `k`, of inode `i`. -/
  | writing (k i : ℕ) (rest : List UInt8)
  | synced (k i : ℕ)
  /-- The temporary file is dropped on the way out. -/
  | dropping (k i : ℕ) (e : AtomicError D T)
  | renamed
  | returned (r : Except (AtomicError D T) Unit)

/-- The temporary file and its inode. -/
def AtomicPhase.holds : AtomicPhase D T → Option (ℕ × ℕ)
  | writing k i _ => some (k, i)
  | synced k i => some (k, i)
  | dropping k i _ => some (k, i)
  | _ => none

namespace AtomicWrite

variable (crc32 : List UInt8 → UInt32) (parent : T → D) (c : AtomicWrite T)

/-- The bytes it writes. -/
def frame : List UInt8 := writeAtomicBytes crc32 c.kind c.formatVersion c.payload

/-- Its directory. -/
def dir : D := parent c.path

/-- Its temporary file `k`. -/
def tmp (k : ℕ) : AtomicName D T := .temp (c.dir parent) k

end AtomicWrite

/-- The name is in the directory. -/
def AtomicName.inside [DecidableEq D] (parent : T → D) (d : D) : AtomicName D T → Bool
  | target t => decide (parent t = d)
  | temp d' _ => decide (d' = d)

section

variable [DecidableEq D] [DecidableEq T] (crc32 : List UInt8 → UInt32) (parent : T → D)

/-- What readers and writers have: a volume of targets and temporary files. -/
abbrev AtomicVolume (D T : Type) := Volume (AtomicName D T) UInt8

/-- **One step of a call**, its system calls as they succeed or fail. -/
inductive AtomicTurn (c : AtomicWrite T) (v : AtomicVolume D T) :
    AtomicPhase D T → AtomicVolume D T → AtomicPhase D T → Prop
  | create {k : ℕ} (hk : v.entry (c.tmp parent k) = none) :
      AtomicTurn c v .entered (v.create (c.tmp parent k)) (.writing k v.next (c.frame crc32))
  | createFails : AtomicTurn c v .entered v (.returned (.error (.parent (c.dir parent))))
  | write {k i : ℕ} {bs rest : List UInt8} :
      AtomicTurn c v (.writing k i (bs ++ rest)) (v.write i bs) (.writing k i rest)
  | sync {k i : ℕ} : AtomicTurn c v (.writing k i []) (v.sync i) (.synced k i)
  /-- writing or syncing fails -/
  | writeFails {k i : ℕ} {rest : List UInt8} :
      AtomicTurn c v (.writing k i rest) v (.dropping k i (.file (c.tmp parent k)))
  | persist {k i : ℕ} :
      AtomicTurn c v (.synced k i) (v.rename (c.tmp parent k) (.target c.path)) .renamed
  | persistFails {k i : ℕ} :
      AtomicTurn c v (.synced k i) v (.dropping k i (.file (.target c.path)))
  | drop {k i : ℕ} {e : AtomicError D T} :
      AtomicTurn c v (.dropping k i e) (v.unlink (c.tmp parent k)) (.returned (.error e))
  | dropFails {k i : ℕ} {e : AtomicError D T} :
      AtomicTurn c v (.dropping k i e) v (.returned (.error e))
  | fsyncDir : AtomicTurn c v .renamed
      (v.syncDir (AtomicName.inside parent (c.dir parent))) (.returned (.ok ()))
  | fsyncDirFails : AtomicTurn c v .renamed v (.returned (.error (.parent (c.dir parent))))

end

/-! ## Runs -/

/-- A volume and the calls in progress on it. -/
structure Writers (D T Θ : Type) where
  vol : AtomicVolume D T
  calls : Θ → Option (AtomicWrite T × AtomicPhase D T)

/-- What happens to the writers. -/
inductive AtomicEvent (D T Θ : Type)
  | called (θ : Θ) (c : AtomicWrite T)
  /-- a call comes to a phase -/
  | turn (θ : Θ) (c : AtomicWrite T) (ph : AtomicPhase D T)
  | killed
  | powerLoss

/-- A call in progress, until it has returned. -/
def AtomicWrite.at (c : AtomicWrite T) : AtomicPhase D T → Option (AtomicWrite T × AtomicPhase D T)
  | .returned _ => none
  | ph => some (c, ph)

section

variable [DecidableEq D] [DecidableEq T] [DecidableEq Θ] (crc32 : List UInt8 → UInt32)
  (parent : T → D)

/-- One step of the writers. -/
inductive WritersStep (s : Writers D T Θ) : AtomicEvent D T Θ → Writers D T Θ → Prop
  | called {θ : Θ} {c : AtomicWrite T} (hθ : s.calls θ = none) :
      WritersStep s (.called θ c) ⟨s.vol, Function.update s.calls θ (some (c, .entered))⟩
  | turn {θ : Θ} {c : AtomicWrite T} {ph ph' : AtomicPhase D T} {v : AtomicVolume D T}
      (hθ : s.calls θ = some (c, ph)) (ht : AtomicTurn crc32 parent c s.vol ph v ph') :
      WritersStep s (.turn θ c ph') ⟨v, Function.update s.calls θ (c.at ph')⟩
  | killed : WritersStep s .killed ⟨s.vol, fun _ => none⟩
  | powerLoss {v : AtomicVolume D T} (hv : s.vol.PowerLoss v) :
      WritersStep s .powerLoss ⟨v, fun _ => none⟩

/-- A run of the writers. -/
inductive WritersRuns : Writers D T Θ → List (AtomicEvent D T Θ) → Writers D T Θ → Prop
  | nil (s : Writers D T Θ) : WritersRuns s [] s
  | cons {s s' s'' : Writers D T Θ} {e : AtomicEvent D T Θ} {es : List (AtomicEvent D T Θ)}
      (hs : WritersStep crc32 parent s e s') (h : WritersRuns s' es s'') :
      WritersRuns s (e :: es) s''

end

/-- The call that an event renames onto its target. -/
def AtomicEvent.installs : AtomicEvent D T Θ → Option (AtomicWrite T)
  | turn _ c .renamed => some c
  | _ => none

/-- The calls that have been renamed onto a target, in that order. -/
def installsTo [DecidableEq T] (t : T) (es : List (AtomicEvent D T Θ)) : List (AtomicWrite T) :=
  (es.filterMap AtomicEvent.installs).filter fun c => decide (c.path = t)

section

variable [DecidableEq T] {t : T} {l l' : List (AtomicWrite T)} {crc32 : List UInt8 → UInt32}

theorem installsTo_subset_left (es es' : List (AtomicEvent D T Θ)) :
    installsTo t es ⊆ installsTo t (es ++ es') := by
  rw [installsTo, installsTo, List.filterMap_append, List.filter_append]
  exact List.subset_append_left ..

theorem installsTo_subset_right (es es' : List (AtomicEvent D T Θ)) :
    installsTo t es' ⊆ installsTo t (es ++ es') := by
  rw [installsTo, installsTo, List.filterMap_append, List.filter_append]
  exact List.subset_append_right ..

end

/-- The frames of some calls, as a target reads them. -/
def framesOf (crc32 : List UInt8 → UInt32) (l : List (AtomicWrite T)) : Set (Option (List UInt8)) :=
  {b | ∃ c ∈ l, b = some (c.frame crc32)}

theorem framesOf_mono {crc32 : List UInt8 → UInt32} {l l' : List (AtomicWrite T)} (h : l ⊆ l') :
    framesOf crc32 l ⊆ framesOf crc32 l' := by
  rintro b ⟨c, hc, rfl⟩
  exact ⟨c, h hc, rfl⟩

namespace Writers

/-- What a target reads. -/
def read (s : Writers D T Θ) (t : T) : Option (List UInt8) := s.vol.read (.target t)

/-- The slots of the targets. -/
def slots (s : Writers D T Θ) (t : T) : Slot UInt8 := s.vol.slot (.target t)

/-- What a call has written: with what is left, its frame. -/
def Written (crc32 : List UInt8 → UInt32) (v : AtomicVolume D T) (c : AtomicWrite T) :
    AtomicPhase D T → Prop
  | .writing _ i rest => v.bytes i ++ rest = c.frame crc32
  | .synced _ i => v.synced i = true ∧ v.bytes i = c.frame crc32
  | _ => True

/-- What is known of a call in progress. -/
structure Call (crc32 : List UInt8 → UInt32) (parent : T → D) (v : AtomicVolume D T)
    (c : AtomicWrite T) (ph : AtomicPhase D T) : Prop where
  /-- Its temporary file is found under its name, and under no target's. -/
  holds : ∀ k i, ph.holds = some (k, i) → i < v.next ∧ v.entry (c.tmp parent k) = some i ∧
    ∀ t, ¬ v.Leads (.target t) i
  written : Written crc32 v c ph

/-- **Targets are whole**, and each call has a temporary file of its own. -/
structure Sound (crc32 : List UInt8 → UInt32) (parent : T → D) (s : Writers D T Θ) : Prop where
  wellFormed : s.vol.WellFormed
  whole : ∀ t, s.vol.Whole (.target t)
  call : ∀ θ c ph, s.calls θ = some (c, ph) → Call crc32 parent s.vol c ph
  own : ∀ θ θ' c c' ph ph' k k' i, s.calls θ = some (c, ph) → s.calls θ' = some (c', ph') →
    ph.holds = some (k, i) → ph'.holds = some (k', i) → θ = θ'

/-! ## One step -/

variable {crc32 : List UInt8 → UInt32} {parent : T → D} {v v' : AtomicVolume D T}
  {c c' : AtomicWrite T} {ph ph' ph'' : AtomicPhase D T}

theorem target_ne_tmp {t : T} {k : ℕ} : AtomicName.target t ≠ c.tmp parent k := nofun

/-- A call's knowledge lasts while nothing it knows of changes. -/
theorem Call.of_frame (h : Call crc32 parent v c ph) (hnext : v.next ≤ v'.next)
    (hkeep : ∀ k i, ph.holds = some (k, i) → v'.entry (c.tmp parent k) = v.entry (c.tmp parent k) ∧
      v'.bytes i = v.bytes i ∧ v'.synced i = v.synced i ∧
      ∀ t, v'.Leads (.target t) i → v.Leads (.target t) i) : Call crc32 parent v' c ph where
  holds k i hki := by
    obtain ⟨hlt, hentry, hleads⟩ := h.holds k i hki
    obtain ⟨hsame, -, -, hback⟩ := hkeep k i hki
    exact ⟨hlt.trans_le hnext, hsame.trans hentry, fun t ht => hleads t (hback t ht)⟩
  written := by
    have hw := h.written
    cases ph with
    | writing k i rest => exact (congrArg (· ++ rest) (hkeep k i rfl).2.1).trans hw
    | synced k i =>
      obtain ⟨-, hbytes, hsynced, -⟩ := hkeep k i rfl
      exact ⟨hsynced.trans hw.1, hbytes.trans hw.2⟩
    | _ => trivial

/-- A call without a temporary file. -/
theorem Call.of_holds_none (h : ph.holds = none) : Call crc32 parent v c ph where
  holds k i hki := by rw [h] at hki; cases hki
  written := by
    cases ph with
    | writing k i rest => cases h
    | synced k i => cases h
    | _ => trivial

/-- No call is in progress. -/
theorem Sound.of_idle (hwf : v.WellFormed) (hwhole : ∀ t, v.Whole (.target t)) :
    Sound crc32 parent (⟨v, fun _ => none⟩ : Writers D T Θ) where
  wellFormed := hwf
  whole := hwhole
  call _ _ _ h := by cases h
  own _ _ _ _ _ _ _ _ _ h := by cases h

theorem Sound.now_mem_may {s : Writers D T Θ} (h : s.Sound crc32 parent) (t : T) :
    (s.slots t).now ∈ (s.slots t).may :=
  Volume.now_mem_may h.wellFormed (.target t)

/-- **One call comes to another phase**, on another volume. -/
theorem Sound.update [DecidableEq Θ] {s : Writers D T Θ} (h : s.Sound crc32 parent) {θ : Θ}
    {x : Option (AtomicWrite T × AtomicPhase D T)} (hwf : v.WellFormed)
    (hwhole : ∀ t, v.Whole (.target t))
    (hcall : ∀ c ph, x = some (c, ph) → Call crc32 parent v c ph)
    (hother : ∀ θ', θ' ≠ θ → ∀ c ph, s.calls θ' = some (c, ph) → Call crc32 parent v c ph)
    (hown : ∀ c ph k i, x = some (c, ph) → ph.holds = some (k, i) → ∀ θ', θ' ≠ θ →
      ∀ c' ph' k', s.calls θ' = some (c', ph') → ph'.holds ≠ some (k', i)) :
    Sound crc32 parent ⟨v, Function.update s.calls θ x⟩ := by
  have hupd {θ' : Θ} {y : AtomicWrite T × AtomicPhase D T}
      (hy : Function.update s.calls θ x θ' = some y) :
      (θ' = θ ∧ x = some y) ∨ (θ' ≠ θ ∧ s.calls θ' = some y) := by
    by_cases hne : θ' = θ
    · rw [hne, Function.update_self] at hy
      exact .inl ⟨hne, hy⟩
    · rw [Function.update_of_ne hne] at hy
      exact .inr ⟨hne, hy⟩
  refine ⟨hwf, hwhole, fun θ' c ph hc => ?_, fun θ₁ θ₂ c₁ c₂ ph₁ ph₂ k k' i h₁ h₂ hi₁ hi₂ => ?_⟩
  · rcases hupd hc with ⟨-, hx⟩ | ⟨hne, hc⟩
    · exact hcall c ph hx
    · exact hother θ' hne c ph hc
  · rcases hupd h₁ with ⟨heq₁, hx₁⟩ | ⟨hne₁, hc₁⟩ <;> rcases hupd h₂ with ⟨heq₂, hx₂⟩ | ⟨hne₂, hc₂⟩
    · exact heq₁.trans heq₂.symm
    · exact absurd hi₂ (hown c₁ ph₁ k i hx₁ hi₁ θ₂ hne₂ c₂ ph₂ k' hc₂)
    · exact absurd hi₁ (hown c₂ ph₂ k' i hx₂ hi₂ θ₁ hne₁ c₁ ph₁ k hc₁)
    · exact h.own θ₁ θ₂ c₁ c₂ ph₁ ph₂ k k' i hc₁ hc₂ hi₁ hi₂

section

variable [DecidableEq D] [DecidableEq T]

/-- **A turn keeps what its call knows.** -/
theorem Call.turn (hwf : v.WellFormed) (h : Call crc32 parent v c ph)
    (ht : AtomicTurn crc32 parent c v ph v' ph') : Call crc32 parent v' c ph' := by
  cases ht with
  | create hk =>
    refine ⟨fun k' i' hki => ?_, congrArg (· ++ _) (Function.update_self ..)⟩
    cases hki
    refine ⟨Nat.lt_succ_self _, Volume.entry_setEntry_self, fun t hl => ?_⟩
    exact lt_irrefl _ (hwf.lt_next _ _ ((Volume.leads_create_of_ne target_ne_tmp).mp hl))
  | write =>
    refine ⟨h.holds, (congrArg (· ++ _) (Function.update_self ..)).trans ?_⟩
    rw [List.append_assoc]
    exact h.written
  | sync => exact ⟨h.holds, Function.update_self .., (List.append_nil _).symm.trans h.written⟩
  | writeFails => exact ⟨h.holds, trivial⟩
  | persistFails => exact ⟨h.holds, trivial⟩
  | createFails => exact .of_holds_none rfl
  | persist => exact .of_holds_none rfl
  | drop => exact .of_holds_none rfl
  | dropFails => exact .of_holds_none rfl
  | fsyncDir => exact .of_holds_none rfl
  | fsyncDirFails => exact .of_holds_none rfl

/-- **A turn keeps what another call knows**, one with a temporary file of its own. -/
theorem Call.turn_other (hwf : v.WellFormed) (h : Call crc32 parent v c ph)
    (ht : AtomicTurn crc32 parent c v ph v' ph') (h' : Call crc32 parent v c' ph'')
    (hown : ∀ k k' i, ph.holds = some (k, i) → ph''.holds ≠ some (k', i)) :
    Call crc32 parent v' c' ph'' := by
  -- another inode, hence another name
  have hname {k k' i i' : ℕ} (hi : ph.holds = some (k, i)) (hi' : ph''.holds = some (k', i')) :
      i' ≠ i ∧ c'.tmp parent k' ≠ c.tmp parent k := by
    have hne : i' ≠ i := fun heq => hown k k' i hi (heq ▸ hi')
    refine ⟨hne, fun heq => hne ?_⟩
    have hentry' := (h'.holds k' i' hi').2.1
    rw [heq, (h.holds k i hi).2.1] at hentry'
    exact (Option.some.inj hentry').symm
  cases ht with
  | create hk =>
    rename_i k
    refine h'.of_frame (Nat.le_succ _) fun k' i' hi' => ?_
    obtain ⟨hlt, hentry, -⟩ := h'.holds k' i' hi'
    have hne : c'.tmp parent k' ≠ c.tmp parent k := fun heq => by
      rw [heq, hk] at hentry
      cases hentry
    exact ⟨Volume.entry_setEntry_of_ne hne, Function.update_of_ne hlt.ne ..,
      Function.update_of_ne hlt.ne .., fun t hl => (Volume.leads_create_of_ne target_ne_tmp).mp hl⟩
  | write =>
    refine h'.of_frame le_rfl fun k' i' hi' => ?_
    have hne := (hname rfl hi').1
    exact ⟨rfl, Function.update_of_ne hne .., Function.update_of_ne hne .., fun _ hl => hl⟩
  | sync =>
    refine h'.of_frame le_rfl fun k' i' hi' => ?_
    exact ⟨rfl, rfl, Function.update_of_ne (hname rfl hi').1 .., fun _ hl => hl⟩
  | persist =>
    rename_i k i
    refine h'.of_frame le_rfl fun k' i' hi' => ?_
    obtain ⟨hne, hne'⟩ := hname rfl hi'
    refine ⟨Volume.entry_rename_of_ne hne' target_ne_tmp.symm, rfl, rfl, fun t hl => ?_⟩
    by_cases htc : t = c.path
    · rw [htc] at hl ⊢
      refine ((Volume.leads_rename target_ne_tmp).mp hl).resolve_right fun hentry => hne ?_
      rw [(h.holds k i rfl).2.1] at hentry
      exact (Option.some.inj hentry).symm
    · refine (Volume.leads_rename_of_ne target_ne_tmp fun heq => ?_).mp hl
      exact htc (AtomicName.target.inj heq)
  | drop =>
    refine h'.of_frame le_rfl fun k' i' hi' => ?_
    exact ⟨Volume.entry_setEntry_of_ne (hname rfl hi').2, rfl, rfl, fun t hl =>
      (Volume.leads_setEntry_of_ne target_ne_tmp).mp hl⟩
  | fsyncDir =>
    exact h'.of_frame le_rfl fun _ _ _ => ⟨rfl, rfl, rfl, fun t hl => hwf.leads_of_syncDir hl⟩
  | createFails => exact h'
  | writeFails => exact h'
  | persistFails => exact h'
  | dropFails => exact h'
  | fsyncDirFails => exact h'

/-- **A turn leaves targets whole.** -/
theorem whole_turn (hwf : v.WellFormed) (hwhole : ∀ t, v.Whole (.target t))
    (h : Call crc32 parent v c ph) (ht : AtomicTurn crc32 parent c v ph v' ph') (t : T) :
    v'.Whole (.target t) := by
  intro j hj
  cases ht with
  | create =>
    have hj := (Volume.leads_create_of_ne target_ne_tmp).mp hj
    exact (Function.update_of_ne (hwf.lt_next _ j hj).ne ..).trans (hwhole t j hj)
  | write =>
    rename_i k i bs rest
    have hne : j ≠ i := fun heq => (h.holds k i rfl).2.2 t (heq ▸ hj)
    exact (Function.update_of_ne hne ..).trans (hwhole t j hj)
  | sync =>
    rename_i k i
    have hne : j ≠ i := fun heq => (h.holds k i rfl).2.2 t (heq ▸ hj)
    exact (Function.update_of_ne hne ..).trans (hwhole t j hj)
  | persist =>
    rename_i k i
    by_cases htc : t = c.path
    · rw [htc] at hj
      rcases (Volume.leads_rename target_ne_tmp).mp hj with hj | hentry
      · exact hwhole _ j hj
      · rw [(h.holds k i rfl).2.1] at hentry
        exact Option.some.inj hentry ▸ h.written.1
    · exact hwhole t j
        ((Volume.leads_rename_of_ne target_ne_tmp fun heq => htc (AtomicName.target.inj heq)).mp hj)
  | drop => exact hwhole t j ((Volume.leads_setEntry_of_ne target_ne_tmp).mp hj)
  | fsyncDir => exact hwhole t j (hwf.leads_of_syncDir hj)
  | createFails => exact hwhole t j hj
  | writeFails => exact hwhole t j hj
  | persistFails => exact hwhole t j hj
  | dropFails => exact hwhole t j hj
  | fsyncDirFails => exact hwhole t j hj

theorem wellFormed_turn (hwf : v.WellFormed) (ht : AtomicTurn crc32 parent c v ph v' ph') :
    v'.WellFormed := by
  cases ht with
  | create => exact hwf.create
  | write => exact hwf.write
  | sync => exact hwf.sync
  | persist => exact hwf.rename ..
  | drop => exact hwf.unlink _
  | fsyncDir => exact hwf.syncDir _
  | _ => exact hwf

variable (crc32 parent) in
/-- What a call that has come to a phase has done to the slots of the targets. -/
def moved (c : AtomicWrite T) (σ : T → Slot UInt8) : AtomicPhase D T → T → Slot UInt8
  | .renamed => Function.update σ c.path ((σ c.path).install (c.frame crc32))
  | .returned (.ok ()) => fun t => if parent t = c.dir parent then (σ t).settle else σ t
  | _ => σ

/-- **The slots of the targets after a turn.** -/
theorem slots_turn (hwf : v.WellFormed) (h : Call crc32 parent v c ph)
    (ht : AtomicTurn crc32 parent c v ph v' ph') :
    (fun t => v'.slot (.target t)) = moved crc32 parent c (fun t => v.slot (.target t)) ph' := by
  funext t
  cases ht with
  | create => exact Volume.slot_create_of_ne hwf target_ne_tmp
  | write =>
    rename_i k i bs rest
    exact Volume.slot_write hwf ((h.holds k i rfl).2.2 t)
  | sync => exact Volume.slot_sync hwf
  | persist =>
    rename_i k i
    by_cases htc : t = c.path
    · rw [htc, moved, Function.update_self,
        Volume.slot_rename hwf target_ne_tmp (h.holds k i rfl).2.1, h.written.2]
    · rw [moved, Function.update_of_ne htc]
      exact Volume.slot_rename_of_ne hwf target_ne_tmp fun heq => htc (AtomicName.target.inj heq)
  | drop => exact Volume.slot_setEntry_of_ne hwf target_ne_tmp
  | fsyncDir => simp only [Volume.slot_syncDir, AtomicName.inside, decide_eq_true_eq, moved]
  | _ => rfl

/-- A temporary file is its call's from its creation on. -/
theorem holds_turn {k i : ℕ} (ht : AtomicTurn crc32 parent c v ph v' ph')
    (hi : ph'.holds = some (k, i)) : ph.holds = some (k, i) ∨ i = v.next := by
  cases ht with
  | create => cases hi; exact .inr rfl
  | write => exact .inl hi
  | sync => exact .inl hi
  | writeFails => exact .inl hi
  | persistFails => exact .inl hi
  | _ => cases hi

/-! ## Slots replaced as a whole -/

variable {σ σ' : T → Slot UInt8} {e : AtomicEvent D T Θ}

variable (crc32 parent) in
/-- **What an event does to the slots**: a rename installs a frame, a sync settles a directory. -/
inductive SlotsStep (σ : T → Slot UInt8) : AtomicEvent D T Θ → (T → Slot UInt8) → Prop
  | called {θ : Θ} {c : AtomicWrite T} : SlotsStep σ (.called θ c) σ
  | turn {θ : Θ} {c : AtomicWrite T} {ph : AtomicPhase D T} :
      SlotsStep σ (.turn θ c ph) (moved crc32 parent c σ ph)
  | killed : SlotsStep σ .killed σ
  | powerLoss {σ' : T → Slot UInt8} (h : ∀ t, (σ t).Lose (σ' t)) : SlotsStep σ .powerLoss σ'

/-- **What a target may read** after an event, it might before, or the event has renamed it there.
-/
theorem SlotsStep.may_subset (h : SlotsStep crc32 parent σ e σ') (hσ : ∀ t, (σ t).now ∈ (σ t).may)
    (t : T) : (σ' t).may ⊆ (σ t).may ∪ framesOf crc32 (installsTo t [e]) := by
  cases h with
  | called => exact Set.subset_union_left
  | killed => exact Set.subset_union_left
  | powerLoss h =>
    rw [(h t).may]
    exact (Set.singleton_subset_iff.mpr (h t).now).trans Set.subset_union_left
  | turn =>
    rename_i θ c ph
    cases ph with
    | renamed =>
      by_cases htc : t = c.path
      · rw [htc, moved, Function.update_self]
        refine Set.insert_subset (.inr ⟨c, ?_, rfl⟩) Set.subset_union_left
        exact List.mem_filter.mpr ⟨List.mem_singleton_self c, decide_eq_true rfl⟩
      · rw [moved, Function.update_of_ne htc]
        exact Set.subset_union_left
    | returned r =>
      cases r with
      | error _ => exact Set.subset_union_left
      | ok _ =>
        simp only [moved]
        split
        · exact (Set.singleton_subset_iff.mpr (hσ t)).trans Set.subset_union_left
        · exact Set.subset_union_left
    | _ => exact Set.subset_union_left

/-- What a target reads changes with a rename or a power loss only. -/
theorem SlotsStep.now_mem (h : SlotsStep crc32 parent σ e σ') (he : e ≠ .powerLoss) (t : T) :
    (σ' t).now ∈ {(σ t).now} ∪ framesOf crc32 (installsTo t [e]) := by
  cases h with
  | called => exact .inl rfl
  | killed => exact .inl rfl
  | powerLoss _ => exact absurd rfl he
  | turn =>
    rename_i θ c ph
    cases ph with
    | renamed =>
      by_cases htc : t = c.path
      · rw [htc, moved, Function.update_self]
        exact .inr ⟨c, List.mem_filter.mpr ⟨List.mem_singleton_self c, decide_eq_true rfl⟩, rfl⟩
      · rw [moved, Function.update_of_ne htc]
        exact .inl rfl
    | returned r =>
      cases r with
      | error _ => exact .inl rfl
      | ok _ =>
        simp only [moved]
        split
        · exact .inl rfl
        · exact .inl rfl
    | _ => exact .inl rfl

/-! ## Refinement -/

variable [DecidableEq Θ] {s s' : Writers D T Θ} {es es' : List (AtomicEvent D T Θ)} {t : T}

/-- **The system calls refine the slots.** -/
theorem Sound.step (h : s.Sound crc32 parent) (hs : WritersStep crc32 parent s e s') :
    s'.Sound crc32 parent ∧ SlotsStep crc32 parent s.slots e s'.slots := by
  cases hs with
  | called hθ =>
    refine ⟨h.update h.wellFormed h.whole (fun c ph hx => ?_) (fun θ' _ => h.call θ')
      fun c ph k i hx hi => ?_, .called⟩
    · cases hx
      exact .of_holds_none rfl
    · cases hx
      cases hi
  | turn hθ ht =>
    rename_i θ c ph ph' v
    have hcall := h.call θ c ph hθ
    have hat {y : AtomicWrite T × AtomicPhase D T} (hx : c.at ph' = some y) : y = (c, ph') := by
      cases ph' with
      | returned r => cases hx
      | _ => exact (Option.some.inj hx).symm
    refine ⟨h.update (wellFormed_turn h.wellFormed ht) (whole_turn h.wellFormed h.whole hcall ht)
      (fun c' ph'' hx => ?_) (fun θ' hne c' ph'' hc' => ?_)
      fun c' ph'' k i hx hi θ' hne c'' ph₂ k' hc'' hi' => ?_, ?_⟩
    · cases hat hx
      exact hcall.turn h.wellFormed ht
    · exact hcall.turn_other h.wellFormed ht (h.call θ' c' ph'' hc') fun k k' i hi hi' =>
        hne (h.own θ' θ c' c ph'' ph k' k i hc' hθ hi' hi)
    · cases hat hx
      rcases holds_turn ht hi with hi | rfl
      · exact hne (h.own θ' θ c'' c ph₂ ph k' k i hc'' hθ hi' hi)
      · exact lt_irrefl _ ((h.call θ' c'' ph₂ hc'').holds k' _ hi').1
    · change SlotsStep crc32 parent s.slots _ fun t => v.slot (.target t)
      rw [slots_turn h.wellFormed hcall ht]
      exact .turn
  | killed => exact ⟨.of_idle h.wellFormed h.whole, .killed⟩
  | powerLoss hv =>
    exact ⟨.of_idle (h.wellFormed.powerLoss hv) fun t i _ => hv.synced i,
      .powerLoss fun t => Volume.lose_slot hv (h.whole t)⟩

/-! ## Runs -/

theorem Sound.runs (h : s.Sound crc32 parent) (hr : WritersRuns crc32 parent s es s') :
    s'.Sound crc32 parent := by
  induction hr with
  | nil => exact h
  | cons hs _ ih => exact ih (h.step hs).1

/-- **What a target may read after a run.** -/
theorem may_runs (h : s.Sound crc32 parent) (hr : WritersRuns crc32 parent s es s') (t : T) :
    (s'.slots t).may ⊆ (s.slots t).may ∪ framesOf crc32 (installsTo t es) := by
  induction hr with
  | nil => exact Set.subset_union_left
  | @cons s s₁ s' e es hs _ ih =>
    obtain ⟨h₁, hslots⟩ := h.step hs
    refine (ih h₁).trans (Set.union_subset ((hslots.may_subset h.now_mem_may t).trans ?_) ?_)
    · exact Set.union_subset_union_right _ (framesOf_mono (installsTo_subset_left [e] es))
    · exact (framesOf_mono (installsTo_subset_right [e] es)).trans Set.subset_union_right

/-- **What a target reads after a run** without a power loss. -/
theorem now_runs (h : s.Sound crc32 parent) (hr : WritersRuns crc32 parent s es s')
    (hes : .powerLoss ∉ es) (t : T) :
    (s'.slots t).now ∈ {(s.slots t).now} ∪ framesOf crc32 (installsTo t es) := by
  induction hr with
  | nil => exact .inl rfl
  | @cons s s₁ s' e es hs _ ih =>
    obtain ⟨h₁, hslots⟩ := h.step hs
    rcases ih h₁ (fun hmem => hes (List.mem_cons_of_mem _ hmem)) with hnow | hnow
    · rw [Set.mem_singleton_iff.mp hnow]
      refine (hslots.now_mem (fun heq => hes (heq ▸ List.mem_cons_self)) t).imp_right fun hmem => ?_
      exact framesOf_mono (installsTo_subset_left [e] es) hmem
    · exact .inr (framesOf_mono (installsTo_subset_right [e] es) hnow)

theorem runs_append (hr : WritersRuns crc32 parent s (es ++ es') s') :
    ∃ s₁, WritersRuns crc32 parent s es s₁ ∧ WritersRuns crc32 parent s₁ es' s' := by
  induction es generalizing s with
  | nil => exact ⟨s, .nil s, hr⟩
  | cons e es ih =>
    cases hr with
    | cons hs hr =>
      obtain ⟨s₁, h₁, h₁'⟩ := ih hr
      exact ⟨s₁, .cons hs h₁, h₁'⟩

/-- **A renamed frame stays**: once a call in its directory has returned, its target may read
nothing older. -/
theorem may_returned (h : s.Sound crc32 parent) {es₁ es₂ es₃ : List (AtomicEvent D T Θ)} {θ θ' : Θ}
    (hr : WritersRuns crc32 parent s (es₁ ++ .turn θ c .renamed ::
      (es₂ ++ .turn θ' c' (.returned (.ok ())) :: es₃)) s')
    (hdir : parent c'.path = parent c.path) (hes₂ : .powerLoss ∉ es₂) :
    (s'.slots c.path).may ⊆ framesOf crc32 (c :: installsTo c.path (es₂ ++ es₃)) := by
  obtain ⟨s₁, hr₁, hr⟩ := runs_append hr
  have h₁ := h.runs hr₁
  cases hr with
  | @cons _ s₂ _ _ _ hrename hr =>
    obtain ⟨h₂, hslots₂⟩ := h₁.step hrename
    obtain ⟨s₃, hr₃, hr⟩ := runs_append hr
    have hnow := now_runs h₂ hr₃ hes₂ c.path
    have h₃ := h₂.runs hr₃
    cases hr with
    | @cons _ s₄ _ _ _ hreturn hr₅ =>
      obtain ⟨h₄, hslots₄⟩ := h₃.step hreturn
      have hmay := may_runs h₄ hr₅ c.path
      have hnow₂ : (s₂.slots c.path).now = some (c.frame crc32) := by
        generalize hσ : s₂.slots = σ at hslots₂
        cases hslots₂
        rw [moved, Function.update_self]
        rfl
      have hmay₄ : (s₄.slots c.path).may = {(s₃.slots c.path).now} := by
        generalize hσ : s₄.slots = σ at hslots₄
        cases hslots₄
        simp only [moved, AtomicWrite.dir, hdir, if_true]
        rfl
      rw [hnow₂] at hnow
      have hlater : framesOf crc32 (installsTo c.path es₂) ⊆
          framesOf crc32 (c :: installsTo c.path (es₂ ++ es₃)) :=
        framesOf_mono (List.Subset.trans (installsTo_subset_left es₂ es₃)
          (List.subset_cons_self ..))
      refine hmay.trans (Set.union_subset ?_ ?_)
      · rw [hmay₄, Set.singleton_subset_iff]
        rcases hnow with hnow | hnow
        · exact ⟨c, List.mem_cons_self, hnow⟩
        · exact hlater hnow
      · exact framesOf_mono
          (List.Subset.trans (installsTo_subset_right es₂ es₃) (List.subset_cons_self ..))

end

end Writers

/-! ## Guarantees -/

section

variable (crc32 : List UInt8 → UInt32) (checks : Bool)

/-- The file reads as a call's frame, and parses to what that call was given. -/
def AtomicWrite.ReadIn (c : AtomicWrite T) (file : Option (List UInt8)) : Prop :=
  file = some (c.frame crc32) ∧ ∀ (bytes : Slice) (path : String), file = some bytes.bytes →
    (parseFramed crc32 checks path bytes).run =
      some (.ok ⟨c.formatVersion, c.kind.asU32, c.payload⟩)

theorem readIn_of_mem_framesOf {file : Option (List UInt8)} {l : List (AtomicWrite T)}
    (h : file ∈ framesOf crc32 l) : ∃ c ∈ l, c.ReadIn crc32 checks file := by
  obtain ⟨c, hc, hfile⟩ := h
  refine ⟨c, hc, hfile, fun bytes path hbytes => parseFramed_frameBytes ?_⟩
  exact Option.some.inj (hbytes.symm.trans hfile)

end

section

variable [DecidableEq D] [DecidableEq T] [DecidableEq Θ] {crc32 : List UInt8 → UInt32}
  {parent : T → D}
  {checks : Bool} {v : AtomicVolume D T} {s : Writers D T Θ}

/-- **Files are replaced as a whole**: in every run, a target reads as it did at first, or as the
frame of a call that has been renamed there. -/
theorem reads_whole (hwf : v.WellFormed) (hwhole : ∀ t, v.Whole (.target t))
    {es : List (AtomicEvent D T Θ)} (hr : WritersRuns crc32 parent ⟨v, fun _ => none⟩ es s)
    (t : T) : s.read t ∈ (v.slot (.target t)).may ∨
      ∃ c ∈ installsTo t es, c.ReadIn crc32 checks (s.read t) := by
  have h : Writers.Sound crc32 parent (⟨v, fun _ => none⟩ : Writers D T Θ) := .of_idle hwf hwhole
  refine (Writers.may_runs h hr t ((h.runs hr).now_mem_may t)).imp_right fun hmem => ?_
  exact readIn_of_mem_framesOf crc32 checks hmem

/-- **A write that has returned is not undone**, by kills, failures, power losses or other calls:
its target reads as its frame, or as one that was renamed there later. -/
theorem reads_returned (hwf : v.WellFormed) (hwhole : ∀ t, v.Whole (.target t))
    {es₁ es₂ es₃ : List (AtomicEvent D T Θ)} {θ θ' : Θ} {c c' : AtomicWrite T}
    (hr : WritersRuns crc32 parent ⟨v, fun _ => none⟩ (es₁ ++ .turn θ c .renamed ::
      (es₂ ++ .turn θ' c' (.returned (.ok ())) :: es₃)) s)
    (hdir : parent c'.path = parent c.path) (hes₂ : .powerLoss ∉ es₂) :
    ∃ c'' ∈ c :: installsTo c.path (es₂ ++ es₃), c''.ReadIn crc32 checks (s.read c.path) := by
  have h : Writers.Sound crc32 parent (⟨v, fun _ => none⟩ : Writers D T Θ) := .of_idle hwf hwhole
  exact readIn_of_mem_framesOf crc32 checks
    (Writers.may_returned h hr hdir hes₂ ((h.runs hr).now_mem_may c.path))

end

/-! ## A run -/

theorem WritersRuns.append [DecidableEq D] [DecidableEq T] [DecidableEq Θ]
    {crc32 : List UInt8 → UInt32} {parent : T → D} {s s' s'' : Writers D T Θ}
    {es es' : List (AtomicEvent D T Θ)} (h : WritersRuns crc32 parent s es s')
    (h' : WritersRuns crc32 parent s' es' s'') : WritersRuns crc32 parent s (es ++ es') s'' := by
  induction h with
  | nil => exact h'
  | cons hs _ ih => exact .cons hs (ih h')

/-- A write of a `HEAD`, -/
def headWrite : AtomicWrite String := ⟨"HEAD", .head, 1, [7]⟩

/-- and one of the next. -/
def nextHeadWrite : AtomicWrite String := ⟨"HEAD", .head, 1, [8]⟩

/-- The steps of one write that succeeds. -/
def headEvents : List (AtomicEvent Unit String Unit) :=
  [.called () headWrite, .turn () headWrite (.writing 0 0 (headWrite.frame fun _ => 0)),
    .turn () headWrite (.writing 0 0 []), .turn () headWrite (.synced 0 0),
    .turn () headWrite .renamed, .turn () headWrite (.returned (.ok ()))]

/-- Those of another, up to its rename. -/
def nextHeadEvents : List (AtomicEvent Unit String Unit) :=
  [.called () nextHeadWrite,
    .turn () nextHeadWrite (.writing 0 1 (nextHeadWrite.frame fun _ => 0)),
    .turn () nextHeadWrite (.writing 0 1 []), .turn () nextHeadWrite (.synced 0 1),
    .turn () nextHeadWrite .renamed]

/-- A power loss, and a third write that fails. -/
def failedHeadEvents : List (AtomicEvent Unit String Unit) :=
  [.powerLoss, .called () nextHeadWrite,
    .turn () nextHeadWrite (.writing 0 2 (nextHeadWrite.frame fun _ => 0)),
    .turn () nextHeadWrite (.dropping 0 2 (.file (.temp () 0))),
    .turn () nextHeadWrite (.returned (.error (.file (.temp () 0))))]

theorem AtomicTurn.writeAll [DecidableEq D] [DecidableEq T] {crc32 : List UInt8 → UInt32}
    {parent : T → D} {c : AtomicWrite T} {v : AtomicVolume D T} {k i : ℕ} {bs : List UInt8} :
    AtomicTurn crc32 parent c v (.writing k i bs) (v.write i bs) (.writing k i []) := by
  have h : AtomicTurn crc32 parent c v (.writing k i (bs ++ [])) (v.write i bs) (.writing k i []) :=
    .write
  rwa [List.append_nil] at h

/-- The power loss brings the first `HEAD` back, and the last write leaves it. -/
theorem exists_runs_headEvents : ∃ s : Writers Unit String Unit,
    WritersRuns (fun _ => 0) (fun _ => ()) ⟨.empty, fun _ => none⟩
      (headEvents ++ nextHeadEvents ++ failedHeadEvents) s ∧
      s.read "HEAD" = some (headWrite.frame fun _ => 0) := by
  obtain ⟨s, hentry, hfree, hnext, hbytes, hr⟩ : ∃ s : Writers Unit String Unit,
      s.vol.reverted.entry (.target "HEAD") = some 0 ∧
      s.vol.reverted.entry (.temp () 0) = none ∧ s.vol.reverted.next = 2 ∧
      s.vol.reverted.bytes 0 = headWrite.frame (fun _ => 0) ∧
      WritersRuns (fun _ => 0) (fun _ => ()) ⟨.empty, fun _ => none⟩
        (headEvents ++ nextHeadEvents) s :=
    ⟨_, rfl, rfl, rfl, rfl, .append
      (.cons (.called rfl) (.cons (.turn rfl (.create rfl)) (.cons (.turn rfl .writeAll)
        (.cons (.turn rfl .sync) (.cons (.turn rfl .persist) (.cons (.turn rfl .fsyncDir)
          (.nil _)))))))
      (.cons (.called rfl) (.cons (.turn rfl (.create rfl)) (.cons (.turn rfl .writeAll)
        (.cons (.turn rfl .sync) (.cons (.turn rfl .persist) (.nil _))))))⟩
  have hsound : s.Sound (fun _ => 0) fun _ => () :=
    (Writers.Sound.of_idle Volume.wellFormed_empty
      fun t i h => absurd h (Volume.not_leads_empty _ i)).runs hr
  have hcreate : AtomicTurn (fun _ => 0) (fun _ => ()) nextHeadWrite s.vol.reverted .entered
      (s.vol.reverted.create (.temp () 0)) (.writing 0 2 (nextHeadWrite.frame fun _ => 0)) :=
    hnext ▸ .create hfree
  refine ⟨_, hr.append (.cons (.powerLoss hsound.wellFormed.powerLoss_reverted)
    (.cons (.called rfl) (.cons (.turn rfl hcreate) (.cons (.turn rfl .writeFails)
      (.cons (.turn rfl .drop) (.nil _)))))), ?_⟩
  have hread : (((s.vol.reverted.create (.temp () 0)).unlink (.temp () 0)).read
      (.target "HEAD")) = s.vol.reverted.read (.target "HEAD") := by
    simp [Volume.read, Volume.unlink, Volume.create, Volume.setEntry, hentry, hnext]
  refine hread.trans ?_
  rw [Volume.read, hentry, Option.map_some, hbytes]

/-- A file that was replaced, not replaced after all, and then not replaced again, is whole. -/
theorem reads_whole_head : ∃ s : Writers Unit String Unit,
    s.read "HEAD" = some (headWrite.frame fun _ => 0) ∧
      (s.read "HEAD" ∈ ((Volume.empty : AtomicVolume Unit String).slot (.target "HEAD")).may ∨
        ∃ c ∈ installsTo "HEAD" (headEvents ++ nextHeadEvents ++ failedHeadEvents),
          c.ReadIn (fun _ => 0) true (s.read "HEAD")) := by
  obtain ⟨s, hr, hread⟩ := exists_runs_headEvents
  exact ⟨s, hread, reads_whole Volume.wellFormed_empty
    (fun t i h => absurd h (Volume.not_leads_empty _ i)) hr "HEAD"⟩

theorem reads_returned_head : ∃ s : Writers Unit String Unit,
    s.read "HEAD" = some (headWrite.frame fun _ => 0) ∧
      ∃ c ∈ [headWrite, nextHeadWrite], c.ReadIn (fun _ => 0) true (s.read "HEAD") := by
  obtain ⟨s, hr, hread⟩ := exists_runs_headEvents
  have hsplit : WritersRuns (fun _ => 0) (fun _ => ()) ⟨.empty, fun _ => none⟩
      (headEvents.take 4 ++ .turn () headWrite .renamed ::
        ([] ++ .turn () headWrite (.returned (.ok ())) :: (nextHeadEvents ++ failedHeadEvents)))
      s := hr
  exact ⟨s, hread, reads_returned Volume.wellFormed_empty
    (fun t i h => absurd h (Volume.not_leads_empty _ i)) hsplit rfl List.not_mem_nil⟩

end Vecvec
