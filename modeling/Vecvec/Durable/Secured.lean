import Vecvec.Durable.Adrift
import Vecvec.Durable.Entries

/-!
# Durable/Secured — which files a power loss may take, or bring back

Beside the log, a recovery reads `HEAD`, the versions file and the segment files the two name.  They
are written through `write_atomic`, so that a power loss finds them as they are — but for one that a
process was renaming into place when it died.  A directory is **secured** (`Disk.Secured`) if this
does no harm: the names of the segment files named have been synced, the files of the working set
can only be the ones they are, and so can `HEAD` and the versions file unless the log is adrift.

Every effect of a request keeps it so, as long as it names only what is synced (`DiskEffect.Safe`).
-/

namespace Vecvec

open Machinery

variable {P : Platform} {cfg : CollectionConfig} {dir : List FileName} {N N' : DirNames}
  {d d' : Disk} {w w' : World} {b : Bool} {e : DiskEffect} {es : List DiskEffect}
  {L : GlobalId → List F32}

/-! ## Names of whole files -/

/-- The path of a file that is replaced as a whole. -/
def IsWhole (dir p : List FileName) : Prop :=
  p = dir ++ [.head] ∨ p = dir ++ [.versions] ∨ ∃ id, p = segmentPath dir id

theorem isWhole_segmentPath {id : SegmentId} : IsWhole dir (segmentPath dir id) :=
  .inr (.inr ⟨id, rfl⟩)

theorem segmentPath_inj {id id' : SegmentId} :
    segmentPath dir id = segmentPath dir id' ↔ id = id' := by
  simp [segmentPath]

theorem segmentPath_ne {id : SegmentId} {name : FileName} :
    segmentPath dir id ≠ dir ++ [name] := fun h => by
  have := congrArg List.length h
  simp [segmentPath, segmentsPath] at this

theorem segmentsPath_ne {p : List FileName} (hp : IsWhole dir p) : segmentsPath dir ≠ p := by
  rintro rfl
  rcases hp with h | h | ⟨id, h⟩
  · simp [segmentsPath] at h
  · simp [segmentsPath] at h
  · exact segmentPath_ne h.symm

/-- A whole file is not a directory above one. -/
theorem not_prefix_of_isWhole {p : List FileName} (hp : IsWhole dir p) :
    ¬ p <+: segmentsPath dir := fun h => by
  rcases hp with rfl | rfl | ⟨id, rfl⟩
  · have := h.eq_of_length (by simp [segmentsPath])
    simp [segmentsPath] at this
  · have := h.eq_of_length (by simp [segmentsPath])
    simp [segmentsPath] at this
  · have := h.length_le
    simp only [segmentPath, List.length_append, List.length_singleton] at this
    omega

theorem walPath_not_isWhole {g : ℕ} : ¬ IsWhole dir (walPath dir g) := by
  rintro (h | h | ⟨id, h⟩)
  · simp [walPath] at h
  · simp [walPath] at h
  · exact segmentPath_ne h.symm

theorem walPath_ne_segmentsPath {g : ℕ} : walPath dir g ≠ segmentsPath dir := by
  simp [walPath, segmentsPath]

theorem config_not_isWhole : ¬ IsWhole dir (dir ++ [.config]) := by
  rintro (h | h | ⟨id, h⟩)
  · simp at h
  · simp at h
  · exact segmentPath_ne h.symm

/-- Two states of the names that differ in nothing about whole files. -/
structure SameWhole (dir : List FileName) (N N' : DirNames) : Prop where
  /-- What may be found. -/
  files : ∀ p, IsWhole dir p → N'.files p = N.files p
  /-- What is there. -/
  made : ∀ p, IsWhole dir p → (p ∈ N'.made ↔ p ∈ N.made)
  /-- What has been synced. -/
  kept : ∀ p, IsWhole dir p → (p ∈ N'.kept ↔ p ∈ N.kept)
  /-- The segment store's directory is there if it was, -/
  there : segmentsPath dir ∈ N.made → segmentsPath dir ∈ N'.made
  /-- and synced if it was. -/
  stays : segmentsPath dir ∈ N.kept → segmentsPath dir ∈ N'.kept

/-- A step that has nothing to do with whole files. -/
def OffWhole (dir : List FileName) : DirOp → Prop
  | .create p => ¬ IsWhole dir p
  | .remove p => ¬ IsWhole dir p ∧ p ≠ segmentsPath dir
  | _ => False

theorem SameWhole.refl (N : DirNames) : SameWhole dir N N :=
  ⟨fun _ _ => rfl, fun _ _ => Iff.rfl, fun _ _ => Iff.rfl, id, id⟩

theorem SameWhole.trans {N'' : DirNames} (h : SameWhole dir N N') (h' : SameWhole dir N' N'') :
    SameWhole dir N N'' :=
  ⟨fun p hp => (h'.files p hp).trans (h.files p hp), fun p hp => (h'.made p hp).trans (h.made p hp),
    fun p hp => (h'.kept p hp).trans (h.kept p hp), fun hs => h'.there (h.there hs),
    fun hs => h'.stays (h.stays hs)⟩

theorem SameWhole.perform {op : DirOp} (hop : OffWhole dir op) :
    SameWhole dir N (N.perform op) := by
  cases op with
  | create p =>
    refine ⟨fun _ _ => rfl, fun q hq => ?_, fun _ _ => Iff.rfl, Finset.mem_insert_of_mem, id⟩
    refine Finset.mem_insert.trans (or_iff_right ?_)
    rintro rfl
    exact hop hq
  | remove p =>
    have hne {q : List FileName} (hq : IsWhole dir q) : q ≠ p := fun h => hop.1 (h ▸ hq)
    exact ⟨fun q hq => Function.update_of_ne (hne hq) .., fun q hq => Finset.mem_erase.trans
        (and_iff_right (hne hq)), fun q hq => Finset.mem_erase.trans (and_iff_right (hne hq)),
      fun hs => Finset.mem_erase.mpr ⟨hop.2.symm, hs⟩,
      fun hs => Finset.mem_erase.mpr ⟨hop.2.symm, hs⟩⟩
  | replace | sync => exact hop.elim

theorem SameWhole.performAll {ops : List DirOp} (hops : ∀ op ∈ ops, OffWhole dir op) :
    SameWhole dir N (N.performAll ops) := by
  induction ops generalizing N with
  | nil => exact .refl N
  | cons op ops ih =>
    obtain ⟨hop, hops⟩ := List.forall_mem_cons.mp hops
    exact (SameWhole.perform hop).trans (ih hops)

/-- The directories on the way to a file of the store are made. -/
theorem offWhole_createDirAll {p : List FileName} (hp : p <+: segmentsPath dir) :
    ∀ op ∈ (NameOp.createDirAll p : List DirOp), OffWhole dir op := fun op hop => by
  obtain ⟨q, hq, rfl⟩ := NameOp.of_mem_createDirAll hop
  exact fun hw => not_prefix_of_isWhole hw (hq.trans hp)

/-! ## Secured directories -/

/-- The names of the files a recovery reads have been synced, or will do no harm. -/
structure Disk.Secured (dir : List FileName) (N : DirNames) (b : Bool) (d : Disk) : Prop where
  /-- The whole files are under their names. -/
  tracks : d.Tracks dir N
  /-- A whole file is there under its name. -/
  filled : ∀ p, IsWhole dir p → (p ∈ N.made ↔ N.files p ≠ [])
  /-- Segment files are in the store's directory. -/
  under : ∀ id, segmentPath dir id ∈ N.made → segmentsPath dir ∈ N.made
  /-- A segment file whose name has been synced is there. -/
  sub : ∀ id, segmentPath dir id ∈ N.kept → segmentPath dir id ∈ N.made
  /-- The names of the segment files that are named have been synced. -/
  named : ∀ id ∈ d.named, segmentPath dir id ∈ N.made → segmentPath dir id ∈ N.kept
  /-- The files of the working set are what they are. -/
  working : ∀ id ∈ d.workingIds, ∀ x ∈ N.files (segmentPath dir id),
    some x = (d.segments id).map .segment
  /-- Unless the log is adrift, the names of `HEAD` and the versions file have been synced, -/
  synced : b = false → ∀ name ∈ [FileName.head, .versions], dir ++ [name] ∈ N.made →
    dir ++ [name] ∈ N.kept
  /-- the files are what they are, -/
  single : b = false → ∀ name ∈ [FileName.head, .versions], (N.files (dir ++ [name])).length ≤ 1
  /-- and the name of the store's directory has been synced if a file in it is named. -/
  store : b = false → (∃ id ∈ d.named, segmentPath dir id ∈ N.made) → segmentsPath dir ∈ N.kept

theorem isWhole_of_mem {name : FileName} (h : name ∈ [FileName.head, .versions]) :
    IsWhole dir (dir ++ [name]) := by
  simp only [List.mem_cons, List.not_mem_nil, or_false] at h
  rcases h with rfl | rfl
  · exact .inl rfl
  · exact .inr (.inl rfl)

namespace Disk.Secured

/-- An adrift log asks for less. -/
theorem mono (h : d.Secured dir N b) {b' : Bool} (hb : b' = false → b = false) :
    d.Secured dir N b' :=
  ⟨h.tracks, h.filled, h.under, h.sub, h.named, h.working, fun hb' => h.synced (hb hb'),
    fun hb' => h.single (hb hb'), fun hb' => h.store (hb hb')⟩

/-- Names that differ in nothing about whole files, and a directory with the same ones. -/
theorem same (h : d.Secured dir N b) (hN : SameWhole dir N N') (hh : d'.head = d.head)
    (hv : d'.versions = d.versions) (hs : d'.segments = d.segments) : d'.Secured dir N' b := by
  have hnamed : d'.named = d.named := by rw [Disk.named, Disk.named, Disk.referenced,
    Disk.referenced, hh, hv]
  have hworking : d'.workingIds = d.workingIds := by rw [Disk.workingIds, Disk.workingIds, hh]
  have hseg (id : SegmentId) : IsWhole dir (segmentPath dir id) := isWhole_segmentPath
  refine ⟨⟨?_, ?_, fun id => ?_⟩, fun p hp => ?_, fun id hid => ?_, fun id hid => ?_,
    fun id hid hm => ?_, fun id hid => ?_, fun hb name hname hm => ?_, fun hb name hname => ?_,
    fun hb hex => ?_⟩
  · rw [hN.files _ (.inl rfl), hh, h.tracks.head]
  · rw [hN.files _ (.inr (.inl rfl)), hv, h.tracks.versions]
  · rw [hN.files _ (hseg id), hs, h.tracks.segments id]
  · rw [hN.made p hp, hN.files p hp, h.filled p hp]
  · exact hN.there (h.under id ((hN.made _ (hseg id)).mp hid))
  · exact (hN.made _ (hseg id)).mpr (h.sub id ((hN.kept _ (hseg id)).mp hid))
  · exact (hN.kept _ (hseg id)).mpr (h.named id (hnamed ▸ hid) ((hN.made _ (hseg id)).mp hm))
  · rw [hN.files _ (hseg id), hs]
    exact h.working id (hworking ▸ hid)
  · have hw : IsWhole dir (dir ++ [name]) := isWhole_of_mem hname
    exact (hN.kept _ hw).mpr (h.synced hb name hname ((hN.made _ hw).mp hm))
  · rw [hN.files _ (isWhole_of_mem hname)]
    exact h.single hb name hname
  · obtain ⟨id, hid, hm⟩ := hex
    exact hN.stays (h.store hb ⟨id, hnamed ▸ hid, (hN.made _ (hseg id)).mp hm⟩)

/-- **A file is there** exactly if its name is. -/
theorem mem_made_segment (h : d.Secured dir N b) {id : SegmentId} :
    segmentPath dir id ∈ N.made ↔ (d.segments id).isSome := by
  have := h.tracks.segments id
  rw [h.filled _ isWhole_segmentPath]
  cases hd : d.segments id with
  | none =>
    rw [hd] at this
    simp [List.head?_eq_none_iff.mp this]
  | some rows =>
    rw [hd] at this
    simp [List.ne_nil_of_mem (List.mem_of_head? this)]

/-! ### Syncs -/

/-- **A sync** of any directory. -/
theorem sync (h : d.Secured dir N b) (q : List FileName) :
    d.Secured dir (N.perform (.sync q)) b := by
  have hhead (p : List FileName) : ((N.perform (.sync q)).files p).head? = (N.files p).head? := by
    rcases N.files_sync q p with hf | hf
    · rw [hf]
    · rw [hf]
      cases N.files p <;> rfl
  have hsub (p : List FileName) : (N.perform (.sync q)).files p ⊆ N.files p := by
    rcases N.files_sync q p with hf | hf
    · rw [hf]
      exact fun _ => id
    · rw [hf]
      exact List.take_subset ..
  have hlen (p : List FileName) :
      ((N.perform (.sync q)).files p).length ≤ (N.files p).length := by
    rcases N.files_sync q p with hf | hf
    · rw [hf]
    · rw [hf, List.length_take]
      exact min_le_right ..
  have hkept {p : List FileName} (hp : p ∈ N.kept) : p ∈ (N.perform (.sync q)).kept :=
    Names.mem_kept_sync.mpr (.inl hp)
  refine ⟨⟨(hhead _).trans h.tracks.head, (hhead _).trans h.tracks.versions,
    fun id => (hhead _).trans (h.tracks.segments id)⟩, fun p hp =>
      (h.filled p hp).trans ?_, h.under,
    fun id hid => ?_, fun id hid hm => hkept (h.named id hid hm),
    fun id hid x hx => h.working id hid x (hsub _ hx),
    fun hb name hname hm => hkept (h.synced hb name hname hm),
    fun hb name hname => (hlen _).trans (h.single hb name hname),
    fun hb hex => hkept (h.store hb hex)⟩
  · rw [ne_eq, ne_eq, ← List.head?_eq_none_iff, ← List.head?_eq_none_iff, hhead]
  · rcases Names.mem_kept_sync.mp hid with hid | ⟨hid, -⟩
    · exact h.sub id hid
    · exact hid

/-- **A sync of the collection's directory** puts an end to whatever was adrift. -/
theorem syncDir (h : d.Secured dir N b) (b' : Bool) :
    d.Secured dir (N.perform (.sync dir)) b' := by
  have hs := h.sync dir
  refine ⟨hs.tracks, hs.filled, hs.under, hs.sub, hs.named, hs.working,
    fun _ name _ hm => Names.mem_kept_perform_sync hm, fun _ name _ => ?_, fun _ hex => ?_⟩
  · rw [Names.files_perform_sync, List.length_take]
    exact min_le_left ..
  · obtain ⟨id, -, hm⟩ := hex
    exact Names.mem_kept_perform_sync (h.under id hm)

/-! ### Files replaced and removed -/

/-- What a replacement does to the other names. -/
theorem files_replace_of_ne {p q : List FileName} {x : WholeFile} (hne : q ≠ p) :
    (N.perform (.replace p x)).files q = N.files q := Function.update_of_ne hne ..

theorem files_replace_self {p : List FileName} {x : WholeFile} :
    (N.perform (.replace p x)).files p = x :: N.files p := Function.update_self ..

theorem filled_replace (h : d.Secured dir N b) {q : List FileName} {x : WholeFile}
    (p : List FileName) (hp : IsWhole dir p) :
    p ∈ (N.perform (.replace q x)).made ↔ (N.perform (.replace q x)).files p ≠ [] := by
  by_cases hpq : p = q
  · subst hpq
    rw [files_replace_self]
    exact iff_of_true (Finset.mem_insert_self ..) (by simp)
  · rw [files_replace_of_ne hpq, ← h.filled p hp]
    exact Finset.mem_insert.trans (or_iff_right hpq)

/-- **A segment file renamed into place**: not over a different one of the working set, and not
under a name that is referred to already and was not there. -/
theorem replaceSegment (h : d.Secured dir N b) {s : SealedSegment}
    (hdir : segmentsPath dir ∈ N.made)
    (hsame : s.id ∈ d.workingIds → d.segments s.id = some s.rows)
    (hkept : s.id ∈ d.named → segmentPath dir s.id ∈ N.kept) :
    (d.setSegment s.id (some s.rows)).Secured dir
      (N.perform (.replace (segmentPath dir s.id) (.segment s.rows))) b := by
  have hmade {q : List FileName} (hq : q ≠ segmentPath dir s.id) :
      q ∈ (N.perform (.replace (segmentPath dir s.id) (.segment s.rows))).made ↔ q ∈ N.made :=
    Finset.mem_insert.trans (or_iff_right hq)
  have hnamed (id : SegmentId) (hid : id ∈ d.named)
      (hm : segmentPath dir id ∈
        (N.perform (.replace (segmentPath dir s.id) (.segment s.rows))).made) :
      segmentPath dir id ∈ N.made := by
    by_cases heq : id = s.id
    · subst heq
      exact h.sub _ (hkept hid)
    · exact (hmade (segmentPath_inj.not.mpr heq)).mp hm
  refine ⟨⟨?_, ?_, fun id => ?_⟩, h.filled_replace, fun _ _ => Finset.mem_insert_of_mem hdir,
    fun id hid => Finset.mem_insert_of_mem (h.sub id hid),
    fun id hid hm => h.named id hid (hnamed id hid hm), fun id hid x hx => ?_,
    fun hb name hname hm => h.synced hb name hname ((hmade segmentPath_ne.symm).mp hm),
    fun hb name hname => ?_, fun hb hex => ?_⟩
  · rw [files_replace_of_ne segmentPath_ne.symm]
    exact h.tracks.head
  · rw [files_replace_of_ne segmentPath_ne.symm]
    exact h.tracks.versions
  · by_cases heq : id = s.id
    · subst heq
      rw [files_replace_self]
      simp [Disk.setSegment]
    · rw [files_replace_of_ne (segmentPath_inj.not.mpr heq), h.tracks.segments id]
      simp [Disk.setSegment, heq]
  · by_cases heq : id = s.id
    · subst heq
      rw [files_replace_self] at hx
      have hnew : ((d.setSegment s.id (some s.rows)).segments s.id).map WholeFile.segment =
          some (.segment s.rows) := by simp [Disk.setSegment]
      rw [hnew]
      rcases List.mem_cons.mp hx with rfl | hx
      · rfl
      · rw [h.working _ hid x hx, hsame hid]
        rfl
    · rw [files_replace_of_ne (segmentPath_inj.not.mpr heq)] at hx
      rw [h.working id hid x hx]
      simp [Disk.setSegment, heq]
  · rw [files_replace_of_ne segmentPath_ne.symm]
    exact h.single hb name hname
  · obtain ⟨id, hid, hm⟩ := hex
    exact h.store hb ⟨id, hid, hnamed id hid hm⟩

/-- **The versions file renamed into place**, naming segment files whose names have been synced. -/
theorem replaceVersions (h : d.Secured dir N b) {s : VersionStoreSnapshot}
    (hkept : ∀ id ∈ s.referenced, segmentPath dir id ∈ N.kept) :
    ({ d with versions := some s } : Disk).Secured dir
      (N.perform (.replace (dir ++ [.versions]) (.versions s))) true := by
  have hne : dir ++ [FileName.head] ≠ dir ++ [.versions] := by simp
  have hno {p : Prop} : true = false → p := fun h => by cases h
  refine ⟨⟨?_, ?_, fun id => ?_⟩, h.filled_replace,
    fun id hid => Finset.mem_insert_of_mem (h.under id ?_),
    fun id hid => Finset.mem_insert_of_mem (h.sub id hid), fun id hid hm => ?_,
    fun id hid x hx => h.working id hid x ?_, hno, hno, hno⟩
  · rw [files_replace_of_ne hne]
    exact h.tracks.head
  · rw [files_replace_self]
    rfl
  · rw [files_replace_of_ne segmentPath_ne]
    exact h.tracks.segments id
  · exact (Finset.mem_insert.mp hid).resolve_left segmentPath_ne
  · rcases Disk.mem_named.mp hid with hid | hid
    · exact h.named id (Disk.mem_named.mpr (.inl hid))
        ((Finset.mem_insert.mp hm).resolve_left segmentPath_ne)
    · exact hkept id hid
  · rwa [files_replace_of_ne segmentPath_ne] at hx

/-- **`HEAD` renamed into place**, naming segment files whose names have been synced, and which can
only be what they are. -/
theorem replaceHead (h : d.Secured dir N b) {hd : CheckpointHead}
    (hkept : ∀ id ∈ hd.allSegmentIds ++ hd.workingSegmentIds, segmentPath dir id ∈ N.kept ∧
      (N.files (segmentPath dir id)).length ≤ 1) :
    ({ d with head := some hd } : Disk).Secured dir
      (N.perform (.replace (dir ++ [.head]) (.head hd))) true := by
  have hne : dir ++ [FileName.versions] ≠ dir ++ [.head] := by simp
  have hno {p : Prop} : true = false → p := fun h => by cases h
  refine ⟨⟨?_, ?_, fun id => ?_⟩, h.filled_replace,
    fun id hid => Finset.mem_insert_of_mem (h.under id ?_),
    fun id hid => Finset.mem_insert_of_mem (h.sub id hid), fun id hid hm => ?_,
    fun id hid x hx => ?_, hno, hno, hno⟩
  · rw [files_replace_self]
    rfl
  · rw [files_replace_of_ne hne]
    exact h.tracks.versions
  · rw [files_replace_of_ne segmentPath_ne]
    exact h.tracks.segments id
  · exact (Finset.mem_insert.mp hid).resolve_left segmentPath_ne
  · rcases Disk.mem_named.mp hid with hid | hid
    · exact (hkept id hid).1
    · exact h.named id (Disk.mem_named.mpr (.inr hid))
        ((Finset.mem_insert.mp hm).resolve_left segmentPath_ne)
  · rw [files_replace_of_ne segmentPath_ne] at hx
    have hlen := (hkept id (List.mem_append_right _ hid)).2
    have htracks := h.tracks.segments id
    cases hf : N.files (segmentPath dir id) with
    | nil =>
      rw [hf] at hx
      cases hx
    | cons y ys =>
      rw [hf] at hx hlen htracks
      obtain rfl : ys = [] := List.eq_nil_of_length_eq_zero (by simpa using hlen)
      rw [List.mem_singleton.mp hx, ← htracks]
      rfl

/-- **A segment file removed** that is not of the working set. -/
theorem removeSegment (h : d.Secured dir N b) {id : SegmentId} (hid : id ∉ d.workingIds) :
    (d.setSegment id none).Secured dir (N.perform (.remove (segmentPath dir id))) b := by
  have hother {q : List FileName} (hq : q ≠ segmentPath dir id) :
      (N.perform (.remove (segmentPath dir id))).files q = N.files q :=
    Function.update_of_ne hq ..
  have hself : (N.perform (.remove (segmentPath dir id))).files (segmentPath dir id) = [] :=
    Function.update_self ..
  have hmade {q : List FileName} : q ∈ (N.perform (.remove (segmentPath dir id))).made ↔
      q ≠ segmentPath dir id ∧ q ∈ N.made := Finset.mem_erase
  have hkept {q : List FileName} : q ∈ (N.perform (.remove (segmentPath dir id))).kept ↔
      q ≠ segmentPath dir id ∧ q ∈ N.kept := Finset.mem_erase
  have hstore : segmentsPath dir ≠ segmentPath dir id := segmentsPath_ne isWhole_segmentPath
  refine ⟨⟨?_, ?_, fun i => ?_⟩, fun p hp => ?_, fun i hi => ?_, fun i hi => ?_, fun i hi hm => ?_,
    fun i hi x hx => ?_, fun hb name hname hm => ?_, fun hb name hname => ?_,
    fun hb hex => ?_⟩
  · rw [hother segmentPath_ne.symm]
    exact h.tracks.head
  · rw [hother segmentPath_ne.symm]
    exact h.tracks.versions
  · by_cases heq : i = id
    · subst heq
      rw [hself]
      simp [Disk.setSegment]
    · rw [hother (segmentPath_inj.not.mpr heq), h.tracks.segments i]
      simp [Disk.setSegment, heq]
  · by_cases heq : p = segmentPath dir id
    · subst heq
      exact iff_of_false (fun hm => (hmade.mp hm).1 rfl) (fun hne => hne hself)
    · rw [hother heq, ← h.filled p hp, hmade, and_iff_right heq]
  · exact hmade.mpr ⟨hstore, h.under i (hmade.mp hi).2⟩
  · exact hmade.mpr ⟨(hkept.mp hi).1, h.sub i (hkept.mp hi).2⟩
  · exact hkept.mpr ⟨(hmade.mp hm).1, h.named i hi (hmade.mp hm).2⟩
  · have heq : i ≠ id := fun heq => hid (heq ▸ hi)
    rw [hother (segmentPath_inj.not.mpr heq)] at hx
    rw [h.working i hi x hx]
    simp [Disk.setSegment, heq]
  · exact hkept.mpr ⟨segmentPath_ne.symm, h.synced hb name hname (hmade.mp hm).2⟩
  · rw [hother segmentPath_ne.symm]
    exact h.single hb name hname
  · obtain ⟨i, hi, hm⟩ := hex
    exact hkept.mpr ⟨hstore, h.store hb ⟨i, hi, (hmade.mp hm).2⟩⟩

end Disk.Secured

/-! ## One effect -/

/-- The effect writes no segment file over a different one of the working set, removes none of it,
and names only segment files whose names have been synced. -/
def DiskEffect.Safe (dir : List FileName) (d : Disk) (N : DirNames) : DiskEffect → Prop
  | .writeSegment s => (s.id ∈ d.workingIds → d.segments s.id = some s.rows) ∧
      (s.id ∈ d.named → segmentPath dir s.id ∈ N.kept)
  | .removeSegment id => id ∉ d.workingIds
  | .writeVersions s => ∀ id ∈ s.referenced, segmentPath dir id ∈ N.kept
  | .writeHead h => ∀ id ∈ h.allSegmentIds ++ h.workingSegmentIds,
      segmentPath dir id ∈ N.kept ∧ (N.files (segmentPath dir id)).length ≤ 1
  | _ => True

namespace DiskEffect

/-- Opening a log. -/
theorem offWhole_openLog {g : ℕ} : ∀ op ∈ nameOps dir N (.openLog g), OffWhole dir op :=
  List.forall_mem_append.mpr ⟨offWhole_createDirAll (List.prefix_append _ _),
    List.forall_mem_singleton.mpr walPath_not_isWhole⟩

/-- A segment file, renamed into place. -/
theorem followTorn_writeSegment (s : SealedSegment) : followTorn dir N (.writeSegment s) =
    (N.performAll (NameOp.createDirAll (segmentsPath dir))).perform
      (.replace (segmentPath dir s.id) (.segment s.rows)) := by
  have hmk : ∀ op ∈ (NameOp.createDirAll (segmentsPath dir) : List DirOp), !op.isSync := by
    intro op hop
    obtain ⟨q, -, rfl⟩ := NameOp.of_mem_createDirAll hop
    rfl
  rw [followTorn, nameOps, List.filter_append, List.filter_eq_self.mpr hmk, Names.performAll,
    List.foldl_append]
  rfl

/-- **The sync is the last step** of an effect that has one. -/
theorem follow_eq (e : DiskEffect) (N : DirNames) : e.syncsDir = false ∧
      (e.follow dir N = e.followTorn dir N ∨
        ∃ q, e.follow dir N = (e.followTorn dir N).perform (.sync q)) ∨
    e.follow dir N = (e.followTorn dir N).perform (.sync dir) := by
  cases e with
  | append | flush | removeLog | removeSegment => exact .inl ⟨rfl, .inl rfl⟩
  | openLog g => exact .inl ⟨rfl, .inl (followTorn_openLog g).symm⟩
  | writeSegment s =>
    refine .inl ⟨rfl, .inr ⟨segmentsPath dir, ?_⟩⟩
    rw [followTorn_writeSegment, follow, nameOps, Names.performAll, List.foldl_append]
    rfl
  | writeVersions | writeHead => exact .inr rfl
  | writeConfig =>
    refine .inl ⟨rfl, ?_⟩
    rw [follow, followTorn, nameOps]
    split
    · exact .inl rfl
    · exact .inr ⟨dir, rfl⟩

end DiskEffect

namespace Disk.Secured

/-- **One effect, but for its sync.** -/
theorem performTorn (h : d.Secured dir N b) (he : e.Safe dir d N) :
    (d.perform P cfg e).Secured dir (e.followTorn dir N) (b || e.syncsDir) := by
  have hor : (b || e.syncsDir) = false → b = false := fun hb => (Bool.or_eq_false_iff.mp hb).1
  have hoff {d' : Disk} (ops : List DirOp) (hops : ∀ op ∈ ops, OffWhole dir op)
      (hh : d'.head = d.head) (hv : d'.versions = d.versions) (hs : d'.segments = d.segments) :
      d'.Secured dir (N.performAll ops) (b || e.syncsDir) :=
    (h.same (SameWhole.performAll hops) hh hv hs).mono hor
  cases e with
  | append | flush => exact hoff [] (List.forall_mem_nil _) rfl rfl rfl
  | openLog g =>
    rw [DiskEffect.followTorn_openLog]
    exact hoff _ DiskEffect.offWhole_openLog rfl rfl rfl
  | removeLog g =>
    exact hoff [.remove _]
      (List.forall_mem_singleton.mpr ⟨walPath_not_isWhole, walPath_ne_segmentsPath⟩) rfl rfl rfl
  | writeConfig =>
    rw [DiskEffect.followTorn, DiskEffect.nameOps]
    split
    · exact hoff [] (List.forall_mem_nil _) rfl rfl rfl
    · exact hoff [.create _] (List.forall_mem_singleton.mpr config_not_isWhole) rfl rfl rfl
  | writeSegment s =>
    rw [DiskEffect.followTorn_writeSegment]
    have hN : SameWhole dir N (N.performAll (NameOp.createDirAll (segmentsPath dir))) :=
      SameWhole.performAll (offWhole_createDirAll List.prefix_rfl)
    refine ((h.same hN rfl rfl rfl).replaceSegment ?_ he.1 fun hid => ?_).mono hor
    · refine Names.mem_made_performAll_of (.inr ⟨_, NameOp.create_mem_createDirAll List.prefix_rfl
        ?_, rfl⟩) remove_notMem_createDirAll
      exact List.append_ne_nil_of_right_ne_nil _ (by simp)
    · exact (hN.kept _ isWhole_segmentPath).mpr (he.2 hid)
  | removeSegment id => exact (h.removeSegment he).mono hor
  | writeVersions s =>
    exact (h.replaceVersions he).mono fun hb => by simp [DiskEffect.syncsDir] at hb
  | writeHead hd => exact (h.replaceHead he).mono fun hb => by simp [DiskEffect.syncsDir] at hb

/-- **One effect.** -/
theorem perform (h : d.Secured dir N b) (he : e.Safe dir d N) :
    (d.perform P cfg e).Secured dir (e.follow dir N) (b && !e.syncsDir) := by
  have ht : (d.perform P cfg e).Secured dir (e.followTorn dir N) (b || e.syncsDir) :=
    h.performTorn he
  rcases @DiskEffect.follow_eq dir e N with ⟨hs, heq | ⟨q, heq⟩⟩ | heq
  · rw [heq]
    exact ht.mono fun hb => by simpa [hs] using hb
  · rw [heq]
    exact (ht.sync q).mono fun hb => by simpa [hs] using hb
  · rw [heq]
    exact ht.syncDir _

/-- What a crash leaves has the same files. -/
theorem survives (h : d.Secured dir N b) (hd : d.Survives d') : d'.Secured dir N b :=
  h.same (.refl N) hd.2.1 hd.2.2.1 hd.2.2.2.1

end Disk.Secured

/-! ## Lists of effects -/

variable (P cfg dir) in
/-- Every effect is safe when it is performed. -/
def SafeAhead : Disk → DirNames → List DiskEffect → Prop
  | _, _, [] => True
  | d, N, e :: es => e.Safe dir d N ∧ SafeAhead (d.perform P cfg e) (e.follow dir N) es

theorem safeAhead_append {es' : List DiskEffect} : SafeAhead P cfg dir d N (es ++ es') ↔
    SafeAhead P cfg dir d N es ∧
      SafeAhead P cfg dir (d.performAll P cfg es) (es.foldl (DiskEffect.follow dir) N) es' := by
  induction es generalizing d N with
  | nil => exact (and_iff_right trivial).symm
  | cons e es ih =>
    rw [List.cons_append, SafeAhead, SafeAhead, ih, and_assoc]
    rfl

theorem safeAhead_of_forall (h : ∀ e ∈ es, ∀ d N, e.Safe dir d N) : SafeAhead P cfg dir d N es := by
  induction es generalizing d N with
  | nil => trivial
  | cons e es ih =>
    obtain ⟨he, h⟩ := List.forall_mem_cons.mp h
    exact ⟨he d N, ih h⟩

/-- **A list of effects**, performed to its end. -/
theorem Disk.Secured.performAll (h : d.Secured dir N b) (hes : SafeAhead P cfg dir d N es) :
    (d.performAll P cfg es).Secured dir (es.foldl (DiskEffect.follow dir) N)
      (b && !es.any DiskEffect.syncsDir) := by
  induction es generalizing d N b with
  | nil => simpa using h
  | cons e es ih =>
    refine (ih (h.perform hes.1) hes.2).mono fun hb => ?_
    simpa [and_assoc] using hb

/-- A synced name stays so, unless its file is removed. -/
theorem mem_kept_follow {id : SegmentId} (he : e ≠ .removeSegment id)
    (h : segmentPath dir id ∈ N.kept) : segmentPath dir id ∈ (e.follow dir N).kept := by
  refine Names.mem_kept_performAll (fun hr => ?_) h
  rcases remove_mem_nameOps.mp hr with ⟨g, -, hp⟩ | ⟨id', rfl, hp⟩
  · exact segmentPath_ne hp
  · exact he (by rw [segmentPath_inj.mp hp])

theorem mem_kept_foldl {id : SegmentId} (hes : .removeSegment id ∉ es)
    (h : segmentPath dir id ∈ N.kept) :
    segmentPath dir id ∈ (es.foldl (DiskEffect.follow dir) N).kept := by
  induction es generalizing N with
  | nil => exact h
  | cons e es ih =>
    rw [List.mem_cons, not_or] at hes
    exact ih hes.2 (mem_kept_follow (Ne.symm hes.1) h)

/-! ### Segment files written -/

theorem removeSegment_notMem_writes {id : SegmentId} {segs : List SealedSegment} :
    .removeSegment id ∉ segs.map DiskEffect.writeSegment := fun h => by
  obtain ⟨_, -, h⟩ := List.mem_map.mp h
  cases h

/-- **A segment file written** has its name synced, and all of the store can only be what they
are. -/
theorem kept_writeSegment (s : SealedSegment) :
    segmentPath dir s.id ∈ (DiskEffect.follow dir N (.writeSegment s)).kept ∧
      ∀ id, ((DiskEffect.follow dir N (.writeSegment s)).files (segmentPath dir id)).length ≤
        1 := by
  have heq : DiskEffect.follow dir N (.writeSegment s) =
      (DiskEffect.followTorn dir N (.writeSegment s)).perform (.sync (segmentsPath dir)) := by
    rw [DiskEffect.followTorn_writeSegment, DiskEffect.follow, DiskEffect.nameOps,
      Names.performAll, List.foldl_append]
    rfl
  rw [heq]
  refine ⟨Names.mem_kept_perform_sync ?_, fun id => ?_⟩
  · rw [DiskEffect.followTorn_writeSegment]
    exact Finset.mem_insert_self ..
  · rw [segmentPath, Names.files_perform_sync, List.length_take]
    exact min_le_left ..

/-- **Segment files written**, one after another. -/
theorem kept_writes {segs : List SealedSegment} {id : SegmentId}
    (hid : id ∈ segs.map SealedSegment.id) :
    segmentPath dir id ∈
        ((segs.map .writeSegment).foldl (DiskEffect.follow dir) N).kept ∧
      (((segs.map .writeSegment).foldl (DiskEffect.follow dir) N).files
        (segmentPath dir id)).length ≤ 1 := by
  constructor
  · induction segs generalizing N with
    | nil => cases hid
    | cons s segs ih =>
      rcases List.mem_cons.mp hid with rfl | hid
      · exact @mem_kept_foldl dir _ (segs.map .writeSegment) _ removeSegment_notMem_writes
          (kept_writeSegment s).1
      · exact ih hid
  · rcases List.eq_nil_or_concat segs with rfl | ⟨init, s, rfl⟩
    · cases hid
    · rw [List.concat_eq_append, List.map_append, List.foldl_append]
      exact (kept_writeSegment s).2 id

theorem safeAhead_writes {segs : List SealedSegment}
    (hsame : ∀ s ∈ segs, s.id ∈ d.workingIds → d.segments s.id = some s.rows)
    (hkept : ∀ s ∈ segs, s.id ∈ d.named → segmentPath dir s.id ∈ N.kept) :
    SafeAhead P cfg dir d N (segs.map .writeSegment) := by
  induction segs generalizing d N with
  | nil => trivial
  | cons s segs ih =>
    obtain ⟨hs, hsame⟩ := List.forall_mem_cons.mp hsame
    obtain ⟨hk, hkept⟩ := List.forall_mem_cons.mp hkept
    refine ⟨⟨hs, hk⟩, ih (fun s' hs' hid => ?_) fun s' hs' hid =>
      mem_kept_follow (fun h => by cases h) (hkept s' hs' hid)⟩
    change Function.update d.segments s.id (some s.rows) s'.id = some s'.rows
    rw [Function.update_apply]
    split
    · rename_i heq
      have hid' : s'.id ∈ d.workingIds := hid
      rw [← hsame s' hs' hid', heq, hs (heq ▸ hid')]
    · exact hsame s' hs' hid

theorem safeAhead_removals {ids : List SegmentId} (hids : ∀ id ∈ ids, id ∉ d.workingIds) :
    SafeAhead P cfg dir d N (ids.map .removeSegment) := by
  induction ids generalizing d N with
  | nil => trivial
  | cons id ids ih =>
    obtain ⟨hid, hids⟩ := List.forall_mem_cons.mp hids
    exact ⟨hid, ih hids⟩

/-! ## Requests -/

/-- The segment files that a process takes to be written have synced names. -/
def World.Cached (dir : List FileName) (N : DirNames) (w : World) : Prop :=
  ∀ id ∈ w.persistedSegments, segmentPath dir id ∈ N.kept

namespace World

/-- Registered segments, written. -/
theorem safeAhead_writeSegments (hk : w.collection.Keyed) (ha : w.disk.Anchors w.collection)
    (hn : ∀ id ∈ w.disk.named, (w.collection.allSegments id).isSome → segmentPath dir id ∈ N.kept)
    {ids : List SegmentId} :
    SafeAhead P cfg dir w.disk N ((ids.filterMap w.collection.allSegments).map .writeSegment) := by
  have hreg : ∀ s ∈ ids.filterMap w.collection.allSegments,
      w.collection.allSegments s.id = some s := fun s hs => by
    obtain ⟨id, -, hs⟩ := List.mem_filterMap.mp hs
    obtain rfl := hk id s hs
    exact hs
  refine safeAhead_writes (fun s hs hid => ?_) fun s hs hid => hn _ hid (by rw [hreg s hs]; rfl)
  obtain ⟨-, s', hs', hf⟩ := ha _ hid
  cases (hreg s hs).symm.trans hs'
  exact hf

/-- **Along `persist_versions`**: what the versions file is to name has been written before. -/
theorem Stocked.safeAhead_persist (h : w.Stocked) (hk : w.collection.Keyed)
    (ha : w.disk.Anchors w.collection)
    (hn : ∀ id ∈ w.disk.named, (w.collection.allSegments id).isSome → segmentPath dir id ∈ N.kept)
    (hc : w.Cached dir N) : SafeAhead P cfg dir w.disk N w.persistEffects ∧
      (w.persist P cfg).Cached dir (w.persistEffects.foldl (DiskEffect.follow dir) N) := by
  have hwritten : ∀ id ∈ w.persistedSegments ∪ (w.unpersisted.map SealedSegment.id).toFinset,
      segmentPath dir id ∈
        ((w.unpersisted.map .writeSegment).foldl (DiskEffect.follow dir) N).kept := by
    intro id hid
    rcases Finset.mem_union.mp hid with hid | hid
    · exact mem_kept_foldl removeSegment_notMem_writes (hc id hid)
    · exact (kept_writes (List.mem_toFinset.mp hid)).1
  refine ⟨safeAhead_append.mpr ⟨safeAhead_writeSegments hk ha hn, fun id hid => hwritten id ?_,
    trivial⟩, fun id hid => ?_⟩
  · have hid : id ∈ w.toPersist := mem_toPersist.mpr (.inr hid)
    by_cases hp : id ∈ w.persistedSegments
    · exact Finset.mem_union_left _ hp
    · exact Finset.mem_union_right _ (List.mem_toFinset.mpr
        ((mem_map_filterMap_allSegments hk).mpr ⟨List.mem_filter.mpr ⟨hid, decide_eq_true hp⟩,
          h.isSome_of_mem_toPersist hid⟩))
  · rw [persistEffects, List.foldl_append]
    exact mem_kept_follow (fun h => by cases h) (hwritten id hid)

/-- **Along a checkpoint**: what `HEAD` is to name has been written before. -/
theorem Stocked.safeAhead_checkpoint (h : w.Stocked) (hk : w.collection.Keyed)
    (ha : w.disk.Anchors w.collection)
    (hn : ∀ id ∈ w.disk.named, (w.collection.allSegments id).isSome → segmentPath dir id ∈ N.kept)
    (hc : w.Cached dir N) : SafeAhead P cfg dir w.disk N w.checkpointEffects ∧
      (w.checkpoint P cfg).Cached dir (w.checkpointEffects.foldl (DiskEffect.follow dir) N) := by
  set N₁ := (w.checkpointed.map .writeSegment).foldl (DiskEffect.follow dir) N with hN₁
  have hopen := SameWhole.performAll (N := N₁)
    (@DiskEffect.offWhole_openLog dir N₁ (w.generation + 1))
  have hwritten : ∀ id ∈ w.checkpointed.map SealedSegment.id, segmentPath dir id ∈ N₁.kept ∧
      (N₁.files (segmentPath dir id)).length ≤ 1 := fun id hid => kept_writes hid
  refine ⟨safeAhead_append.mpr ⟨safeAhead_writeSegments hk ha hn, trivial, fun id hid => ?_,
    trivial, trivial⟩, fun id hid => ?_⟩
  · have hid : id ∈ w.checkpointed.map SealedSegment.id := by
      rcases List.mem_append.mp hid with hid | hid
      · exact hid
      · have hid : id ∈ w.toPersist := mem_toPersist.mpr (.inl hid)
        exact (mem_map_filterMap_allSegments hk).mpr ⟨hid, h.isSome_of_mem_toPersist hid⟩
    obtain ⟨hkept, hlen⟩ := hwritten id hid
    exact ⟨(hopen.kept _ isWhole_segmentPath).mpr hkept,
      (hopen.files _ isWhole_segmentPath).symm ▸ hlen⟩
  · rw [checkpointEffects, List.foldl_append]
    refine @mem_kept_foldl dir _ [_, _, _] id (by simp) ?_
    rcases Finset.mem_union.mp hid with hid | hid
    · exact mem_kept_foldl removeSegment_notMem_writes (hc id hid)
    · exact (hwritten id (List.mem_toFinset.mp hid)).1

/-- **One move** is safe throughout. -/
theorem Durable.safeAhead (hw : w.Durable P cfg L) (h : w.Stocked) (hd : w.disk.Complete)
    (hsec : w.disk.Secured dir N b) (hc : w.Cached dir N) {m : Move} (hm : m.Enabled cfg w)
    (ht : m.SparesNamed w) : SafeAhead P cfg dir w.disk N (m.effects P cfg w) ∧
      (m.result P cfg w).Cached dir ((m.effects P cfg w).foldl (DiskEffect.follow dir) N) := by
  have hn : ∀ id ∈ w.disk.named, segmentPath dir id ∈ N.kept := fun id hid => by
    refine hsec.named id hid (hsec.mem_made_segment.mpr ?_)
    exact (Disk.mem_named.mp hid).elim ((Disk.complete_iff.mp hd).1 id)
      ((Disk.complete_iff.mp hd).2 id)
  have hs := h.prepare (P := P) hw.idle.keyed hm
  obtain ⟨hk, -, ha, -⟩ := Move.known_prepare hw.idle.keyed hw.memory hw.placed hw.anchored hm ht
  cases m with
  | log ups dels =>
    have hlog : ∀ e ∈ w.logEffects (batchRecords w.collection.nextGlobalId ups dels),
        (∀ d N, e.Safe dir d N) ∧ ∀ id, e ≠ .removeSegment id := by
      intro e he
      rcases List.mem_append.mp he with he | he
      · obtain ⟨op, -, rfl⟩ := List.mem_map.mp he
        exact ⟨fun _ _ => trivial, nofun⟩
      · rw [List.mem_singleton.mp he]
        exact ⟨fun _ _ => trivial, nofun⟩
    exact ⟨safeAhead_of_forall fun e he => (hlog e he).1,
      fun id hid => mem_kept_foldl (fun he => (hlog _ he).2 id rfl) (hc id hid)⟩
  | commit | restore | point => exact hs.safeAhead_persist hk ha (fun id hid _ => hn id hid) hc
  | compact | tick => exact ⟨trivial, hc⟩
  | checkpoint => exact hs.safeAhead_checkpoint hk ha (fun id hid _ => hn id hid) hc
  | gc rules =>
    have hunworked : ∀ id ∈ w.collection.dropped rules, id ∉ w.disk.workingIds := fun id hid hi =>
      ht id hid (Disk.workingIds_subset_headNamed hi)
    have hdisk : ((Move.gc rules).prepare P cfg w).disk = _ :=
      Disk.performAll_removeSegments P cfg w.disk (w.collection.dropped rules)
    have hkeep {id : SegmentId} (hid : id ∉ w.collection.dropped rules)
        (hkept : segmentPath dir id ∈ N.kept) : segmentPath dir id ∈
          (((w.collection.dropped rules).map .removeSegment).foldl
            (DiskEffect.follow dir) N).kept := by
      refine mem_kept_foldl (fun he => ?_) hkept
      obtain ⟨i, hi, he⟩ := List.mem_map.mp he
      cases he
      exact hid hi
    have hanchors : ((Move.gc rules).prepare P cfg w).disk.Anchors
        ((Move.gc rules).prepare P cfg w).collection :=
      ha.keep (by rw [hdisk]) fun i hi => by
        rw [hdisk]
        exact if_neg fun hdrop => hunworked i hdrop hi
    have hpersist := @World.Stocked.safeAhead_persist P cfg _ _ _ hs hk hanchors
      (fun id hid hreg => hkeep (fun hdrop => ?_) (hn id ?_)) (fun id hid => ?_)
    · refine ⟨safeAhead_append.mpr ⟨safeAhead_removals hunworked, hpersist.1⟩, ?_⟩
      rw [Move.effects, List.foldl_append]
      exact hpersist.2
    · have hgone : ((Move.gc rules).prepare P cfg w).collection.allSegments id = none :=
        if_pos hdrop
      rw [hgone] at hreg
      cases hreg
    · rwa [hdisk] at hid
    · obtain ⟨hid, hdrop⟩ := Finset.mem_sdiff.mp hid
      exact hkeep (fun h => hdrop (List.mem_toFinset.mpr h)) (hc id hid)

end World

/-- A move that spares what `HEAD` names leaves the directory complete. -/
theorem World.Stocked.complete_move (h : w.Stocked) (hk : w.collection.Keyed)
    (hd : w.disk.Complete) {m : Move} (hm : m.Enabled cfg w) (ht : m.SparesNamed w) :
    (m.result P cfg w).disk.Complete := by
  by_cases hgc : ∃ rules, m = .gc rules
  · obtain ⟨rules, rfl⟩ := hgc
    exact h.complete_gc hk hd ht
  · rw [Move.result_disk]
    exact (h.along_move hk hd hm (not_exists.mp hgc)).end

/-- **The moves of a request** are safe throughout. -/
theorem Moves.safeAhead {ms : List Move} (h : Moves P cfg w ms es w') (hw : w.Durable P cfg L)
    (hs : Sparing P cfg w ms) (hst : w.Stocked) (hd : w.disk.Complete)
    (hsec : w.disk.Secured dir N b) (hc : w.Cached dir N) : SafeAhead P cfg dir w.disk N es ∧
      w'.Cached dir (es.foldl (DiskEffect.follow dir) N) := by
  induction h generalizing L N b with
  | nil => exact ⟨trivial, hc⟩
  | @cons w w' m ms es hm _ ih =>
    obtain ⟨hspare, hplaced, hfit, hs⟩ := hs
    obtain ⟨hsafe, hc'⟩ := hw.safeAhead hst hd hsec hc hm hspare
    have hsec' := hsec.performAll hsafe
    rw [← Move.result_disk] at hsec'
    obtain ⟨hrest, hend⟩ := ih (hw.entered hm hspare hplaced hfit).1 hs (hst.move hw.idle.keyed hm)
      (hst.complete_move hw.idle.keyed hd hm hspare) hsec' hc'
    rw [Move.result_disk] at hrest
    refine ⟨safeAhead_append.mpr ⟨hsafe, hrest⟩, ?_⟩
    rw [List.foldl_append]
    exact hend

end Vecvec
