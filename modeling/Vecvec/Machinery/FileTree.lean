import Mathlib.Data.List.Induction
import Mathlib.Data.List.Nodup
import Mathlib.Data.Nat.Notation
import Mathlib.Logic.Function.Basic

/-!
# Machinery/FileTree — a tree of directories and files

A tree says what is at each **location**, a list of names from the root: a directory with its
entries, a file with its contents, or nothing.  A path is a list of components, and is resolved by
walking: each component is looked up in what has to be a directory.  The operations are those of a
POSIX file system without links; each one is a single effect.
-/

namespace Machinery

/-- What is at a location of a tree. -/
inductive Inode (N α : Type)
  | dir (entries : List N)
  | file (content : α)
  deriving DecidableEq

/-- A tree of directories and files. -/
abbrev FileTree (N α : Type) := List N → Option (Inode N α)

/-- A component of a path; `.` is one only at its end (`PathBuf.dot`). -/
inductive Component (N : Type)
  /-- `..` -/
  | up
  /-- the name of an entry -/
  | name (s : N)
  deriving DecidableEq

/-- Where a component leads, if the way is there; the root is its own parent. -/
def Component.move {N : Type} (p : List N) : Component N → List N
  | up => p.dropLast
  | name s => p ++ [s]

/-- The names a system takes. -/
structure Naming (N : Type) where
  /-- A path with any other name is refused before it is looked at. -/
  passes : N → Bool
  /-- Nothing can be created under any other name. -/
  admits : N → Bool

/-- The component is one the system looks at. -/
def Component.passes {N : Type} (nm : Naming N) : Component N → Bool
  | up => true
  | name s => nm.passes s

/-- A path from the root. -/
structure PathBuf (N : Type) where
  /-- The components. -/
  steps : List (Component N)
  /-- The path ends in `.`: only a directory that is there is found under it. -/
  dot : Bool
  deriving DecidableEq

namespace PathBuf

variable {N : Type}

/-- The path of an entry. -/
def join (path : PathBuf N) (s : N) : PathBuf N := ⟨path.steps ++ [.name s], false⟩

/-- The path without its last component (`Path::parent`). -/
def parent (path : PathBuf N) : PathBuf N := ⟨path.steps.dropLast, false⟩

theorem parent_join (path : PathBuf N) (s : N) : (path.join s).parent = ⟨path.steps, false⟩ := by
  rw [parent, join, List.dropLast_concat]

/-- Where the path leads, if the way is there. -/
def location (path : PathBuf N) : List N := path.steps.foldl Component.move []

@[simp] theorem location_join (path : PathBuf N) (s : N) :
    (path.join s).location = path.location ++ [s] := by
  rw [location, join, List.foldl_append]
  rfl

theorem foldl_move_names (p ns : List N) :
    (ns.map Component.name).foldl Component.move p = p ++ ns := by
  induction ns generalizing p with
  | nil => exact (List.append_nil p).symm
  | cons n ns ih =>
    rw [List.map_cons, List.foldl_cons, ih, Component.move, List.append_assoc]
    rfl

/-- A path of names leads where it says. -/
@[simp] theorem location_names (ns : List N) (d : Bool) :
    (⟨ns.map .name, d⟩ : PathBuf N).location = ns := foldl_move_names [] ns

end PathBuf

/-- Why an operation failed. -/
inductive IoError
  | notFound
  | alreadyExists
  | other
  deriving DecidableEq

namespace FileTree

variable {N α : Type}

section

variable (t : FileTree N α) (p : List N)

/-- The location is a directory. -/
def isDir : Bool :=
  match t p with
  | some (.dir _) => true
  | _ => false

/-- The entries of a directory. -/
def entries : List N :=
  match t p with
  | some (.dir es) => es
  | _ => []

/-- One component further: the location has to be a directory. -/
def enter (c : Component N) : Except IoError (List N) :=
  match t p with
  | some (.dir _) => .ok (c.move p)
  | some (.file _) => .error .other
  | none => .error .notFound

/-- Where a path leads. -/
def resolve (nm : Naming N) (path : PathBuf N) : Except IoError (List N) :=
  if path.steps.all (Component.passes nm) then path.steps.foldlM t.enter [] else .error .other

end

/-! ## The operations -/

section

variable [DecidableEq N]

section

variable (t : FileTree N α) (p : List N) (s : N)

/-- The tree with a node under a new name in a directory. -/
def add (n : Inode N α) : FileTree N α :=
  Function.update (Function.update t p (some (.dir (t.entries p ++ [s])))) (p ++ [s]) (some n)

/-- The tree with the contents of a file replaced. -/
def replace (a : α) : FileTree N α := Function.update t p (some (.file a))

end

variable (nm : Naming N) (t : FileTree N α)

/-- Puts a node where there is none. -/
def create (path : PathBuf N) (p : List N) (n : Inode N α) : Except IoError (FileTree N α) :=
  match path.steps.getLast? with
  | some (.name s) => if nm.admits s then .ok (t.add p.dropLast s n) else .error .other
  | _ => .error .other

/-- `mkdir` -/
def mkdir (path : PathBuf N) : Except IoError (FileTree N α) :=
  match t.resolve nm path with
  | .error e => .error e
  | .ok p => match t p with
    | some (.dir _) => .error .alreadyExists
    | some (.file _) => .error (if path.dot then .other else .alreadyExists)
    | none => if path.dot then .error .notFound else t.create nm path p (.dir [])

/-- A file written elsewhere in the directory and renamed to the path. -/
def writeFile (path : PathBuf N) (a : α) : Except IoError (FileTree N α) :=
  match t.resolve nm path with
  | .error e => .error e
  | .ok p => match t p with
    | some (.dir _) => .error .other
    | some (.file _) => .ok (t.replace p a)
    | none => t.create nm path p (.file a)

/-- `stat`: what is at the path. -/
def stat (path : PathBuf N) : Except IoError (Inode N α) :=
  match t.resolve nm path with
  | .error e => .error e
  | .ok p => match t p with
    | some (.dir es) => .ok (.dir es)
    | some (.file a) => if path.dot then .error .other else .ok (.file a)
    | none => .error .notFound

/-- Something is at the path. -/
def present (path : PathBuf N) : Bool := (t.stat nm path).isOk

/-- A directory is at the path. -/
def isDirectory (path : PathBuf N) : Bool :=
  match t.stat nm path with
  | .ok (.dir _) => true
  | _ => false

/-- The location of a directory that is opened. -/
def openDir (path : PathBuf N) : Except IoError (List N) :=
  match t.resolve nm path with
  | .error e => .error e
  | .ok p => match t p with
    | some (.dir _) => .ok p
    | some (.file _) => .error .other
    | none => .error .notFound

/-- The contents of a file. -/
def readFile (path : PathBuf N) : Except IoError α :=
  match t.stat nm path with
  | .ok (.file a) => .ok a
  | .ok (.dir _) => .error .other
  | .error e => .error e

end

/-! ## What is where -/

section

variable {t t' : FileTree N α} {p q : List N} {s s' : N} {a : α}

theorem ne_append_singleton (p : List N) (s : N) : p ≠ p ++ [s] := fun h => by
  have := congrArg List.length h
  simp at this

theorem append_singleton_inj : p ++ [s] = q ++ [s'] ↔ p = q ∧ s = s' := by
  rw [← List.concat_eq_append, ← List.concat_eq_append, List.concat_inj]

theorem isDir_iff : t.isDir p = true ↔ ∃ es, t p = some (.dir es) := by
  rw [isDir]
  split
  · exact iff_of_true rfl ⟨_, ‹_›⟩
  · rename_i h
    exact iff_of_false Bool.false_ne_true fun ⟨es, hes⟩ => h es hes

theorem isDir_congr (h : t' p = t p) : t'.isDir p = t.isDir p := by
  rw [isDir, isDir, h]

theorem entries_congr (h : t' p = t p) : t'.entries p = t.entries p := by
  rw [entries, entries, h]

@[simp] theorem entries_of_dir {es : List N} (h : t p = some (.dir es)) : t.entries p = es := by
  rw [entries, h]

@[simp] theorem entries_of_file (h : t p = some (.file a)) : t.entries p = [] := by
  rw [entries, h]

theorem eq_dir_entries (h : t.isDir p = true) : t p = some (.dir (t.entries p)) := by
  obtain ⟨es, hes⟩ := isDir_iff.mp h
  rw [entries_of_dir hes, hes]

theorem isDir_of_mem_entries (h : s ∈ t.entries p) : t.isDir p = true := by
  rw [entries] at h
  split at h
  · exact isDir_iff.mpr ⟨_, ‹_›⟩
  · exact absurd h List.not_mem_nil

theorem enter_of_isDir {c : Component N} (h : t.isDir p = true) : t.enter p c = .ok (c.move p) := by
  rw [enter, eq_dir_entries h]

/-- A walk that goes through ends where it leads. -/
theorem foldlM_enter {cs : List (Component N)} (h : cs.foldlM t.enter p = .ok q) :
    q = cs.foldl Component.move p := by
  induction cs generalizing p with
  | nil => cases h; rfl
  | cons c cs ih =>
    rw [List.foldlM_cons, enter] at h
    split at h
    · exact ih h
    · cases h
    · cases h

end

section

variable [DecidableEq N] {t : FileTree N α} {p q : List N} {s : N} {n : Inode N α} {a : α}

@[simp] theorem add_self : t.add p s n (p ++ [s]) = some n := Function.update_self ..

@[simp] theorem add_parent : t.add p s n p = some (.dir (t.entries p ++ [s])) := by
  rw [add, Function.update_of_ne (ne_append_singleton p s), Function.update_self]

theorem add_of_ne (h : q ≠ p) (h' : q ≠ p ++ [s]) : t.add p s n q = t q := by
  rw [add, Function.update_of_ne h', Function.update_of_ne h]

@[simp] theorem replace_self : t.replace p a p = some (.file a) := Function.update_self ..

theorem replace_of_ne (h : q ≠ p) : t.replace p a q = t q := Function.update_of_ne h ..

end

/-! ## Resolving a path -/

section

variable {nm : Naming N} {t t' : FileTree N α} {path : PathBuf N} {cs cs' : List (Component N)}
  {c : Component N} {d d' : Bool} {p q : List N}

/-- **One component more.** -/
theorem resolve_concat (d') : t.resolve nm ⟨cs ++ [c], d⟩ =
    if c.passes nm then t.resolve nm ⟨cs, d'⟩ >>= (t.enter · c) else .error .other := by
  simp only [resolve, List.all_append, List.all_cons, List.all_nil, Bool.and_true,
    List.foldlM_append, List.foldlM_cons, List.foldlM_nil, bind_pure]
  cases c.passes nm
  · simp
  · cases cs.all (Component.passes nm) <;> rfl

theorem resolve_concat_of_ok (h : t.resolve nm ⟨cs, d'⟩ = .ok p) (hc : c.passes nm = true) :
    t.resolve nm ⟨cs ++ [c], d⟩ = t.enter p c := by
  rw [resolve_concat d', if_pos hc, h]
  rfl

theorem resolve_concat_iff (d') : t.resolve nm ⟨cs ++ [c], d⟩ = .ok q ↔
    ∃ p, t.resolve nm ⟨cs, d'⟩ = .ok p ∧ c.passes nm = true ∧ t.isDir p = true ∧ q = c.move p := by
  constructor
  · rw [resolve_concat d']
    intro h
    split at h
    · match hp : t.resolve nm ⟨cs, d'⟩ with
      | .error e =>
        rw [hp] at h
        cases h
      | .ok p =>
        rw [hp] at h
        change t.enter p c = _ at h
        rw [enter] at h
        split at h
        · cases h
          exact ⟨p, rfl, ‹_›, isDir_iff.mpr ⟨_, ‹_›⟩, rfl⟩
        · cases h
        · cases h
    · cases h
  · rintro ⟨p, hp, hc, hd, rfl⟩
    rw [resolve_concat_of_ok hp hc, enter_of_isDir hd]

theorem location_of_resolve (h : t.resolve nm path = .ok p) : p = path.location := by
  rw [resolve] at h
  split at h
  · exact foldlM_enter h
  · cases h

theorem isDirectory_iff : t.isDirectory nm path = true ↔
    ∃ p, t.resolve nm path = .ok p ∧ t.isDir p = true := by
  rw [isDirectory, stat]
  match hp : t.resolve nm path with
  | .error e => simp
  | .ok p =>
    simp only [isDir, Except.ok.injEq, exists_eq_left']
    match t p with
    | none => simp
    | some (.dir es) => simp
    | some (.file a) => cases path.dot <;> simp

theorem present_of_isDirectory (h : t.isDirectory nm path = true) : t.present nm path = true := by
  obtain ⟨p, hp, hd⟩ := isDirectory_iff.mp h
  rw [present, stat, hp]
  dsimp only
  rw [eq_dir_entries hd]
  rfl

/-- What a path to a directory leads to. -/
theorem isDir_location (h : t.isDirectory nm path = true) : t.isDir path.location = true := by
  obtain ⟨p, hp, hd⟩ := isDirectory_iff.mp h
  rwa [← location_of_resolve hp]

/-- What is above a directory is one. -/
theorem isDirectory_of_concat (h : t.isDirectory nm ⟨cs ++ [c], d⟩ = true) :
    t.isDirectory nm ⟨cs, d'⟩ = true := by
  obtain ⟨q, hq, -⟩ := isDirectory_iff.mp h
  obtain ⟨p, hp, -, hd, -⟩ := (resolve_concat_iff _).mp hq
  exact isDirectory_iff.mpr ⟨p, hp, hd⟩

/-- **A path in a directory** is looked up there. -/
theorem resolve_join {s : N} (h : t.isDirectory nm path = true) (hs : nm.passes s = true) :
    t.resolve nm (path.join s) = .ok (path.location ++ [s]) := by
  obtain ⟨p, hp, hd⟩ := isDirectory_iff.mp h
  have hs' : (Component.name s).passes nm = true := hs
  rw [PathBuf.join, resolve_concat_of_ok hp hs', enter_of_isDir hd, location_of_resolve hp,
    Component.move]

/-- A name the system does not take is refused. -/
theorem resolve_join_of_refused {s : N} (hs : nm.passes s = false) :
    t.resolve nm (path.join s) = .error .other := by
  have hs' : (Component.name s).passes nm = false := hs
  rw [PathBuf.join, resolve_concat path.dot, hs', if_neg Bool.false_ne_true]

theorem resolve_mono (hd : ∀ p, t.isDir p = true → t'.isDir p = true)
    (h : t.resolve nm path = .ok p) : t'.resolve nm path = .ok p := by
  obtain ⟨cs, d⟩ := path
  induction cs using List.reverseRecOn generalizing p with
  | nil => exact h
  | append_singleton cs c ih =>
    obtain ⟨q, hq, hc, hdq, rfl⟩ := (resolve_concat_iff _).mp h
    exact (resolve_concat_iff _).mpr ⟨q, ih hq, hc, hd q hdq, rfl⟩

/-- **Directories that stay are found as before.** -/
theorem isDirectory_mono (hd : ∀ p, t.isDir p = true → t'.isDir p = true)
    (h : t.isDirectory nm path = true) : t'.isDirectory nm path = true := by
  obtain ⟨p, hp, hdp⟩ := isDirectory_iff.mp h
  exact isDirectory_iff.mpr ⟨p, resolve_mono hd hp, hd p hdp⟩

end

/-! ## What the operations do -/

section

variable [DecidableEq N] {nm : Naming N} {t t' : FileTree N α} {path : PathBuf N} {p : List N}
  {a : α} {n : Inode N α}

/-- What is created is an entry of a directory. -/
theorem create_cases (hr : t.resolve nm path = .ok p) (h : t.create nm path p n = .ok t') :
    ∃ q s, p = q ++ [s] ∧ t.isDir q = true ∧ nm.admits s = true ∧ t' = t.add q s n := by
  rw [create] at h
  split at h
  · rename_i s hs
    split at h
    · cases h
      obtain ⟨cs, hcs⟩ := List.getLast?_eq_some_iff.mp hs
      obtain ⟨cs', d'⟩ := path
      obtain rfl : cs' = cs ++ [.name s] := hcs
      obtain ⟨q, -, -, hd, rfl⟩ := (resolve_concat_iff false).mp hr
      exact ⟨q, s, rfl, hd, ‹_›, by rw [Component.move, List.dropLast_concat]⟩
    · cases h
  · cases h

/-- **A directory made** is a new, empty one at the end of the path. -/
theorem mkdir_cases (h : t.mkdir nm path = .ok t') :
    ∃ q s, t.resolve nm path = .ok (q ++ [s]) ∧ t.isDir q = true ∧ t (q ++ [s]) = none ∧
      nm.admits s = true ∧ t' = t.add q s (.dir []) := by
  rw [mkdir] at h
  match hp : t.resolve nm path with
  | .error e =>
    rw [hp] at h
    cases h
  | .ok p =>
    rw [hp] at h
    dsimp only at h
    split at h
    · cases h
    · cases h
    · split at h
      · cases h
      · obtain ⟨q, s, rfl, hd, hs, rfl⟩ := create_cases hp h
        exact ⟨q, s, rfl, hd, ‹_›, hs, rfl⟩

/-- **A file put** is in the place of one, or new at the end of the path. -/
theorem writeFile_cases (h : t.writeFile nm path a = .ok t') :
    ∃ p, t.resolve nm path = .ok p ∧
      ((∃ b, t p = some (.file b) ∧ t' = t.replace p a) ∨
        ∃ q s, p = q ++ [s] ∧ t.isDir q = true ∧ t p = none ∧ nm.admits s = true ∧
          t' = t.add q s (.file a)) := by
  rw [writeFile] at h
  match hp : t.resolve nm path with
  | .error e =>
    rw [hp] at h
    cases h
  | .ok p =>
    rw [hp] at h
    dsimp only at h
    split at h
    · cases h
    · cases h
      exact ⟨p, rfl, .inl ⟨_, ‹_›, rfl⟩⟩
    · obtain ⟨q, s, rfl, hd, hs, rfl⟩ := create_cases hp h
      exact ⟨_, rfl, .inr ⟨q, s, rfl, hd, ‹_›, hs, rfl⟩⟩

end

/-! ## An entry of a directory that is there -/

section

variable {nm : Naming N} {t : FileTree N α} {path : PathBuf N} {s : N} {a b : α}

theorem openDir_of_isDirectory (h : t.isDirectory nm path = true) :
    t.openDir nm path = .ok path.location := by
  obtain ⟨p, hp, hd⟩ := isDirectory_iff.mp h
  rw [openDir, hp]
  dsimp only
  rw [eq_dir_entries hd, location_of_resolve hp]

/-- Only a directory is opened. -/
theorem isDirectory_of_openDir {p : List N} (h : t.openDir nm path = .ok p) :
    t.isDirectory nm path = true := by
  rw [openDir] at h
  match hp : t.resolve nm path with
  | .error e =>
    rw [hp] at h
    cases h
  | .ok q =>
    rw [hp] at h
    dsimp only at h
    split at h
    · exact isDirectory_iff.mpr ⟨q, hp, isDir_iff.mpr ⟨_, ‹_›⟩⟩
    · cases h
    · cases h

theorem stat_join (h : t.isDirectory nm path = true) (hs : nm.passes s = true) :
    t.stat nm (path.join s) = (t (path.location ++ [s])).elim (.error .notFound) .ok := by
  rw [stat, resolve_join h hs]
  dsimp only
  match t (path.location ++ [s]) with
  | none => rfl
  | some (.dir es) => rfl
  | some (.file a) => rfl

theorem present_join (h : t.isDirectory nm path = true) (hs : nm.passes s = true) :
    t.present nm (path.join s) = (t (path.location ++ [s])).isSome := by
  rw [present, stat_join h hs]
  cases t (path.location ++ [s]) <;> rfl

theorem isDirectory_join (h : t.isDirectory nm path = true) (hs : nm.passes s = true) :
    t.isDirectory nm (path.join s) = t.isDir (path.location ++ [s]) := by
  rw [isDirectory, stat_join h hs, isDir]
  match t (path.location ++ [s]) with
  | none => rfl
  | some (.dir es) => rfl
  | some (.file a) => rfl

/-- An entry that is a directory. -/
theorem isDirectory_join_iff (h : t.isDirectory nm path = true) :
    t.isDirectory nm (path.join s) = true ↔
      nm.passes s = true ∧ t.isDir (path.location ++ [s]) = true := by
  cases hs : nm.passes s with
  | true => rw [isDirectory_join h hs, and_iff_right rfl]
  | false =>
    rw [isDirectory, stat, resolve_join_of_refused hs]
    exact iff_of_false Bool.false_ne_true fun h => Bool.false_ne_true h.1

theorem readFile_join_of_none (h : t.isDirectory nm path = true) (hs : nm.passes s = true)
    (ht : t (path.location ++ [s]) = none) :
    t.readFile nm (path.join s) = .error .notFound := by
  rw [readFile, stat_join h hs, ht]
  rfl

theorem readFile_join_of_file (h : t.isDirectory nm path = true) (hs : nm.passes s = true)
    (ht : t (path.location ++ [s]) = some (.file a)) :
    t.readFile nm (path.join s) = .ok a := by
  rw [readFile, stat_join h hs, ht]
  rfl

/-- What can be read in a directory. -/
theorem readFile_join_iff (h : t.isDirectory nm path = true) :
    t.readFile nm (path.join s) = .ok a ↔
      nm.passes s = true ∧ t (path.location ++ [s]) = some (.file a) := by
  cases hs : nm.passes s with
  | false =>
    rw [readFile, stat, resolve_join_of_refused hs]
    exact iff_of_false (fun h => by cases h) fun h => Bool.false_ne_true h.1
  | true =>
    rw [readFile, stat_join h hs, and_iff_right rfl]
    match t (path.location ++ [s]) with
    | none => exact iff_of_false (fun h => by cases h) fun h => by cases h
    | some (.dir es) => exact iff_of_false (fun h => by cases h) fun h => by cases h
    | some (.file b) => simp

/-- What is not there to be read, under a name the system takes. -/
theorem readFile_join_eq_notFound (h : t.isDirectory nm path = true) :
    t.readFile nm (path.join s) = .error .notFound ↔
      nm.passes s = true ∧ t (path.location ++ [s]) = none := by
  cases hs : nm.passes s with
  | false =>
    rw [readFile, stat, resolve_join_of_refused hs]
    exact iff_of_false (fun h => by cases h) fun h => Bool.false_ne_true h.1
  | true =>
    rw [readFile, stat_join h hs, and_iff_right rfl]
    match t (path.location ++ [s]) with
    | none => simp
    | some (.dir es) => exact iff_of_false (fun h => by cases h) fun h => by cases h
    | some (.file b) => exact iff_of_false (fun h => by cases h) fun h => by cases h

variable [DecidableEq N]

theorem writeFile_join_of_none (h : t.isDirectory nm path = true) (hs : nm.passes s = true)
    (hs' : nm.admits s = true) (ht : t (path.location ++ [s]) = none) :
    t.writeFile nm (path.join s) a = .ok (t.add path.location s (.file a)) := by
  have hlast : (path.join s).steps.getLast? = some (.name s) := List.getLast?_concat
  rw [writeFile, resolve_join h hs]
  dsimp only
  rw [ht]
  dsimp only
  rw [create, hlast]
  dsimp only
  rw [if_pos hs', List.dropLast_concat]

theorem writeFile_join_of_file (h : t.isDirectory nm path = true) (hs : nm.passes s = true)
    (ht : t (path.location ++ [s]) = some (.file b)) :
    t.writeFile nm (path.join s) a = .ok (t.replace (path.location ++ [s]) a) := by
  rw [writeFile, resolve_join h hs]
  dsimp only
  rw [ht]

end

/-! ## A file put in a directory that is there -/

section

variable [DecidableEq N] {nm : Naming N} {t : FileTree N α} {path : PathBuf N} {s : N} {a : α}

theorem mkdir_of_isDirectory (h : t.isDirectory nm path = true) :
    t.mkdir nm path = .error .alreadyExists := by
  obtain ⟨p, hp, hd⟩ := isDirectory_iff.mp h
  rw [mkdir, hp]
  dsimp only
  rw [eq_dir_entries hd]

/-- Nothing can be created under a name that is not admitted. -/
theorem writeFile_join_of_refused (h : t.isDirectory nm path = true) (hs : nm.passes s = true)
    (hs' : nm.admits s = false) (ht : t (path.location ++ [s]) = none) :
    t.writeFile nm (path.join s) a = .error .other := by
  have hlast : (path.join s).steps.getLast? = some (.name s) := List.getLast?_concat
  rw [writeFile, resolve_join h hs]
  dsimp only
  rw [ht]
  dsimp only
  rw [create, hlast]
  dsimp only
  rw [if_neg (hs' ▸ Bool.false_ne_true)]

end

/-! ## Well-formed trees -/

/-- A node with nothing under it. -/
def Leaf : Inode N α → Prop
  | .dir es => es = []
  | .file _ => True

/-- The root is a directory, and what is there is an entry, once, of what it is in. -/
structure WellFormed (t : FileTree N α) : Prop where
  root : t.isDir [] = true
  mem_entries : ∀ p s, s ∈ t.entries p ↔ (t (p ++ [s])).isSome = true
  nodup : ∀ p, (t.entries p).Nodup

section

variable {t : FileTree N α} {p q : List N} {s : N} {n : Inode N α} {a b : α}

theorem WellFormed.isDir_of_isSome (h : t.WellFormed) (hs : (t (p ++ [s])).isSome = true) :
    t.isDir p = true :=
  isDir_of_mem_entries ((h.mem_entries p s).mpr hs)

theorem WellFormed.isDir_dropLast (h : t.WellFormed) (hp : (t p).isSome = true) :
    t.isDir p.dropLast = true := by
  rcases List.eq_nil_or_concat p with rfl | ⟨q, s, rfl⟩
  · exact h.root
  · rw [List.concat_eq_append] at hp ⊢
    rw [List.dropLast_concat]
    exact h.isDir_of_isSome hp

/-- Nothing is in what is not there. -/
theorem WellFormed.eq_none_append (h : t.WellFormed) (hp : t p = none) (q : List N) :
    t (p ++ q) = none := by
  induction q using List.reverseRecOn with
  | nil => rwa [List.append_nil]
  | append_singleton q s ih =>
    rw [← List.append_assoc]
    refine Option.not_isSome_iff_eq_none.mp fun hs => ?_
    have hd := h.isDir_of_isSome hs
    obtain ⟨es, hes⟩ := isDir_iff.mp hd
    rw [ih] at hes
    cases hes

theorem entries_of_leaf (hn : Leaf n) (h : t p = some n) : t.entries p = [] := by
  cases n with
  | dir es =>
    obtain rfl : es = [] := hn
    exact entries_of_dir h
  | file a => exact entries_of_file h

variable [DecidableEq N]

theorem isDir_add (hq : t.isDir q = true) : (t.add p s n).isDir q = true ∨ q = p ++ [s] := by
  by_cases h' : q = p ++ [s]
  · exact .inr h'
  · refine .inl ?_
    by_cases h : q = p
    · subst h
      exact isDir_iff.mpr ⟨_, add_parent⟩
    · rwa [isDir_congr (add_of_ne h h')]

/-- A new node leaves the directories there. -/
theorem isDir_add_of_none (hn : t (p ++ [s]) = none) (hq : t.isDir q = true) :
    (t.add p s n).isDir q = true :=
  (isDir_add hq).resolve_right fun h => by
    obtain ⟨es, hes⟩ := isDir_iff.mp hq
    rw [h, hn] at hes
    cases hes

/-- A new node leaves the files there. -/
theorem add_of_file (hd : t.isDir p = true) (hn : t (p ++ [s]) = none)
    (hq : t q = some (.file a)) : t.add p s n q = some (.file a) := by
  refine (add_of_ne (fun h => ?_) fun h => ?_).trans hq
  · obtain ⟨es, hes⟩ := isDir_iff.mp hd
    rw [← h, hq] at hes
    cases hes
  · rw [← h, hq] at hn
    cases hn

theorem isDir_replace (hp : t p = some (.file a)) (hq : t.isDir q = true) :
    (t.replace p b).isDir q = true := by
  have hne : q ≠ p := fun h => by
    obtain ⟨es, hes⟩ := isDir_iff.mp hq
    rw [h, hp] at hes
    cases hes
  rwa [isDir_congr (replace_of_ne hne)]

/-- **A new node in a directory.** -/
theorem WellFormed.add (h : t.WellFormed) (hd : t.isDir p = true) (hn : t (p ++ [s]) = none)
    (hl : Leaf n) : (t.add p s n).WellFormed where
  root := isDir_add_of_none hn h.root
  mem_entries q s' := by
    by_cases hq : q = p
    · subst hq
      rw [entries_of_dir add_parent, List.mem_append, List.mem_singleton]
      by_cases hs : s' = s
      · subst hs
        simp
      · rw [add_of_ne (ne_append_singleton q s').symm fun he => hs (append_singleton_inj.mp he).2,
          ← h.mem_entries, or_iff_left hs]
    · by_cases hq' : q = p ++ [s]
      · subst hq'
        have hne : (p ++ [s]) ++ [s'] ≠ p := fun he => by
          have := congrArg List.length he
          simp at this
        rw [entries_of_leaf hl add_self, add_of_ne hne (ne_append_singleton _ _).symm,
          h.eq_none_append hn]
        simp
      · rw [entries_congr (add_of_ne hq hq'), h.mem_entries]
        by_cases hp : q ++ [s'] = p
        · rw [hp, add_parent]
          obtain ⟨es, hes⟩ := isDir_iff.mp hd
          rw [hes]
          rfl
        · rw [add_of_ne hp fun he => hq (append_singleton_inj.mp he).1]
  nodup q := by
    by_cases hq : q = p
    · subst hq
      rw [entries_of_dir add_parent]
      have hs : s ∉ t.entries q := fun hs => by
        rw [h.mem_entries, hn] at hs
        cases hs
      exact List.nodup_append.mpr ⟨h.nodup q, List.nodup_singleton s, fun x hx y hy => by
        rw [List.mem_singleton.mp hy]
        exact fun he => hs (he ▸ hx)⟩
    · by_cases hq' : q = p ++ [s]
      · subst hq'
        rw [entries_of_leaf hl add_self]
        exact List.nodup_nil
      · rw [entries_congr (add_of_ne hq hq')]
        exact h.nodup q

/-- **A file in the place of another.** -/
theorem WellFormed.replace (h : t.WellFormed) (hp : t p = some (.file a)) :
    (t.replace p b).WellFormed where
  root := isDir_replace hp h.root
  mem_entries q s := by
    have hentries : (t.replace p b).entries q = t.entries q := by
      by_cases hq : q = p
      · subst hq
        rw [entries_of_file replace_self, entries_of_file hp]
      · exact entries_congr (replace_of_ne hq)
    rw [hentries, h.mem_entries]
    by_cases hq : q ++ [s] = p
    · rw [hq, hp, replace_self]
      rfl
    · rw [replace_of_ne hq]
  nodup q := by
    by_cases hq : q = p
    · subst hq
      rw [entries_of_file replace_self]
      exact List.nodup_nil
    · rw [entries_congr (replace_of_ne hq)]
      exact h.nodup q

end

/-! ## A clear way -/

section

variable {nm : Naming N} {t : FileTree N α} {cs cs' : List (Component N)} {c : Component N}
  {d : Bool} {p : List N}

/-- **No file is in the way** of a path, and what is missing on it can be created. -/
def Clear (nm : Naming N) (t : FileTree N α) (cs : List (Component N)) : Prop :=
  ∀ cs' c, cs' ++ [c] <+: cs → c.passes nm = true ∧
    (∀ a, t ((cs' ++ [c]).foldl Component.move []) ≠ some (.file a)) ∧
    ∀ s, c = .name s → t ((cs' ++ [c]).foldl Component.move []) = none → nm.admits s = true

theorem Clear.ne_file (h : Clear nm t cs) (hw : t.WellFormed) (hp : cs' <+: cs) (a : α) :
    t (cs'.foldl Component.move []) ≠ some (.file a) := by
  rcases List.eq_nil_or_concat cs' with rfl | ⟨cs', c, rfl⟩
  · obtain ⟨es, hes⟩ := isDir_iff.mp hw.root
    rw [List.foldl_nil, hes]
    intro h
    cases h
  · rw [List.concat_eq_append] at hp ⊢
    exact (h cs' c hp).2.1 a

/-- Nothing put in the way, and nothing taken off it. -/
theorem Clear.mono {t' : FileTree N α} (h : Clear nm t cs)
    (hfile : ∀ cs' c, cs' ++ [c] <+: cs → ∀ a,
      t' ((cs' ++ [c]).foldl Component.move []) = some (.file a) →
        ∃ b, t ((cs' ++ [c]).foldl Component.move []) = some (.file b))
    (hnone : ∀ p, t' p = none → t p = none) : Clear nm t' cs := by
  intro cs' c hp
  obtain ⟨hc, hf, hs⟩ := h cs' c hp
  refine ⟨hc, fun a ha => ?_, fun s hcs ht => hs s hcs (hnone _ ht)⟩
  obtain ⟨b, hb⟩ := hfile cs' c hp a ha
  exact hf b hb

/-- The way ends, or is not there yet. -/
theorem Clear.resolve (h : Clear nm t cs) (hw : t.WellFormed) (hp : cs' <+: cs) :
    t.resolve nm ⟨cs', d⟩ = .ok (cs'.foldl Component.move []) ∨
      t.resolve nm ⟨cs', d⟩ = .error .notFound := by
  induction cs' using List.reverseRecOn with
  | nil => exact .inl rfl
  | append_singleton cs' c ih =>
    have hc := (h cs' c hp).1
    have hp' : cs' <+: cs := (List.prefix_append ..).trans hp
    rcases ih hp' with hr | hr
    · rw [resolve_concat_of_ok hr hc, enter]
      split
      · exact .inl (by rw [List.foldl_append]; rfl)
      · exact absurd ‹_› (h.ne_file hw hp' _)
      · exact .inr rfl
    · rw [resolve_concat d, if_pos hc, hr]
      exact .inr rfl

variable [DecidableEq N]

/-- **Making a directory on a clear way**: it is made, or there, or what is to hold it is not. -/
theorem Clear.mkdir (h : Clear nm t cs) (hw : t.WellFormed) (hp : cs' ++ [c] <+: cs) :
    (∃ t', t.mkdir nm ⟨cs' ++ [c], false⟩ = .ok t') ∨
      t.mkdir nm ⟨cs' ++ [c], false⟩ = .error .alreadyExists ∧
        t.isDirectory nm ⟨cs' ++ [c], false⟩ = true ∨
      t.mkdir nm ⟨cs' ++ [c], false⟩ = .error .notFound ∧
        t.isDirectory nm ⟨cs', false⟩ = false := by
  obtain ⟨hc, hfile, hadmits⟩ := h cs' c hp
  have hp' : cs' <+: cs := (List.prefix_append ..).trans hp
  rw [FileTree.mkdir]
  rcases h.resolve (d := false) hw hp' with hr | hr
  · rw [resolve_concat_of_ok hr hc]
    by_cases hd : t.isDir (cs'.foldl Component.move []) = true
    · rw [enter_of_isDir hd]
      rw [List.foldl_append, List.foldl_cons, List.foldl_nil] at hfile hadmits
      have hq : t.resolve nm ⟨cs' ++ [c], false⟩ = .ok (c.move (cs'.foldl Component.move [])) := by
        rw [resolve_concat_of_ok hr hc, enter_of_isDir hd]
      dsimp only
      split
      · exact .inr (.inl ⟨rfl, isDirectory_iff.mpr ⟨_, hq, isDir_iff.mpr ⟨_, ‹_›⟩⟩⟩)
      · exact absurd ‹_› (hfile _)
      · rename_i hnone
        refine .inl ?_
        cases c with
        | up =>
          obtain ⟨es, hes⟩ := isDir_iff.mp hd
          obtain ⟨es', hes'⟩ := isDir_iff.mp (hw.isDir_dropLast (by rw [hes]; rfl))
          rw [Component.move, hes'] at hnone
          cases hnone
        | name s =>
          rw [if_neg Bool.false_ne_true, create, List.getLast?_concat]
          dsimp only
          rw [if_pos (hadmits s rfl hnone)]
          exact ⟨_, rfl⟩
    · have hnone : t (cs'.foldl Component.move []) = none := by
        match ht : t (cs'.foldl Component.move []) with
        | none => rfl
        | some (.dir es) => exact absurd (isDir_iff.mpr ⟨es, ht⟩) hd
        | some (.file a) => exact absurd ht (h.ne_file hw hp' a)
      rw [enter, hnone]
      exact .inr (.inr ⟨rfl, Bool.eq_false_iff.mpr fun hdir => hd (isDir_location hdir)⟩)
  · refine .inr (.inr ⟨?_, Bool.eq_false_iff.mpr fun hdir => ?_⟩)
    · rw [resolve_concat false, if_pos hc, hr]
      rfl
    · obtain ⟨q, hq, -⟩ := isDirectory_iff.mp hdir
      rw [hr] at hq
      cases hq

end

end FileTree

end Machinery
