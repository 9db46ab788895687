import Vecvec.Machinery.Prog
import Vecvec.Service.Names
import Vecvec.Version.Policy
import Mathlib.Tactic.SplitIfs

/-!
# Service/State — the service: its registry, its data directory, their atomic actions

A service keeps a registry of open collections and a directory with one subdirectory for each.  What
a collection does with its own points and versions is the subject of `Durable/State`; here its
`versions` file and `HEAD` stand for themselves and the segments they name.
-/

namespace Vecvec

open Machinery

/-- What a file of a collection's directory decodes to. -/
inductive File
  /-- a `CollectionConfig`, framed -/
  | config (cfg : CollectionConfig)
  /-- a log -/
  | log
  /-- a `versions` file, with every segment it names -/
  | versions
  /-- a `HEAD`, with every segment it names, and the name of the log that goes with it -/
  | head (log : String)
  deriving DecidableEq

/-- An open collection in the registry (`Arc<DurableCollection>`): the call that opened it, and the
config it was opened with. -/
structure Handle where
  opener : ℕ
  config : CollectionConfig
  deriving DecidableEq

/-- A service: its registry and the file system under it. -/
structure ServiceState where
  /-- The registry, by name. -/
  registry : String → Option Handle
  /-- The file system. -/
  tree : FileTree String File

/-- The errors of the operations modelled here. -/
inductive ServiceError
  | notFound (name : String)
  | alreadyExists (name : String)
  /-- `CoreError::DimensionMismatch` -/
  | dimensionMismatch (expected got : ℕ)
  /-- `CoreError::Io` -/
  | io (path : Option (PathBuf String)) (source : IoError)
  /-- A framed file that does not hold what is read from it. -/
  | corrupt (path : PathBuf String)
  deriving DecidableEq

/-- The names the service gives itself. -/
def ownNames : List String := ["collections", "config", "versions", "HEAD", "wal.0.log"]

/-- What the service asks of the operating system, apart from the file system's contents. -/
structure Os where
  /-- The names it takes. -/
  naming : Naming String
  /-- Those the service gives are among them. -/
  takes_own : ∀ n ∈ ownNames, naming.passes n = true ∧ naming.admits n = true
  /-- No entry can be made under a name that is not one component of a path. -/
  admits_plain : ∀ n, naming.admits n = true → Plain n
  /-- The order in which a directory is listed. -/
  order : List String → List String
  /-- A listing is of the entries. -/
  order_perm : ∀ es, (order es).Perm es

theorem Os.passes {n : String} (os : Os) (hn : n ∈ ownNames) : os.naming.passes n = true :=
  (os.takes_own n hn).1

theorem Os.admits {n : String} (os : Os) (hn : n ∈ ownNames) : os.naming.admits n = true :=
  (os.takes_own n hn).2

/-- A Unix system: names have no NUL and at most 255 bytes, and entries are listed as they were
added. -/
def Os.unix : Os where
  naming := ⟨fun n => Char.ofNat 0 ∉ n.toList, fun n => n.utf8ByteSize ≤ 255 ∧ Plain n⟩
  takes_own := by decide
  admits_plain _ hn := (of_decide_eq_true hn).2
  order := id
  order_perm := .refl

/-- A file system with nothing in it. -/
def emptyTree : FileTree String File := fun p => if p = [] then some (.dir []) else none

theorem entries_emptyTree (p : List String) : emptyTree.entries p = [] := by
  rw [FileTree.entries, emptyTree]
  split_ifs <;> rfl

theorem wellFormed_emptyTree : emptyTree.WellFormed where
  root := rfl
  mem_entries p s := by
    rw [entries_emptyTree]
    simp [emptyTree]
  nodup p := by
    rw [entries_emptyTree]
    exact List.nodup_nil

/-- The atomic actions of a service. -/
inductive ServiceOp
  /-- `Registry::get` -/
  | registryGet (name : String)
  /-- `Registry::insert_new` -/
  | registryInsertNew (name : String) (cfg : CollectionConfig)
  /-- `Path::exists` -/
  | present (path : PathBuf String)
  /-- `Path::is_dir` -/
  | isDirectory (path : PathBuf String)
  /-- `mkdir` -/
  | mkdir (path : PathBuf String)
  /-- `NamedTempFile::new_in`: the file has a name of its own, and is read under no other -/
  | createTemp (dir : PathBuf String)
  /-- `persist` of a temporary file, or `OpenOptions::open` with `create`: the file at the path is
  the one given -/
  | putFile (path : PathBuf String) (f : File)
  /-- `fs::read` -/
  | readFile (path : PathBuf String)
  /-- `fs::read_dir` -/
  | readDir (path : PathBuf String)

/-- What an action of a service answers. -/
@[reducible] def ServiceOp.Ret : ServiceOp → Type
  | registryGet _ => Option Handle
  | registryInsertNew _ _ => Bool
  | present _ => Bool
  | isDirectory _ => Bool
  | mkdir _ => Except IoError Unit
  | createTemp _ => Except IoError Unit
  | putFile _ _ => Except IoError Unit
  | readFile _ => Except IoError File
  | readDir _ => Except IoError (List String)

/-- The interface of a service. -/
@[reducible] def serviceInterface : Interface := ⟨ServiceOp, ServiceOp.Ret⟩

/-- A call on a service. -/
abbrev ServiceProg := Prog serviceInterface

namespace ServiceState

/-- An operation on the file system: what it answers, and the state with the tree it leaves. -/
def onTree (s : ServiceState) (r : Except IoError (FileTree String File)) :
    Except IoError Unit × ServiceState :=
  match r with
  | .ok t => (.ok (), { s with tree := t })
  | .error e => (.error e, s)

/-- What an action of caller `t` does. -/
def step (os : Os) : Handler serviceInterface ServiceState
  | _, .registryGet name, s => some (s.registry name, s)
  | t, .registryInsertNew name cfg, s =>
    if (s.registry name).isSome then some (false, s)
    else some (true, { s with registry := Function.update s.registry name (some ⟨t, cfg⟩) })
  | _, .present path, s => some (s.tree.present os.naming path, s)
  | _, .isDirectory path, s => some (s.tree.isDirectory os.naming path, s)
  | _, .mkdir path, s => some (s.onTree (s.tree.mkdir os.naming path))
  | _, .createTemp dir, s => some ((s.tree.openDir os.naming dir).map fun _ => (), s)
  | _, .putFile path f, s => some (s.onTree (s.tree.writeFile os.naming path f))
  | _, .readFile path, s => some (s.tree.readFile os.naming path, s)
  | _, .readDir path, s =>
    some ((s.tree.openDir os.naming path).map fun p => os.order (s.tree.entries p), s)

end ServiceState

end Vecvec
