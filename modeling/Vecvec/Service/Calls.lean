import Vecvec.Service.State

/-!
# Service/Calls — creating and recovering collections, as programs

Each definition is one function of the source, or of the library it calls, with its atomic actions
in order.
-/

namespace Vecvec

open Machinery ServiceOp

namespace Service

/-- Performs one action of a service. -/
abbrev perform (o : ServiceOp) : ServiceProg o.Ret := @Prog.perform serviceInterface o

/-- `p?; q`: the first error is returned. -/
def attempt {α : Type} (p : ServiceProg (Except ServiceError Unit))
    (q : ServiceProg (Except ServiceError α)) : ServiceProg (Except ServiceError α) := do
  match ← p with
  | .error e => return .error e
  | .ok () => q

/-! ## Files -/

/-- An error stands unless the path is a directory. -/
def orIsDirectory (path : PathBuf String) (e : IoError) : ServiceProg (Except IoError Unit) := do
  if ← perform (isDirectory path) then return .ok () else return .error e

/-- `mkdir`, in a directory that is there. -/
def mkdirIn (path : PathBuf String) : ServiceProg (Except IoError Unit) := do
  match ← perform (mkdir path) with
  | .ok () => return .ok ()
  | .error e => orIsDirectory path e

/-- `create_dir_all`, on the components of a path from its end: the directory, or its parent and
then the directory. -/
def createDirs : List (Component String) → Bool → ServiceProg (Except IoError Unit)
  | [], _ => return .ok ()
  | c :: cs, dot => do
    let path : PathBuf String := ⟨(c :: cs).reverse, dot⟩
    match ← perform (mkdir path) with
    | .ok () => return .ok ()
    | .error .notFound =>
      match ← createDirs cs false with
      | .error e => return .error e
      | .ok () => mkdirIn path
    | .error e => orIsDirectory path e

/-- `create_dir_all`. -/
def createDirAll (path : PathBuf String) : ServiceProg (Except IoError Unit) :=
  createDirs path.steps.reverse path.dot

/-! ## A collection's directory -/

/-- `write_atomic`. -/
def writeAtomic (path : PathBuf String) (f : File) : ServiceProg (Except ServiceError Unit) := do
  match ← perform (createTemp path.parent) with
  | .error e => return .error (.io (some path.parent) e)
  | .ok () =>
    match ← perform (putFile path f) with
    | .error e => return .error (.io (some path) e)
    | .ok () => return .ok ()

/-- `write_config_if_absent`. -/
def writeConfigIfAbsent (dir : PathBuf String) (cfg : CollectionConfig) :
    ServiceProg (Except ServiceError Unit) := do
  let path := dir.join "config"
  if ← perform (present path) then return .ok () else writeAtomic path (.config cfg)

/-- `read_config`. -/
def readConfig (dir : PathBuf String) : ServiceProg (Except ServiceError CollectionConfig) := do
  let path := dir.join "config"
  match ← perform (readFile path) with
  | .error e => return .error (.io (some path) e)
  | .ok (.config cfg) => return .ok cfg
  | .ok _ => return .error (.corrupt path)

/-- The `versions` file, read, and its segments. -/
def readVersions (path : PathBuf String) : ServiceProg (Except ServiceError Unit) := do
  match ← perform (readFile path) with
  | .error e => return .error (.io (some path) e)
  | .ok .versions => return .ok ()
  | .ok _ => return .error (.corrupt path)

/-- The `HEAD`, read, and its segments: the name of the active log. -/
def readHead (path : PathBuf String) : ServiceProg (Except ServiceError String) := do
  match ← perform (readFile path) with
  | .error e => return .error (.io (some path) e)
  | .ok (.head log) => return .ok log
  | .ok _ => return .error (.corrupt path)

/-- A log file opened, created if it is not there, and read (`read_all`). -/
def openLogFile (path : PathBuf String) : ServiceProg (Except ServiceError Unit) := do
  match ← perform (putFile path .log) with
  | .error e => return .error (.io (some path) e)
  | .ok () =>
    match ← perform (readFile path) with
    | .ok _ | .error .notFound => return .ok ()
    | .error e => return .error (.io (some path) e)

/-- `Wal::open`. -/
def openWal (path : PathBuf String) : ServiceProg (Except ServiceError Unit) := do
  match ← createDirAll path.parent with
  | .error e => return .error (.io (some path.parent) e)
  | .ok () =>
    match ← perform (readFile path) with
    | .ok _ | .error .notFound => openLogFile path
    | .error e => return .error (.io (some path) e)

/-- The versions, recovered if there are any. -/
def recoverVersions (dir : PathBuf String) : ServiceProg (Except ServiceError Unit) := do
  if ← perform (present (dir.join "versions")) then readVersions (dir.join "versions")
  else return .ok ()

/-- The checkpoint, recovered if there is one: the name of the active log. -/
def activeLog (dir : PathBuf String) : ServiceProg (Except ServiceError String) := do
  if ← perform (present (dir.join "HEAD")) then readHead (dir.join "HEAD")
  else return .ok "wal.0.log"

/-- The versions file, the checkpoint and the log, recovered. -/
def recoverDir (dir : PathBuf String) : ServiceProg (Except ServiceError Unit) :=
  attempt (recoverVersions dir) do
    match ← activeLog dir with
    | .error e => return .error e
    | .ok log => openWal (dir.join log)

/-- `DurableCollection::open`. -/
def openCollection (dir : PathBuf String) (cfg : CollectionConfig) :
    ServiceProg (Except ServiceError Unit) := do
  match ← createDirAll dir with
  | .error e => return .error (.io (some dir) e)
  | .ok () => attempt (writeConfigIfAbsent dir cfg) (recoverDir dir)

/-! ## The service -/

/-- `data_dir.join("collections")`; the data directory is named from the root. -/
def collectionsDir (dataDir : List String) : PathBuf String :=
  ⟨(dataDir ++ ["collections"]).map .name, false⟩

/-- `CollectionConfig::new`. -/
def newConfig (dim : ℕ) (metric : Metric) : CollectionConfig := ⟨dim, metric, ⟨none, none⟩⟩

/-- The opened collection, registered unless the name was taken meanwhile. -/
def register (name : String) (config : CollectionConfig) :
    ServiceProg (Except ServiceError Unit) := do
  if ← perform (registryInsertNew name config) then return .ok ()
  else return .error (.alreadyExists name)

/-- `create_collection`. -/
def createCollection (dataDir : List String) (name : String) (dim : ℕ) (metric : Metric) :
    ServiceProg (Except ServiceError Unit) := do
  if dim = 0 then return .error (.dimensionMismatch 1 0)
  else
    match ← perform (registryGet name) with
    | some _ => return .error (.alreadyExists name)
    | none =>
      attempt (openCollection (joinName (collectionsDir dataDir) name) (newConfig dim metric))
        (register name (newConfig dim metric))

/-- One entry of the collections directory, recovered. -/
def recoverEntry (dataDir : List String) (name : String) :
    ServiceProg (Except ServiceError Unit) := do
  let path := (collectionsDir dataDir).join name
  if ← perform (isDirectory path) then
    match ← readConfig path with
    | .error e => return .error e
    | .ok config =>
      attempt (openCollection path config) do
        let _ ← perform (registryInsertNew name config)
        return .ok ()
  else return .ok ()

/-- Entries recovered one by one; the first that fails fails the rest. -/
def recoverEach (dataDir : List String) : List String → ServiceProg (Except ServiceError Unit)
  | [] => return .ok ()
  | name :: names => attempt (recoverEntry dataDir name) (recoverEach dataDir names)

/-- `recover_all`. -/
def recoverAll (dataDir : List String) : ServiceProg (Except ServiceError Unit) := do
  if ← perform (present (collectionsDir dataDir)) then
    match ← perform (readDir (collectionsDir dataDir)) with
    | .error e => return .error (.io none e)
    | .ok names => recoverEach dataDir names
  else return .ok ()

end Service

end Vecvec
