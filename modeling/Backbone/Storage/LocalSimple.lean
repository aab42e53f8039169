import Backbone.Lib.Path

/-!
# The storage in a directory

`LocalStorage` keeps each file under a base directory, at a path that is made of the file's key. The
file system is its nodes, named by their paths, and it notes every path that a call names. A file's
type and the times of its creation and change are left out.

Reference: `backbone-storage/src/local_simple.rs` and `lib.rs`.
-/

namespace Backbone.Storage

open Path Text

/-! ## Keys -/

/-- `char::is_control`. -/
def isControl (c : Char) : Bool := c.toNat < 32 || (127 ≤ c.toNat && c.toNat < 160)

def cleanChar (c : Char) : Char :=
  if c ∈ ['/', '\\', ':', '*', '?', '"', '<', '>', '|'] then '_'
  else if isControl c then '_'
  else c

/-- `result.push_str`, behind a separator unless the result is empty. -/
def pushPart (result part : String) : String :=
  if result = "" then part else result ++ "/" ++ part

/-- One turn of the loop of `sanitize_filename`. -/
def sanitizeComponent (result : String) : Component → String
  | .normal s => pushPart result (String.ofList (s.toList.map cleanChar))
  | .rootDir => result
  | .curDir => result
  | .parentDir => pushPart result "_parent"

def sanitizeFilename (filename : String) : String :=
  let result := (components filename).foldl sanitizeComponent ""
  if result = "" then "file" else result

/-- `LocalStorage::get_file_path`. -/
def getFilePath (baseDir key : String) : PathBuf :=
  components (joinPath baseDir (sanitizeFilename key))

/-! ## The file system -/

abbrev Bytes := List UInt8

inductive Node where
  | dir
  | file (data : Bytes)
deriving DecidableEq, Repr

def Node.isFile : Node → Bool
  | .dir => false
  | .file _ => true

inductive IoError where
  | notFound
  | alreadyExists
  | isADirectory
  | invalidInput
deriving DecidableEq, Repr

inductive StorageError where
  | fileNotFound (key : String)
  | filesystemError (e : IoError)
deriving DecidableEq, Repr

structure Disk where
  nodes : PathBuf → Option Node
  /-- The paths that were named, newest first. -/
  touched : List PathBuf

/-- A call that reads and changes the disk. -/
abbrev Io := ExceptT StorageError (StateM Disk)

namespace Io

def run {α : Type} (x : Io α) (d : Disk) : Except StorageError α × Disk := (ExceptT.run x).run d

def touch (p : PathBuf) : Io Unit := modify fun d => { d with touched := p :: d.touched }

/-- `Path::exists`, of a file or a directory. -/
def pathExists (p : PathBuf) : Io Bool := do
  touch p
  return ((← get).nodes p).isSome

/-- `create_dir_all`, which makes what is missing on the way to a directory. -/
def createDirAll (p : PathBuf) : Io Unit := do
  touch p
  let d ← get
  if p.inits.any fun q => (d.nodes q).any Node.isFile then
    throw (.filesystemError .alreadyExists)
  set { d with nodes := fun q => if q ∈ p.inits ∧ d.nodes q = none then some .dir else d.nodes q }

/-- Whether a file can be made at a path: its directory is there. -/
def hasParent (d : Disk) (p : PathBuf) : Bool :=
  (parent p).any fun q => q = [] || d.nodes q = some .dir

/-- `tokio::fs::write`. -/
def write (p : PathBuf) (data : Bytes) : Io Unit := do
  touch p
  let d ← get
  if d.nodes p = some .dir then throw (.filesystemError .isADirectory)
  if !hasParent d p then throw (.filesystemError .notFound)
  set { d with nodes := Function.update d.nodes p (some (.file data)) }

/-- `tokio::fs::read`. -/
def read (p : PathBuf) : Io Bytes := do
  touch p
  match (← get).nodes p with
  | some (.file data) => return data
  | some .dir => throw (.filesystemError .isADirectory)
  | none => throw (.filesystemError .notFound)

/-- `tokio::fs::remove_file`. -/
def removeFile (p : PathBuf) : Io Unit := do
  touch p
  let d ← get
  match d.nodes p with
  | some (.file _) => set { d with nodes := Function.update d.nodes p none }
  | some .dir => throw (.filesystemError .isADirectory)
  | none => throw (.filesystemError .notFound)

/-- `tokio::fs::copy`; onto itself a file is cut to nothing. -/
def copy (source dest : PathBuf) : Io Unit := do
  touch source
  touch dest
  let d ← get
  match d.nodes source with
  | some (.file data) =>
    if d.nodes dest = some .dir then throw (.filesystemError .isADirectory)
    if !hasParent d dest then throw (.filesystemError .notFound)
    let data := if source = dest then [] else data
    set { d with nodes := Function.update d.nodes dest (some (.file data)) }
  | some .dir => throw (.filesystemError .invalidInput)
  | none => throw (.filesystemError .notFound)

/-- The length that `std::fs::metadata` gives; that of a directory is not read. -/
def metadata (p : PathBuf) (key : String) : Io ℕ := do
  touch p
  match (← get).nodes p with
  | some (.file data) => return data.length
  | some .dir => return 0
  | none => throw (.fileNotFound key)

/-! ### What a successful call does -/

section Run

variable {α β : Type} {d d' : Disk} {p : PathBuf} {u : Unit}
  {x : Io α} {a : α} {e : StorageError} {data : Bytes}

/-- A call that succeeds is its parts, which succeed one after the other. -/
theorem run_bind_eq_ok {f : α → Io β} {b : β} :
    run (x >>= f) d = (.ok b, d') ↔ ∃ a s, run x d = (.ok a, s) ∧ run (f a) s = (.ok b, d') := by
  have hbind : run (x >>= f) d = match run x d with
      | (.ok a, s) => run (f a) s
      | (.error e, s) => (.error e, s) := by
    unfold run
    rw [ExceptT.run_bind, StateT.run_bind]
    show (fun r : Except StorageError α × Disk => _) ((ExceptT.run x).run d) = _
    obtain ⟨r, s⟩ := (ExceptT.run x).run d
    cases r <;> rfl
  rw [hbind]
  obtain ⟨r, s⟩ := run x d
  cases r with
  | ok a => simp
  | error e => simp

theorem run_pure_eq_ok {b : α} : run (pure a) d = (.ok b, d') ↔ a = b ∧ d = d' := by
  show ((.ok a, d) : Except StorageError α × Disk) = _ ↔ _
  simp

theorem run_throw_ne_ok : run (throw e) d ≠ (.ok a, d') := by
  intro h
  cases congrArg Prod.fst h

theorem run_get_eq_ok {s : Disk} : run get d = (.ok s, d') ↔ s = d ∧ d' = d := by
  show ((.ok d, d) : Except StorageError Disk × Disk) = _ ↔ _
  simp [eq_comm]

theorem run_set_eq_ok {s : Disk} {u : PUnit} : run (set s) d = (.ok u, d') ↔ d' = s := by
  show ((.ok (), s) : Except StorageError PUnit × Disk) = _ ↔ _
  simp [eq_comm]

theorem run_touch_eq_ok :
    run (touch p) d = (.ok u, d') ↔ d' = { d with touched := p :: d.touched } := by
  show ((.ok (), _) : Except StorageError Unit × Disk) = _ ↔ _
  simp [eq_comm]

theorem run_pathExists_eq_ok {b : Bool} :
    run (pathExists p) d = (.ok b, d') ↔
      b = (d.nodes p).isSome ∧ d' = { d with touched := p :: d.touched } := by
  show ((.ok (d.nodes p).isSome, _) : Except StorageError Bool × Disk) = _ ↔ _
  simp [eq_comm]

/-- A call that goes on only where a check finds nothing. -/
theorem run_check_eq_ok {c : Prop} [Decidable c] {f : PUnit → Io α} :
    run (if c then throw e >>= f else x) d = (.ok a, d') ↔ ¬ c ∧ run x d = (.ok a, d') := by
  by_cases hc : c
  · simp [hc, run_throw_ne_ok]
  · simp [hc]

theorem createDirAll_eq_ok (h : run (createDirAll p) d = (.ok u, d')) :
    (∀ q data, d'.nodes q = some (.file data) ↔ d.nodes q = some (.file data)) ∧
      d'.touched = p :: d.touched := by
  simp only [createDirAll, run_bind_eq_ok, run_touch_eq_ok, run_get_eq_ok, run_check_eq_ok,
    run_set_eq_ok] at h
  obtain ⟨_, _, rfl, _, _, ⟨rfl, rfl⟩, -, rfl⟩ := h
  refine ⟨fun q data => ?_, rfl⟩
  by_cases hmissing : q ∈ p.inits ∧ d.nodes q = none
  · simp [hmissing]
  · simp only [if_neg hmissing]

theorem write_eq_ok (h : run (write p data) d = (.ok u, d')) :
    d'.nodes = Function.update d.nodes p (some (.file data)) ∧ d'.touched = p :: d.touched := by
  simp only [write, run_bind_eq_ok, run_touch_eq_ok, run_get_eq_ok, run_check_eq_ok,
    run_set_eq_ok] at h
  obtain ⟨_, _, rfl, _, _, ⟨rfl, rfl⟩, -, -, rfl⟩ := h
  exact ⟨rfl, rfl⟩

theorem read_eq_ok (h : run (read p) d = (.ok data, d')) :
    d.nodes p = some (.file data) ∧ d'.nodes = d.nodes ∧ d'.touched = p :: d.touched := by
  simp only [read, run_bind_eq_ok, run_touch_eq_ok, run_get_eq_ok] at h
  obtain ⟨_, _, rfl, _, _, ⟨rfl, rfl⟩, h⟩ := h
  split at h
  · next hfile =>
    obtain ⟨rfl, rfl⟩ := run_pure_eq_ok.mp h
    exact ⟨hfile, rfl, rfl⟩
  · exact absurd h run_throw_ne_ok
  · exact absurd h run_throw_ne_ok

theorem removeFile_eq_ok (h : run (removeFile p) d = (.ok u, d')) :
    (∃ data, d.nodes p = some (.file data)) ∧ d'.nodes = Function.update d.nodes p none ∧
      d'.touched = p :: d.touched := by
  simp only [removeFile, run_bind_eq_ok, run_touch_eq_ok, run_get_eq_ok] at h
  obtain ⟨_, _, rfl, _, _, ⟨rfl, rfl⟩, h⟩ := h
  split at h
  · next data hfile =>
    cases run_set_eq_ok.mp h
    exact ⟨⟨data, hfile⟩, rfl, rfl⟩
  · exact absurd h run_throw_ne_ok
  · exact absurd h run_throw_ne_ok

theorem copy_eq_ok {source dest : PathBuf} (h : run (copy source dest) d = (.ok u, d')) :
    ∃ data, d.nodes source = some (.file data) ∧
      d'.nodes = Function.update d.nodes dest (some (.file (if source = dest then [] else data))) ∧
      d'.touched = dest :: source :: d.touched := by
  simp only [copy, run_bind_eq_ok, run_touch_eq_ok, run_get_eq_ok] at h
  obtain ⟨_, _, rfl, _, _, rfl, _, _, ⟨rfl, rfl⟩, h⟩ := h
  split at h
  · next data hfile =>
    simp only [run_check_eq_ok, run_set_eq_ok] at h
    obtain ⟨-, -, rfl⟩ := h
    exact ⟨data, hfile, rfl, rfl⟩
  · exact absurd h run_throw_ne_ok
  · exact absurd h run_throw_ne_ok

theorem metadata_eq_ok {key : String} {n : ℕ} (h : run (metadata p key) d = (.ok n, d')) :
    d'.nodes = d.nodes ∧ d'.touched = p :: d.touched := by
  simp only [metadata, run_bind_eq_ok, run_touch_eq_ok, run_get_eq_ok] at h
  obtain ⟨_, _, rfl, _, _, ⟨rfl, rfl⟩, h⟩ := h
  split at h
  · rw [← (run_pure_eq_ok.mp h).2]
    exact ⟨rfl, rfl⟩
  · rw [← (run_pure_eq_ok.mp h).2]
    exact ⟨rfl, rfl⟩
  · exact absurd h run_throw_ne_ok

end Run

end Io

/-! ## `LocalStorage` -/

structure StorageFile where
  name : String
  size : ℕ
  checksum : Option String
  storagePath : String
deriving DecidableEq, Repr

namespace LocalStorage

open Io

variable (baseDir : String)

def getFileMetadata (p : PathBuf) (key : String) : Io StorageFile := do
  let len ← metadata p key
  return ⟨key, len, some s!"\"{len}\"", key⟩

def uploadBytes (path : String) (data : Bytes) : Io StorageFile := do
  let filePath := getFilePath baseDir path
  if let some parent := parent filePath then createDirAll parent
  write filePath data
  getFileMetadata filePath path

def downloadBytes (path : String) : Io Bytes := do
  let filePath := getFilePath baseDir path
  if !(← pathExists filePath) then throw (.fileNotFound path)
  read filePath

def fileExists (path : String) : Io Bool := pathExists (getFilePath baseDir path)

def deleteFile (path : String) : Io Bool := do
  let filePath := getFilePath baseDir path
  if !(← pathExists filePath) then return false
  removeFile filePath
  return true

def copyFile (fromPath toPath : String) : Io StorageFile := do
  let sourcePath := getFilePath baseDir fromPath
  let destPath := getFilePath baseDir toPath
  if !(← pathExists sourcePath) then throw (.fileNotFound fromPath)
  if let some parent := parent destPath then createDirAll parent
  copy sourcePath destPath
  getFileMetadata destPath toPath

def moveFile (fromPath toPath : String) : Io StorageFile := do
  let result ← copyFile baseDir fromPath toPath
  let _ ← deleteFile baseDir fromPath
  return result

end LocalStorage

end Backbone.Storage
