import Backbone.Lib.Run
import Backbone.Storage.LocalSimple

/-!
# The storage as a map

What `sanitize_filename` makes of a key is one or more names with separators between them, so the
path of a key is the base directory and these names. Keys with the same names share a file, and a
key can name a directory that others lie in.

Reference: `backbone-storage/src/local_simple.rs` and `lib.rs`.
-/

namespace Backbone.Storage

open Path Text

variable {p : PathBuf}

/-! ## The names of a key -/

/-- What a component adds to a sanitised name. -/
def safeName : Component → Option String
  | .normal s => some (String.ofList (s.toList.map cleanChar))
  | .parentDir => some "_parent"
  | .rootDir => none
  | .curDir => none

/-- The parts of a sanitised name. -/
def safeNames (key : String) : List String :=
  match (components key).filterMap safeName with
  | [] => ["file"]
  | names => names

/-- A name that is left as it is. -/
structure Clean (name : String) : Prop extends IsName name where
  clean : name.toList.map cleanChar = name.toList

section Names

variable {names : List String} {name : String} (key : String)

theorem cleanChar_cleanChar (c : Char) : cleanChar (cleanChar c) = cleanChar c := by
  have hline : cleanChar '_' = '_' := by decide
  by_cases hc : cleanChar c = c
  · rw [hc, hc]
  · have hdirty : cleanChar c = '_' := by
      unfold cleanChar at hc ⊢
      split
      · rfl
      · split
        · rfl
        · simp_all
    rw [hdirty, hline]

/-- Only a character that is kept gives a dot. -/
theorem eq_of_cleanChar_eq_dot {c : Char} (h : cleanChar c = '.') : c = '.' := by
  unfold cleanChar at h
  split at h
  · cases h
  · split at h
    · cases h
    · exact h

theorem cleanChar_ne_slash (c : Char) : cleanChar c ≠ '/' := by
  intro h
  unfold cleanChar at h
  split at h
  · cases h
  · next hne =>
    split at h
    · cases h
    · subst h
      simp at hne

theorem map_cleanChar_eq_dots {cs : List Char} {n : ℕ}
    (h : cs.map cleanChar = List.replicate n '.') : cs = List.replicate n '.' := by
  obtain ⟨hlen, hdot⟩ := List.eq_replicate_iff.mp h
  refine List.eq_replicate_iff.mpr ⟨by simpa using hlen, fun c hc => ?_⟩
  exact eq_of_cleanChar_eq_dot (hdot _ (List.mem_map_of_mem hc))

/-- Cleaned, a name is still a name. -/
theorem clean_map (h : IsName name) : Clean (String.ofList (name.toList.map cleanChar)) := by
  have hdots (n : ℕ) (hname : name ≠ String.ofList (List.replicate n '.')) :
      String.ofList (name.toList.map cleanChar) ≠ String.ofList (List.replicate n '.') := by
    intro heq
    have hchars := map_cleanChar_eq_dots (String.ofList_inj.mp heq)
    exact hname (String.toList_injective (by rw [hchars, String.toList_ofList]))
  refine ⟨⟨hdots 0 h.ne_empty, hdots 1 h.ne_dot, hdots 2 h.ne_dots, ?_⟩, ?_⟩
  · rw [String.toList_ofList]
    intro hslash
    obtain ⟨c, -, hc⟩ := List.mem_map.mp hslash
    exact cleanChar_ne_slash c hc
  · rw [String.toList_ofList, List.map_map]
    exact List.map_congr_left fun c _ => cleanChar_cleanChar c

theorem clean_of_mem_filterMap {key : String}
    (h : name ∈ (components key).filterMap safeName) : Clean name := by
  obtain ⟨component, hcomponent, hname⟩ := List.mem_filterMap.mp h
  cases component with
  | normal s =>
    cases hname
    exact clean_map (isName_of_mem_components hcomponent)
  | parentDir =>
    cases hname
    exact ⟨⟨by decide, by decide, by decide, by decide⟩, by decide⟩
  | rootDir => cases hname
  | curDir => cases hname

theorem clean_of_mem_safeNames {key : String} (h : name ∈ safeNames key) : Clean name := by
  unfold safeNames at h
  split at h
  · rw [List.mem_singleton.mp h]
    exact ⟨⟨by decide, by decide, by decide, by decide⟩, by decide⟩
  · exact clean_of_mem_filterMap h

theorem safeNames_ne_nil : safeNames key ≠ [] := by
  unfold safeNames
  split
  · exact List.cons_ne_nil _ _
  · next hne => exact hne

theorem join_eq_empty (h : ∀ name ∈ names, name ≠ "") : join "/" names = "" ↔ names = [] := by
  match names, h with
  | [], _ => simp [join]
  | [name], h => simpa [join] using h name
  | name :: next :: names, _ => simp [join]

theorem join_concat (hne : names ≠ []) (name : String) :
    join "/" (names ++ [name]) = join "/" names ++ "/" ++ name := by
  induction names with
  | nil => exact absurd rfl hne
  | cons head names ih =>
    cases names with
    | nil => rfl
    | cons next names =>
      have hrest := ih (List.cons_ne_nil _ _)
      simp only [List.cons_append, join] at hrest ⊢
      rw [hrest]
      simp only [String.append_assoc]

theorem pushPart_join (h : ∀ name ∈ names, name ≠ "") (name : String) :
    pushPart (join "/" names) name = join "/" (names ++ [name]) := by
  by_cases hne : names = []
  · subst hne
    rfl
  · rw [pushPart, if_neg fun he => hne ((join_eq_empty h).mp he), join_concat hne]

/-- The loop of `sanitize_filename`. -/
theorem foldl_sanitizeComponent (h : ∀ name ∈ names, name ≠ "")
    (hp : ∀ name ∈ p.filterMap safeName, name ≠ "") :
    p.foldl sanitizeComponent (join "/" names) = join "/" (names ++ p.filterMap safeName) := by
  induction p generalizing names with
  | nil => simp
  | cons component p ih =>
    have hstep : sanitizeComponent (join "/" names) component =
        join "/" (names ++ (safeName component).toList) := by
      cases component with
      | normal s => exact pushPart_join h _
      | parentDir => exact pushPart_join h _
      | rootDir => simp [sanitizeComponent, safeName]
      | curDir => simp [sanitizeComponent, safeName]
    have hcons : (component :: p).filterMap safeName =
        (safeName component).toList ++ p.filterMap safeName := by
      cases hname : safeName component <;> simp [hname]
    rw [hcons] at hp ⊢
    have hnames : ∀ name ∈ names ++ (safeName component).toList, name ≠ "" := by
      intro name hname
      obtain hname | hname := List.mem_append.mp hname
      · exact h name hname
      · exact hp name (List.mem_append_left _ hname)
    rw [List.foldl_cons, hstep, ih hnames fun name hname => hp name (List.mem_append_right _ hname),
      List.append_assoc]

theorem sanitizeFilename_eq : sanitizeFilename key = join "/" (safeNames key) := by
  have hne : ∀ name ∈ (components key).filterMap safeName, name ≠ "" :=
    fun name hname => (clean_of_mem_filterMap hname).ne_empty
  have hloop : (components key).foldl sanitizeComponent "" =
      join "/" ((components key).filterMap safeName) :=
    foldl_sanitizeComponent (fun _ h => absurd h List.not_mem_nil) hne
  simp only [sanitizeFilename, hloop, join_eq_empty hne, safeNames]
  cases (components key).filterMap safeName with
  | nil => rfl
  | cons name names => rfl

/-- The path of a key is the base directory and the names of the key. -/
theorem getFilePath_eq (baseDir key : String) :
    getFilePath baseDir key = components baseDir ++ (safeNames key).map .normal := by
  rw [getFilePath, sanitizeFilename_eq]
  exact components_joinPath baseDir (safeNames_ne_nil key)
    fun name hname => (clean_of_mem_safeNames hname).toIsName

/-- Names that are clean are the names of their own text. -/
theorem safeNames_join (hne : names ≠ []) (h : ∀ name ∈ names, Clean name) :
    safeNames (join "/" names) = names := by
  have hsafe : (names.map Component.normal).filterMap safeName = names := by
    rw [List.filterMap_map]
    have hsome : ∀ name ∈ names, (safeName ∘ Component.normal) name = some name := by
      intro name hname
      rw [Function.comp_apply, safeName, (h name hname).clean, String.ofList_toList]
    rw [List.filterMap_congr hsome, List.filterMap_some]
  rw [safeNames, components_join fun name hname => (h name hname).toIsName, hsafe]
  cases names with
  | nil => exact absurd rfl hne
  | cons => rfl

theorem sanitizeFilename_sanitizeFilename :
    sanitizeFilename (sanitizeFilename key) = sanitizeFilename key := by
  rw [sanitizeFilename_eq key, sanitizeFilename_eq,
    safeNames_join (safeNames_ne_nil key) fun name hname => clean_of_mem_safeNames hname]

end Names

/-! ## The map -/

/-- What is stored under each path. -/
abbrev Contents := PathBuf → Option Bytes

def Disk.contents (d : Disk) : Contents := fun p =>
  match d.nodes p with
  | some (.file data) => some data
  | _ => none

inductive Request where
  | uploadBytes (path : String) (data : Bytes)
  | downloadBytes (path : String)
  | copyFile (fromPath toPath : String)
  | moveFile (fromPath toPath : String)
  | deleteFile (path : String)
  | fileExists (path : String)
deriving DecidableEq, Repr

inductive Answer where
  | file (f : StorageFile)
  | bytes (data : Bytes)
  | flag (b : Bool)
deriving DecidableEq, Repr

def call (baseDir : String) : Request → Io Answer
  | .uploadBytes path data => return .file (← LocalStorage.uploadBytes baseDir path data)
  | .downloadBytes path => return .bytes (← LocalStorage.downloadBytes baseDir path)
  | .copyFile fromPath toPath => return .file (← LocalStorage.copyFile baseDir fromPath toPath)
  | .moveFile fromPath toPath => return .file (← LocalStorage.moveFile baseDir fromPath toPath)
  | .deleteFile path => return .flag (← LocalStorage.deleteFile baseDir path)
  | .fileExists path => return .flag (← LocalStorage.fileExists baseDir path)

/-- What a call does to a map. -/
def Contents.apply (baseDir : String) (m : Contents) : Request → Contents
  | .uploadBytes path data => Function.update m (getFilePath baseDir path) (some data)
  | .copyFile fromPath toPath =>
    Function.update m (getFilePath baseDir toPath) (m (getFilePath baseDir fromPath))
  | .moveFile fromPath toPath =>
    Function.update (Function.update m (getFilePath baseDir fromPath) none)
      (getFilePath baseDir toPath) (m (getFilePath baseDir fromPath))
  | .deleteFile path => Function.update m (getFilePath baseDir path) none
  | .downloadBytes _ => m
  | .fileExists _ => m

/-- What a map answers. -/
def Contents.Answers (baseDir : String) (m : Contents) : Request → Answer → Prop
  | .downloadBytes path, a => ∃ data, a = .bytes data ∧ m (getFilePath baseDir path) = some data
  | .deleteFile path, a => a = .flag (m (getFilePath baseDir path)).isSome
  | .fileExists path, a => a = .flag (m (getFilePath baseDir path)).isSome
  | _, _ => True

/-- At or below the base directory, without going up. -/
def Under (baseDir : String) (p : PathBuf) : Prop :=
  ∃ names : List String, p = components baseDir ++ names.map .normal

/-- The disk after a call, and beside it the map. -/
def step (baseDir : String) (s : Disk × Contents) (r : Request) : Disk × Contents :=
  ((Io.run (call baseDir r) s.1).2, s.2.apply baseDir r)

/-- A call keeps the disk at the map's contents, is answered by the map, and names no other path. -/
structure Faithful (baseDir : String) (s : Disk × Contents) (r : Request) : Prop where
  contents_eq : (step baseDir s r).1.contents = (step baseDir s r).2
  answers : ∀ a, (Io.run (call baseDir r) s.1).1 = .ok a → s.2.Answers baseDir r a
  under : ∀ p ∈ (step baseDir s r).1.touched, p ∈ s.1.touched ∨ Under baseDir p

/-- The call succeeds. -/
def Succeeds (baseDir : String) (s : Disk × Contents) (r : Request) : Prop :=
  (Io.run (call baseDir r) s.1).1.isOk = true

instance decidableSucceeds (baseDir : String) (s : Disk × Contents) (r : Request) :
    Decidable (Succeeds baseDir s r) :=
  inferInstanceAs (Decidable (_ = true))

/-- A file that holds something is not copied onto itself, no file is moved onto itself, and no
directory is asked for. -/
def Apart (baseDir : String) (s : Disk × Contents) : Request → Prop
  | .copyFile fromPath toPath => getFilePath baseDir fromPath = getFilePath baseDir toPath →
      s.1.contents (getFilePath baseDir fromPath) = some []
  | .moveFile fromPath toPath => getFilePath baseDir fromPath ≠ getFilePath baseDir toPath
  | .fileExists path => s.1.nodes (getFilePath baseDir path) ≠ some .dir
  | _ => True

section Calls

open LocalStorage Io

variable {baseDir : String} {d d' : Disk} {path : String} {data : Bytes} {f : StorageFile}
  {fromPath : String} {toPath : String} (key : String)

theorem under_getFilePath : Under baseDir (getFilePath baseDir key) :=
  ⟨safeNames key, getFilePath_eq baseDir key⟩

theorem parent_getFilePath :
    parent (getFilePath baseDir key) =
      some (components baseDir ++ (safeNames key).dropLast.map .normal) := by
  rw [getFilePath_eq, parent_append _ (safeNames_ne_nil key)]

theorem contents_update_file (h : d'.nodes = Function.update d.nodes p (some (.file data))) :
    d'.contents = Function.update d.contents p (some data) := by
  funext q
  by_cases hq : q = p
  · subst hq
    simp [Disk.contents, h]
  · simp [Disk.contents, h, Function.update_of_ne hq]

theorem contents_update_none (h : d'.nodes = Function.update d.nodes p none) :
    d'.contents = Function.update d.contents p none := by
  funext q
  by_cases hq : q = p
  · subst hq
    simp [Disk.contents, h]
  · simp [Disk.contents, h, Function.update_of_ne hq]

theorem contents_eq_some_iff : d.contents p = some data ↔ d.nodes p = some (.file data) := by
  unfold Disk.contents
  split <;> simp_all

theorem contents_congr (h : d'.nodes = d.nodes) : d'.contents = d.contents := by
  unfold Disk.contents
  rw [h]

theorem contents_createDirAll {u : Unit} (h : run (createDirAll p) d = (.ok u, d')) :
    d'.contents = d.contents := by
  funext q
  apply Option.ext
  intro data
  rw [contents_eq_some_iff, contents_eq_some_iff, (createDirAll_eq_ok h).1]

/-- Only paths at or below the base directory are named. -/
def Touches (baseDir : String) (d d' : Disk) : Prop :=
  ∀ p ∈ d'.touched, p ∈ d.touched ∨ Under baseDir p

theorem Touches.trans {d'' : Disk} (h : Touches baseDir d d') (h' : Touches baseDir d' d'') :
    Touches baseDir d d'' := by
  intro p hp
  obtain hp | hp := h' p hp
  · exact h p hp
  · exact .inr hp

theorem uploadBytes_eq (h : parent (getFilePath baseDir path) = some p) :
    uploadBytes baseDir path data = (do
      createDirAll p
      write (getFilePath baseDir path) data
      getFileMetadata (getFilePath baseDir path) path) := by
  unfold uploadBytes
  simp only [h]

theorem touches_cons (hp : Under baseDir p) (h : d'.touched = p :: d.touched) :
    Touches baseDir d d' := by
  intro q hq
  rw [h] at hq
  obtain rfl | hq := List.mem_cons.mp hq
  · exact .inr hp
  · exact .inl hq

theorem touches_cons_cons {q : PathBuf} (hp : Under baseDir p) (hq : Under baseDir q)
    (h : d'.touched = p :: q :: d.touched) : Touches baseDir d d' := by
  intro r hr
  rw [h] at hr
  obtain rfl | hr := List.mem_cons.mp hr
  · exact .inr hp
  · obtain rfl | hr := List.mem_cons.mp hr
    · exact .inr hq
    · exact .inl hr

/-- A file that was written is looked at. -/
theorem getFileMetadata_eq_ok {key : String} (h : run (getFileMetadata p key) d = (.ok f, d')) :
    d'.nodes = d.nodes ∧ d'.touched = p :: d.touched := by
  rw [getFileMetadata] at h
  obtain ⟨n, s, hmetadata, h⟩ := run_bind_eq_ok.mp h
  rw [← (run_pure_eq_ok.mp h).2]
  exact metadata_eq_ok hmetadata

theorem uploadBytes_eq_ok (h : run (uploadBytes baseDir path data) d = (.ok f, d')) :
    d'.contents = Function.update d.contents (getFilePath baseDir path) (some data) ∧
      Touches baseDir d d' := by
  rw [uploadBytes_eq (parent_getFilePath path)] at h
  simp only [run_bind_eq_ok] at h
  obtain ⟨_, d₁, hcreate, _, d₂, hwrite, hmetadata⟩ := h
  obtain ⟨hnodes, htouched⟩ := write_eq_ok hwrite
  obtain ⟨hsame, hlooked⟩ := getFileMetadata_eq_ok hmetadata
  constructor
  · rw [contents_update_file (hsame.trans hnodes), contents_createDirAll hcreate]
  · have hparent := touches_cons ⟨_, rfl⟩ (createDirAll_eq_ok hcreate).2
    exact hparent.trans ((touches_cons (under_getFilePath path) htouched).trans
      (touches_cons (under_getFilePath path) hlooked))

theorem downloadBytes_eq_ok (h : run (downloadBytes baseDir path) d = (.ok data, d')) :
    d.contents (getFilePath baseDir path) = some data ∧ d'.contents = d.contents ∧
      Touches baseDir d d' := by
  unfold downloadBytes at h
  simp only [run_bind_eq_ok, run_pathExists_eq_ok, run_check_eq_ok] at h
  obtain ⟨_, d₁, ⟨-, rfl⟩, -, hread⟩ := h
  obtain ⟨hfile, hnodes, htouched⟩ := read_eq_ok hread
  refine ⟨contents_eq_some_iff.mpr hfile, contents_congr hnodes, ?_⟩
  exact touches_cons_cons (under_getFilePath path) (under_getFilePath path) htouched

theorem fileExists_eq_ok {b : Bool} (h : run (fileExists baseDir path) d = (.ok b, d')) :
    b = (d.nodes (getFilePath baseDir path)).isSome ∧ d'.contents = d.contents ∧
      Touches baseDir d d' := by
  obtain ⟨rfl, rfl⟩ := run_pathExists_eq_ok.mp h
  exact ⟨rfl, rfl, touches_cons (under_getFilePath path) rfl⟩

theorem deleteFile_eq_ok {b : Bool} (h : run (deleteFile baseDir path) d = (.ok b, d')) :
    b = (d.contents (getFilePath baseDir path)).isSome ∧
      d'.contents = Function.update d.contents (getFilePath baseDir path) none ∧
      Touches baseDir d d' := by
  unfold deleteFile at h
  simp only [run_bind_eq_ok, run_pathExists_eq_ok] at h
  obtain ⟨_, d₁, ⟨rfl, rfl⟩, h⟩ := h
  split at h
  · next hnone =>
    obtain ⟨rfl, rfl⟩ := run_pure_eq_ok.mp h
    have habsent : d.contents (getFilePath baseDir path) = none := by
      have hnodes : d.nodes (getFilePath baseDir path) = none := by simpa using hnone
      simp [Disk.contents, hnodes]
    have hself : Function.update d.contents (getFilePath baseDir path) none = d.contents :=
      Function.update_eq_self_iff.mpr habsent.symm
    refine ⟨?_, ?_, touches_cons (under_getFilePath path) rfl⟩
    · rw [habsent, Option.isSome_none]
    · rw [hself]
      exact contents_congr rfl
  · obtain ⟨_, d₂, hremove, h⟩ := run_bind_eq_ok.mp h
    obtain ⟨rfl, rfl⟩ := run_pure_eq_ok.mp h
    obtain ⟨⟨data, hfile⟩, hnodes, htouched⟩ := removeFile_eq_ok hremove
    have hheld : d.contents (getFilePath baseDir path) = some data := contents_eq_some_iff.mpr hfile
    refine ⟨by rw [hheld, Option.isSome_some], contents_update_none hnodes, ?_⟩
    exact touches_cons_cons (under_getFilePath path) (under_getFilePath path) htouched

theorem copyFile_eq (h : parent (getFilePath baseDir toPath) = some p) :
    copyFile baseDir fromPath toPath = (do
      if !(← pathExists (getFilePath baseDir fromPath)) then throw (.fileNotFound fromPath)
      createDirAll p
      copy (getFilePath baseDir fromPath) (getFilePath baseDir toPath)
      getFileMetadata (getFilePath baseDir toPath) toPath) := by
  unfold copyFile
  simp only [h]

theorem copyFile_eq_ok (h : run (copyFile baseDir fromPath toPath) d = (.ok f, d')) :
    ∃ data, d.contents (getFilePath baseDir fromPath) = some data ∧
      d'.contents = Function.update d.contents (getFilePath baseDir toPath)
        (some (if getFilePath baseDir fromPath = getFilePath baseDir toPath then [] else data)) ∧
      Touches baseDir d d' := by
  rw [copyFile_eq (parent_getFilePath toPath)] at h
  simp only [run_bind_eq_ok, run_pathExists_eq_ok, run_check_eq_ok] at h
  obtain ⟨_, d₁, ⟨-, rfl⟩, -, _, d₂, hcreate, _, d₃, hcopy, hmetadata⟩ := h
  obtain ⟨data, hfile, hnodes, htouched⟩ := copy_eq_ok hcopy
  obtain ⟨hsame, hlooked⟩ := getFileMetadata_eq_ok hmetadata
  have hkept : d₂.contents = d.contents :=
    (contents_createDirAll hcreate).trans (contents_congr rfl)
  refine ⟨data, ?_, ?_, ?_⟩
  · rw [← hkept, contents_eq_some_iff, hfile]
  · rw [contents_update_file (hsame.trans hnodes), hkept]
  · have hfrom : Under baseDir _ := under_getFilePath fromPath
    have hto : Under baseDir _ := under_getFilePath toPath
    have hparent := touches_cons ⟨_, rfl⟩ (createDirAll_eq_ok hcreate).2
    exact (touches_cons hfrom rfl).trans (hparent.trans
      ((touches_cons_cons hto hfrom htouched).trans (touches_cons hto hlooked)))

/-- A copy, and then the source is deleted, which may be the copy itself. -/
theorem moveFile_eq_ok (h : run (moveFile baseDir fromPath toPath) d = (.ok f, d')) :
    ∃ data, d.contents (getFilePath baseDir fromPath) = some data ∧
      d'.contents = Function.update (Function.update d.contents (getFilePath baseDir toPath)
        (some data)) (getFilePath baseDir fromPath) none ∧
      Touches baseDir d d' := by
  unfold moveFile at h
  simp only [run_bind_eq_ok] at h
  obtain ⟨_, d₁, hcopy, _, d₂, hdelete, h⟩ := h
  obtain ⟨-, rfl⟩ := run_pure_eq_ok.mp h
  obtain ⟨data, hdata, hcopied, htouches⟩ := copyFile_eq_ok hcopy
  obtain ⟨-, hdeleted, htouches'⟩ := deleteFile_eq_ok hdelete
  refine ⟨data, hdata, ?_, htouches.trans htouches'⟩
  rw [hdeleted, hcopied]
  split
  · next hself => rw [hself, Function.update_idem, Function.update_idem]
  · rfl

end Calls

/-! ## Runs -/

section Runs

open Io Machine

variable {baseDir : String} {d : Disk} {r : Request}

theorem faithful_of_run {a : Answer} {d' : Disk} (h : run (call baseDir r) d = (.ok a, d')) :
    Faithful baseDir (d, d.contents) r ↔ d'.contents = d.contents.apply baseDir r ∧
      d.contents.Answers baseDir r a ∧ Touches baseDir d d' := by
  constructor
  · rintro ⟨hcontents, hanswers, hunder⟩
    simp only [step, h] at hcontents hanswers hunder
    exact ⟨hcontents, hanswers a rfl, hunder⟩
  · rintro ⟨hcontents, hanswers, hunder⟩
    refine ⟨?_, ?_, ?_⟩
    · simpa only [step, h] using hcontents
    · intro a' ha'
      rw [h] at ha'
      cases ha'
      exact hanswers
    · simp only [step, h]
      exact hunder

/-- A call that succeeds is faithful to the map exactly when it is kept apart. -/
theorem faithful_iff_apart (h : Succeeds baseDir (d, d.contents) r) :
    Faithful baseDir (d, d.contents) r ↔ Apart baseDir (d, d.contents) r := by
  obtain ⟨a, d', hrun⟩ : ∃ a d', run (call baseDir r) d = (.ok a, d') := by
    unfold Succeeds at h
    generalize run (call baseDir r) d = result at h
    obtain ⟨⟨⟩ | a, d'⟩ := result
    · cases h
    · exact ⟨a, d', rfl⟩
  rw [faithful_of_run hrun]
  cases r with
  | uploadBytes path data =>
    obtain ⟨f, s, hupload, h⟩ := run_bind_eq_ok.mp hrun
    obtain ⟨rfl, rfl⟩ := run_pure_eq_ok.mp h
    obtain ⟨hcontents, htouches⟩ := uploadBytes_eq_ok hupload
    exact iff_of_true ⟨hcontents, trivial, htouches⟩ trivial
  | downloadBytes path =>
    obtain ⟨data, s, hdownload, h⟩ := run_bind_eq_ok.mp hrun
    obtain ⟨rfl, rfl⟩ := run_pure_eq_ok.mp h
    obtain ⟨hdata, hcontents, htouches⟩ := downloadBytes_eq_ok hdownload
    exact iff_of_true ⟨hcontents, ⟨data, rfl, hdata⟩, htouches⟩ trivial
  | copyFile fromPath toPath =>
    obtain ⟨f, s, hcopy, h⟩ := run_bind_eq_ok.mp hrun
    obtain ⟨rfl, rfl⟩ := run_pure_eq_ok.mp h
    obtain ⟨data, hdata, hcontents, htouches⟩ := copyFile_eq_ok hcopy
    simp only [hcontents, Contents.apply, Contents.Answers, hdata, htouches, Apart, and_true,
      (Function.update_injective _ _).eq_iff, Option.some.injEq]
    by_cases hself : getFilePath baseDir fromPath = getFilePath baseDir toPath
    · simp [hself, eq_comm]
    · simp [hself]
  | moveFile fromPath toPath =>
    obtain ⟨f, s, hmove, h⟩ := run_bind_eq_ok.mp hrun
    obtain ⟨rfl, rfl⟩ := run_pure_eq_ok.mp h
    obtain ⟨data, hdata, hcontents, htouches⟩ := moveFile_eq_ok hmove
    simp only [hcontents, Contents.apply, Contents.Answers, hdata, htouches, Apart, and_true]
    constructor
    · intro hmap hself
      have hgone := congrFun hmap (getFilePath baseDir toPath)
      rw [hself, Function.update_self, Function.update_self] at hgone
      cases hgone
    · intro hapart
      exact Function.update_comm (Ne.symm hapart) _ _ _
  | deleteFile path =>
    obtain ⟨b, s, hdelete, h⟩ := run_bind_eq_ok.mp hrun
    obtain ⟨rfl, rfl⟩ := run_pure_eq_ok.mp h
    obtain ⟨rfl, hcontents, htouches⟩ := deleteFile_eq_ok hdelete
    exact iff_of_true ⟨hcontents, rfl, htouches⟩ trivial
  | fileExists path =>
    obtain ⟨b, s, hexists, h⟩ := run_bind_eq_ok.mp hrun
    obtain ⟨rfl, rfl⟩ := run_pure_eq_ok.mp h
    obtain ⟨rfl, hcontents, htouches⟩ := fileExists_eq_ok hexists
    simp only [hcontents, Contents.apply, Contents.Answers, htouches, Apart, true_and, and_true,
      Answer.flag.injEq, Disk.contents]
    cases d.nodes (getFilePath baseDir path) with
    | none => simp
    | some node => cases node <;> simp

/-- A run of calls that succeed is faithful to the map exactly when every call is kept apart. -/
theorem along_faithful_iff {calls : List Request}
    (h : Along (step baseDir) (Succeeds baseDir) (d, d.contents) calls) :
    Along (step baseDir) (Faithful baseDir) (d, d.contents) calls ↔
      Along (step baseDir) (Apart baseDir) (d, d.contents) calls := by
  have hiff : Along (step baseDir) (fun s r => Succeeds baseDir s r ∧ Faithful baseDir s r)
        (d, d.contents) calls ↔
      Along (step baseDir) (fun s r => Succeeds baseDir s r ∧ Apart baseDir s r)
        (d, d.contents) calls := by
    apply along_iff_of_invariant _ (I := fun s => s.1.contents = s.2)
    · rintro ⟨d, m⟩ r (rfl : d.contents = m) ⟨hsucceeds, hapart⟩
      exact ((faithful_iff_apart hsucceeds).mpr hapart).contents_eq
    · rintro ⟨d, m⟩ r (rfl : d.contents = m)
      exact and_congr_right faithful_iff_apart
    · rfl
  constructor
  · intro hfaithful
    exact (hiff.mp (h.and _ hfaithful)).mono _ fun _ _ hboth => hboth.2
  · intro hapart
    exact (hiff.mpr (h.and _ hapart)).mono _ fun _ _ hboth => hboth.2

/-- Along a run of calls that succeed the storage is a map, with keys that keep their names, exactly
when every call is kept apart. -/
theorem mapLike_iff (baseDir : String) (d : Disk) (calls : List Request)
    (h : Along (step baseDir) (Succeeds baseDir) (d, d.contents) calls) :
    (∀ key, sanitizeFilename (sanitizeFilename key) = sanitizeFilename key) ∧
        Along (step baseDir) (Faithful baseDir) (d, d.contents) calls ↔
      Along (step baseDir) (Apart baseDir) (d, d.contents) calls := by
  rw [along_faithful_iff h]
  exact and_iff_right sanitizeFilename_sanitizeFilename

/-- A new directory. -/
def Disk.new (baseDir : String) : Disk :=
  ⟨fun p => if p ∈ (components baseDir).inits ∧ p ≠ [] then some .dir else none, []⟩

/-- A file that is moved onto itself is gone. -/
theorem not_mapLike :
    ¬ ∀ (baseDir : String) (d : Disk) (calls : List Request),
      Along (step baseDir) (Succeeds baseDir) (d, d.contents) calls →
      (∀ key, sanitizeFilename (sanitizeFilename key) = sanitizeFilename key) ∧
        Along (step baseDir) (Faithful baseDir) (d, d.contents) calls := by
  intro h
  have hsucceeds : Along (step "data") (Succeeds "data") (Disk.new "data", (Disk.new "data").contents)
      [.uploadBytes "a" [1], .moveFile "a" "a"] := by decide +kernel
  have hapart := (along_faithful_iff hsucceeds).mp (h _ _ _ hsucceeds).2
  exact hapart.2.1 rfl

/-- A file below a directory is copied, moved, read and deleted. -/
theorem mapLike_session :
    (∀ key, sanitizeFilename (sanitizeFilename key) = sanitizeFilename key) ∧
      Along (step "data") (Faithful "data") (Disk.new "data", (Disk.new "data").contents)
        [.uploadBytes "a/b" [1], .copyFile "a/b" "../c", .moveFile "../c" "d", .fileExists "d",
          .downloadBytes "d", .deleteFile "a/b"] := by
  apply (mapLike_iff "data" (Disk.new "data") _ (by decide +kernel)).mpr
  refine ⟨trivial, ?_, ?_, ?_, trivial, trivial, trivial⟩
  · intro hself
    exact absurd hself (by decide +kernel)
  · show getFilePath "data" "../c" ≠ getFilePath "data" "d"
    decide +kernel
  · show Disk.nodes _ (getFilePath "data" "d") ≠ some .dir
    decide +kernel

end Runs

end Backbone.Storage
