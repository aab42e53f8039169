import Mathlib.Data.String.Basic
import Backbone.Lib.TokenWalk
import Backbone.Storage.KeyMap

/-!
# Listing the storage

`list_files` reads the entries of the base directory itself, in the order in which the file system
enumerates them, which may differ from call to call and is an argument here. It leaves out the
directories and all that is in them, and cuts the page before anything is sorted.

Reference: `backbone-storage/src/local_simple.rs`.
-/

namespace Backbone.Storage

open Path Text Machine TokenWalk

variable {entries : List String}

/-- `FileListResult`. -/
structure FileListResult where
  files : List StorageFile
  prefixes : List String
  truncated : Bool
  nextContinuationToken : Option String
  totalCount : Option ℕ

namespace LocalStorage

/-- The loop of `list_files` over the entries of the directory, whose names are the keys. -/
def listEntries (baseDir : String) (d : Disk) (keyPrefix : String) (limit : Option UInt32)
    (startAfter : String) : List String → List StorageFile → List StorageFile
  | [], files => files
  | key :: entries, files =>
    let path := components baseDir ++ [.normal key]
    if d.nodes path = some .dir then listEntries baseDir d keyPrefix limit startAfter entries files
    else if !startsWith key keyPrefix || key ≤ startAfter then
      listEntries baseDir d keyPrefix limit startAfter entries files
    else
      let files := match (Io.run (getFileMetadata path key) d).1 with
        | .ok file => files ++ [file]
        | .error _ => files
      if limit.any (·.toNat ≤ files.length) then files
      else listEntries baseDir d keyPrefix limit startAfter entries files

def listFiles (baseDir : String) (d : Disk) (entries : List String) (keyPrefix : String)
    (limit : Option UInt32) (continuationToken : Option String) :
    Except StorageError FileListResult :=
  if d.nodes (components baseDir) ≠ some .dir then .error (.filesystemError .notFound)
  else
    let startAfter := continuationToken.getD ""
    let files := listEntries baseDir d keyPrefix limit startAfter entries []
    let nextContinuationToken := limit.bind fun limit =>
      if limit.toNat ≤ files.length then files.getLast?.map (·.storagePath) else none
    .ok ⟨files, [], nextContinuationToken.isSome, nextContinuationToken, some files.length⟩

end LocalStorage

/-! ## Following the tokens -/

/-- What a client has that follows the tokens. -/
structure Listing where
  files : List StorageFile
  continuationToken : Option String
  finished : Bool

def Listing.start : Listing := ⟨[], none, false⟩

/-- The next call, unless the last one was not truncated. -/
def Listing.next (baseDir : String) (d : Disk) (keyPrefix : String) (limit : UInt32) (s : Listing)
    (entries : List String) : Listing :=
  if s.finished then s
  else
    match LocalStorage.listFiles baseDir d entries keyPrefix (some limit) s.continuationToken with
    | .error _ => s
    | .ok result =>
      ⟨s.files ++ result.files, result.nextContinuationToken, !result.truncated⟩

/-- A stored file, by its key. -/
def Stored (baseDir : String) (d : Disk) (key : String) : Prop :=
  ∃ names : List String, names ≠ [] ∧ (∀ name ∈ names, IsName name) ∧ key = join "/" names ∧
    ∃ data, d.nodes (components baseDir ++ names.map .normal) = some (.file data)

/-- The file system enumerates the entries of the base directory. -/
structure Enumerates (baseDir : String) (d : Disk) (entries : List String) : Prop where
  nodup : entries.Nodup
  mem_iff : ∀ name, name ∈ entries ↔
    IsName name ∧ (d.nodes (components baseDir ++ [.normal name])).isSome

/-- The client is done and has every stored file whose key starts with the text, once. -/
structure Complete (baseDir : String) (d : Disk) (keyPrefix : String) (s : Listing) : Prop where
  finished : s.finished = true
  nodup : (s.files.map (·.storagePath)).Nodup
  mem_iff : ∀ key, key ∈ s.files.map (·.storagePath) ↔
    Stored baseDir d key ∧ startsWith key keyPrefix = true

/-! ## A call -/

/-- An entry is a file whose key starts with the text. -/
def matching (baseDir : String) (d : Disk) (keyPrefix key : String) : Bool :=
  (d.nodes (components baseDir ++ [.normal key])).any Node.isFile && startsWith key keyPrefix

/-- What the client has, by the keys. -/
def Listing.walk (s : Listing) : Walk String :=
  ⟨s.files.map (·.storagePath), s.continuationToken, s.finished⟩

section Call

variable {baseDir : String} {d : Disk} {keyPrefix : String} {limit : UInt32} {p : PathBuf}
  (key : String)

theorem empty_lt {s : String} (h : s ≠ "") : "" < s := by
  rw [String.lt_iff_toList_lt]
  obtain ⟨c, cs, hcs⟩ := List.exists_cons_of_ne_nil (show s.toList ≠ [] by simpa using h)
  rw [hcs]
  exact List.nil_lt_cons c cs

/-- The token that stands for none is in front of every key. -/
theorem getD_lt_iff {token : Option String} {key : String} (h : key ≠ "") :
    token.getD "" < key ↔ token.all (· < key) = true := by
  cases token with
  | none => simp [empty_lt h]
  | some t => simp

/-- The metadata of a file carry its key. -/
theorem fst_getFileMetadata_file {data : Bytes}
    (h : d.nodes p = some (.file data)) :
    ∃ file, (Io.run (LocalStorage.getFileMetadata p key) d).1 = .ok file ∧
      file.storagePath = key := by
  have hmetadata : Io.run (Io.metadata p key) d =
      (.ok data.length, { d with touched := p :: d.touched }) := by
    unfold Io.metadata
    refine Io.run_bind_eq_ok.mpr ⟨(), { d with touched := p :: d.touched }, rfl, ?_⟩
    refine Io.run_bind_eq_ok.mpr ⟨_, _, rfl, ?_⟩
    dsimp only
    rw [h]
    rfl
  obtain ⟨file, d', hrun, hfile⟩ : ∃ file d',
      Io.run (LocalStorage.getFileMetadata p key) d = (.ok file, d') ∧ file.storagePath = key :=
    ⟨_, _, Io.run_bind_eq_ok.mpr ⟨_, _, hmetadata, rfl⟩, rfl⟩
  exact ⟨file, congrArg Prod.fst hrun, hfile⟩

theorem fst_getFileMetadata_none (h : d.nodes p = none) :
    ∃ e, (Io.run (LocalStorage.getFileMetadata p key) d).1 = .error e := by
  cases hrun : Io.run (LocalStorage.getFileMetadata p key) d with
  | mk result d' =>
    cases result with
    | error e => exact ⟨e, rfl⟩
    | ok f =>
      obtain ⟨n, s, hmetadata, -⟩ := Io.run_bind_eq_ok.mp hrun
      simp only [Io.metadata, Io.run_bind_eq_ok, Io.run_touch_eq_ok, Io.run_get_eq_ok] at hmetadata
      obtain ⟨_, _, rfl, _, _, ⟨rfl, rfl⟩, hnode⟩ := hmetadata
      rw [h] at hnode
      exact absurd hnode Io.run_throw_ne_ok

/-- An entry that is listed behind a token. -/
def listed (baseDir : String) (d : Disk) (keyPrefix startAfter key : String) : Bool :=
  matching baseDir d keyPrefix key && startAfter < key

/-- The loop pushes the entries that match behind the token, up to the limit. -/
theorem keys_listEntries (startAfter : String) {files : List StorageFile}
    (hfew : files.length < limit.toNat) :
    (LocalStorage.listEntries baseDir d keyPrefix (some limit) startAfter entries files).map
        (·.storagePath) =
      files.map (·.storagePath) ++
        (entries.filter (listed baseDir d keyPrefix startAfter)).take
          (limit.toNat - files.length) := by
  induction entries generalizing files with
  | nil => simp [LocalStorage.listEntries]
  | cons key entries ih =>
    have hskip (h : listed baseDir d keyPrefix startAfter key = false) :
        (key :: entries).filter (listed baseDir d keyPrefix startAfter) =
          entries.filter (listed baseDir d keyPrefix startAfter) :=
      List.filter_cons_of_neg (by rw [h]; exact Bool.false_ne_true)
    rw [LocalStorage.listEntries]
    by_cases hdir : d.nodes (components baseDir ++ [.normal key]) = some .dir
    · rw [if_pos hdir, ih hfew, hskip]
      rw [listed, matching, hdir]
      rfl
    rw [if_neg hdir]
    by_cases hout : (!startsWith key keyPrefix || decide (key ≤ startAfter)) = true
    · rw [if_pos hout, ih hfew, hskip]
      obtain hout | hout := Bool.or_eq_true_iff.mp hout
      · rw [listed, matching, (Bool.not_eq_true' _).mp hout, Bool.and_false, Bool.false_and]
      · rw [listed, decide_eq_false (of_decide_eq_true hout).not_gt, Bool.and_false]
    rw [if_neg hout]
    obtain ⟨hstarts, hbehind⟩ := not_or.mp (mt Bool.or_eq_true_iff.mpr hout)
    have hstarts : startsWith key keyPrefix = true := by simpa using hstarts
    have hbehind : startAfter < key := not_le.mp (mt decide_eq_true hbehind)
    cases hnode : d.nodes (components baseDir ++ [.normal key]) with
    | none =>
      obtain ⟨e, he⟩ := fst_getFileMetadata_none key hnode
      have hmore : ¬ (some limit).any (fun n => decide (n.toNat ≤ files.length)) = true := by
        simpa using hfew
      simp only [he]
      rw [if_neg hmore, ih hfew, hskip]
      rw [listed, matching, hnode]
      rfl
    | some node =>
      obtain ⟨data, rfl⟩ : ∃ data, node = .file data := by
        cases node with
        | dir => exact absurd hnode hdir
        | file data => exact ⟨data, rfl⟩
      obtain ⟨file, hok, hfile⟩ := fst_getFileMetadata_file key hnode
      have hlisted : listed baseDir d keyPrefix startAfter key = true := by
        rw [listed, matching, hnode, hstarts, decide_eq_true hbehind]
        rfl
      have htake : limit.toNat - files.length = limit.toNat - (files.length + 1) + 1 := by omega
      have hlen : (files ++ [file]).length = files.length + 1 := List.length_append
      simp only [hok]
      rw [List.filter_cons_of_pos hlisted, htake, List.take_succ_cons]
      by_cases hfull : limit.toNat ≤ files.length + 1
      · have hstop : (some limit).any (fun n => decide (n.toNat ≤ (files ++ [file]).length)) =
            true := by
          simpa using hfull
        rw [if_pos hstop, Nat.sub_eq_zero_of_le hfull]
        simp [hfile]
      · have hmore : ¬ (some limit).any (fun n => decide (n.toNat ≤ (files ++ [file]).length)) =
            true := by
          simpa using hfull
        rw [if_neg hmore, ih (by rw [hlen]; exact Nat.not_le.mp hfull), hlen]
        simp [hfile]

/-- A call lists a page of what matches. -/
theorem walk_next (hbase : d.nodes (components baseDir) = some .dir) (hlimit : 0 < limit.toNat)
    (s : Listing) (henum : Enumerates baseDir d entries) :
    (s.next baseDir d keyPrefix limit entries).walk =
      TokenWalk.step limit.toNat s.walk (entries.filter (matching baseDir d keyPrefix)) := by
  by_cases hfinished : s.finished = true
  · rw [Listing.next, if_pos hfinished]
    exact (step_of_done hfinished).symm
  have hfinished : s.finished = false := by simpa using hfinished
  have hfilter : entries.filter (listed baseDir d keyPrefix (s.continuationToken.getD "")) =
      (entries.filter (matching baseDir d keyPrefix)).filter
        fun key => s.continuationToken.all (· < key) := by
    rw [List.filter_filter]
    apply List.filter_congr
    intro key hkey
    rw [listed, Bool.and_comm]
    congr 1
    rw [Bool.eq_iff_iff, decide_eq_true_iff]
    exact getD_lt_iff ((henum.mem_iff key).mp hkey).1.ne_empty
  have hkeys : (LocalStorage.listEntries baseDir d keyPrefix (some limit)
        (s.continuationToken.getD "") entries []).map (·.storagePath) =
      page limit.toNat s.continuationToken (entries.filter (matching baseDir d keyPrefix)) := by
    rw [keys_listEntries _ (by simpa using hlimit), hfilter]
    rfl
  obtain ⟨files, hfiles, hok⟩ : ∃ files, LocalStorage.listEntries baseDir d keyPrefix (some limit)
        (s.continuationToken.getD "") entries [] = files ∧
      LocalStorage.listFiles baseDir d entries keyPrefix (some limit) s.continuationToken =
        .ok ⟨files, [],
          (if limit.toNat ≤ files.length then files.getLast?.map (·.storagePath) else none).isSome,
          if limit.toNat ≤ files.length then files.getLast?.map (·.storagePath) else none,
          some files.length⟩ := by
    refine ⟨_, rfl, ?_⟩
    rw [LocalStorage.listFiles, if_neg (not_not.mpr hbase)]
    rfl
  rw [hfiles] at hkeys
  rw [Listing.next, if_neg (by simp [hfinished]), hok]
  have hlen : files.length = (page limit.toNat s.walk.token
      (entries.filter (matching baseDir d keyPrefix))).length := by
    rw [Listing.walk, ← hkeys, List.length_map]
  show (⟨(s.files ++ files).map (·.storagePath),
    if limit.toNat ≤ files.length then files.getLast?.map (·.storagePath) else none,
    !(if limit.toNat ≤ files.length then files.getLast?.map (·.storagePath) else none).isSome⟩ :
      Walk String) = _
  rw [List.map_append, hkeys]
  by_cases hcut : limit.toNat ≤ files.length
  · rw [hlen] at hcut
    obtain ⟨b, -, hlast⟩ := exists_last hlimit hcut
    have htoken : files.getLast?.map (·.storagePath) = some b := by
      rw [← List.getLast?_map, hkeys]
      exact hlast
    rw [step_cut hfinished hcut, hlast, ← hlen] at *
    rw [if_pos hcut, htoken]
    rfl
  · rw [if_neg hcut]
    rw [hlen] at hcut
    rw [step_last hfinished (Nat.not_le.mp hcut)]
    rfl

end Call

/-! ## The walk -/

section Complete

variable {baseDir : String} {d : Disk} {keyPrefix : String} {limit : UInt32}
  {calls : List (List String)}

theorem walk_run (hbase : d.nodes (components baseDir) = some .dir) (hlimit : 0 < limit.toNat)
    (s : Listing) (hcalls : ∀ entries ∈ calls, Enumerates baseDir d entries) :
    (run (Listing.next baseDir d keyPrefix limit) s calls).walk =
      run (TokenWalk.step limit.toNat) s.walk
        (calls.map (·.filter (matching baseDir d keyPrefix))) := by
  induction calls generalizing s with
  | nil => rfl
  | cons entries calls ih =>
    rw [List.map_cons, run_cons, run_cons, ← walk_next hbase hlimit s (hcalls _ List.mem_cons_self)]
    exact ih _ fun entries' h => hcalls entries' (List.mem_cons_of_mem _ h)

/-- The first entries that match behind the token were not listed before, and if the page is cut,
every match up to the last of them is listed. -/
def InTurn (baseDir : String) (d : Disk) (keyPrefix : String) (limit : UInt32) (s : Listing)
    (entries : List String) : Prop :=
  Exact limit.toNat s.walk (entries.filter (matching baseDir d keyPrefix))

theorem along_inTurn_iff (hbase : d.nodes (components baseDir) = some .dir)
    (hlimit : 0 < limit.toNat) (s : Listing)
    (hcalls : ∀ entries ∈ calls, Enumerates baseDir d entries) :
    Along (Listing.next baseDir d keyPrefix limit) (InTurn baseDir d keyPrefix limit) s calls ↔
      Along (TokenWalk.step limit.toNat) (Exact limit.toNat) s.walk
        (calls.map (·.filter (matching baseDir d keyPrefix))) := by
  induction calls generalizing s with
  | nil => exact Iff.rfl
  | cons entries calls ih =>
    have hrest := ih (s.next baseDir d keyPrefix limit entries) fun entries' h =>
      hcalls entries' (List.mem_cons_of_mem _ h)
    rw [walk_next hbase hlimit s (hcalls _ List.mem_cons_self)] at hrest
    exact and_congr Iff.rfl hrest

/-- A stored file that is not below a directory is an entry that matches. -/
theorem mem_matching_iff (henum : Enumerates baseDir d entries) {key : String} :
    key ∈ entries.filter (matching baseDir d keyPrefix) ↔
      (Stored baseDir d key ∧ startsWith key keyPrefix = true) ∧ '/' ∉ key.toList := by
  rw [List.mem_filter, henum.mem_iff, matching, Bool.and_eq_true]
  constructor
  · rintro ⟨⟨hname, -⟩, hfile, hstarts⟩
    obtain ⟨node, hnode, hisFile⟩ := (Option.any_eq_true _ _).mp hfile
    cases node with
    | dir => cases hisFile
    | file data =>
      refine ⟨⟨⟨[key], List.cons_ne_nil _ _, by simpa using hname, rfl, data, hnode⟩, hstarts⟩,
        hname.not_mem⟩
  · rintro ⟨⟨⟨names, hne, hnames, rfl, data, hdata⟩, hstarts⟩, hslash⟩
    obtain ⟨name, rfl⟩ : ∃ name, names = [name] := by
      match names, hne with
      | [name], _ => exact ⟨name, rfl⟩
      | name :: next :: names, _ => simp [join] at hslash
    have hnode : d.nodes (components baseDir ++ [.normal name]) = some (.file data) := hdata
    refine ⟨⟨hnames name List.mem_cons_self, ?_⟩, ?_, hstarts⟩
    · exact Option.isSome_of_mem hnode
    · exact (Option.any_eq_true _ _).mpr ⟨_, hnode, rfl⟩

/-- At every call the entries that match are the same. -/
theorem perm_matching {entries' : List String} (h : Enumerates baseDir d entries)
    (h' : Enumerates baseDir d entries') :
    (entries.filter (matching baseDir d keyPrefix)).Perm
      (entries'.filter (matching baseDir d keyPrefix)) := by
  rw [List.perm_ext_iff_of_nodup (h.nodup.filter _) (h'.nodup.filter _)]
  intro key
  rw [mem_matching_iff h, mem_matching_iff h']

/-- Following the tokens lists every stored file whose key starts with the text exactly once, exactly
when none of these files is in a directory and the entries come in turn at every call. -/
theorem complete_iff (baseDir : String) (d : Disk) (keyPrefix : String) (limit : UInt32)
    (hbase : d.nodes (components baseDir) = some .dir) (hlimit : 1 ≤ limit.toNat)
    (calls : List (List String)) (hcalls : ∀ entries ∈ calls, Enumerates baseDir d entries)
    (hne : calls ≠ []) (hlen : ∀ entries ∈ calls, entries.length < calls.length) :
    Complete baseDir d keyPrefix (run (Listing.next baseDir d keyPrefix limit) .start calls) ↔
      (∀ key, Stored baseDir d key → startsWith key keyPrefix = true → '/' ∉ key.toList) ∧
        Along (Listing.next baseDir d keyPrefix limit) (InTurn baseDir d keyPrefix limit) .start
          calls := by
  obtain ⟨entries, hentries⟩ := List.exists_mem_of_ne_nil calls hne
  have henum := hcalls entries hentries
  have hnodup := henum.nodup.filter (matching baseDir d keyPrefix)
  have hperm : ∀ items ∈ calls.map (·.filter (matching baseDir d keyPrefix)),
      items.Perm (entries.filter (matching baseDir d keyPrefix)) := by
    intro items hitems
    obtain ⟨entries', hentries', rfl⟩ := List.mem_map.mp hitems
    exact perm_matching (hcalls entries' hentries') henum
  have hfew : (entries.filter (matching baseDir d keyPrefix)).length <
      (calls.map (·.filter (matching baseDir d keyPrefix))).length := by
    rw [List.length_map]
    exact (List.length_filter_le _ _).trans_lt (hlen entries hentries)
  have hwalk : (run (Listing.next baseDir d keyPrefix limit) .start calls).walk =
      run (TokenWalk.step limit.toNat) Walk.start
        (calls.map (·.filter (matching baseDir d keyPrefix))) := walk_run hbase hlimit .start hcalls
  have hexact := listed_perm_iff hlimit hnodup hperm hfew
  have hdone := done_run (s := Walk.start) hlimit hperm
    ((List.length_filter_le _ _).trans_lt hfew)
  have hsubset : (run (TokenWalk.step limit.toNat) Walk.start
      (calls.map (·.filter (matching baseDir d keyPrefix)))).listed ⊆
        entries.filter (matching baseDir d keyPrefix) := subset_run hperm (List.nil_subset _)
  rw [← hwalk] at hexact hdone hsubset
  rw [along_inTurn_iff hbase hlimit .start hcalls]
  constructor
  · intro hcomplete
    have htop : ∀ key, Stored baseDir d key → startsWith key keyPrefix = true →
        '/' ∉ key.toList := fun key hstored hstarts =>
      ((mem_matching_iff henum).mp
        (hsubset ((hcomplete.mem_iff key).mpr ⟨hstored, hstarts⟩))).2
    refine ⟨htop, hexact.mp ((List.perm_ext_iff_of_nodup hcomplete.nodup hnodup).mpr fun key => ?_)⟩
    constructor
    · exact fun hkey => hsubset hkey
    · intro hkey
      exact (hcomplete.mem_iff key).mpr ((mem_matching_iff henum).mp hkey).1
  · rintro ⟨htop, halong⟩
    have hlisted := hexact.mpr halong
    refine ⟨hdone, hlisted.nodup_iff.mpr hnodup, fun key => ?_⟩
    refine hlisted.mem_iff.trans ((mem_matching_iff henum).trans ?_)
    exact ⟨fun h => h.1, fun h => ⟨h, htop key h.1 h.2⟩⟩

/-- Entries that the file system enumerates in ascending order come in turn. -/
theorem along_inTurn_of_sorted (hbase : d.nodes (components baseDir) = some .dir)
    (hlimit : 1 ≤ limit.toNat) (hcalls : ∀ entries ∈ calls, Enumerates baseDir d entries)
    (hsorted : ∀ entries ∈ calls, entries.Pairwise (· < ·)) :
    Along (Listing.next baseDir d keyPrefix limit) (InTurn baseDir d keyPrefix limit) .start
      calls := by
  rw [along_inTurn_iff hbase hlimit .start hcalls]
  cases calls with
  | nil => trivial
  | cons entries calls =>
    have henum := hcalls entries List.mem_cons_self
    apply along_exact_of_sorted hlimit (henum.nodup.filter (matching baseDir d keyPrefix))
    · intro items hitems
      obtain ⟨entries', hentries', rfl⟩ := List.mem_map.mp hitems
      exact perm_matching (hcalls entries' hentries') henum
    · intro items hitems
      obtain ⟨entries', hentries', rfl⟩ := List.mem_map.mp hitems
      exact (hsorted entries' hentries').filter _

end Complete

/-! ### Three files, and one in a directory -/

/-- Empty files under a directory, each by its names. -/
def filesIn (baseDir : String) (files : List (List String)) : Disk :=
  ⟨fun p => if p ∈ files.map fun names => components baseDir ++ names.map .normal then
      some (.file [])
    else if p ∈ files.flatMap fun names => (components baseDir ++ names.map .normal).inits then
      some .dir
    else none, []⟩

theorem mem_of_filesIn {baseDir : String} {files : List (List String)} {names : List String}
    {data : Bytes}
    (h : (filesIn baseDir files).nodes (components baseDir ++ names.map .normal) =
      some (.file data)) : names ∈ files := by
  unfold filesIn at h
  dsimp only at h
  split at h
  · next hmem =>
    obtain ⟨names', hnames', heq⟩ := List.mem_map.mp hmem
    have hsame := List.append_cancel_left heq
    rwa [← List.map_injective_iff.mpr (fun _ _ => Component.normal.inj) hsame]
  · split at h
    · cases h
    · cases h

theorem components_data : components "data" = [.normal "data"] := by decide

theorem isName_letter {name : String} (h : name ∈ ["a", "b", "c", "d", "x"]) : IsName name := by
  simp only [List.mem_cons, List.not_mem_nil, or_false] at h
  obtain rfl | rfl | rfl | rfl | rfl := h <;>
    exact ⟨by decide, by decide, by decide, by decide⟩

theorem complete_sorted :
    Complete "data" (filesIn "data" [["a"], ["b"], ["c"]]) ""
      (run (Listing.next "data" (filesIn "data" [["a"], ["b"], ["c"]]) "" 2) .start
        (List.replicate 4 ["a", "b", "c"])) := by
  have hbase : (filesIn "data" [["a"], ["b"], ["c"]]).nodes (components "data") = some .dir := by
    decide +kernel
  have hcalls : ∀ entries ∈ List.replicate 4 ["a", "b", "c"],
      Enumerates "data" (filesIn "data" [["a"], ["b"], ["c"]]) entries := by
    intro entries hentries
    rw [List.eq_of_mem_replicate hentries]
    refine ⟨by decide, fun name => ⟨fun hname => ⟨isName_letter (by simp at hname ⊢; tauto), ?_⟩, ?_⟩⟩
    · simp only [List.mem_cons, List.not_mem_nil, or_false] at hname
      obtain rfl | rfl | rfl := hname <;> decide +kernel
    · rintro ⟨-, hsome⟩
      by_contra hname
      simp_all [filesIn, components_data]
  apply (complete_iff "data" (filesIn "data" [["a"], ["b"], ["c"]]) "" 2 hbase (by decide) _ hcalls
    (by decide) (by decide)).mpr
  refine ⟨?_, along_inTurn_of_sorted hbase (by decide) hcalls ?_⟩
  · rintro key ⟨names, -, -, rfl, data, hnode⟩ -
    have hnames : names = ["a"] ∨ names = ["b"] ∨ names = ["c"] := by
      simpa using mem_of_filesIn hnode
    obtain rfl | rfl | rfl := hnames <;> decide
  · intro entries hentries
    rw [List.eq_of_mem_replicate hentries]
    have hab : "a" < "b" := String.lt_iff_toList_lt.mpr (by decide)
    have hbc : "b" < "c" := String.lt_iff_toList_lt.mpr (by decide)
    exact List.isChain_iff_pairwise.mp (.cons_cons hab (.cons_cons hbc (.singleton _)))

/-- A file in a directory is never listed. -/
theorem not_complete :
    ¬ ∀ (baseDir : String) (d : Disk) (keyPrefix : String) (limit : UInt32),
      d.nodes (components baseDir) = some .dir → 1 ≤ limit.toNat →
      ∀ calls : List (List String), (∀ entries ∈ calls, Enumerates baseDir d entries) →
        calls ≠ [] → (∀ entries ∈ calls, entries.length < calls.length) →
        Complete baseDir d keyPrefix (run (Listing.next baseDir d keyPrefix limit) .start calls) := by
  intro h
  have hcalls : ∀ entries ∈ [["d"], ["d"]],
      Enumerates "data" (filesIn "data" [["d", "x"]]) entries := by
    intro entries hentries
    rw [show entries = ["d"] by simpa using hentries]
    refine ⟨by decide, fun name => ⟨fun hname => ⟨isName_letter (by simp at hname ⊢; tauto), ?_⟩, ?_⟩⟩
    · rw [List.mem_singleton.mp hname]
      decide +kernel
    · rintro ⟨-, hsome⟩
      simpa [filesIn, components_data] using hsome
  have hcomplete := h "data" (filesIn "data" [["d", "x"]]) "" 1 (by decide +kernel) (by decide)
    [["d"], ["d"]] hcalls (by decide) (by decide)
  have hstored : Stored "data" (filesIn "data" [["d", "x"]]) "d/x" :=
    ⟨["d", "x"], by decide, fun name hname => isName_letter (by simp at hname ⊢; tauto), by decide,
      [], by decide +kernel⟩
  have hlisted := (hcomplete.mem_iff "d/x").mpr ⟨hstored, by decide⟩
  revert hlisted
  decide +kernel

end Backbone.Storage
