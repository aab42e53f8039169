import Backbone.Tenant.Provision

/-!
# The connection string of a tenant

`tenant_dsn` writes the name of a tenant's database into the administrator's DSN: what follows the
last slash in front of the first question mark is replaced. A reader of the result goes by the
grammar of a URL instead: the authority ends at the first slash or question mark, the path behind it
is the database, and a `dbname` option overrides the path.

The two agree where the DSN has a path of one segment and no `dbname`. Without a path the last slash
is one of the two in front of the host.

Reference: `backbone-tenant/src/provision.rs`, `tenant_dsn` and `render_dsn`.
-/

namespace Backbone.Tenant

open Text

variable {s : String} {c : Char} {t : String} (d : AdminDsn) (dbname : String → Option String)
  (db : String)

/-- `str::split_once` at a character, with the whole text where there is none. -/
def cutOnce (s : String) (c : Char) : String × Option String :=
  match splitOnce s c with
  | some (a, b) => (a, some b)
  | none => (s, none)

/-- What is put back behind a cut. -/
def behind (c : Char) : Option String → String
  | some s => String.singleton c ++ s
  | none => ""

/-- `render_dsn`. -/
def renderDsn (adminDsn db : String) : Option String :=
  (rsplitOnce (cutOnce adminDsn '?').1 '/').map fun slash =>
    slash.1 ++ "/" ++ db ++ behind '?' (cutOnce adminDsn '?').2

/-- `tenant_dsn`; `fromStr` is `PgConnectOptions::from_str`, whose value is read by the fallback
alone, which does nothing with it. -/
def TenantProvisioner.tenantDsn (p : TenantProvisioner) (fromStr : String → Except String Unit)
    (tenant : TenantId) : Except ProvisionError String :=
  match p.databaseName tenant with
  | .error e => .error e
  | .ok db =>
    match fromStr p.adminDsn with
    | .error e => .error (.db e)
    | .ok () => .ok ((renderDsn p.adminDsn db).getD (p.adminDsn ++ "#db=" ++ db))

/-! ## Reading a DSN -/

/-- The parts of an authority. -/
structure Authority where
  user : Option String
  password : Option String
  host : String
  port : Option String
deriving DecidableEq, Repr

namespace Authority

/-- A colon with digits behind it is the colon of a port. -/
def splitPort (s : String) : String × Option String :=
  match rsplitOnce s ':' with
  | some (host, port) =>
    if !port.isEmpty && port.toList.all Char.isDigit then (host, some port) else (s, none)
  | none => (s, none)

/-- The credentials end at the last at sign, and the user at the first colon in them. -/
def parse (s : String) : Authority :=
  match rsplitOnce s '@' with
  | some (credentials, rest) =>
    ⟨some (cutOnce credentials ':').1, (cutOnce credentials ':').2, (splitPort rest).1,
      (splitPort rest).2⟩
  | none => ⟨none, none, (splitPort s).1, (splitPort s).2⟩

/-- The authority as it is written. -/
def text (a : Authority) : String :=
  (match a.user with
  | some user => user ++ behind ':' a.password ++ "@"
  | none => "") ++ a.host ++ behind ':' a.port

end Authority

/-- Where a DSN leads; the options are their text. -/
structure Target where
  authority : Authority
  options : Option String
  database : Option String
deriving DecidableEq, Repr

/-- The reader of a DSN; `dbname` is the value of that option in the text of the options, if it is
there. -/
def readDsn (dbname : String → Option String) (dsn : String) : Option Target :=
  (splitOnceText dsn "://").map fun parts =>
    let query := cutOnce parts.2 '?'
    let path := cutOnce query.1 '/'
    ⟨Authority.parse path.1, query.2, (query.2.bind dbname).or path.2⟩

/-- `scheme://authority[/database][?options]`. -/
structure AdminDsn where
  scheme : String
  authority : String
  database : Option String
  options : Option String
  scheme_plain : ':' ∉ scheme.toList ∧ '/' ∉ scheme.toList ∧ '?' ∉ scheme.toList
  authority_plain : '/' ∉ authority.toList ∧ '?' ∉ authority.toList
  database_plain : ∀ d ∈ database, '?' ∉ d.toList

def AdminDsn.text (d : AdminDsn) : String :=
  d.scheme ++ "://" ++ d.authority ++ behind '/' d.database ++ behind '?' d.options

/-! ## Cuts -/

theorem cutOnce_behind {a : String} (h : c ∉ a.toList) (b : Option String) :
    cutOnce (a ++ behind c b) c = (a, b) := by
  unfold cutOnce behind
  cases b with
  | none => rw [String.append_empty, splitOnce_eq_none (by simpa [contains] using h)]
  | some b =>
    dsimp only
    rw [← String.append_assoc, splitOnce_append h b]

theorem text_cutOnce (s : String) (c : Char) : (cutOnce s c).1 ++ behind c (cutOnce s c).2 = s := by
  unfold cutOnce
  split
  · rename_i a b h
    apply String.toList_injective
    rw [toList_of_splitOnce h]
    simp [behind]
  · simp [behind]

theorem Authority.text_splitPort (s : String) :
    (splitPort s).1 ++ behind ':' (splitPort s).2 = s := by
  unfold splitPort
  split
  · rename_i host port h
    split
    · rw [(eq_of_rsplitOnce h).1, behind, String.append_assoc]
    · simp [behind]
  · simp [behind]

/-- The parts of an authority make its text again. -/
theorem Authority.text_parse (s : String) : (parse s).text = s := by
  unfold parse
  split
  · rename_i credentials rest h
    unfold text
    dsimp only
    rw [text_cutOnce, String.append_assoc, text_splitPort]
    exact (eq_of_rsplitOnce h).1.symm
  · unfold text
    dsimp only
    rw [String.empty_append, text_splitPort]

theorem Authority.parse_inj : parse s = parse t ↔ s = t :=
  ⟨fun h => by rw [← text_parse s, h, text_parse], fun h => by rw [h]⟩

theorem splitOnceText_scheme {scheme : String} (h : ':' ∉ scheme.toList) (rest : String) :
    splitOnceText (scheme ++ "://" ++ rest) "://" = some (scheme, rest) := by
  have hcut (l : List Char) (hl : ':' ∉ l) :
      cutAt [':', '/', '/'] (l ++ ':' :: '/' :: '/' :: rest.toList) = some (l, rest.toList) := by
    induction l with
    | nil => simp [cutAt]
    | cons c l ih =>
      have hc : c ≠ ':' := fun heq => hl (heq ▸ List.mem_cons_self)
      rw [List.cons_append, cutAt, if_neg (by simp [hc.symm]),
        ih fun hmem => hl (List.mem_cons_of_mem c hmem)]
      rfl
  have hlist : (scheme ++ "://" ++ rest).toList =
      scheme.toList ++ ':' :: '/' :: '/' :: rest.toList := by
    simp
  rw [splitOnceText, hlist]
  have hsep : "://".toList = [':', '/', '/'] := by decide
  rw [hsep, hcut _ h]
  simp

theorem not_mem_cutOnce (s : String) (c : Char) : c ∉ (cutOnce s c).1.toList := by
  unfold cutOnce splitOnce
  split
  · rename_i a b h
    split at h
    · cases h
      intro hmem
      rw [String.toList_ofList] at hmem
      simpa using List.mem_takeWhile_imp hmem
    · cases h
  · rename_i h
    split at h
    · cases h
    · rename_i hdrop
      intro hmem
      simpa using List.dropWhile_eq_nil_iff.mp hdrop c hmem

theorem mem_of_mem_cutOnce {d : Char} (h : d ∈ (cutOnce s c).1.toList) : d ∈ s.toList := by
  rw [← text_cutOnce s c, String.toList_append]
  exact List.mem_append_left _ h

theorem mem_of_mem_cutOnce_snd {d : Char} (h : (cutOnce s c).2 = some t)
    (hd : d ∈ t.toList) : d ∈ s.toList := by
  rw [← text_cutOnce s c, h, behind, String.toList_append, String.toList_append]
  exact List.mem_append_right _ (List.mem_append_right _ hd)

theorem cutOnce_snd_eq_none_iff (s : String) (c : Char) :
    (cutOnce s c).2 = none ↔ c ∉ s.toList := by
  constructor
  · intro h
    have htext := text_cutOnce s c
    rw [h, behind, String.append_empty] at htext
    rw [← htext]
    exact not_mem_cutOnce s c
  · intro h
    rw [cutOnce, splitOnce_eq_none (by simpa [contains] using h)]

theorem not_mem_of_rsplitOnce (h : rsplitOnce s c = none) : c ∉ s.toList := by
  unfold rsplitOnce at h
  split at h
  · cases h
  · rename_i hdrop
    intro hmem
    simpa using List.dropWhile_eq_nil_iff.mp hdrop c (List.mem_reverse.mpr hmem)

/-! ## What is read of the new DSN -/

theorem readDsn_text (d : AdminDsn) :
    readDsn dbname d.text =
      some ⟨Authority.parse d.authority, d.options, (d.options.bind dbname).or d.database⟩ := by
  have hbase : '?' ∉ (d.authority ++ behind '/' d.database).toList := by
    rw [String.toList_append, List.mem_append, not_or]
    refine ⟨d.authority_plain.2, ?_⟩
    cases hdb : d.database with
    | none => simp [behind]
    | some path => simpa [behind] using d.database_plain path (by simp [hdb])
  have htext : d.text = d.scheme ++ "://" ++
      (d.authority ++ behind '/' d.database ++ behind '?' d.options) := by
    simp only [AdminDsn.text, String.append_assoc]
  rw [readDsn, htext, splitOnceText_scheme d.scheme_plain.1]
  simp only [Option.map_some, cutOnce_behind hbase, cutOnce_behind d.authority_plain.1]

/-- What of a path stays in front of the new name. -/
def directory (path : String) : String :=
  match rsplitOnce path '/' with
  | some (head, _) => head ++ "/"
  | none => ""

/-- The options behind the new name: what follows a question mark in the name, and the old ones. -/
def AdminDsn.optionsBehind (d : AdminDsn) (db : String) : Option String :=
  match (cutOnce db '?').2 with
  | some rest => some (rest ++ behind '?' d.options)
  | none => d.options

/-- The DSN with the name in it, as a reader sees it: without a path the name is the authority. -/
def AdminDsn.retargeted (d : AdminDsn) (db : String) : AdminDsn :=
  match hdatabase : d.database with
  | some path =>
    { d with
      database := some (directory path ++ (cutOnce db '?').1)
      options := d.optionsBehind db
      database_plain := by
        intro s hs
        obtain rfl := Option.mem_some.mp hs
        rw [String.toList_append, List.mem_append, not_or]
        refine ⟨fun hmem => ?_, not_mem_cutOnce db '?'⟩
        unfold directory at hmem
        split at hmem
        · rename_i head last h
          rw [String.toList_append, List.mem_append] at hmem
          refine d.database_plain path (by simp [hdatabase]) ?_
          rw [(eq_of_rsplitOnce h).1]
          rcases hmem with hmem | hmem
          · simp [hmem]
          · exact absurd hmem (by decide)
        · exact absurd hmem (by decide) }
  | none =>
    { d with
      authority := (cutOnce (cutOnce db '?').1 '/').1
      database := (cutOnce (cutOnce db '?').1 '/').2
      options := d.optionsBehind db
      authority_plain :=
        ⟨not_mem_cutOnce _ _, fun hmem => not_mem_cutOnce db '?' (mem_of_mem_cutOnce hmem)⟩
      database_plain := fun _ hs hmem =>
        not_mem_cutOnce db '?' (mem_of_mem_cutOnce_snd hs hmem) }

theorem AdminDsn.behind_optionsBehind :
    behind '?' (d.optionsBehind db) = behind '?' (cutOnce db '?').2 ++ behind '?' d.options := by
  unfold optionsBehind
  cases (cutOnce db '?').2 with
  | none => simp [behind]
  | some rest => simp only [behind, String.append_assoc]

theorem AdminDsn.cutOnce_text :
    cutOnce d.text '?' =
      (d.scheme ++ "://" ++ d.authority ++ behind '/' d.database, d.options) := by
  refine cutOnce_behind (fun hmem => ?_) d.options
  simp only [String.toList_append, List.mem_append] at hmem
  rcases hmem with ((hmem | hmem) | hmem) | hmem
  · exact d.scheme_plain.2.2 hmem
  · exact absurd hmem (by decide)
  · exact d.authority_plain.2 hmem
  · cases hdatabase : d.database with
    | none => simp [hdatabase, behind] at hmem
    | some path =>
      rw [hdatabase, behind, String.toList_append, List.mem_append] at hmem
      rcases hmem with hmem | hmem
      · exact absurd hmem (by decide)
      · exact d.database_plain path (by simp [hdatabase]) hmem

/-- The last slash of a DSN with a path is in the path, or in front of it. -/
theorem rsplitOnce_path (front path : String) :
    ∃ last, rsplitOnce (front ++ "/" ++ path) '/' =
      some ((rsplitOnce path '/').elim front fun p => front ++ "/" ++ p.1, last) := by
  have hslash : "/" = String.singleton '/' := rfl
  cases h : rsplitOnce path '/' with
  | none =>
    rw [hslash]
    exact ⟨path, rsplitOnce_append front (not_mem_of_rsplitOnce h)⟩
  | some p =>
    obtain ⟨hpath, hlast⟩ := eq_of_rsplitOnce h
    refine ⟨p.2, ?_⟩
    rw [hpath, ← String.append_assoc, ← String.append_assoc, Option.elim_some, hslash]
    exact rsplitOnce_append _ hlast

theorem renderDsn_text : renderDsn d.text db = some (d.retargeted db).text := by
  have hslash : String.singleton '/' = "/" := rfl
  have hnew : db ++ behind '?' d.options =
      (cutOnce db '?').1 ++ behind '?' (d.optionsBehind db) := by
    rw [d.behind_optionsBehind, ← String.append_assoc, text_cutOnce]
  rw [renderDsn, d.cutOnce_text]
  unfold AdminDsn.retargeted
  split
  · rename_i path hdatabase
    obtain ⟨last, hsplit⟩ := rsplitOnce_path (d.scheme ++ "://" ++ d.authority) path
    have hpath : behind '/' d.database = "/" ++ path := by rw [hdatabase, behind, hslash]
    rw [hpath, ← String.append_assoc, hsplit, Option.map_some, AdminDsn.text]
    dsimp only
    rw [String.append_assoc, hnew, behind, hslash]
    unfold directory
    cases rsplitOnce path '/' with
    | none => simp only [Option.elim_none, String.append_assoc, String.empty_append]
    | some p => simp only [Option.elim_some, String.append_assoc]
  · rename_i hdatabase
    -- The last slash is the second one of the two in front of the host.
    have hcolon : d.scheme ++ "://" = d.scheme ++ ":/" ++ "/" := by
      rw [String.append_assoc]
      rfl
    have hfront : d.scheme ++ "://" ++ d.authority ++ behind '/' d.database =
        d.scheme ++ ":/" ++ String.singleton '/' ++ d.authority := by
      rw [hdatabase, behind, String.append_empty, hslash, hcolon]
    have hname : d.scheme ++ "://" ++ (cutOnce (cutOnce db '?').1 '/').1 ++
        behind '/' (cutOnce (cutOnce db '?').1 '/').2 =
          d.scheme ++ "://" ++ (cutOnce db '?').1 := by
      rw [String.append_assoc, text_cutOnce]
    rw [hfront, rsplitOnce_append _ d.authority_plain.1, Option.map_some, AdminDsn.text]
    dsimp only
    rw [hname, String.append_assoc, hnew, hcolon, ← String.append_assoc]

/-! ## When only the database changes -/

theorem append_eq_right_iff : s ++ t = t ↔ s = "" := by
  constructor
  · intro h
    have hlist := congrArg String.toList h
    rw [String.toList_append, List.append_left_eq_self] at hlist
    exact String.toList_injective hlist
  · rintro rfl
    exact String.empty_append

theorem directory_eq_empty_iff (path : String) : directory path = "" ↔ '/' ∉ path.toList := by
  unfold directory
  split
  · rename_i head last h
    refine iff_of_false ?_ ?_
    · intro hempty
      have := congrArg String.toList hempty
      simp at this
    · rw [(eq_of_rsplitOnce h).1]
      simp
  · rename_i h
    exact iff_of_true rfl (not_mem_of_rsplitOnce h)

theorem AdminDsn.optionsBehind_eq_iff : d.optionsBehind db = d.options ↔ '?' ∉ db.toList := by
  rw [← cutOnce_snd_eq_none_iff]
  unfold optionsBehind
  cases (cutOnce db '?').2 with
  | none => simp
  | some rest =>
    refine iff_of_false (fun h => ?_) (by simp)
    cases hoptions : d.options with
    | none => simp [hoptions] at h
    | some q =>
      rw [hoptions, Option.some.injEq, behind, ← String.append_assoc, append_eq_right_iff] at h
      have := congrArg String.toList h
      simp at this

theorem AdminDsn.options_retargeted : (d.retargeted db).options = d.optionsBehind db := by
  unfold retargeted
  split <;> rfl

/-- The DSN has a path of one segment and no `dbname`; or its `dbname` is the name already, and the
authority is left alone because there is a path, or is that name as well. -/
def AdminDsn.Swaps (d : AdminDsn) (dbname : String → Option String) (db : String) : Prop :=
  '?' ∉ db.toList ∧
    (d.options.bind dbname = none → ∃ path, d.database = some path ∧ '/' ∉ path.toList) ∧
    ∀ v, d.options.bind dbname = some v →
      v = db ∧ (d.database.isSome = true ∨ (cutOnce db '/').1 = d.authority)

/-- The tenant's DSN is read like the administrator's, with the database `db`. -/
def TenantProvisioner.SwapsDatabase (p : TenantProvisioner)
    (fromStr : String → Except String Unit) (dbname : String → Option String) (tenant : TenantId)
    (db : String) : Prop :=
  ∃ dsn target, p.tenantDsn fromStr tenant = .ok dsn ∧ readDsn dbname p.adminDsn = some target ∧
    readDsn dbname dsn = some { target with database := some db }

theorem AdminDsn.readDsn_retargeted_iff :
    readDsn dbname (d.retargeted db).text =
        some ⟨Authority.parse d.authority, d.options, some db⟩ ↔ d.Swaps dbname db := by
  rw [readDsn_text, Option.some.injEq, Target.mk.injEq, Authority.parse_inj, options_retargeted,
    optionsBehind_eq_iff]
  unfold Swaps
  rw [and_left_comm]
  refine and_congr_right fun hquestion => ?_
  have hcut : cutOnce db '?' = (db, none) := by
    have := cutOnce_behind hquestion none
    rwa [behind, String.append_empty] at this
  rw [(d.optionsBehind_eq_iff db).mpr hquestion]
  unfold retargeted
  split
  · rename_i path hdatabase
    have hdirectory : directory path ++ (cutOnce db '?').1 = db ↔ '/' ∉ path.toList := by
      rw [hcut, append_eq_right_iff, directory_eq_empty_iff]
    cases d.options.bind dbname with
    | none =>
      dsimp only
      rw [Option.none_or, Option.some.injEq, hdirectory]
      simp [hdatabase]
    | some v => simp [hdatabase]
  · rename_i hdatabase
    dsimp only
    rw [hcut]
    cases d.options.bind dbname with
    | none =>
      -- The name would be longer than itself.
      have hshort : (cutOnce db '/').2 ≠ some db := by
        intro h
        have htext := text_cutOnce db '/'
        rw [h, behind, ← String.append_assoc, append_eq_right_iff] at htext
        have := congrArg String.toList htext
        simp at this
      simp [hshort, hdatabase]
    | some v => simp [and_comm, hdatabase]

/-- The DSN of a tenant changes the database alone exactly when the administrator's has a path of one
segment and no `dbname` option, or happens to name the tenant's database in that option. -/
theorem swapsDatabase_iff (dbname : String → Option String) (d : AdminDsn)
    {fromStr : String → Except String Unit} {p : TenantProvisioner} {tenant : TenantId} {db : String}
    (hdsn : p.adminDsn = d.text) (hread : fromStr d.text = .ok ())
    (hdb : p.databaseName tenant = .ok db) :
    p.SwapsDatabase fromStr dbname tenant db ↔ d.Swaps dbname db := by
  have htenant : p.tenantDsn fromStr tenant = .ok (d.retargeted db).text := by
    rw [TenantProvisioner.tenantDsn, hdb]
    dsimp only
    rw [hdsn, hread]
    dsimp only
    rw [renderDsn_text, Option.getD_some]
  rw [← d.readDsn_retargeted_iff dbname db]
  unfold TenantProvisioner.SwapsDatabase
  rw [htenant, hdsn, readDsn_text]
  constructor
  · rintro ⟨dsn, target, heq, htarget, hdsn'⟩
    cases heq
    cases htarget
    exact hdsn'
  · intro h
    exact ⟨_, _, rfl, rfl, h⟩

/-- The value of the last `dbname`, where no option is percent-encoded. -/
def dbnameOption (options : String) : Option String :=
  ((split options '&').filterMap fun option => stripPrefix option "dbname=").getLast?

def maintenanceDsn : AdminDsn where
  scheme := "postgresql"
  authority := "u:p@host:5432"
  database := some "postgres"
  options := some "sslmode=require"
  scheme_plain := by decide
  authority_plain := by decide
  database_plain := by decide

theorem swapsDatabase_maintenanceDsn :
    (TenantProvisioner.new maintenanceDsn.text).SwapsDatabase (fun _ => .ok ()) dbnameOption
      "acme-corp" "tenant_acme_corp" :=
  (swapsDatabase_iff dbnameOption maintenanceDsn rfl rfl (by decide +kernel)).mpr
    ⟨by decide, fun _ => ⟨"postgres", rfl, by decide⟩, fun v hv => absurd hv (by
      have : maintenanceDsn.options.bind dbnameOption = none := by decide +kernel
      simp [this])⟩

/-- Without a path the tenant's database takes the place of the host, and a `dbname` keeps leading
to the shared database. -/
theorem not_swapsDatabase :
    ¬ (TenantProvisioner.new "postgresql://u:p@host:5432").SwapsDatabase (fun _ => .ok ())
        dbnameOption "acme" "tenant_acme" ∧
      ¬ (TenantProvisioner.new "postgresql://u:p@host:5432/postgres?dbname=shared").SwapsDatabase
        (fun _ => .ok ()) dbnameOption "acme" "tenant_acme" := by
  constructor
  · rintro ⟨dsn, target, hdsn, htarget, hread⟩
    have hhost : (TenantProvisioner.new "postgresql://u:p@host:5432").tenantDsn (fun _ => .ok ())
        "acme" = .ok "postgresql://tenant_acme" := by decide +kernel
    cases hdsn.symm.trans hhost
    have hnone : (readDsn dbnameOption "postgresql://tenant_acme").bind (·.database) = none := by
      decide +kernel
    rw [hread] at hnone
    cases hnone
  · rintro ⟨dsn, target, hdsn, htarget, hread⟩
    have hpath : (TenantProvisioner.new
        "postgresql://u:p@host:5432/postgres?dbname=shared").tenantDsn (fun _ => .ok ()) "acme" =
          .ok "postgresql://u:p@host:5432/tenant_acme?dbname=shared" := by decide +kernel
    cases hdsn.symm.trans hpath
    have hshared : (readDsn dbnameOption
        "postgresql://u:p@host:5432/tenant_acme?dbname=shared").bind (·.database) =
          some "shared" := by
      decide +kernel
    rw [hread, Option.bind_some, Option.some.injEq] at hshared
    exact absurd hshared (by decide)

end Backbone.Tenant
