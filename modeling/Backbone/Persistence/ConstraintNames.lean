import Backbone.Lib.Text
import Mathlib.Data.List.Chain

/-!
# Reading a field out of a constraint's name

A generated constraint names its table, the field it concerns and the code it answers with.
`constraint_column` reads the field back: it takes the part between the table and the first `__`, drops a
trailing `_<code>`, then the tenant keys in front while something remains. The shapes of a name share one
alphabet, so a field can look like what is dropped; this module finds the fields that are read back as
they were written.

Reference: `backbone-core/src/persistence/traits.rs`.
-/

namespace Backbone.Persistence

open Text (stripPrefix stripSuffix splitOnceText startsWith stripPrefix_eq_some stripSuffix_eq_some)

variable {field : String} {rest : String} {code segment : String} {s kind : String}
  (keys : List String)

/-! ## `constraint_column` -/

/-- `TENANT_KEYS`. -/
def tenantKeys : List String := ["company_id", "tenant_id", "org_unit_id", "organization_id"]

/-- A hexadecimal digit in lower case. -/
def isHexDigit (c : Char) : Bool := c.isDigit || ('a' ≤ c && c ≤ 'f')

/-- `ends_in_digest`. What it looks at is ASCII, so characters serve for bytes. -/
def endsInDigest (head : String) : Bool :=
  let tail := head.toList.drop (head.toList.length - 9)
  9 < head.toList.length && tail.head? == some '_' && tail.tail.all isHexDigit

/-- `ident`. -/
def ident (s : String) : Option String :=
  if s ≠ "" ∧ s.toList.all fun c => c.isAlphanum || c == '_' then some s else none

/-- Without a trailing `_<code>`, unless nothing would remain. -/
def dropCode (rest code : String) : String :=
  if code = "" then rest
  else (((stripSuffix rest code).bind (stripSuffix · "_")).filter (· ≠ "")).getD rest

/-- Without the first tenant key that leads, if something remains. -/
def dropTenantKey (rest : String) : Option String :=
  tenantKeys.findSome? fun key =>
    ((stripPrefix rest key).bind (stripPrefix · "_")).filter (· ≠ "")

/-- The loop over leading tenant keys; each turn takes characters away. -/
def dropTenantKeysFrom : ℕ → String → String
  | 0, rest => rest
  | turns + 1, rest =>
    match dropTenantKey rest with
    | some next => dropTenantKeysFrom turns next
    | none => rest

/-- Without the tenant keys that lead. -/
def dropTenantKeys (rest : String) : String := dropTenantKeysFrom rest.length rest

/-- `constraint_column`. -/
def constraintColumn (constraint table code : String) : Option String :=
  match stripPrefix constraint "fk_" with
  | some rest => do
    let column ← (stripPrefix rest table).bind (stripPrefix · "_")
    ident ((stripSuffix column "_fk").getD column)
  | none => do
    let body ← ["ck_", "uq_", "ex_", "tg_"].findSome? (stripPrefix constraint ·)
    let (head, _) ← splitOnceText body "__"
    if endsInDigest head then none
    else do
      let rest ← (stripPrefix head table).bind (stripPrefix · "_")
      ident (dropTenantKeys (dropCode rest code))

/-! ## Generated names -/

/-- Words of lower-case letters and digits, with one underscore between two of them. -/
structure IsIdentifier (cs : List Char) : Prop where
  chars : ∀ c ∈ cs, c.isLower || c.isDigit || c == '_'
  ne_nil : cs ≠ []
  head : cs.head? ≠ some '_'
  last : cs.getLast? ≠ some '_'
  single : cs.IsChain fun a b => ¬ (a = '_' ∧ b = '_')

instance (cs : List Char) : Decidable (IsIdentifier cs) :=
  decidable_of_iff ((cs.all fun c => c.isLower || c.isDigit || c == '_') = true ∧ cs ≠ [] ∧
      cs.head? ≠ some '_' ∧ cs.getLast? ≠ some '_' ∧ cs.IsChain fun a b => ¬ (a = '_' ∧ b = '_'))
    ⟨fun ⟨h₁, h₂, h₃, h₄, h₅⟩ => ⟨List.all_eq_true.mp h₁, h₂, h₃, h₄, h₅⟩,
      fun h => ⟨List.all_eq_true.mpr h.chars, h.ne_nil, h.head, h.last, h.single⟩⟩

/-- A table, field or code of the documented grammar. -/
structure Identifier where
  text : String
  isIdentifier : IsIdentifier text.toList

/-- A list of tenant keys in front of a field. -/
def keyed : List String → String → String
  | [], field => field
  | key :: keys, field => key ++ "_" ++ keyed keys field

/-- `ck_<table>_<field>_<code>__<code>`. -/
def fieldCheck (table field code : String) : String :=
  "ck_" ++ (table ++ "_" ++ (field ++ "_" ++ code)) ++ "__" ++ code

/-- `ck_<table>_<field>__<code>`. -/
def rowRule (table field code : String) : String :=
  "ck_" ++ (table ++ "_" ++ field) ++ "__" ++ code

/-- `uq_<table>_[<tenant keys>_]<field>__<code>`. -/
def uniqueIndex (table : String) (keys : List String) (field code : String) : String :=
  "uq_" ++ (table ++ "_" ++ keyed keys field) ++ "__" ++ code

/-- `fk_<table>_<column>`. -/
def foreignKey (table column : String) : String := "fk_" ++ table ++ "_" ++ column

/-- `fk_<table>_<column>_fk`. -/
def linkForeignKey (table column : String) : String := foreignKey table column ++ "_fk"

/-- A tenant key and an underscore lead the field. -/
def leadsWithTenantKey (field : String) : Bool := tenantKeys.any fun key => startsWith field (key ++ "_")

/-! ## Identifiers -/

/-- Two identifiers around an underscore are one. -/
theorem IsIdentifier.append {a b : List Char} (ha : IsIdentifier a) (hb : IsIdentifier b) :
    IsIdentifier (a ++ '_' :: b) where
  chars c hc := by
    rcases List.mem_append.mp hc with hc | hc
    · exact ha.chars c hc
    · rcases List.mem_cons.mp hc with rfl | hc
      · rfl
      · exact hb.chars c hc
  ne_nil := by simp
  head := by
    rw [List.head?_append_of_ne_nil _ ha.ne_nil]
    exact ha.head
  last := by
    rw [List.getLast?_append_of_ne_nil _ (List.cons_ne_nil _ _), List.getLast?_cons_of_ne_nil hb.ne_nil]
    exact hb.last
  single := by
    rw [List.isChain_append]
    refine ⟨ha.single, ?_, ?_⟩
    · rw [List.isChain_cons]
      refine ⟨fun c hc hboth => hb.head ?_, hb.single⟩
      rw [← hboth.2]
      exact hc
    · rintro x hx y hy ⟨rfl, -⟩
      exact ha.last hx

theorem isIdentifier_append {a b : String} (ha : IsIdentifier a.toList) (hb : IsIdentifier b.toList) :
    IsIdentifier (a ++ "_" ++ b).toList := by
  have h := ha.append hb
  simpa using h

theorem isIdentifier_tenantKey {key : String} (h : key ∈ tenantKeys) : IsIdentifier key.toList := by
  have hall : ∀ key ∈ tenantKeys, IsIdentifier key.toList := by decide
  exact hall key h

theorem isIdentifier_keyed {keys : List String} (hkeys : ∀ k ∈ keys, k ∈ tenantKeys)
    (hfield : IsIdentifier field.toList) : IsIdentifier (keyed keys field).toList := by
  induction keys with
  | nil => exact hfield
  | cons key keys ih =>
    exact isIdentifier_append (isIdentifier_tenantKey (hkeys key List.mem_cons_self))
      (ih fun k hk => hkeys k (List.mem_cons_of_mem _ hk))

theorem IsIdentifier.ne_empty (h : IsIdentifier s.toList) : s ≠ "" := by
  rintro rfl
  exact h.ne_nil rfl

/-- `ident` gives an identifier and nothing else for it. -/
theorem ident_eq_some (hfield : IsIdentifier field.toList) : ident s = some field ↔ s = field := by
  unfold ident
  constructor
  · intro h
    split at h
    · exact Option.some.inj h
    · cases h
  · rintro rfl
    apply if_pos
    refine ⟨hfield.ne_empty, List.all_eq_true.mpr fun c hc => ?_⟩
    have hchar := hfield.chars c hc
    simp only [Bool.or_eq_true] at hchar ⊢
    rcases hchar with (hlower | hdigit) | hunder
    · exact .inl (Text.isAlphanum_iff.mpr (.inr (.inl hlower)))
    · exact .inl (Text.isAlphanum_iff.mpr (.inr (.inr hdigit)))
    · exact .inr hunder

/-- The first `__` behind an identifier is the one that follows it. -/
theorem cutAt_identifier {cs : List Char} (hlast : cs.getLast? ≠ some '_')
    (hsingle : cs.IsChain fun a b => ¬ (a = '_' ∧ b = '_')) (rest : List Char) :
    Text.cutAt ['_', '_'] (cs ++ '_' :: '_' :: rest) = some (cs, rest) := by
  induction cs with
  | nil => simp [Text.cutAt]
  | cons c cs ih =>
    have hno : ['_', '_'].isPrefixOf (c :: (cs ++ '_' :: '_' :: rest)) = false := by
      by_contra hprefix
      rw [Bool.not_eq_false] at hprefix
      cases cs with
      | nil =>
        have hc : '_' = c := by simpa using hprefix
        exact hlast (by rw [← hc]; rfl)
      | cons d ds =>
        have hcd : '_' = c ∧ '_' = d := by simpa using hprefix
        exact (List.isChain_cons_cons.mp hsingle).1 ⟨hcd.1.symm, hcd.2.symm⟩
    have htail : cs.getLast? ≠ some '_' := by
      cases cs with
      | nil => simp
      | cons d ds => simpa using hlast
    have hrest := ih htail hsingle.tail
    rw [List.cons_append, Text.cutAt, hno, hrest]
    rfl

theorem splitOnceText_identifier {head : String} (h : IsIdentifier head.toList) (rest : String) :
    splitOnceText (head ++ "__" ++ rest) "__" = some (head, rest) := by
  have hcut := cutAt_identifier h.last h.single rest.toList
  have hlist : (head ++ "__" ++ rest).toList = head.toList ++ '_' :: '_' :: rest.toList := by simp
  rw [splitOnceText, hlist]
  change (Text.cutAt ['_', '_'] _).map _ = _
  rw [hcut]
  simp

/-! ## What is dropped -/

theorem dropCode_append (hrest : rest ≠ "") (hcode : code ≠ "") :
    dropCode (rest ++ "_" ++ code) code = rest := by
  simp [dropCode, hcode, hrest, Option.filter]

theorem dropCode_of_ne (h : ∀ r, r ≠ "" → rest ≠ r ++ "_" ++ code) : dropCode rest code = rest := by
  unfold dropCode
  split
  · rfl
  · cases hdrop : ((stripSuffix rest code).bind (stripSuffix · "_")).filter (· ≠ "") with
    | none => rfl
    | some r =>
      rw [Option.filter_eq_some_iff, Option.bind_eq_some_iff] at hdrop
      obtain ⟨⟨t, ht, hr⟩, hne⟩ := hdrop
      rw [stripSuffix_eq_some] at ht hr
      exact absurd (by rw [ht, hr]) (h r (by simpa using hne))

/-- A tenant key is told from another by its own characters. -/
theorem tenantKey_unique {k k' : String} (hk : k ∈ tenantKeys) (hk' : k' ∈ tenantKeys)
    {r r' : String} (h : k ++ "_" ++ r = k' ++ "_" ++ r') : k = k' ∧ r = r' := by
  have hapart : ∀ a ∈ tenantKeys, ∀ b ∈ tenantKeys,
      (a ++ "_").toList <+: (b ++ "_").toList → a = b := by decide
  have hlist : (k ++ "_").toList ++ r.toList = (k' ++ "_").toList ++ r'.toList := by
    rw [← String.toList_append, ← String.toList_append, h]
  have heq : k = k' := by
    rcases List.append_eq_append_iff.mp hlist with ⟨m, hm, -⟩ | ⟨m, hm, -⟩
    · exact hapart k hk k' hk' ⟨m, hm.symm⟩
    · exact (hapart k' hk' k hk ⟨m, hm.symm⟩).symm
  subst heq
  exact ⟨rfl, String.toList_injective (List.append_cancel_left hlist)⟩

theorem dropTenantKey_eq_some {next : String} :
    dropTenantKey rest = some next ↔ ∃ key ∈ tenantKeys, next ≠ "" ∧ rest = key ++ "_" ++ next := by
  have hone : ∀ key r, ((stripPrefix rest key).bind (stripPrefix · "_")).filter (· ≠ "") = some r ↔
      r ≠ "" ∧ rest = key ++ "_" ++ r := by
    intro key r
    rw [Option.filter_eq_some_iff, Option.bind_eq_some_iff]
    simp only [stripPrefix_eq_some]
    constructor
    · rintro ⟨⟨t, rfl, rfl⟩, hne⟩
      exact ⟨by simpa using hne, by rw [String.append_assoc]⟩
    · rintro ⟨hne, rfl⟩
      exact ⟨⟨"_" ++ r, by rw [String.append_assoc], rfl⟩, by simpa using hne⟩
  constructor
  · intro h
    obtain ⟨key, hkey, hr⟩ := List.exists_of_findSome?_eq_some h
    exact ⟨key, hkey, (hone key next).mp hr⟩
  · rintro ⟨key, hkey, hne, hrest⟩
    cases hfound : dropTenantKey rest with
    | none =>
      have hnone := List.findSome?_eq_none_iff.mp hfound key hkey
      rw [(hone key next).mpr ⟨hne, hrest⟩] at hnone
      cases hnone
    | some r =>
      obtain ⟨key', hkey', hr⟩ := List.exists_of_findSome?_eq_some hfound
      have heq := (hone key' r).mp hr
      rw [(tenantKey_unique hkey' hkey (heq.2.symm.trans hrest)).2]

/-- What remains without the tenant keys that lead: a field no key leads, behind tenant keys. -/
theorem dropTenantKeysFrom_eq (hfield : field ≠ "") (turns : ℕ) :
    ∀ rest : String, rest.length ≤ turns →
      (dropTenantKeysFrom turns rest = field ↔
        (∃ keys, (∀ k ∈ keys, k ∈ tenantKeys) ∧ rest = keyed keys field) ∧
          dropTenantKey field = none) := by
  have hne : ∀ keys, keyed keys field ≠ "" := by
    intro keys
    cases keys with
    | nil => exact hfield
    | cons key keys =>
      intro h
      have := congrArg String.toList h
      simp [keyed] at this
  induction turns with
  | zero =>
    intro rest hle
    have hrest : rest = "" := String.length_eq_zero_iff.mp (Nat.le_zero.mp hle)
    subst hrest
    refine iff_of_false hfield.symm ?_
    rintro ⟨⟨keys, -, h⟩, -⟩
    exact hne keys h.symm
  | succ turns ih =>
    intro rest hle
    unfold dropTenantKeysFrom
    cases hdrop : dropTenantKey rest with
    | none =>
      constructor
      · rintro rfl
        exact ⟨⟨[], by simp, rfl⟩, hdrop⟩
      · rintro ⟨⟨keys, hkeys, hrest⟩, -⟩
        cases keys with
        | nil => exact hrest
        | cons key keys =>
          rw [dropTenantKey_eq_some.mpr ⟨key, hkeys key List.mem_cons_self, hne keys, hrest⟩] at hdrop
          cases hdrop
    | some next =>
      obtain ⟨key, hkey, hnext, hrest⟩ := dropTenantKey_eq_some.mp hdrop
      have hshort : next.length ≤ turns := by
        have hlength := congrArg String.length hrest
        rw [String.length_append, String.length_append] at hlength
        have hone : "_".length = 1 := rfl
        omega
      rw [ih next hshort]
      constructor
      · rintro ⟨⟨keys, hkeys, rfl⟩, hnone⟩
        refine ⟨⟨key :: keys, ?_, hrest⟩, hnone⟩
        exact List.forall_mem_cons.mpr ⟨hkey, hkeys⟩
      · rintro ⟨⟨keys, hkeys, hkeyed⟩, hnone⟩
        cases keys with
        | nil =>
          obtain rfl : rest = field := hkeyed
          rw [hdrop] at hnone
          cases hnone
        | cons key' keys =>
          have hsame := tenantKey_unique hkey (hkeys key' List.mem_cons_self)
            (hrest.symm.trans hkeyed)
          exact ⟨⟨keys, fun k hk => hkeys k (List.mem_cons_of_mem _ hk), hsame.2⟩, hnone⟩

theorem dropTenantKeys_eq (hfield : field ≠ "") :
    dropTenantKeys rest = field ↔
      (∃ keys, (∀ k ∈ keys, k ∈ tenantKeys) ∧ rest = keyed keys field) ∧
        dropTenantKey field = none :=
  dropTenantKeysFrom_eq hfield rest.length rest (Nat.le_refl _)

/-- On an identifier the check for a tenant key in front needs no look at what remains. -/
theorem dropTenantKey_eq_none (hfield : IsIdentifier field.toList) :
    dropTenantKey field = none ↔ leadsWithTenantKey field = false := by
  rw [← not_iff_not, Bool.not_eq_false, leadsWithTenantKey, List.any_eq_true,
    Option.eq_none_iff_forall_not_mem]
  simp only [Option.mem_def, dropTenantKey_eq_some, not_forall, not_not]
  constructor
  · rintro ⟨next, key, hkey, -, rfl⟩
    exact ⟨key, hkey, by simp [startsWith]⟩
  · rintro ⟨key, hkey, hstart⟩
    obtain ⟨tail, htail⟩ := List.isPrefixOf_iff_prefix.mp hstart
    have hrest : field = key ++ "_" ++ String.ofList tail := by
      apply String.toList_injective
      rw [← htail]
      simp
    refine ⟨String.ofList tail, key, hkey, ?_, hrest⟩
    intro hempty
    apply hfield.last
    rw [hrest, hempty]
    simp

/-! ## Names read back -/

/-- The column of a check or a unique index is what remains of the part behind its table. -/
theorem column_of_segment (hkind : kind = "ck_" ∨ kind = "uq_") (table code : String)
    (hhead : IsIdentifier (table ++ "_" ++ segment).toList) :
    constraintColumn (kind ++ (table ++ "_" ++ segment) ++ "__" ++ code) table code =
      if endsInDigest (table ++ "_" ++ segment) then none
      else ident (dropTenantKeys (dropCode segment code)) := by
  have hsplit := splitOnceText_identifier hhead code
  have hsegment : (stripPrefix (table ++ "_" ++ segment) table).bind (stripPrefix · "_") =
      some segment := by
    rw [String.append_assoc, Text.stripPrefix_append, Option.bind_some, Text.stripPrefix_append]
  have hname : kind ++ (table ++ "_" ++ segment) ++ "__" ++ code =
      kind ++ (table ++ "_" ++ segment ++ "__" ++ code) := by
    simp only [String.append_assoc]
  have hbody : ["ck_", "uq_", "ex_", "tg_"].findSome?
        (stripPrefix (kind ++ (table ++ "_" ++ segment ++ "__" ++ code)) ·) =
      some (table ++ "_" ++ segment ++ "__" ++ code) := by
    rcases hkind with rfl | rfl
    · rw [List.findSome?_cons, Text.stripPrefix_append]
    · have hnot : stripPrefix ("uq_" ++ (table ++ "_" ++ segment ++ "__" ++ code)) "ck_" = none := by
        simp [stripPrefix, startsWith]
      rw [List.findSome?_cons, hnot, List.findSome?_cons, Text.stripPrefix_append]
  have hforeign : stripPrefix (kind ++ (table ++ "_" ++ segment ++ "__" ++ code)) "fk_" = none := by
    rcases hkind with rfl | rfl <;> simp [stripPrefix, startsWith]
  rw [constraintColumn, hname, hforeign]
  simp only [hbody, hsplit, hsegment, Option.bind_eq_bind, Option.bind_some]

theorem column_eq_some_iff (hkind : kind = "ck_" ∨ kind = "uq_")
    (table code : String) (hhead : IsIdentifier (table ++ "_" ++ segment).toList)
    (hfield : IsIdentifier field.toList) :
    constraintColumn (kind ++ (table ++ "_" ++ segment) ++ "__" ++ code) table code = some field ↔
      endsInDigest (table ++ "_" ++ segment) = false ∧
        dropTenantKeys (dropCode segment code) = field := by
  rw [column_of_segment hkind table code hhead]
  cases endsInDigest (table ++ "_" ++ segment) with
  | true => simp
  | false => simp [ident_eq_some hfield]

theorem dropTenantKeys_eq_self (hfield : IsIdentifier field.toList) :
    dropTenantKeys field = field ↔ leadsWithTenantKey field = false := by
  rw [dropTenantKeys_eq hfield.ne_empty, dropTenantKey_eq_none hfield, and_iff_right_iff_imp]
  exact fun _ => ⟨[], by simp, rfl⟩

/-- A segment whose tenant keys and field stand as they were written, or in front of the code once
more. -/
theorem dropped_eq_field_iff
    (hkeys : ∀ k ∈ keys, k ∈ tenantKeys) (hsegment : segment = keyed keys field)
    (hcode : IsIdentifier code.toList) (hfield : IsIdentifier field.toList) :
    dropTenantKeys (dropCode segment code) = field ↔
      leadsWithTenantKey field = false ∧
        ∀ r, r ≠ "" → segment = r ++ "_" ++ code →
          ∃ keys', (∀ k ∈ keys', k ∈ tenantKeys) ∧ r = keyed keys' field := by
  by_cases hends : ∃ r, r ≠ "" ∧ segment = r ++ "_" ++ code
  · obtain ⟨r, hr, hrest⟩ := hends
    rw [hrest, dropCode_append hr hcode.ne_empty, dropTenantKeys_eq hfield.ne_empty,
      dropTenantKey_eq_none hfield, and_comm]
    refine and_congr_right fun _ => ⟨fun hkeyed r' _ heq => ?_, fun h => h r hr rfl⟩
    have hsame : r = r' := by
      have hlist := congrArg String.toList heq
      simp only [String.toList_append] at hlist
      exact String.toList_injective
        (List.append_cancel_right (List.append_cancel_right hlist))
    exact hsame ▸ hkeyed
  · have hnot : ∀ r, r ≠ "" → segment ≠ r ++ "_" ++ code := fun r hr heq => hends ⟨r, hr, heq⟩
    rw [dropCode_of_ne hnot, dropTenantKeys_eq hfield.ne_empty, dropTenantKey_eq_none hfield,
      and_comm]
    refine and_congr_right fun _ => ⟨fun _ r hr heq => absurd heq (hnot r hr), fun _ => ?_⟩
    exact ⟨keys, hkeys, hsegment⟩

/-- What stands behind a prefix and tenant keys is no longer than the whole. -/
theorem length_le_keyed (field : String) : field.length ≤ (keyed keys field).length := by
  induction keys with
  | nil => exact Nat.le_refl _
  | cons key keys ih =>
    rw [keyed, String.length_append]
    exact Nat.le_trans ih (Nat.le_add_left _ _)

/-- The names of the documented grammar that are read back to their field. A name that is not mistaken
for a shortened one gives a field that no tenant key leads; a row rule's must not end in its code, nor a
foreign key's in `_fk`, and a unique index's code must not reach into the tenant keys in front of the
field. -/
theorem generated_names_read_back (table field code : Identifier) (keys : List String)
    (hkeys : ∀ k ∈ keys, k ∈ tenantKeys) :
    (constraintColumn (fieldCheck table.text field.text code.text) table.text code.text =
        some field.text ↔
      endsInDigest (table.text ++ "_" ++ (field.text ++ "_" ++ code.text)) = false ∧
        leadsWithTenantKey field.text = false) ∧
    (constraintColumn (rowRule table.text field.text code.text) table.text code.text =
        some field.text ↔
      endsInDigest (table.text ++ "_" ++ field.text) = false ∧
        leadsWithTenantKey field.text = false ∧ ∀ r, field.text ≠ r ++ "_" ++ code.text) ∧
    (constraintColumn (uniqueIndex table.text keys field.text code.text) table.text code.text =
        some field.text ↔
      endsInDigest (table.text ++ "_" ++ keyed keys field.text) = false ∧
        leadsWithTenantKey field.text = false ∧
        ∀ r, r ≠ "" → keyed keys field.text = r ++ "_" ++ code.text →
          ∃ keys', (∀ k ∈ keys', k ∈ tenantKeys) ∧ r = keyed keys' field.text) ∧
    (∀ anyCode, constraintColumn (foreignKey table.text field.text) table.text anyCode =
        some field.text ↔ ∀ r, field.text ≠ r ++ "_fk") ∧
    ∀ anyCode, constraintColumn (linkForeignKey table.text field.text) table.text anyCode =
      some field.text := by
  have hfield := field.isIdentifier
  refine ⟨?_, ?_, ?_, ?_, ?_⟩
  · have hhead := isIdentifier_append table.isIdentifier
      (isIdentifier_append field.isIdentifier code.isIdentifier)
    rw [fieldCheck, column_eq_some_iff (.inl rfl) _ _ hhead hfield,
      dropCode_append hfield.ne_empty code.isIdentifier.ne_empty, dropTenantKeys_eq_self hfield]
  · have hhead := isIdentifier_append table.isIdentifier field.isIdentifier
    have hdropped : dropTenantKeys (dropCode field.text code.text) = field.text ↔ _ :=
      dropped_eq_field_iff [] (by simp) rfl code.isIdentifier hfield
    rw [rowRule, column_eq_some_iff (.inl rfl) _ _ hhead hfield, hdropped]
    refine and_congr_right fun _ => and_congr_right fun _ => ⟨fun h r heq => ?_, fun h r _ heq => ?_⟩
    · have hr : r ≠ "" := by
        rintro rfl
        apply hfield.head
        rw [heq]
        simp
      obtain ⟨keys', -, hkeyed⟩ := h r hr heq
      have hle := length_le_keyed keys' field.text
      rw [← hkeyed] at hle
      have hlength := congrArg String.length heq
      rw [String.length_append, String.length_append] at hlength
      have hone : "_".length = 1 := rfl
      omega
    · exact absurd heq (h r)
  · have hhead := isIdentifier_append table.isIdentifier (isIdentifier_keyed hkeys hfield)
    rw [uniqueIndex, column_eq_some_iff (.inr rfl) _ _ hhead hfield,
      dropped_eq_field_iff keys hkeys rfl code.isIdentifier hfield]
  · intro anyCode
    have hcolumn : (stripPrefix (table.text ++ ("_" ++ field.text)) table.text).bind
        (stripPrefix · "_") = some field.text := by simp
    rw [constraintColumn, foreignKey, String.append_assoc, String.append_assoc,
      Text.stripPrefix_append]
    simp only [hcolumn, Option.bind_eq_bind, Option.bind_some, ident_eq_some hfield]
    cases hsuffix : stripSuffix field.text "_fk" with
    | none =>
      refine iff_of_true rfl fun r heq => ?_
      rw [stripSuffix_eq_some.mpr heq] at hsuffix
      cases hsuffix
    | some r =>
      have heq := stripSuffix_eq_some.mp hsuffix
      refine iff_of_false (fun h => ?_) fun h => h r heq
      have hlength := congrArg String.length heq
      rw [String.length_append, ← h] at hlength
      have hthree : "_fk".length = 3 := rfl
      simp only [Option.getD_some] at hlength
      omega
  · intro anyCode
    have hcolumn : (stripPrefix (table.text ++ ("_" ++ (field.text ++ "_fk"))) table.text).bind
        (stripPrefix · "_") = some (field.text ++ "_fk") := by simp
    rw [constraintColumn, linkForeignKey, foreignKey, String.append_assoc, String.append_assoc,
      String.append_assoc, Text.stripPrefix_append]
    simp only [hcolumn, Option.bind_eq_bind, Option.bind_some, Text.stripSuffix_append,
      Option.getD_some, ident_eq_some hfield]

/-- A company's own project code, unique within it, is read back behind its tenant key. -/
theorem generated_names_read_back_code :
    constraintColumn (uniqueIndex "projects" ["company_id"] "code" "code_taken") "projects"
      "code_taken" = some "code" := by
  have h := generated_names_read_back ⟨"projects", by decide⟩ ⟨"code", by decide⟩
    ⟨"code_taken", by decide⟩ ["company_id"] (by decide)
  refine h.2.2.1.mpr ⟨by decide, by decide, fun r _ hends => ?_⟩
  have hnone : stripSuffix (keyed ["company_id"] "code") "code_taken" = none := by decide
  rw [hends, Text.stripSuffix_append] at hnone
  cases hnone

/-- A check on `company_id_number` is read back as one on `number`. -/
theorem tenant_key_taken_from_field :
    ¬ ∀ table field code : Identifier,
      constraintColumn (fieldCheck table.text field.text code.text) table.text code.text =
        some field.text := by
  intro h
  have hnumber : constraintColumn (fieldCheck "projects" "company_id_number" "max_length") "projects"
      "max_length" = some "number" := by decide +kernel
  have hfield := h ⟨"projects", by decide⟩ ⟨"company_id_number", by decide⟩ ⟨"max_length", by decide⟩
  rw [hnumber] at hfield
  exact absurd hfield (by decide)

end Backbone.Persistence
