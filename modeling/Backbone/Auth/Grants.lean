import Mathlib.Data.String.Basic
import Backbone.Lib.Text
import Mathlib.Data.Finset.Sort

/-!
# Permissions held and required

A held permission is a string in one of several spellings; `read_held` reads it into its parts and
`match_held` asks whether the parts cover a required `<resource>:<action>`. `check_held` asks that of
every string a person holds, and `Grants` is what a person holds, with the roles that hold everything.

The signal a legacy spelling raises is the note `check_held` leaves; where the notes are kept has no
part here. Names are ASCII, so the bytes of a name are its characters.

Reference: `backbone-auth/src/grants.rs`.
-/

namespace Backbone.Auth

open Text

/-! ## Names -/

/-- `GOD_PERMISSION`. -/
def godPermission : String := "*:*"

/-- `AUTHORITY_ROLES`. -/
def authorityRoles : List String := ["SUPERUSER", "ADMIN"]

/-- `GENERIC_ACTIONS`. -/
def genericActions : List String := ["read", "create", "update", "delete", "restore", "purge"]

/-- `is_name`. -/
def isName (s : String) : Bool :=
  !s.toList.isEmpty && s.toList.all fun c => c.isLower || c.isDigit || c == '_'

/-- `is_half`. -/
def isHalf (s : String) : Bool := s == "*" || isName s

/-! ## Held permissions -/

/-- `LegacySpelling`. -/
inductive LegacySpelling where
  | dotted
  | actionFirst
  | transition
  | plural
  | moduleGrain
  | writeAction
deriving DecidableEq, Repr

/-- `Held`: a held permission read into its parts. -/
structure Held where
  resource : String
  action : String
  verbsOnly : Bool
  legacy : Option LegacySpelling
deriving DecidableEq, Repr

/-- Both halves around a colon. -/
def spell (resource action : String) : String := resource ++ ":" ++ action

/-- `Held::canonical`. -/
def Held.canonical (h : Held) : String :=
  if h.verbsOnly && h.action == "*" then h.resource ++ ":<each verb>"
  else spell h.resource h.action

/-- The arms of `read_held` for two segments. -/
def readPair (first second : String) : Option Held :=
  if first = "admin" ∧ second = "*" then
    some ⟨"*", "*", false, some .actionFirst⟩
  else if first = "admin" ∧ isName second ∧ second ∉ genericActions ∧ second ≠ "write" then
    some ⟨second, "*", false, some .actionFirst⟩
  else if first ∈ ["read", "write", "delete"] ∧ isName second then
    some ⟨second, first, false, some .actionFirst⟩
  else if isHalf first ∧ isHalf second then
    some ⟨first, second, false, none⟩
  else none

/-- The arms of `read_held` for the segments around the colons. -/
def readParts : List String → Option Held
  | [resource, middle, verb] =>
    if middle = "transition" ∧ isHalf resource ∧ isHalf verb then
      some ⟨resource, verb, true, some .transition⟩
    else none
  | [first, second] => readPair first second
  | _ => none

/-- The arm of `read_held` for a string without a colon. -/
def readDotted (raw : String) : Option Held :=
  match splitOnce raw '.' with
  | some (resource, action) =>
    if isHalf resource ∧ isHalf action then some ⟨resource, action, false, some .dotted⟩ else none
  | none => none

/-- `read_held`. -/
def readHeld (raw : String) : Option Held :=
  if trim raw = "*" then some ⟨"*", "*", false, none⟩
  else if contains (trim raw) ':' then readParts (split (trim raw) ':')
  else readDotted (trim raw)

/-- `normalise`. -/
def normalise (raw : String) : Option String := (readHeld raw).map Held.canonical

/-! ## Matching -/

def vowels : List Char := ['a', 'e', 'i', 'o', 'u']

/-- `plural_of`. -/
def pluralOf (singular : String) : String :=
  match (stripSuffix singular "y").filter fun stem => stem.toList.getLast?.any (· ∉ vowels) with
  | some stem => stem ++ "ies"
  | none =>
    if ["s", "x", "ch", "sh"].any fun ending => ending.toList.isSuffixOf singular.toList then
      singular ++ "es"
    else singular ++ "s"

/-- Whether the composite `write` stands for an action. -/
def writeAlias (action required : String) : Bool :=
  action == "write" && required != "write" && !(["read", "delete", "purge"].contains required)

/-- `match_held`: no match, a canonical one, or one through a legacy spelling. -/
def matchHeld (held : Held) (required : String) : Option (Option LegacySpelling) :=
  match splitOnce required ':' with
  | none => none
  | some (resource, action) =>
    if held.verbsOnly ∧ action ∈ genericActions then none
    else if ¬ (held.action = "*" ∨ held.action = action ∨ writeAlias held.action action) then none
    else
      let legacy :=
        if writeAlias held.action action then held.legacy.or (some .writeAction) else held.legacy
      if held.resource = "*" ∨ held.resource = resource then some legacy
      else if held.resource = pluralOf resource then some (legacy.or (some .plural))
      else none

/-- `permission_matches`. -/
def permissionMatches (held required : String) : Bool :=
  (readHeld held).any fun h => (matchHeld h required).isSome

/-! ## What a person holds -/

/-- What `note_legacy` is told. -/
structure LegacyNote where
  held : String
  canonical : String
  spelling : LegacySpelling
deriving DecidableEq, Repr

/-- The first loop of `check_held`: a canonical match, or the first legacy one. -/
def scanHeld (required : String) : List String → Option LegacyNote → Bool × Option LegacyNote
  | [], hit => (false, hit)
  | raw :: rest, hit =>
    match readHeld raw with
    | none => scanHeld required rest hit
    | some h =>
      match matchHeld h required with
      | none => scanHeld required rest hit
      | some none => (true, hit)
      | some (some spelling) => scanHeld required rest (hit.or (some ⟨raw, h.canonical, spelling⟩))

/-- The second loop of `check_held`, for one alternate. -/
def scanAlternate (alternate : String) : List String → Option LegacyNote → Option LegacyNote
  | [], hit => hit
  | raw :: rest, hit =>
    match readHeld raw with
    | none => scanAlternate alternate rest hit
    | some h =>
      if (matchHeld h alternate).isSome then
        scanAlternate alternate rest
          (hit.or (some ⟨raw, h.canonical, h.legacy.getD .moduleGrain⟩))
      else scanAlternate alternate rest hit

/-- `check_held`, with the note it raises. -/
def checkHeld (held : List String) (required : String) (alternates : List String) :
    Bool × Option LegacyNote :=
  match scanHeld required held none with
  | (true, _) => (true, none)
  | (false, some hit) => (true, some hit)
  | (false, none) =>
    let hit := alternates.foldl (fun hit alternate => scanAlternate alternate held hit) none
    (hit.isSome, hit)

/-- `Grants`. -/
structure Grants where
  roles : Finset String
  permissions : Finset String

namespace Grants

/-- `is_authority`. -/
def isAuthority (g : Grants) : Bool :=
  authorityRoles.any (fun r => decide (r ∈ g.roles)) || decide (godPermission ∈ g.permissions)

/-- `effective`, in the order of the set. -/
def effective (g : Grants) : List String :=
  (if g.isAuthority then insert godPermission g.permissions else g.permissions).sort

/-- `allows`. -/
def allows (g : Grants) (required : String) : Bool :=
  g.isAuthority || (checkHeld g.permissions.sort required []).1

end Grants

end Backbone.Auth
