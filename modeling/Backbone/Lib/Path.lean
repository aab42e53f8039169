import Backbone.Lib.Text

/-!
# Paths

The components of a path on Unix, as `std::path` takes a text apart: repeated separators and dots
behind the first component are left out. A name is a text that is one ordinary component.
-/

namespace Backbone.Path

open Text

variable {names : List String} {name : String} (a : String)

inductive Component where
  | rootDir
  | curDir
  | parentDir
  | normal (name : String)
deriving DecidableEq, Repr

/-- A path, up to the spellings that have the same components. -/
abbrev PathBuf := List Component

instance lawfulBEq_pathBuf : LawfulBEq PathBuf := inferInstance

/-- The component of a part between two separators. -/
def component? (part : String) : Option Component :=
  if part = "" ∨ part = "." then none
  else if part = ".." then some .parentDir
  else some (.normal part)

/-- `Path::components`; a dot counts as the first part of a relative path. -/
def components (s : String) : PathBuf :=
  (if startsWith s "/" then [.rootDir]
    else if (split s '/').head? = some "." then [.curDir]
    else []) ++
  (split s '/').filterMap component?

/-- `Path::parent`. -/
def parent (p : PathBuf) : Option PathBuf :=
  match p.getLast? with
  | none => none
  | some .rootDir => none
  | some _ => some p.dropLast

/-- `Path::join`, as texts. -/
def joinPath (base s : String) : String :=
  if startsWith s "/" then s
  else if base = "" ∨ endsWith base '/' then base ++ s
  else base ++ "/" ++ s

/-- A text that is one ordinary component. -/
structure IsName (name : String) : Prop where
  ne_empty : name ≠ ""
  ne_dot : name ≠ "."
  ne_dots : name ≠ ".."
  not_mem : '/' ∉ name.toList

theorem IsName.component (h : IsName name) : component? name = some (.normal name) := by
  rw [component?, if_neg (not_or.mpr ⟨h.ne_empty, h.ne_dot⟩), if_neg h.ne_dots]

variable {s : String} (b : String)

/-- An ordinary component of a path is a name. -/
theorem isName_of_mem_components (h : .normal name ∈ components s) : IsName name := by
  rw [components, List.mem_append] at h
  obtain h | h := h
  · split at h
    · simp at h
    · split at h <;> simp at h
  · obtain ⟨part, hpart, hcomponent⟩ := List.mem_filterMap.mp h
    unfold component? at hcomponent
    split at hcomponent
    · cases hcomponent
    · next hne =>
      split at hcomponent
      · cases hcomponent
      · next hdots =>
        cases hcomponent
        exact ⟨fun he => hne (.inl he), fun hd => hne (.inr hd), hdots, not_mem_of_mem_split hpart⟩

theorem filterMap_component (h : ∀ name ∈ names, IsName name) :
    names.filterMap component? = names.map .normal := by
  rw [← List.filterMap_eq_map]
  exact List.filterMap_congr fun name hname => (h name hname).component

/-- The parts of two texts around a separator. -/
theorem split_append : split (a ++ "/" ++ b) '/' = split a '/' ++ split b '/' := by
  rw [split, String.toList_append, String.toList_append, List.append_assoc,
    show ("/" : String).toList ++ b.toList = '/' :: b.toList from rfl,
    List.splitOn_append_cons_self, List.map_append]
  rfl

theorem split_append_slash : split (a ++ "/") '/' = split a '/' ++ [""] := by
  have happend := split_append a ""
  rwa [String.append_empty, show split "" '/' = [""] from rfl] at happend

theorem split_ne_nil (s : String) : split s '/' ≠ [] := by
  simp [split, List.splitOn_ne_nil]

variable {a : String}

theorem startsWith_append (ha : a ≠ "") (b : String) :
    startsWith (a ++ b) "/" = startsWith a "/" := by
  obtain ⟨c, cs, hcs⟩ := List.exists_cons_of_ne_nil (show a.toList ≠ [] by simpa using ha)
  simp [startsWith, hcs, List.isPrefixOf]

/-- What the first part adds to the components does not depend on what stands behind a separator. -/
theorem components_append_slash :
    components (a ++ "/" ++ b) = components (a ++ "/") ++ (split b '/').filterMap component? := by
  have hstart : startsWith (a ++ "/" ++ b) "/" = startsWith (a ++ "/") "/" :=
    startsWith_append (by simp) b
  have hhead : (split (a ++ "/" ++ b) '/').head? = (split (a ++ "/") '/').head? := by
    rw [split_append, split_append_slash, List.head?_append_of_ne_nil _ (split_ne_nil a),
      List.head?_append_of_ne_nil _ (split_ne_nil a)]
  have hempty : [""].filterMap component? = [] := by decide
  rw [components, components, hstart, hhead, split_append, split_append_slash, List.filterMap_append,
    List.filterMap_append, hempty, List.append_nil, List.append_assoc]

/-- A separator at the end adds nothing. -/
theorem components_slash (ha : a ≠ "") : components (a ++ "/") = components a := by
  have hempty : [""].filterMap component? = [] := by decide
  rw [components, components, startsWith_append ha, split_append_slash,
    List.head?_append_of_ne_nil _ (split_ne_nil a), List.filterMap_append, hempty, List.append_nil]

theorem split_names (hne : names ≠ []) (h : ∀ name ∈ names, IsName name) :
    split (join "/" names) '/' = names :=
  split_join (c := '/') hne fun name hname => (h name hname).not_mem

theorem startsWith_of_not_mem (h : '/' ∉ s.toList) : startsWith s "/" = false := by
  unfold startsWith
  cases hs : s.toList with
  | nil => rfl
  | cons c cs =>
    have hc : '/' ≠ c := by
      rintro rfl
      simp [hs] at h
    simp [List.isPrefixOf, hc]

theorem IsName.components (h : IsName name) : components name = [.normal name] := by
  have hsplit : split name '/' = [name] := split_names (List.cons_ne_nil name []) (by simpa using h)
  have hhead : ¬ ([name] : List String).head? = some "." := by simpa using h.ne_dot
  rw [Path.components, hsplit, startsWith_of_not_mem h.not_mem, if_neg hhead, List.filterMap_cons,
    h.component]
  rfl

/-- The components of names with separators between them. -/
theorem components_join (h : ∀ name ∈ names, IsName name) :
    components (join "/" names) = names.map .normal := by
  match names, h with
  | [], _ => decide
  | [name], h => exact (h name List.mem_cons_self).components
  | name :: next :: names, h =>
    have hname := h name List.mem_cons_self
    have hrest : ∀ name' ∈ next :: names, IsName name' := fun name' h' =>
      h name' (List.mem_cons_of_mem _ h')
    have hjoin : join "/" (name :: next :: names) = name ++ "/" ++ join "/" (next :: names) := rfl
    rw [hjoin, components_append_slash, components_slash hname.ne_empty, hname.components,
      split_names (List.cons_ne_nil _ _) hrest, filterMap_component hrest]
    rfl

theorem startsWith_join (h : ∀ name ∈ names, IsName name) :
    startsWith (join "/" names) "/" = false := by
  match names, h with
  | [], _ => rfl
  | [name], h => exact startsWith_of_not_mem (h name List.mem_cons_self).not_mem
  | name :: next :: names, h =>
    have hname := h name List.mem_cons_self
    have hjoin : join "/" (name :: next :: names) = name ++ "/" ++ join "/" (next :: names) := rfl
    rw [hjoin, String.append_assoc, startsWith_append hname.ne_empty,
      startsWith_of_not_mem hname.not_mem]

/-- Names joined to a path come behind its components. -/
theorem components_joinPath (base : String) (hne : names ≠ []) (h : ∀ name ∈ names, IsName name) :
    components (joinPath base (join "/" names)) = components base ++ names.map .normal := by
  have hparts : (split (join "/" names) '/').filterMap component? = names.map .normal := by
    rw [split_names hne h, filterMap_component h]
  rw [joinPath, startsWith_join h, if_neg Bool.false_ne_true]
  by_cases hbase : base = ""
  · subst hbase
    have hempty : components "" = [] := by decide
    rw [if_pos (.inl rfl), String.empty_append, hempty, List.nil_append, components_join h]
  · by_cases hends : endsWith base '/' = true
    · obtain ⟨front, hfront⟩ : ∃ front : String, base = front ++ "/" := by
        have hlast : base.toList.getLast? = some '/' := by simpa [endsWith] using hends
        obtain ⟨front, hfront⟩ := List.getLast?_eq_some_iff.mp hlast
        refine ⟨String.ofList front, String.toList_injective ?_⟩
        rw [hfront, String.toList_append, String.toList_ofList]
        rfl
      rw [if_pos (.inr hends), hfront, components_append_slash, hparts]
    · rw [if_neg (not_or.mpr ⟨hbase, hends⟩), components_append_slash, components_slash hbase, hparts]

theorem parent_append (p : PathBuf) (hne : names ≠ []) :
    parent (p ++ names.map .normal) = some (p ++ names.dropLast.map .normal) := by
  have hmap : names.map Component.normal ≠ [] := by simpa using hne
  have hlast : (p ++ names.map Component.normal).getLast? = some (.normal (names.getLast hne)) := by
    rw [List.getLast?_append_of_ne_nil _ hmap, List.getLast?_map, List.getLast?_eq_some_getLast hne]
    rfl
  rw [parent, hlast, List.dropLast_append_of_ne_nil hmap, List.map_dropLast]

end Backbone.Path
