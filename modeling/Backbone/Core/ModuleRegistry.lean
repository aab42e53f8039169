import Backbone.Lib.DepthFirst
import Backbone.Lib.Run
import Mathlib.Data.Finmap

/-!
# The order of the modules

`ModuleRegistry` keeps its modules under their names and hands them out in dependency order. The order is
computed by a depth-first search, from the modules in whatever order the hash map gives them, and kept
until the next registration.

The iteration order of the map is an argument of the calls that iterate. `App` boots the modules and shuts
them down; `App.dependencies_up` says that whatever fails or is dropped, no module is up without those it
depends on.

Reference: `backbone-core/src/module_registry.rs`.
-/

namespace Backbone.Core

open Machine DepthFirst
open Relation (TransGen)

/-- `BackboneModule`: what the registry reads of a module. -/
structure BackboneModule where
  name : String
  dependencies : List String
deriving DecidableEq, Repr

/-- `ModuleRegistryError`. -/
inductive ModuleRegistryError where
  | circularDependency (module : String)
  | unknownDependency (module dependency : String)
  | duplicateModule (name : String)
deriving DecidableEq, Repr

/-- `ModuleRegistry`. -/
structure ModuleRegistry where
  modules : Finmap fun _ : String => BackboneModule
  order : Option (List String)

namespace ModuleRegistry

/-- `new`. -/
def new : ModuleRegistry := ⟨∅, none⟩

/-- `register` and `register_arc`. -/
def register (registry : ModuleRegistry) (m : BackboneModule) :
    Except ModuleRegistryError Unit × ModuleRegistry :=
  if m.name ∈ registry.modules then (.error (.duplicateModule m.name), registry)
  else (.ok (), ⟨registry.modules.insert m.name m, none⟩)

/-- The dependencies `visit` goes on to: those of a registered module. -/
def dependenciesOf (registry : ModuleRegistry) (name : String) : List String :=
  match registry.modules.lookup name with
  | some m => m.dependencies
  | none => []

/-- The first dependency, in the order of iteration, that is not registered. -/
def unknownDependency (registry : ModuleRegistry) (iteration : List String) :
    Option ModuleRegistryError :=
  (iteration.filterMap registry.modules.lookup).findSome? fun m =>
    m.dependencies.findSome? fun d =>
      if d ∈ registry.modules then none else some (.unknownDependency m.name d)

/-- `topological_sort`; nothing if the recursion of `visit` does not end. -/
def topologicalSort (registry : ModuleRegistry) (iteration : List String) :
    Option (Except ModuleRegistryError (List String)) :=
  match registry.unknownDependency iteration with
  | some e => some (.error e)
  | none =>
    match visitAll (visit registry.dependenciesOf (registry.modules.keys.card + 1)) iteration
      Search.start with
    | some (.ok s) => some (.ok s.result)
    | some (.error name) => some (.error (.circularDependency name))
    | none => none

/-- The modules under the names of an order. -/
def modulesOf (registry : ModuleRegistry) (order : List String) : List BackboneModule :=
  order.filterMap registry.modules.lookup

/-- `modules_ordered`. -/
def modulesOrdered (registry : ModuleRegistry) (iteration : List String) :
    Option (Except ModuleRegistryError (List BackboneModule)) × ModuleRegistry :=
  match registry.order with
  | some order => (some (.ok (registry.modulesOf order)), registry)
  | none =>
    match registry.topologicalSort iteration with
    | some (.ok order) =>
      (some (.ok (registry.modulesOf order)), { registry with order := some order })
    | some (.error e) => (some (.error e), registry)
    | none => (none, registry)

/-- The modules `shutdown_all` shuts down, one after the other. -/
def shutdownOrder (registry : ModuleRegistry) (iteration : List String) :
    Option (Except ModuleRegistryError (List BackboneModule)) :=
  (registry.modulesOrdered iteration).1.map fun answer => answer.map List.reverse

/-- A call, with the order in which the map is iterated during it. -/
inductive Call where
  | register (m : BackboneModule)
  | modulesOrdered (iteration : List String)

/-- The registry after a call. -/
def step (registry : ModuleRegistry) : Call → ModuleRegistry
  | .register m => (registry.register m).2
  | .modulesOrdered iteration => (registry.modulesOrdered iteration).2

/-- An iteration comes to every registered name once. -/
structure Iterates (registry : ModuleRegistry) (iteration : List String) : Prop where
  nodup : iteration.Nodup
  mem_iff : ∀ name, name ∈ iteration ↔ name ∈ registry.modules

/-- The condition on the calls of a run: an iteration is one of the map it meets. -/
def IteratesMap (registry : ModuleRegistry) : Call → Prop
  | .register _ => True
  | .modulesOrdered iteration => registry.Iterates iteration

/-- Every dependency of a registered module is registered. -/
def AllRegistered (registry : ModuleRegistry) : Prop :=
  ∀ name m, registry.modules.lookup name = some m → ∀ d ∈ m.dependencies, d ∈ registry.modules

/-- The dependency graph has no cycle. -/
def NoCycle (registry : ModuleRegistry) : Prop := Acyclic registry.dependenciesOf

/-! ## One search -/

/-- An order of the registered names in which dependencies come first. -/
structure IsOrder (registry : ModuleRegistry) (order : List String) : Prop where
  nodup : order.Nodup
  mem_iff : ∀ name, name ∈ order ↔ name ∈ registry.modules
  ordered : Ordered registry.dependenciesOf order

variable {registry : ModuleRegistry} {iteration order : List String} {name : String}

theorem dependenciesOf_of_lookup {m : BackboneModule}
    (h : registry.modules.lookup name = some m) :
    registry.dependenciesOf name = m.dependencies := by
  rw [dependenciesOf, h]

theorem dependenciesOf_of_notMem (h : name ∉ registry.modules) :
    registry.dependenciesOf name = [] := by
  rw [dependenciesOf, Finmap.lookup_eq_none.mpr h]

theorem lookup_of_dependency {d : String} (h : d ∈ registry.dependenciesOf name) :
    ∃ m, registry.modules.lookup name = some m ∧ d ∈ m.dependencies := by
  cases hm : registry.modules.lookup name with
  | none =>
    rw [dependenciesOf_of_notMem (Finmap.lookup_eq_none.mp hm)] at h
    cases h
  | some m =>
    rw [dependenciesOf_of_lookup hm] at h
    exact ⟨m, rfl, h⟩

theorem allRegistered_iff :
    registry.AllRegistered ↔ ∀ name, ∀ d ∈ registry.dependenciesOf name, d ∈ registry.modules := by
  constructor
  · intro h name d hd
    obtain ⟨m, hm, hd⟩ := lookup_of_dependency hd
    exact h name m hm d hd
  · intro h name m hm d hd
    exact h name d (by rwa [dependenciesOf_of_lookup hm])

/-- The validation refuses exactly when a dependency is not registered. -/
theorem unknownDependency_eq_none (hiter : registry.Iterates iteration) :
    registry.unknownDependency iteration = none ↔ registry.AllRegistered := by
  have hmem : ∀ m, m ∈ iteration.filterMap registry.modules.lookup ↔
      ∃ name, registry.modules.lookup name = some m := by
    intro m
    rw [List.mem_filterMap]
    constructor
    · rintro ⟨name, -, hm⟩
      exact ⟨name, hm⟩
    · rintro ⟨name, hm⟩
      exact ⟨name, (hiter.mem_iff name).mpr (Finmap.mem_of_lookup_eq_some hm), hm⟩
  simp only [unknownDependency, List.findSome?_eq_none_iff, ite_eq_left_iff, reduceCtorEq,
    imp_false, not_not, hmem]
  constructor
  · intro h name m hm d hd
    exact h m ⟨name, hm⟩ d hd
  · rintro h m ⟨name, hm⟩ d hd
    exact h name m hm d hd

/-- An order excludes what the search would refuse. -/
theorem IsOrder.noCycle (h : registry.IsOrder order) : registry.NoCycle := by
  refine acyclic_of_ordered h.ordered h.nodup fun name hdeps => ?_
  rw [h.mem_iff]
  by_contra hmem
  exact hdeps (dependenciesOf_of_notMem hmem)

theorem IsOrder.allRegistered (h : registry.IsOrder order) : registry.AllRegistered := by
  rw [allRegistered_iff]
  intro name d hd
  obtain ⟨m, hm, -⟩ := lookup_of_dependency hd
  obtain ⟨pre, post, hsplit⟩ := List.append_of_mem
    ((h.mem_iff name).mpr (Finmap.mem_of_lookup_eq_some hm))
  rw [← h.mem_iff, hsplit]
  exact List.mem_append_left _ (h.ordered pre name post hsplit d hd)

/-- The sort ends with an order, or with an error that is due. -/
theorem topologicalSort_cases (hiter : registry.Iterates iteration) :
    (∃ order, registry.topologicalSort iteration = some (.ok order) ∧ registry.IsOrder order) ∨
      ∃ e, registry.topologicalSort iteration = some (.error e) ∧
        ¬ (registry.AllRegistered ∧ registry.NoCycle) := by
  unfold topologicalSort
  cases hunknown : registry.unknownDependency iteration with
  | some e =>
    refine .inr ⟨e, rfl, fun h => ?_⟩
    rw [(unknownDependency_eq_none hiter).mpr h.1] at hunknown
    cases hunknown
  | none =>
    have hall := allRegistered_iff.mp ((unknownDependency_eq_none hiter).mp hunknown)
    have hclosed : ∀ name ∈ registry.modules.keys, ∀ d ∈ registry.dependenciesOf name,
        d ∈ registry.modules.keys := fun name _ d hd => Finmap.mem_keys.mpr (hall name d hd)
    have hempty : ∀ name, name ∉ registry.modules.keys → registry.dependenciesOf name = [] :=
      fun name hname => dependenciesOf_of_notMem fun hmem => hname (Finmap.mem_keys.mpr hmem)
    rcases visitAll_start hclosed hempty (fun name => by rw [hiter.mem_iff, Finmap.mem_keys]) with
      ⟨s, hs, hnodup, hmem, hordered⟩ | ⟨v, hv, hcycle⟩
    · rw [hs]
      exact .inl ⟨s.result, rfl, hnodup, fun name => by rw [hmem, Finmap.mem_keys], hordered⟩
    · rw [hv]
      exact .inr ⟨_, rfl, fun h => h.2 v hcycle⟩

/-! ## Runs -/

/-- What the calls keep: each module is under its own name, and a cached order is one of the modules there
are. -/
structure Cached (registry : ModuleRegistry) : Prop where
  named : ∀ name m, registry.modules.lookup name = some m → m.name = name
  order : ∀ order, registry.order = some order → registry.IsOrder order

theorem cached_new : new.Cached where
  named name m h := by simp [new] at h
  order order h := by simp [new] at h

theorem Cached.register (h : registry.Cached) (m : BackboneModule) :
    (registry.register m).2.Cached := by
  unfold ModuleRegistry.register
  split
  · exact h
  · refine ⟨?_, by rintro order ⟨⟩⟩
    intro name m' hm'
    by_cases hname : name = m.name
    · subst hname
      rw [Finmap.lookup_insert] at hm'
      cases hm'
      rfl
    · rw [Finmap.lookup_insert_of_ne _ hname] at hm'
      exact h.named name m' hm'

/-- What `modules_ordered` comes to, its order computed now or before. -/
theorem Cached.modulesOrdered (h : registry.Cached) (hiter : registry.Iterates iteration) :
    (∃ order, registry.IsOrder order ∧
        registry.modulesOrdered iteration =
          (some (.ok (registry.modulesOf order)), { registry with order := some order })) ∨
      ∃ e, ¬ (registry.AllRegistered ∧ registry.NoCycle) ∧
        registry.modulesOrdered iteration = (some (.error e), registry) := by
  unfold ModuleRegistry.modulesOrdered
  cases hcached : registry.order with
  | some order =>
    refine .inl ⟨order, h.order order hcached, congrArg (Prod.mk _) ?_⟩
    obtain ⟨modules, cached⟩ := registry
    cases hcached
    rfl
  | none =>
    rcases topologicalSort_cases hiter with ⟨order, hsort, horder⟩ | ⟨e, hsort, hbad⟩
    · exact .inl ⟨order, horder, by rw [hsort]⟩
    · exact .inr ⟨e, hbad, by rw [hsort]⟩

theorem Cached.step (h : registry.Cached) (c : Call) (hc : registry.IteratesMap c) :
    (registry.step c).Cached := by
  cases c with
  | register m => exact h.register m
  | modulesOrdered iteration =>
    rcases h.modulesOrdered hc with ⟨order, horder, heq⟩ | ⟨e, -, heq⟩
    · simp only [ModuleRegistry.step, heq]
      refine ⟨h.named, ?_⟩
      rintro _ ⟨rfl⟩
      exact ⟨horder.nodup, horder.mem_iff, horder.ordered⟩
    · simp only [ModuleRegistry.step, heq]
      exact h

/-- The registered modules, each once and behind its dependencies. -/
structure RightOrder (registry : ModuleRegistry) (iteration : List String)
    (ms : List BackboneModule) : Prop where
  perm : ms.Perm (registry.modulesOf iteration)
  complete : ∀ m, m ∈ ms ↔ ∃ name, registry.modules.lookup name = some m
  after : ∀ pre m post, ms = pre ++ m :: post → ∀ d ∈ m.dependencies, ∃ m' ∈ pre, m'.name = d

theorem Cached.rightOrder (h : registry.Cached) (hiter : registry.Iterates iteration)
    (horder : registry.IsOrder order) :
    registry.RightOrder iteration (registry.modulesOf order) where
  perm := by
    have hperm : order.Perm iteration := by
      rw [List.perm_ext_iff_of_nodup horder.nodup hiter.nodup]
      intro name
      rw [horder.mem_iff, hiter.mem_iff]
    exact hperm.filterMap _
  complete m := by
    rw [modulesOf, List.mem_filterMap]
    constructor
    · rintro ⟨name, -, hm⟩
      exact ⟨name, hm⟩
    · rintro ⟨name, hm⟩
      exact ⟨name, (horder.mem_iff name).mpr (Finmap.mem_of_lookup_eq_some hm), hm⟩
  after pre m post hsplit d hd := by
    obtain ⟨front, back, hfront, hpre, hback⟩ := List.filterMap_eq_append_iff.mp hsplit
    obtain ⟨skipped, name, rest, hrest, hskipped, hname, -⟩ := List.filterMap_eq_cons_iff.mp hback
    have hdeps : d ∈ registry.dependenciesOf name := by rwa [dependenciesOf_of_lookup hname]
    have hbefore : d ∈ front ++ skipped := by
      refine horder.ordered _ name rest ?_ d hdeps
      rw [hfront, hrest, List.append_assoc]
    have hmem : d ∈ registry.modules := by
      rw [← horder.mem_iff, hfront, hrest, ← List.append_assoc]
      exact List.mem_append_left _ hbefore
    obtain ⟨m', hm'⟩ := Finmap.mem_iff.mp hmem
    refine ⟨m', ?_, h.named d m' hm'⟩
    rcases List.mem_append.mp hbefore with hd | hd
    · rw [← hpre]
      exact List.mem_filterMap.mpr ⟨d, hd, hm'⟩
    · rw [hskipped d hd] at hm'
      cases hm'

/-- Whatever has been registered and asked for before, and however the map is iterated,
`modules_ordered` ends; it answers with an order exactly when every dependency is registered and none is
circular, and the order is the registered modules with their dependencies first. `shutdown_all` goes
through it backwards. -/
theorem modulesOrdered_iff (calls : List Call) (hcalls : Along step IteratesMap new calls)
    (iteration : List String) (hiter : (run step new calls).Iterates iteration) :
    ((∃ ms, ((run step new calls).modulesOrdered iteration).1 = some (.ok ms)) ↔
      (run step new calls).AllRegistered ∧ (run step new calls).NoCycle) ∧
    (∀ ms, ((run step new calls).modulesOrdered iteration).1 = some (.ok ms) →
      (run step new calls).RightOrder iteration ms ∧
        (run step new calls).shutdownOrder iteration = some (.ok ms.reverse)) ∧
    ((run step new calls).modulesOrdered iteration).1 ≠ none := by
  have h : (run step new calls).Cached :=
    invariant_along (I := Cached) step (fun _ c h hc => h.step c hc) cached_new hcalls
  rcases h.modulesOrdered hiter with ⟨order, horder, heq⟩ | ⟨e, hbad, heq⟩
  · rw [shutdownOrder, heq]
    refine ⟨⟨fun _ => ⟨horder.allRegistered, horder.noCycle⟩, fun _ => ⟨_, rfl⟩⟩, ?_, ?_⟩
    · rintro _ ⟨rfl⟩
      exact ⟨h.rightOrder hiter horder, rfl⟩
    · rintro ⟨⟩
  · rw [shutdownOrder, heq]
    refine ⟨⟨?_, fun hgood => absurd hgood hbad⟩, ?_, ?_⟩
    · rintro ⟨ms, ⟨⟩⟩
    · rintro ms ⟨⟩
    · rintro ⟨⟩

/-- Modules are registered before their dependencies, and the order is asked for too early once. -/
def tooEarly : List Call :=
  [.register ⟨"module_b", ["module_a"]⟩, .modulesOrdered ["module_b"], .register ⟨"module_a", []⟩]

/-- `module_a` comes before `module_b` in whichever order the map gives them. -/
theorem modulesOrdered_tooEarly :
    ((∃ ms, ((run step new tooEarly).modulesOrdered ["module_b", "module_a"]).1 = some (.ok ms)) ↔
      (run step new tooEarly).AllRegistered ∧ (run step new tooEarly).NoCycle) ∧
    (run step new tooEarly).RightOrder ["module_b", "module_a"]
      [⟨"module_a", []⟩, ⟨"module_b", ["module_a"]⟩] := by
  have hone : (run step new [.register ⟨"module_b", ["module_a"]⟩]).Iterates ["module_b"] :=
    ⟨by decide, fun name => by
      change _ ↔ name ∈ (new.modules.insert "module_b" _)
      simp [new, Finmap.notMem_empty]⟩
  have hiter : (run step new tooEarly).Iterates ["module_b", "module_a"] :=
    ⟨by decide, fun name => by
      change _ ↔ name ∈ ((new.modules.insert "module_b" _).insert "module_a" _)
      simp [new, Finmap.notMem_empty, or_comm]⟩
  have h := modulesOrdered_iff tooEarly ⟨trivial, hone, trivial, trivial⟩ _ hiter
  exact ⟨h.1, (h.2.1 _ (by rfl)).1⟩

/-! ## Booting and shutting down -/

/-- The modules that `boot_all` or `shutdown_all` has not come to. -/
inductive Pass where
  | idle
  | booting (rest : List BackboneModule)
  | stopping (rest : List BackboneModule)

/-- A registry, and the names of the modules that are up: booted, and not shut down since. -/
structure App where
  registry : ModuleRegistry
  up : Finset String
  pass : Pass

namespace App

def new : App := ⟨ModuleRegistry.new, ∅, .idle⟩

inductive Act where
  | register (m : BackboneModule)
  | bootAll (iteration : List String)
  | shutdownAll (iteration : List String)
  /-- `on_boot` or `on_shutdown` of the next module answers. -/
  | answer (ok : Bool)
  /-- The pass returns or is dropped. -/
  | drop

/-- A pass begins when there is an order. -/
def begins (app : App) (iteration : List String) (pass : List BackboneModule → Pass) : App :=
  match app.registry.modulesOrdered iteration with
  | (some (.ok ms), registry) => ⟨registry, app.up, pass ms⟩
  | (_, registry) => { app with registry := registry }

/-- One action. A failing `on_boot` ends its pass, a failing `on_shutdown` is only logged. -/
def step (app : App) (act : Act) : App :=
  match app.pass, act with
  | .idle, .register m => { app with registry := (app.registry.register m).2 }
  | .idle, .bootAll iteration => app.begins iteration .booting
  | .idle, .shutdownAll iteration => app.begins iteration fun ms => .stopping ms.reverse
  | .booting (m :: rest), .answer true => ⟨app.registry, insert m.name app.up, .booting rest⟩
  | .booting (_ :: _), .answer false => { app with pass := .idle }
  | .stopping (m :: rest), .answer _ => ⟨app.registry, app.up.erase m.name, .stopping rest⟩
  | _, .drop => { app with pass := .idle }
  | _, _ => app

def IteratesMap (app : App) : Act → Prop
  | .bootAll iteration | .shutdownAll iteration => app.registry.Iterates iteration
  | _ => True

/-- A pass has come to one end of an order: what it has left behind is up, or is down. -/
def Passing (app : App) : Prop :=
  match app.pass with
  | .idle => True
  | .booting rest => ∃ pre, app.registry.IsOrder (pre ++ rest.map (·.name)) ∧ ∀ x ∈ pre, x ∈ app.up
  | .stopping rest =>
    ∃ post, app.registry.IsOrder ((rest.map (·.name)).reverse ++ post) ∧ ∀ x ∈ post, x ∉ app.up

structure Inv (app : App) : Prop where
  cached : app.registry.Cached
  registered : ∀ name ∈ app.up, name ∈ app.registry.modules
  closed : Closed app.registry.dependenciesOf app.up
  passing : app.Passing

end App

/-- A registered module stays. -/
theorem lookup_register (m : BackboneModule) {name : String} {m' : BackboneModule}
    (h : registry.modules.lookup name = some m') :
    (registry.register m).2.modules.lookup name = some m' := by
  unfold register
  split
  · exact h
  · rename_i hnew
    refine (Finmap.lookup_insert_of_ne _ ?_).trans h
    rintro rfl
    exact hnew (Finmap.mem_of_lookup_eq_some h)

theorem Cached.map_modulesOf (h : registry.Cached) :
    ∀ order : List String, (∀ name ∈ order, name ∈ registry.modules) →
      (registry.modulesOf order).map (·.name) = order
  | [], _ => rfl
  | name :: order, hall => by
    obtain ⟨m, hm⟩ := Finmap.mem_iff.mp (hall name List.mem_cons_self)
    have ih := h.map_modulesOf order fun x hx => hall x (List.mem_cons_of_mem _ hx)
    rw [modulesOf, List.filterMap_cons_some (f := fun x => registry.modules.lookup x) hm,
      List.map_cons, h.named name m hm]
    exact congrArg _ ih

namespace App

variable {app : App}

theorem Inv.begins (h : app.Inv) (hiter : app.registry.Iterates iteration)
    {pass : List BackboneModule → Pass} (hpass : ∀ registry order, registry.Cached →
      registry.IsOrder order → Passing ⟨registry, app.up, pass (registry.modulesOf order)⟩) :
    (app.begins iteration pass).Inv := by
  have hcached := h.cached.step (.modulesOrdered iteration) hiter
  unfold App.begins
  rcases h.cached.modulesOrdered hiter with ⟨order, -, heq⟩ | ⟨e, -, heq⟩
  · rw [ModuleRegistry.step, heq] at hcached
    rw [heq]
    exact ⟨hcached, h.registered, h.closed, hpass _ order hcached (hcached.order order rfl)⟩
  · rw [heq]
    exact h

theorem Inv.step (h : app.Inv) (act : Act) (hact : app.IteratesMap act) : (app.step act).Inv := by
  obtain ⟨registry, up, pass⟩ := app
  have hidle : Inv ⟨registry, up, .idle⟩ := ⟨h.cached, h.registered, h.closed, trivial⟩
  cases pass with
  | idle =>
    cases act with
    | register m =>
      refine ⟨h.cached.register m, fun name hname => ?_, fun name hname d hd => ?_, trivial⟩
      · obtain ⟨m', hm'⟩ := Finmap.mem_iff.mp (h.registered name hname)
        exact Finmap.mem_of_lookup_eq_some (lookup_register m hm')
      · obtain ⟨m', hm'⟩ := Finmap.mem_iff.mp (h.registered name hname)
        have hd : d ∈ (registry.register m).2.dependenciesOf name := hd
        rw [dependenciesOf_of_lookup (lookup_register m hm'), ← dependenciesOf_of_lookup hm'] at hd
        exact h.closed name hname d hd
    | bootAll iteration =>
      refine h.begins hact fun registry order hcached horder => ⟨[], ?_, fun _ hx => by cases hx⟩
      rwa [hcached.map_modulesOf order fun x hx => (horder.mem_iff x).mp hx]
    | shutdownAll iteration =>
      refine h.begins hact fun registry order hcached horder => ⟨[], ?_, fun _ hx => by cases hx⟩
      rwa [List.map_reverse, List.reverse_reverse, List.append_nil,
        hcached.map_modulesOf order fun x hx => (horder.mem_iff x).mp hx]
    | answer | drop => exact h
  | booting rest =>
    cases rest with
    | nil =>
      cases act with
      | drop => exact hidle
      | _ => exact h
    | cons m rest =>
      cases act with
      | drop => exact hidle
      | answer ok =>
        cases ok with
        | false => exact hidle
        | true =>
          obtain ⟨pre, horder, hpre⟩ := h.passing
          have hmem : m.name ∈ registry.modules := (horder.mem_iff _).mp (by simp)
          refine ⟨h.cached, Finset.forall_mem_insert _ _ _ |>.mpr ⟨hmem, h.registered⟩,
            horder.ordered.closed_insert h.closed hpre, pre ++ [m.name], ?_, ?_⟩
          · rwa [List.append_assoc]
          · intro x hx
            rcases List.mem_append.mp hx with hx | hx
            · exact Finset.mem_insert_of_mem (hpre x hx)
            · exact Finset.mem_insert.mpr (.inl (List.mem_singleton.mp hx))
      | _ => exact h
  | stopping rest =>
    cases rest with
    | nil =>
      cases act with
      | drop => exact hidle
      | _ => exact h
    | cons m rest =>
      cases act with
      | drop => exact hidle
      | answer ok =>
        obtain ⟨post, horder, hpost⟩ := h.passing
        rw [List.map_cons, List.reverse_cons, List.append_assoc, List.singleton_append] at horder
        have hall := fun x hx => (horder.mem_iff x).mpr (h.registered x hx)
        refine ⟨h.cached, fun x hx => h.registered x (Finset.mem_of_mem_erase hx),
          horder.ordered.closed_erase horder.nodup h.closed hall hpost, m.name :: post, horder, ?_⟩
        refine List.forall_mem_cons.mpr ⟨Finset.notMem_erase _ _, fun x hx hmem => ?_⟩
        exact hpost x hx (Finset.mem_of_mem_erase hmem)
      | _ => exact h

theorem inv_new : App.new.Inv :=
  ⟨cached_new, by simp [new], by simp [new, Closed], trivial⟩

/-- In every run, with boots that fail and passes that are dropped, a module is up only with all its
dependencies. When `boot_all` has returned, all modules are up, and none when `shutdown_all` has. -/
theorem dependencies_up (acts : List Act) (hacts : Along step IteratesMap new acts) :
    (∀ name ∈ (run step new acts).up, ∀ d ∈ (run step new acts).registry.dependenciesOf name,
      d ∈ (run step new acts).up) ∧
    ((run step new acts).pass = .booting [] →
      ∀ name, name ∈ (run step new acts).registry.modules → name ∈ (run step new acts).up) ∧
    ((run step new acts).pass = .stopping [] → (run step new acts).up = ∅) := by
  have h : (run step new acts).Inv := invariant_along step (fun _ a h => h.step a) inv_new hacts
  refine ⟨h.closed, fun hpass name hname => ?_, fun hpass => ?_⟩
  · have hp := h.passing
    rw [Passing, hpass] at hp
    obtain ⟨pre, horder, hpre⟩ := hp
    exact hpre name (by simpa using (horder.mem_iff name).mpr hname)
  · have hp := h.passing
    rw [Passing, hpass] at hp
    obtain ⟨post, horder, hpost⟩ := hp
    refine Finset.eq_empty_of_forall_notMem fun name hname => hpost name ?_ hname
    simpa using (horder.mem_iff name).mpr (h.registered name hname)

/-- `on_boot` of `module_b` fails. -/
def failedBoot : List Act :=
  [.register ⟨"module_b", ["module_a"]⟩, .register ⟨"module_a", []⟩,
    .bootAll ["module_b", "module_a"], .answer true, .answer false]

/-- `module_a` is up then, and needs nothing. -/
theorem dependencies_up_failedBoot : (run step new failedBoot).up = {"module_a"} ∧
    ∀ name ∈ (run step new failedBoot).up,
      ∀ d ∈ (run step new failedBoot).registry.dependenciesOf name,
        d ∈ (run step new failedBoot).up := by
  refine ⟨by rfl, (dependencies_up failedBoot ⟨trivial, trivial, ⟨by decide, fun name => ?_⟩, trivial,
    trivial, trivial⟩).1⟩
  change _ ↔ name ∈ ((ModuleRegistry.new.modules.insert "module_b" _).insert "module_a" _)
  simp [ModuleRegistry.new, Finmap.notMem_empty, or_comm]

end App

end ModuleRegistry

end Backbone.Core
