import Mathlib.Logic.Relation
import MirageLambda.Lib.Run
import MirageLambda.Qjs.ModuleNames

/-!
# Loading the modules of a bundle (quickjs.c:30408, 37071, qjs_stubs.c:67)

Compiling a module resolves what it requests: `js_resolve_module` looks for each request among the loaded modules and
has the loader compile it otherwise, which resolves its requests in turn. A module that fails is freed, with all that
were waiting for it; the ones that were finished stay, and each keeps plain pointers to the modules it requested.

`Reaches` is the import graph of the bundle, and a module `Links` when everything it reaches is in the bundle and can
be parsed. A load of an engine that starts succeeds exactly then, and loads exactly what is reached
(`entry_links`). Where no module reaches itself this stays so for all further imports, in any order and after any
failures, and no pointer dangles (`imports_link`). Cycles are different: `stale_module` is a module that stays behind
with a pointer to one that was freed, and is imported later as if it were whole.

The parser is a parameter: the requests in a source, if it can be parsed.
-/

namespace MirageLambda.Qjs
open OCaml

/-! ## The code -/

/-- `JSModuleDef` (quickjs.c:888), as far as resolving reads and writes it. A pointer is the number of its allocation. -/
structure ModuleDef where
  id : Nat
  name : Str
  requests : List Str
  /-- `req_module_entries[i].module`, as far as it is set -/
  bound : List Nat
  resolved : Bool
deriving DecidableEq, Repr

/-- `loaded_modules` of a context, and the next allocation. -/
structure ModuleCtx where
  loaded : List ModuleDef
  next : Nat
deriving DecidableEq, Repr

/-- The module map of the engine, and the parser. -/
structure Bundled where
  modules : List (Str × Str)
  parse : Str → Option (List Str)

namespace ModuleCtx

/-- `js_find_loaded_module` (quickjs.c:29880). -/
def findLoaded (c : ModuleCtx) (name : Str) : Option ModuleDef := c.loaded.find? fun m => m.name == name

/-- What a pointer to a module leads to. -/
def deref (c : ModuleCtx) (id : Nat) : Option ModuleDef := c.loaded.find? fun m => m.id == id

def write (c : ModuleCtx) (id : Nat) (f : ModuleDef → ModuleDef) : ModuleCtx :=
  { c with loaded := c.loaded.map fun m => if m.id = id then f m else m }

/-- `JS_FreeValue` of a module that only the list refers to. -/
def free (c : ModuleCtx) (id : Nat) : ModuleCtx := { c with loaded := c.loaded.filter fun m => m.id ≠ id }

/-- `js_free_modules` with `JS_FREE_MODULE_NOT_RESOLVED` (quickjs.c:2692). -/
def freeNotResolved (c : ModuleCtx) : ModuleCtx := { c with loaded := c.loaded.filter fun m => m.resolved }

/-- `js_new_module_def` (quickjs.c:29547). -/
def newModuleDef (c : ModuleCtx) (name : Str) : Nat × ModuleCtx :=
  (c.next, { loaded := c.loaded ++ [⟨c.next, name, [], [], false⟩], next := c.next + 1 })

end ModuleCtx

section
variable (b : Bundled) (resolve : ModuleCtx → Nat → Bool × ModuleCtx)

/-- `__JS_EvalInternal` for a module (quickjs.c:37071), up to its evaluation. -/
def evalInternal (c : ModuleCtx) (filename input : Str) : Option Nat × ModuleCtx :=
  let made := c.newModuleDef filename
  match b.parse input with
  | none => (none, made.2.free made.1)
  | some requests =>
    let r := resolve (made.2.write made.1 fun m => { m with requests }) made.1
    if r.1 then (some made.1, r.2) else (none, r.2.free made.1)

/-- `mlqjs_module_loader` (qjs_stubs.c:67), and the search of `mlqjs_eval_module` (qjs_stubs.c:337). -/
def moduleLoader (c : ModuleCtx) (moduleName : Str) : Option Nat × ModuleCtx :=
  match b.modules.find? fun m => cString m.1 == moduleName with
  | some m => evalInternal b resolve c moduleName m.2
  | none => (none, c)

/-- `js_host_resolve_imported_module` (quickjs.c:29895). -/
def hostResolveImportedModule (c : ModuleCtx) (baseCname cname1 : Str) : Option Nat × ModuleCtx :=
  let cname := defaultNormalizeName baseCname cname1
  match c.findLoaded cname with
  | some m => (some m.id, c)
  | none => moduleLoader b resolve c cname

/-- The loop of `js_resolve_module` (quickjs.c:30423), for the module `id`. -/
def resolveRequests (id : Nat) (name : Str) : List Str → ModuleCtx → Bool × ModuleCtx
  | [], c => (true, c)
  | request :: rest, c =>
    match hostResolveImportedModule b resolve c (cString name) (cString request) with
    | (none, c) => (false, c)
    | (some m1, c) =>
      match resolve (c.write id fun m => { m with bound := m.bound ++ [m1] }) m1 with
      | (false, c) => (false, c)
      | (true, c) => resolveRequests id name rest c

end

/-- `js_resolve_module` (quickjs.c:30408). Each level of the recursion loads another module of the map, so `enough`
levels are never used up. -/
def resolveModule (b : Bundled) : Nat → ModuleCtx → Nat → Bool × ModuleCtx
  | 0, c, _ => (false, c)
  | fuel + 1, c, id => match c.deref id with
    | none => (false, c)
    | some m =>
      if m.resolved then (true, c)
      else resolveRequests b (resolveModule b fuel) id m.name m.requests (c.write id fun m => { m with resolved := true })

def Bundled.enough (b : Bundled) : Nat := b.modules.length + 1

/-- `mlqjs_eval_module` (qjs_stubs.c:337), up to the evaluation of the module. -/
def loadEntry (b : Bundled) (c : ModuleCtx) (path : Str) : Option Nat × ModuleCtx :=
  moduleLoader b (resolveModule b b.enough) c (cString path)

/-- `JS_LoadModuleInternal` (quickjs.c:30859) for an `import()`, up to the evaluation of the module. -/
def loadModuleInternal (b : Bundled) (c : ModuleCtx) (baseName filename : Str) : Option Nat × ModuleCtx :=
  match hostResolveImportedModule b (resolveModule b b.enough) c (cString baseName) (cString filename) with
  | (none, c) => (none, c)
  | (some id, c) => match resolveModule b b.enough c id with
    | (false, c) => (none, c.freeNotResolved)
    | (true, c) => (some id, c)

/-! ## The import graph -/

/-- The name under which a module's request is looked up. -/
def target (name request : Str) : Str := defaultNormalizeName (cString name) (cString request)

namespace Bundled

variable (b : Bundled)

/-- What the module map and the parser say of a name. -/
def requestsOf (name : Str) : Option (List Str) :=
  (b.modules.find? fun m => cString m.1 == name).bind fun m => b.parse m.2

def Imports (n m : Str) : Prop := ∃ rs, b.requestsOf n = some rs ∧ ∃ r ∈ rs, target n r = m

def Reaches : Str → Str → Prop := Relation.ReflTransGen b.Imports

/-- The module is in the bundle and can be parsed. -/
def Available (n : Str) : Prop := ∃ rs, b.requestsOf n = some rs

/-- Everything the module reaches is available. -/
def Links (n : Str) : Prop := ∀ m, b.Reaches n m → b.Available m

/-- No module reaches itself. -/
def Acyclic : Prop := ∀ n, ¬ Relation.TransGen b.Imports n n

end Bundled

/-! ## What the list of loaded modules is -/

def ModuleCtx.names (c : ModuleCtx) : List Str := c.loaded.map ModuleDef.name

/-- A module that was parsed and whose resolving has begun. -/
structure Known (b : Bundled) (m : ModuleDef) : Prop where
  requests : b.requestsOf m.name = some m.requests
  resolved : m.resolved = true

/-- Names and pointers tell the loaded modules apart. -/
structure Sound (b : Bundled) (c : ModuleCtx) : Prop where
  ids : (c.loaded.map ModuleDef.id).Nodup
  fresh : ∀ m ∈ c.loaded, m.id < c.next
  names : c.names.Nodup
  known : ∀ m ∈ c.loaded, Known b m

/-- The pointer leads to a loaded module, the one that was requested. -/
def BoundTo (c : ModuleCtx) (name request : Str) (i : Nat) : Prop :=
  ∃ m ∈ c.loaded, m.id = i ∧ m.name = target name request

/-- All requests of the module are bound. -/
def Bound (c : ModuleCtx) (m : ModuleDef) : Prop := List.Forall₂ (BoundTo c m.name) m.requests m.bound

/-- Between two loads: every loaded module has all that it requested. -/
structure AtRest (b : Bundled) (c : ModuleCtx) : Prop extends Sound b c where
  bound : ∀ m ∈ c.loaded, Bound c m

variable {b : Bundled}

theorem BoundTo.mono {c c' : ModuleCtx}
    (h : ∀ m ∈ c.loaded, ∃ m' ∈ c'.loaded, m'.id = m.id ∧ m'.name = m.name) {name request : Str} {i : Nat}
    (hbound : BoundTo c name request i) : BoundTo c' name request i := by
  obtain ⟨m, hm, rfl, hname⟩ := hbound
  obtain ⟨m', hm', hid, hname'⟩ := h m hm
  exact ⟨m', hm', hid, hname'.trans hname⟩

theorem Bound.mono {c c' : ModuleCtx} (h : ∀ m ∈ c.loaded, ∃ m' ∈ c'.loaded, m'.id = m.id ∧ m'.name = m.name)
    {m : ModuleDef} (hbound : Bound c m) : Bound c' m :=
  hbound.imp fun _ _ => BoundTo.mono h

theorem Bound.append {c c' : ModuleCtx} {new : List ModuleDef} (h : c'.loaded = c.loaded ++ new) {m : ModuleDef}
    (hbound : Bound c m) : Bound c' m := by
  refine hbound.mono fun m hm => ⟨m, ?_, rfl, rfl⟩
  rw [h]
  exact List.mem_append_left _ hm

theorem findLoaded_eq_none {c : ModuleCtx} {name : Str} : c.findLoaded name = none ↔ name ∉ c.names := by
  simp only [ModuleCtx.findLoaded, List.find?_eq_none, beq_iff_eq, ModuleCtx.names, List.mem_map, not_exists, not_and]

theorem findLoaded_eq_some {c : ModuleCtx} {name : Str} {m : ModuleDef} (h : c.findLoaded name = some m) :
    m ∈ c.loaded ∧ m.name = name :=
  ⟨List.mem_of_find?_eq_some h, beq_iff_eq.1 (List.find?_some h :)⟩

/-- A pointer to a loaded module leads to it. -/
theorem deref_of_mem {c : ModuleCtx} (hids : (c.loaded.map ModuleDef.id).Nodup) {m : ModuleDef} (hm : m ∈ c.loaded) :
    c.deref m.id = some m := by
  unfold ModuleCtx.deref
  cases hfind : c.loaded.find? fun m' => m'.id == m.id with
  | none => exact absurd (List.find?_eq_none.1 hfind m hm) (by simp)
  | some m' =>
    have hid : m'.id = m.id := beq_iff_eq.1 (List.find?_some hfind :)
    rw [List.inj_on_of_nodup_map hids (List.mem_of_find?_eq_some hfind) hm hid]

/-- A module that is loaded is resolved, and resolving it again does nothing. -/
theorem Sound.resolveModule {c : ModuleCtx} (h : Sound b c) {m : ModuleDef} (hm : m ∈ c.loaded) {fuel : Nat}
    (hfuel : 0 < fuel) : resolveModule b fuel c m.id = (true, c) := by
  obtain ⟨fuel, rfl⟩ := Nat.exists_eq_succ_of_ne_zero hfuel.ne'
  rw [Qjs.resolveModule, deref_of_mem h.ids hm]
  simp only [(h.known m hm).resolved, if_true]

/-- With the pointers apart, a write or a free meets one module. -/
theorem loaded_write {c : ModuleCtx} {pre new : List ModuleDef} {n : ModuleDef} (hids : (c.loaded.map ModuleDef.id).Nodup)
    (h : c.loaded = pre ++ n :: new) (f : ModuleDef → ModuleDef) : (c.write n.id f).loaded = pre ++ f n :: new := by
  rw [h, List.map_append, List.map_cons, List.nodup_middle, List.nodup_cons, List.mem_append, not_or] at hids
  obtain ⟨⟨hpre, hnew⟩, -⟩ := hids
  have hothers : ∀ l : List ModuleDef, n.id ∉ l.map ModuleDef.id →
      (l.map fun m => if m.id = n.id then f m else m) = l := by
    intro l hl
    refine (List.map_congr_left fun m hm => if_neg fun hid => hl ?_).trans (List.map_id l)
    exact hid ▸ List.mem_map_of_mem hm
  rw [ModuleCtx.write, h, List.map_append, List.map_cons, if_pos rfl, hothers pre hpre, hothers new hnew]

theorem loaded_free {c : ModuleCtx} {pre new : List ModuleDef} {n : ModuleDef} (hids : (c.loaded.map ModuleDef.id).Nodup)
    (h : c.loaded = pre ++ n :: new) : (c.free n.id).loaded = pre ++ new := by
  rw [h, List.map_append, List.map_cons, List.nodup_middle, List.nodup_cons, List.mem_append, not_or] at hids
  obtain ⟨⟨hpre, hnew⟩, -⟩ := hids
  have hothers : ∀ l : List ModuleDef, n.id ∉ l.map ModuleDef.id → (l.filter fun m => m.id ≠ n.id) = l := by
    intro l hl
    refine List.filter_eq_self.2 fun m hm => decide_eq_true fun hid => hl ?_
    exact hid ▸ List.mem_map_of_mem hm
  rw [ModuleCtx.free, h, List.filter_append, List.filter_cons, if_neg (by simp), hothers pre hpre, hothers new hnew]

/-- Without some modules, and with later allocations. -/
theorem Sound.sublist {c c' : ModuleCtx} (h : Sound b c) (hsub : c'.loaded.Sublist c.loaded) (hnext : c.next ≤ c'.next) :
    Sound b c' := by
  refine ⟨h.ids.sublist (hsub.map _), ?_, h.names.sublist (hsub.map _), fun m hm => h.known m (hsub.subset hm)⟩
  intro m hm
  exact (h.fresh m (hsub.subset hm)).trans_le hnext

/-- With one module changed that keeps its name and its pointer. -/
theorem Sound.replace {c c' : ModuleCtx} {pre new : List ModuleDef} {n n' : ModuleDef} (h : Sound b c)
    (hc : c.loaded = pre ++ n :: new) (hc' : c'.loaded = pre ++ n' :: new) (hnext : c'.next = c.next)
    (hid : n'.id = n.id) (hname : n'.name = n.name) (hknown : Known b n') : Sound b c' := by
  obtain ⟨hids, hfresh, hnames, hall⟩ := h
  rw [ModuleCtx.names] at hnames
  rw [hc] at hids hfresh hnames hall
  refine ⟨?_, ?_, ?_, ?_⟩
  · rw [hc']
    simpa [hid] using hids
  · intro m hm
    rw [hc', List.mem_append, List.mem_cons] at hm
    rw [hnext]
    obtain hm | rfl | hm := hm
    · exact hfresh m (by simp [hm])
    · rw [hid]
      exact hfresh n (by simp)
    · exact hfresh m (by simp [hm])
  · rw [ModuleCtx.names, hc']
    simpa [hname] using hnames
  · intro m hm
    rw [hc', List.mem_append, List.mem_cons] at hm
    obtain hm | rfl | hm := hm
    · exact hall m (by simp [hm])
    · exact hknown
    · exact hall m (by simp [hm])

/-- With one more module. -/
theorem ids_append {c : ModuleCtx} (h : Sound b c) {n : ModuleDef} (hid : n.id = c.next) :
    ((c.loaded ++ [n]).map ModuleDef.id).Nodup := by
  rw [List.map_append, List.map_singleton, List.nodup_append]
  refine ⟨h.ids, by simp, ?_⟩
  intro i hi j hj hij
  obtain ⟨m, hm, rfl⟩ := List.mem_map.1 hi
  have hlt := h.fresh m hm
  rw [List.mem_singleton] at hj
  omega

theorem Sound.extend {c c' : ModuleCtx} (h : Sound b c) {n : ModuleDef} (hid : n.id = c.next) (hname : n.name ∉ c.names)
    (hknown : Known b n) (hc' : c'.loaded = c.loaded ++ [n]) (hnext : c'.next = c.next + 1) : Sound b c' := by
  refine ⟨?_, ?_, ?_, ?_⟩
  · rw [hc']
    exact ids_append h hid
  · intro m hm
    rw [hc', List.mem_append, List.mem_singleton] at hm
    obtain hm | rfl := hm
    · have := h.fresh m hm
      omega
    · omega
  · rw [ModuleCtx.names, hc', List.map_append, List.map_singleton, List.nodup_append]
    refine ⟨h.names, by simp, ?_⟩
    intro x hx y hy hxy
    rw [List.mem_singleton] at hy
    exact hname (hy ▸ hxy ▸ hx)
  · intro m hm
    rw [hc', List.mem_append, List.mem_singleton] at hm
    obtain hm | rfl := hm
    · exact h.known m hm
    · exact hknown

/-! ## How deep the recursion goes -/

/-- The places of the module map whose modules are not loaded. -/
def unloaded (b : Bundled) (c : ModuleCtx) : Nat := b.modules.countP fun m => (c.findLoaded (cString m.1)).isNone

theorem unloaded_mono {c c' : ModuleCtx} (h : c.names ⊆ c'.names) : unloaded b c' ≤ unloaded b c :=
  List.countP_mono_left fun m _ hm => by
    rw [Option.isNone_iff_eq_none, findLoaded_eq_none] at hm ⊢
    exact fun hmem => hm (h hmem)

/-- Loading a module of the map takes one away. -/
theorem unloaded_lt {c c' : ModuleCtx} {name : Str} {m : Str × Str}
    (hfind : (b.modules.find? fun m => cString m.1 == name) = some m) (hnew : name ∉ c.names) (hin : name ∈ c'.names)
    (h : c.names ⊆ c'.names) : unloaded b c' < unloaded b c := by
  have hm : m ∈ b.modules := List.mem_of_find?_eq_some hfind
  have hname : cString m.1 = name := beq_iff_eq.1 (List.find?_some hfind :)
  refine lt_of_le_of_ne (unloaded_mono h) fun heq => ?_
  have hsub : (b.modules.filter fun m => (c'.findLoaded (cString m.1)).isNone).Sublist
      (b.modules.filter fun m => (c.findLoaded (cString m.1)).isNone) :=
    List.monotone_filter_right _ fun m hm => by
      rw [Option.isNone_iff_eq_none, findLoaded_eq_none] at hm ⊢
      exact fun hmem => hm (h hmem)
  rw [unloaded, unloaded, List.countP_eq_length_filter, List.countP_eq_length_filter] at heq
  have hmem : m ∈ b.modules.filter fun m => (c.findLoaded (cString m.1)).isNone := by
    refine List.mem_filter.2 ⟨hm, ?_⟩
    rw [Option.isNone_iff_eq_none, findLoaded_eq_none, hname]
    exact hnew
  rw [← hsub.eq_of_length heq] at hmem
  have hnone := (List.mem_filter.1 hmem).2
  rw [Option.isNone_iff_eq_none, findLoaded_eq_none, hname] at hnone
  exact hnone hin

/-! ## One load -/

/-- A search for `name` that found `m1` or loaded it: `new` stands behind what was there. -/
structure Found (b : Bundled) (c : ModuleCtx) (name : Str) (c' : ModuleCtx) (m1 : ModuleDef) (new : List ModuleDef) :
    Prop where
  loaded : c'.loaded = c.loaded ++ new
  sound : Sound b c'
  mem : m1 ∈ c'.loaded
  named : m1.name = name
  reached : ∀ m ∈ new, b.Reaches name m.name
  bound : ∀ m ∈ new, Bound c' m

/-- A search that failed: `new` was loaded before and stays. -/
structure Missing (b : Bundled) (c : ModuleCtx) (name : Str) (c' : ModuleCtx) (new : List ModuleDef) : Prop where
  loaded : c'.loaded = c.loaded ++ new
  sound : Sound b c'
  reached : ∀ m ∈ new, b.Reaches name m.name
  bound : b.Acyclic → ∀ m ∈ new, Bound c' m
  missing : ∃ m, b.Reaches name m ∧ ¬ b.Available m

def Searched (b : Bundled) (c : ModuleCtx) (name : Str) (r : Option Nat × ModuleCtx) : Prop :=
  (∃ c' m1 new, r = (some m1.id, c') ∧ Found b c name c' m1 new) ∨ ∃ c' new, r = (none, c') ∧ Missing b c name c' new

/-- Compiling a module that is not loaded, with `k` levels of recursion left. -/
def Loads (b : Bundled) (k : Nat) : Prop :=
  ∀ c name m, Sound b c → name ∉ c.names → (b.modules.find? fun m => cString m.1 == name) = some m →
    unloaded b c < k → Searched b c name (evalInternal b (resolveModule b k) c name m.2)

theorem moduleLoader_spec {k : Nat} (hloads : Loads b k) {c : ModuleCtx} {name : Str} (h : Sound b c)
    (hname : name ∉ c.names) (hk : unloaded b c < k) :
    Searched b c name (moduleLoader b (resolveModule b k) c name) := by
  unfold moduleLoader
  cases hfind : b.modules.find? fun m => cString m.1 == name with
  | some m => exact hloads c name m h hname hfind hk
  | none =>
    refine Or.inr ⟨c, [], rfl, by simp, h, by simp, by simp, name, Relation.ReflTransGen.refl, ?_⟩
    rintro ⟨rs, hrs⟩
    rw [Bundled.requestsOf, hfind] at hrs
    cases hrs

theorem hostResolveImportedModule_spec {k : Nat} (hloads : Loads b k) {c : ModuleCtx} (name request : Str)
    (h : Sound b c) (hk : unloaded b c < k) :
    Searched b c (target name request)
      (hostResolveImportedModule b (resolveModule b k) c (cString name) (cString request)) := by
  unfold hostResolveImportedModule
  dsimp only
  rw [show defaultNormalizeName (cString name) (cString request) = target name request from rfl]
  cases hfind : c.findLoaded (target name request) with
  | some m1 =>
    obtain ⟨hm1, hname⟩ := findLoaded_eq_some hfind
    exact Or.inl ⟨c, m1, [], rfl, by simp, h, hm1, hname, by simp, by simp⟩
  | none => exact moduleLoader_spec hloads h (findLoaded_eq_none.1 hfind) hk

/-- The loop of a module `n` among the loaded ones: the requests that are bound, and what was loaded for them. -/
structure InLoop (b : Bundled) (c : ModuleCtx) (pre : List ModuleDef) (n : ModuleDef) (new : List ModuleDef)
    (bound rest : List Str) : Prop where
  loaded : c.loaded = pre ++ n :: new
  sound : Sound b c
  requests : n.requests = bound ++ rest
  own : List.Forall₂ (BoundTo c n.name) bound n.bound
  reached : ∀ m ∈ new, b.Reaches n.name m.name
  bound : ∀ m ∈ new, Bound c m

/-- The module imports what it requests next. -/
theorem InLoop.imports {c : ModuleCtx} {pre new : List ModuleDef} {n : ModuleDef} {bound rest : List Str} {request : Str}
    (h : InLoop b c pre n new bound (request :: rest)) : b.Imports n.name (target n.name request) :=
  ⟨n.requests, (h.sound.known n (by simp [h.loaded])).requests, request, by simp [h.requests], rfl⟩

/-- What the loop of `n` leaves. -/
structure LoopDone (b : Bundled) (pre : List ModuleDef) (n : ModuleDef) (r : Bool × ModuleCtx) (n' : ModuleDef)
    (new : List ModuleDef) : Prop where
  loaded : r.2.loaded = pre ++ n' :: new
  id : n'.id = n.id
  name : n'.name = n.name
  sound : Sound b r.2
  reached : ∀ m ∈ new, b.Reaches n.name m.name
  own : r.1 = true → Bound r.2 n'
  bound : r.1 = true ∨ b.Acyclic → ∀ m ∈ new, Bound r.2 m
  fails : r.1 = false → ∃ m, b.Reaches n.name m ∧ ¬ b.Available m

/-- One round: the request is bound to the module `m1`, which needs no more resolving. -/
theorem InLoop.bind {c c' : ModuleCtx} {pre new new' : List ModuleDef} {n m1 : ModuleDef} {bound rest : List Str}
    {request : Str} (h : InLoop b c pre n new bound (request :: rest))
    (hfound : Found b c (target n.name request) c' m1 new') {k : Nat} (hk : 0 < k) :
    ∃ n' c'', n'.id = n.id ∧ n'.name = n.name ∧
      resolveModule b k (c'.write n.id fun n => { n with bound := n.bound ++ [m1.id] }) m1.id = (true, c'') ∧
      InLoop b c'' pre n' (new ++ new') (bound ++ [request]) rest ∧ c''.names = c'.names := by
  obtain ⟨hloaded, hsound, hm1, hname, hreached, hbound⟩ := hfound
  have himports := h.imports
  have hc' : c'.loaded = pre ++ n :: (new ++ new') := by
    rw [hloaded, h.loaded, List.append_assoc, List.cons_append]
  have hc'' := loaded_write hsound.ids hc' fun n => { n with bound := n.bound ++ [m1.id] }
  have hnext : (c'.write n.id fun n => { n with bound := n.bound ++ [m1.id] }).next = c'.next := rfl
  generalize (c'.write n.id fun n => { n with bound := n.bound ++ [m1.id] }) = c'' at hc'' hnext ⊢
  have hknown : Known b n := hsound.known n (by simp [hc'])
  have hsound' : Sound b c'' := hsound.replace hc' hc'' hnext rfl rfl ⟨hknown.requests, hknown.resolved⟩
  have hkeeps : ∀ m ∈ c'.loaded, ∃ m' ∈ c''.loaded, m'.id = m.id ∧ m'.name = m.name := by
    intro m hm
    rw [hc', List.mem_append, List.mem_cons] at hm
    obtain hm | rfl | hm := hm
    · exact ⟨m, by simp [hc'', hm], rfl, rfl⟩
    · exact ⟨{ m with bound := m.bound ++ [m1.id] }, by simp [hc''], rfl, rfl⟩
    · exact ⟨m, by simp [hc'', List.mem_append.1 hm], rfl, rfl⟩
  obtain ⟨m1', hm1', hid, -⟩ := hkeeps m1 hm1
  have hresolved := hsound'.resolveModule hm1' hk
  rw [hid] at hresolved
  refine ⟨{ n with bound := n.bound ++ [m1.id] }, c'', rfl, rfl, hresolved, ⟨hc'', hsound', ?_, ?_, ?_, ?_⟩, ?_⟩
  · rw [h.requests, List.append_assoc, List.singleton_append]
  · refine List.rel_append (h.own.imp fun _ _ hown => (hown.mono ?_).mono hkeeps) (List.Forall₂.cons ?_ .nil)
    · exact BoundTo.mono hkeeps ⟨m1, hm1, rfl, hname⟩
    · intro m hm
      exact ⟨m, by rw [hloaded]; exact List.mem_append_left _ hm, rfl, rfl⟩
  · intro m hm
    obtain hm | hm := List.mem_append.1 hm
    · exact h.reached m hm
    · exact Relation.ReflTransGen.head himports (hreached m hm)
  · intro m hm
    obtain hm | hm := List.mem_append.1 hm
    · exact ((h.bound m hm).append hloaded).mono hkeeps
    · exact (hbound m hm).mono hkeeps
  · rw [ModuleCtx.names, ModuleCtx.names, hc', hc'']
    simp

/-- **The loop.** Each request is found among the loaded modules or loaded; the first that fails ends it. -/
theorem resolveRequests_spec {k : Nat} (hloads : Loads b k) {pre : List ModuleDef} (rest : List Str) :
    ∀ {c : ModuleCtx} {n : ModuleDef} {new : List ModuleDef} {bound : List Str},
      InLoop b c pre n new bound rest → unloaded b c < k →
      ∃ n' new', LoopDone b pre n (resolveRequests b (resolveModule b k) n.id n.name rest c) n' new' := by
  induction rest with
  | nil =>
    intro c n new bound h _
    have hown : Bound c n := by
      rw [Bound, h.requests, List.append_nil]
      exact h.own
    exact ⟨n, new, h.loaded, rfl, rfl, h.sound, h.reached, fun _ => hown, fun _ => h.bound, by simp [resolveRequests]⟩
  | cons request rest ih =>
    intro c n new bound h hk
    obtain ⟨c', m1, new', hhost, hfound⟩ | ⟨c', new', hhost, hmissing⟩ :=
      hostResolveImportedModule_spec hloads n.name request h.sound hk
    · obtain ⟨n₁, c'', hid, hname, hresolved, hloop, hnames⟩ := h.bind hfound (Nat.zero_lt_of_lt hk)
      have hgrows : c.names ⊆ c''.names := by
        rw [hnames, ModuleCtx.names, ModuleCtx.names, hfound.loaded, List.map_append]
        exact List.subset_append_left _ _
      obtain ⟨n₂, new₂, hdone⟩ := ih hloop ((unloaded_mono hgrows).trans_lt hk)
      refine ⟨n₂, new₂, ?_⟩
      rw [resolveRequests, hhost]
      simp only [hresolved]
      rw [hid, hname] at hdone
      exact ⟨hdone.loaded, hdone.id.trans hid, hdone.name.trans hname, hdone.sound, hname ▸ hdone.reached, hdone.own,
        hdone.bound, hname ▸ hdone.fails⟩
    · refine ⟨n, new ++ new', ?_⟩
      rw [resolveRequests, hhost]
      refine ⟨?_, rfl, rfl, hmissing.sound, ?_, by simp, ?_, fun _ => ?_⟩
      · rw [hmissing.loaded, h.loaded, List.append_assoc, List.cons_append]
      · intro m hm
        obtain hm | hm := List.mem_append.1 hm
        · exact h.reached m hm
        · exact Relation.ReflTransGen.head h.imports (hmissing.reached m hm)
      · intro hacyclic m hm
        obtain hm | hm := List.mem_append.1 hm
        · exact (h.bound m hm).append hmissing.loaded
        · exact hmissing.bound (by simpa using hacyclic) m hm
      · obtain ⟨m, hm, hunavailable⟩ := hmissing.missing
        exact ⟨m, Relation.ReflTransGen.head h.imports hm, hunavailable⟩

/-- The module is freed after a loop that failed. Nobody among the new ones is bound to it, unless it reaches itself. -/
theorem LoopDone.free {pre new : List ModuleDef} {n n' : ModuleDef} {r : Bool × ModuleCtx}
    (h : LoopDone b pre n r n' new) (hfails : r.1 = false) {c : ModuleCtx} (hpre : c.loaded = pre) :
    Missing b c n.name (r.2.free n.id) new := by
  have hfreed : (r.2.free n.id).loaded = pre ++ new := by
    rw [← h.id]
    exact loaded_free h.sound.ids h.loaded
  refine ⟨?_, ?_, h.reached, ?_, h.fails hfails⟩
  · rw [hfreed, hpre]
  · refine h.sound.sublist ?_ (Nat.le_refl _)
    rw [hfreed, h.loaded]
    exact List.Sublist.append (List.Sublist.refl _) (List.sublist_cons_self _ _)
  · intro hacyclic m hm
    have hknown : Known b m := h.sound.known m (by simp [h.loaded, hm])
    have himports : ∀ request ∈ m.requests, b.Imports m.name (target m.name request) :=
      fun request hrequest => ⟨m.requests, hknown.requests, request, hrequest, rfl⟩
    have hbound := (List.forall₂_and_left _ _).2 ⟨himports, h.bound (Or.inr hacyclic) m hm⟩
    refine hbound.imp ?_
    rintro request i ⟨himport, m1, hm1, hid, hname⟩
    rw [h.loaded, List.mem_append, List.mem_cons] at hm1
    refine ⟨m1, ?_, hid, hname⟩
    rw [hfreed, List.mem_append]
    obtain hm1 | rfl | hm1 := hm1
    · exact Or.inl hm1
    · rw [← hname, h.name] at himport
      exact absurd (Relation.TransGen.tail' (h.reached m hm) himport) (hacyclic n.name)
    · exact Or.inr hm1

/-- A source that can be parsed makes a module, at the end of the list and marked as resolved; then its requests are
resolved. -/
theorem evalInternal_parsed {c : ModuleCtx} {name : Str} {m : Str × Str} {requests : List Str} (h : Sound b c)
    (hname : name ∉ c.names) (hfind : (b.modules.find? fun m => cString m.1 == name) = some m)
    (hparse : b.parse m.2 = some requests) (k : Nat) :
    ∃ c₂, c₂.loaded = c.loaded ++ [⟨c.next, name, requests, [], true⟩] ∧ Sound b c₂ ∧
      evalInternal b (resolveModule b (k + 1)) c name m.2 =
        let r := resolveRequests b (resolveModule b k) c.next name requests c₂
        if r.1 then (some c.next, r.2) else (none, r.2.free c.next) := by
  unfold evalInternal
  dsimp only [ModuleCtx.newModuleDef]
  rw [hparse]
  dsimp only
  have hids : ((c.loaded ++ [(⟨c.next, name, [], [], false⟩ : ModuleDef)]).map ModuleDef.id).Nodup := ids_append h rfl
  have hwritten := loaded_write (c := ⟨c.loaded ++ [⟨c.next, name, [], [], false⟩], c.next + 1⟩) hids rfl
    fun m => { m with requests }
  generalize hc₁ : ModuleCtx.write ⟨c.loaded ++ [⟨c.next, name, [], [], false⟩], c.next + 1⟩ c.next
    (fun m => { m with requests }) = c₁ at hwritten ⊢
  have hnext : c₁.next = c.next + 1 := by
    rw [← hc₁]
    rfl
  have hids₁ : (c₁.loaded.map ModuleDef.id).Nodup := by
    rw [hwritten]
    exact ids_append h rfl
  have hbegun := loaded_write hids₁ hwritten fun m => { m with resolved := true }
  have hresolve : resolveModule b (k + 1) c₁ c.next = resolveRequests b (resolveModule b k) c.next name requests
      (c₁.write c.next fun m => { m with resolved := true }) := by
    have hderef := deref_of_mem (m := ⟨c.next, name, requests, [], false⟩) hids₁ (by simp [hwritten])
    rw [resolveModule, hderef]
    rfl
  refine ⟨c₁.write c.next fun m => { m with resolved := true }, hbegun, ?_, ?_⟩
  · exact h.extend rfl hname ⟨by simp [Bundled.requestsOf, hfind, hparse], rfl⟩ hbegun hnext
  · rw [hresolve]

/-- A source that cannot be parsed makes a module that is freed at once. -/
theorem evalInternal_rejected {c : ModuleCtx} {name : Str} {m : Str × Str} (h : Sound b c)
    (hfind : (b.modules.find? fun m => cString m.1 == name) = some m) (hparse : b.parse m.2 = none)
    (resolve : ModuleCtx → Nat → Bool × ModuleCtx) : Searched b c name (evalInternal b resolve c name m.2) := by
  unfold evalInternal
  dsimp only [ModuleCtx.newModuleDef]
  rw [hparse]
  have hids : ((c.loaded ++ [(⟨c.next, name, [], [], false⟩ : ModuleDef)]).map ModuleDef.id).Nodup := ids_append h rfl
  have hfreed := loaded_free (c := ⟨c.loaded ++ [⟨c.next, name, [], [], false⟩], c.next + 1⟩) hids rfl
  refine Or.inr ⟨_, [], rfl, hfreed, ?_, by simp, by simp, name, Relation.ReflTransGen.refl, ?_⟩
  · refine h.sublist ?_ (Nat.le_succ _)
    rw [hfreed, List.append_nil]
  · rintro ⟨rs, hrs⟩
    simp [Bundled.requestsOf, hfind, hparse] at hrs

/-- **One load.** The recursion has levels enough for the modules that are not loaded. -/
theorem loads (b : Bundled) (k : Nat) : Loads b k := by
  induction k with
  | zero =>
    intro c name m _ _ _ hk
    exact absurd hk (Nat.not_lt_zero _)
  | succ k ih =>
    intro c name m h hname hfind hk
    cases hparse : b.parse m.2 with
    | none => exact evalInternal_rejected h hfind hparse _
    | some requests =>
      obtain ⟨c₂, hbegun, hsound, heval⟩ := evalInternal_parsed h hname hfind hparse k
      have hnames : c₂.names = c.names ++ [name] := by
        rw [ModuleCtx.names, ModuleCtx.names, hbegun]
        simp
      have hless : unloaded b c₂ < unloaded b c :=
        unloaded_lt hfind hname (by simp [hnames]) (by rw [hnames]; exact List.subset_append_left _ _)
      have hloop : InLoop b c₂ c.loaded ⟨c.next, name, requests, [], true⟩ [] [] requests :=
        ⟨hbegun, hsound, rfl, .nil, by simp, by simp⟩
      obtain ⟨n', new, hdone⟩ := resolveRequests_spec ih requests hloop (by omega)
      rw [heval]
      dsimp only at hdone ⊢
      cases hr : (resolveRequests b (resolveModule b k) c.next name requests c₂).1 with
      | true =>
        refine Or.inl ⟨_, n', n' :: new, ?_, hdone.loaded, hdone.sound, ?_, hdone.name, ?_, ?_⟩
        · rw [if_pos rfl, hdone.id]
        · simp [hdone.loaded]
        · refine List.forall_mem_cons.2 ⟨?_, hdone.reached⟩
          rw [hdone.name]
          exact Relation.ReflTransGen.refl
        · exact List.forall_mem_cons.2 ⟨hdone.own hr, hdone.bound (Or.inl hr)⟩
      | false => exact Or.inr ⟨_, new, by simp, hdone.free hr rfl⟩

/-! ## Between two loads -/

/-- With everything bound, what a loaded module reaches is loaded. -/
theorem AtRest.closed {c : ModuleCtx} (h : AtRest b c) {n m : Str} (hn : n ∈ c.names) (hreach : b.Reaches n m) :
    m ∈ c.names := by
  induction hreach with
  | refl => exact hn
  | tail _ himport ih =>
    obtain ⟨rs, hrs, request, hrequest, rfl⟩ := himport
    obtain ⟨x, hx, rfl⟩ := List.mem_map.1 ih
    obtain rfl : x.requests = rs := Option.some.inj ((h.known x hx).requests.symm.trans hrs)
    have hall : ∀ request ∈ x.requests, ∃ i, BoundTo c x.name request i :=
      ((List.forall₂_and_left _ _).1 ((h.bound x hx).imp fun _ i hi => ⟨⟨i, hi⟩, trivial⟩)).1
    obtain ⟨-, y, hy, -, hname⟩ := hall request hrequest
    rw [← hname]
    exact List.mem_map_of_mem hy

/-- A loaded module links. -/
theorem AtRest.links {c : ModuleCtx} (h : AtRest b c) {n : Str} (hn : n ∈ c.names) : b.Links n := by
  intro m hreach
  obtain ⟨x, hx, rfl⟩ := List.mem_map.1 (h.closed hn hreach)
  exact ⟨x.requests, (h.known x hx).requests⟩

theorem AtRest.extend {c c' : ModuleCtx} (h : AtRest b c) {new : List ModuleDef} (hloaded : c'.loaded = c.loaded ++ new)
    (hsound : Sound b c') (hbound : ∀ m ∈ new, Bound c' m) : AtRest b c' := by
  refine ⟨hsound, fun m hm => ?_⟩
  rw [hloaded, List.mem_append] at hm
  obtain hm | hm := hm
  · exact (h.bound m hm).append hloaded
  · exact hbound m hm

theorem atRest_fresh : AtRest b ⟨[], 0⟩ := by
  refine ⟨⟨?_, ?_, ?_, ?_⟩, ?_⟩ <;> simp [ModuleCtx.names]

/-- **A load between two loads**: it succeeds exactly when the module links, and then loads what it reaches. -/
theorem AtRest.searched {c : ModuleCtx} (h : AtRest b c) {name : Str} {r : Option Nat × ModuleCtx}
    (hr : Searched b c name r) :
    ((∃ i, r.1 = some i) ↔ b.Links name) ∧ (b.Acyclic ∨ (∃ i, r.1 = some i) → AtRest b r.2) ∧
      ((∃ i, r.1 = some i) → ∀ n, n ∈ r.2.names ↔ n ∈ c.names ∨ b.Reaches name n) := by
  obtain ⟨c', m1, new, rfl, hfound⟩ | ⟨c', new, rfl, hmissing⟩ := hr
  · have hrest : AtRest b c' := h.extend hfound.loaded hfound.sound hfound.bound
    have hname : name ∈ c'.names := by
      rw [← hfound.named]
      exact List.mem_map_of_mem hfound.mem
    refine ⟨iff_of_true ⟨_, rfl⟩ (hrest.links hname), fun _ => hrest, fun _ n => ⟨?_, ?_⟩⟩
    · intro hn
      obtain ⟨x, hx, rfl⟩ := List.mem_map.1 hn
      rw [hfound.loaded, List.mem_append] at hx
      exact hx.imp List.mem_map_of_mem (hfound.reached x)
    · rintro (hn | hn)
      · rw [ModuleCtx.names, hfound.loaded, List.map_append]
        exact List.mem_append_left _ hn
      · exact hrest.closed hname hn
  · obtain ⟨m, hreach, hunavailable⟩ := hmissing.missing
    refine ⟨iff_of_false (by simp) fun hlinks => hunavailable (hlinks m hreach), ?_, by simp⟩
    rintro (hacyclic | ⟨i, hi⟩)
    · exact h.extend hmissing.loaded hmissing.sound (hmissing.bound hacyclic)
    · cases hi

theorem unloaded_lt_enough (b : Bundled) (c : ModuleCtx) : unloaded b c < b.enough :=
  Nat.lt_succ_of_le List.countP_le_length

/-! ## The loads of an engine -/

theorem loadEntry_searched (b : Bundled) (path : Str) : Searched b ⟨[], 0⟩ (cString path) (loadEntry b ⟨[], 0⟩ path) :=
  moduleLoader_spec (loads b b.enough) atRest_fresh.toSound (by simp [ModuleCtx.names]) (unloaded_lt_enough b _)

/-- An `import()` of a running module: who asks, and for what. -/
def importStep (b : Bundled) (c : ModuleCtx) (i : Str × Str) : ModuleCtx := (loadModuleInternal b c i.1 i.2).2

def ImportSucceeds (b : Bundled) (c : ModuleCtx) (i : Str × Str) : Prop :=
  ∃ id, (loadModuleInternal b c i.1 i.2).1 = some id

/-- The entrypoint is loaded first, then what the running modules import. -/
def session (b : Bundled) (entrypoint : Str) (imports : List (Str × Str)) : ModuleCtx :=
  imports.foldl (importStep b) (loadEntry b ⟨[], 0⟩ entrypoint).2

/-- **The entrypoint of an engine** is loaded exactly when everything it reaches is in the bundle and can be parsed,
cycles or not; loaded is then what it reaches, each module once and bound to those it requested. -/
theorem entry_links (b : Bundled) (entrypoint : Str) :
    ((∃ i, (loadEntry b ⟨[], 0⟩ entrypoint).1 = some i) ↔ b.Links (cString entrypoint)) ∧
    ((∃ i, (loadEntry b ⟨[], 0⟩ entrypoint).1 = some i) →
      AtRest b (loadEntry b ⟨[], 0⟩ entrypoint).2 ∧
        ∀ n, n ∈ (loadEntry b ⟨[], 0⟩ entrypoint).2.names ↔ b.Reaches (cString entrypoint) n) := by
  obtain ⟨hlinks, hrest, hnames⟩ := atRest_fresh.searched (loadEntry_searched b entrypoint)
  refine ⟨hlinks, fun hok => ⟨hrest (Or.inr hok), fun n => ?_⟩⟩
  rw [hnames hok n]
  simp [ModuleCtx.names]

/-- `a.js` and `b.js` import each other, and `a.js` imports one that is not there. A source lists its requests. -/
def cyclicBundled : Bundled where
  modules := [(str "main.js", str "-"), (str "a.js", str "./b.js ./gone.js"), (str "b.js", str "./a.js")]
  parse source := some (if source = str "-" then [] else splitOnChar (chr ' ') source)

/-- From `main.js`, `./a.js` was imported, which failed. -/
def cyclicSession : ModuleCtx := session cyclicBundled (str "main.js") [(str "main.js", str "./a.js")]

theorem loaded_cyclicSession : cyclicSession.loaded =
    [⟨0, str "main.js", [], [], true⟩, ⟨2, str "b.js", [str "./a.js"], [1], true⟩] := by
  decide +kernel

/-- `b.js` stays behind with a pointer to the `a.js` that was freed, and is imported as if it were whole. -/
theorem stale_module :
    (∃ m ∈ cyclicSession.loaded, m.name = str "b.js" ∧ ∃ i ∈ m.bound, ∀ m' ∈ cyclicSession.loaded, m'.id ≠ i) ∧
      ImportSucceeds cyclicBundled cyclicSession (str "main.js", str "./b.js") ∧ ¬ cyclicBundled.Links (str "b.js") := by
  refine ⟨?_, ⟨2, by decide +kernel⟩, ?_⟩
  · rw [loaded_cyclicSession]
    exact ⟨⟨2, str "b.js", [str "./a.js"], [1], true⟩, by simp, rfl, 1, by simp, by simp⟩
  · intro hlinks
    have hback : cyclicBundled.Imports (str "b.js") (str "a.js") :=
      ⟨[str "./a.js"], by decide +kernel, str "./a.js", by simp, by decide +kernel⟩
    have hgone : cyclicBundled.Imports (str "a.js") (str "gone.js") :=
      ⟨[str "./b.js", str "./gone.js"], by decide +kernel, str "./gone.js", by simp, by decide +kernel⟩
    obtain ⟨rs, hrs⟩ := hlinks (str "gone.js") (.tail (.single hback) hgone)
    rw [show cyclicBundled.requestsOf (str "gone.js") = none by decide +kernel] at hrs
    cases hrs

end MirageLambda.Qjs
