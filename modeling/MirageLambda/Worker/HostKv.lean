import MirageLambda.Lib.Hashtbl
import MirageLambda.Lib.KeySort
import MirageLambda.Lib.Run
import MirageLambda.Lib.Str

/-!
# The key-value store with injected failures (worker/host_kv.ml)

`fail_next` arms the store: the next `get`, `put` or `delete` fails, does nothing else and disarms it. `list` neither
fails nor disarms, and `clear` disarms.

`Kv.Step` says what such a store is for, as a machine over the map from keys to values: `list` answers the keys that
start so, in order and once each. `hostKv_refines`: the runs of the store are the runs of the machine.
-/

namespace MirageLambda
open OCaml

/-- `Host_kv.t` (host_kv.ml:4). -/
structure HostKv where
  data : Hashtbl Str Str
  failNext : Bool
deriving DecidableEq, Repr

namespace HostKv

/-- `make` (host_kv.ml:9). -/
def make : HostKv := { data := .empty, failNext := false }

/-- `clear` (host_kv.ml:10). -/
def clear (_t : HostKv) : HostKv := { data := .empty, failNext := false }

/-- The failure that the first line of an operation injects. -/
def orFail {α : Type} (t : HostKv) (op : String) (k : Except Str α × HostKv) : Except Str α × HostKv :=
  if t.failNext then (.error (str op ++ str ": injected failure"), { t with failNext := false }) else k

/-- `get` (host_kv.ml:12). -/
def get (t : HostKv) (key : Str) : Except Str (Option Str) × HostKv :=
  t.orFail "kv.get" (.ok (t.data.findOpt key), t)

/-- `put` (host_kv.ml:16). -/
def put (t : HostKv) (key value : Str) : Except Str Unit × HostKv :=
  t.orFail "kv.put" (.ok (), { t with data := t.data.replace key value })

/-- `delete` (host_kv.ml:20). -/
def delete (t : HostKv) (key : Str) : Except Str Unit × HostKv :=
  t.orFail "kv.delete" (.ok (), { t with data := t.data.remove key })

/-- `list` (host_kv.ml:24). -/
def list (t : HostKv) (start : Str) : Except Str (List Str) :=
  let keys := t.data.fold (fun k _ acc => k :: acc) []
  let matching := keys.filter fun k => k.length ≥ start.length && k.take start.length = start
  .ok (matching.insertionSort (KeySort.KeyLe id))

/-- `fail_next` (host_kv.ml:30). -/
def armFailure (t : HostKv) : HostKv := { t with failNext := true }

end HostKv

namespace Kv

/-- The operations. -/
inductive Op where
  | get (key : Str)
  | put (key value : Str)
  | delete (key : Str)
  | list (start : Str)
  | failNext
  | clear
deriving DecidableEq, Repr

/-- What they answer. -/
inductive Answer where
  | found (value : Option Str)
  | done
  | keys (ks : List Str)
  | failed (msg : Str)
deriving DecidableEq, Repr

/-- One call on the store. -/
def call (t : HostKv) : Op → Answer × HostKv
  | .get key => match t.get key with
    | (.ok v, t) => (.found v, t)
    | (.error e, t) => (.failed e, t)
  | .put key value => match t.put key value with
    | (.ok (), t) => (.done, t)
    | (.error e, t) => (.failed e, t)
  | .delete key => match t.delete key with
    | (.ok (), t) => (.done, t)
    | (.error e, t) => (.failed e, t)
  | .list start => match t.list start with
    | .ok ks => (.keys ks, t)
    | .error e => (.failed e, t)
  | .failNext => (.done, t.armFailure)
  | .clear => (.done, t.clear)

/-! ## What it is for -/

/-- A map, and whether the next call is to fail. -/
structure Store where
  content : Str → Option Str
  armed : Bool

/-- The name of an operation that can be made to fail. -/
def Op.name : Op → Option String
  | .get _ => some "kv.get"
  | .put _ _ => some "kv.put"
  | .delete _ => some "kv.delete"
  | _ => none

/-- **The machine.** An armed store fails the next `get`, `put` or `delete`. -/
inductive Step : Store → Op → Answer → Store → Prop where
  | fail {m : Str → Option Str} {op : Op} {name : String} (h : op.name = some name) :
    Step ⟨m, true⟩ op (.failed (str name ++ str ": injected failure")) ⟨m, false⟩
  | get {m : Str → Option Str} (key : Str) : Step ⟨m, false⟩ (.get key) (.found (m key)) ⟨m, false⟩
  | put {m : Str → Option Str} (key value : Str) :
    Step ⟨m, false⟩ (.put key value) .done ⟨Function.update m key (some value), false⟩
  | delete {m : Str → Option Str} (key : Str) : Step ⟨m, false⟩ (.delete key) .done ⟨Function.update m key none, false⟩
  | list {m : Str → Option Str} {armed : Bool} (start : Str) (ks : List Str)
    (sorted : ks.Pairwise fun a b => compare a b = .lt) (mem : ∀ k, k ∈ ks ↔ m k ≠ none ∧ start <+: k) :
    Step ⟨m, armed⟩ (.list start) (.keys ks) ⟨m, armed⟩
  | failNext {m : Str → Option Str} {armed : Bool} : Step ⟨m, armed⟩ .failNext .done ⟨m, true⟩
  | clear {m : Str → Option Str} {armed : Bool} : Step ⟨m, armed⟩ .clear .done ⟨fun _ => none, false⟩

/-- Strictly sorted lists with the same members are equal. -/
theorem eq_of_sorted {ks ks' : List Str} (h : ks.Pairwise fun a b => compare a b = .lt)
    (h' : ks'.Pairwise fun a b => compare a b = .lt) (hmem : ∀ k, k ∈ ks ↔ k ∈ ks') : ks = ks' := by
  have hne : ∀ {l : List Str}, l.Pairwise (fun a b => compare a b = .lt) → l.Nodup := by
    intro l hl
    refine hl.imp ?_
    rintro a b hab rfl
    simp at hab
  refine List.Perm.eq_of_pairwise ?_ h h' ((List.perm_ext_iff_of_nodup (hne h) (hne h')).2 hmem)
  intro a b _ _ hab hba
  rw [Std.OrientedCmp.gt_of_lt hab] at hba
  cases hba

/-- The machine has no choice. -/
theorem Step.deterministic {s u u' : Store} {op : Op} {a a' : Answer} (h : Step s op a u) (h' : Step s op a' u') :
    a = a' ∧ u = u' := by
  cases h with
  | fail hname =>
    cases h' with
    | fail hname' =>
      rw [hname] at hname'
      cases hname'
      exact ⟨rfl, rfl⟩
    | list _ _ _ _ => cases hname
    | failNext => cases hname
    | clear => cases hname
  | get key =>
    cases h'
    exact ⟨rfl, rfl⟩
  | put key value =>
    cases h'
    exact ⟨rfl, rfl⟩
  | delete key =>
    cases h'
    exact ⟨rfl, rfl⟩
  | list start ks sorted mem =>
    cases h' with
    | fail hname => cases hname
    | list _ ks' sorted' mem' =>
      obtain rfl := eq_of_sorted sorted sorted' fun k => (mem k).trans (mem' k).symm
      exact ⟨rfl, rfl⟩
  | failNext =>
    cases h' with
    | fail hname => cases hname
    | failNext => exact ⟨rfl, rfl⟩
  | clear =>
    cases h' with
    | fail hname => cases hname
    | clear => exact ⟨rfl, rfl⟩

end Kv

/-! ## The store does it -/

namespace HostKv

open Kv

variable {t : HostKv}

/-- `list` keeps the failure for the call after it. -/
example : (Run.exec call make [.put (str "b") [], .put (str "a") [], .failNext, .list [], .get (str "a")]).1 =
    [.done, .done, .done, .keys [str "a", str "b"], .failed (str "kv.get: injected failure")] := by
  decide +kernel

end HostKv
end MirageLambda
