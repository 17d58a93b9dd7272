import ThreadingKnowHows.Framework.ReadWrite

/-!
# The configuration map

`Config` of `02_cpp11_threads/02_mutex/07_shared_mutex.cpp`: a map from keys to
strings behind a shared mutex, with any threads that call `set` and `get`. A `set`
creates the element, if there is none, and then assigns to it; a `get` copies the
string character by character.
-/

namespace TKH.Config

variable {τ K : Type}

/-- An operation, with its arguments. -/
inductive Op (K : Type)
  | set (k : K) (v : List Char)
  | get (k : K)
  deriving DecidableEq

/-- What `get` returns. -/
abbrev Ret := Option (List Char)

inductive Pc (K : Type)
  | out
  | lock (k : K) (v : List Char)
  /-- `kv_[k]` -/
  | insert (k : K) (v : List Char)
  | assign (k : K) (v : List Char)
  | unlock (k : K) (v : List Char)
  | lockShared (k : K)
  | find (k : K)
  | copy (k : K) (copied : List Char)
  | unlockShared (k : K) (result : List Char)
  | returned (op : Op K) (r : Ret)
  deriving DecidableEq

/-- `kv_` -/
abbrev Map (K : Type) := K → Option (List Char)

def code [DecidableEq K] : Pc K → ReadWrite.Cmd (Map K) (Pc K) (Op K × Ret)
  | .out => .ext fun
    | .lock _ _ | .lockShared _ => true
    | _ => false
  | .lock k v => .lock (.insert k v)
  | .insert k v => .write fun kv => (if kv k = none then Function.update kv k (some []) else kv, .assign k v, none)
  | .assign k v => .write fun kv => (Function.update kv k (some v), .unlock k v, some (.set k v, none))
  | .unlock k v => .unlock (.returned (.set k v) none)
  | .lockShared k => .lockShared (.find k)
  | .find k => .read fun kv => match kv k with
    | some _ => (.copy k [], none)
    | none => (.unlockShared k [], some (.get k, some []))
  | .copy k copied => .read fun kv => match ((kv k).getD [])[copied.length]? with
    | some c => (.copy k (copied ++ [c]), none)
    | none => (.unlockShared k copied, some (.get k, some copied))
  | .unlockShared k r => .unlockShared (.returned (.get k) (some r))
  | .returned _ _ => .ext fun
    | .out => true
    | _ => false

def config (τ K : Type) [DecidableEq K] : ReadWrite.Program τ (Map K) (Pc K) (Op K × Ret) where
  code _ := code
  entry _ := .out
  init _ := none

end TKH.Config
