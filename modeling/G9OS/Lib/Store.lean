import Mathlib

/-! # A store of locked blocks

What a block cache shows to its users: each block has contents, a copy on the disk, and at most one
user that has it locked and may change it.
-/

namespace G9OS.Lib

@[ext]
structure Store (U K D : Type) where
  mem : K → D
  disk : K → D
  lock : K → Option U

inductive StoreAct (U K D : Type)
  | lock (u : U) (k : K)
  | write (u : U) (k : K) (d : D)
  | flush (u : U) (k : K)
  | unlock (u : U) (k : K)

inductive Store.Step {U K D : Type} [DecidableEq K] :
    Store U K D → StoreAct U K D → Store U K D → Prop
  | lock {s : Store U K D} {u : U} {k : K} (h : s.lock k = none) :
      Step s (.lock u k) { s with lock := Function.update s.lock k (some u) }
  | write {s : Store U K D} {u : U} {k : K} {d : D} (h : s.lock k = some u) :
      Step s (.write u k d) { s with mem := Function.update s.mem k d }
  | flush {s : Store U K D} {u : U} {k : K} (h : s.lock k = some u) :
      Step s (.flush u k) { s with disk := Function.update s.disk k (s.mem k) }
  | unlock {s : Store U K D} {u : U} {k : K} (h : s.lock k = some u) :
      Step s (.unlock u k) { s with lock := Function.update s.lock k none }

end G9OS.Lib
