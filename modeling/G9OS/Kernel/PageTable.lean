import G9OS.Kernel.Kalloc

/-! # Three-level page tables (`vm.c`: walk, mappages, uvmunmap, freewalk)

A page-table page is reached through one parent entry only, so a user page
table is kept as a tree: each node carries the physical page it occupies and
512 entries, invalid entries being `none`. The tree is what `walk` descends and
`freewalk` tears down; the pages of its nodes come from and go back to `kalloc`.
-/

namespace G9OS.Kernel

/-- The permission bits of a leaf entry. Every leaf the kernel creates has
`PTE_R`, which is how `freewalk` tells leaves from inner entries. -/
structure Perm where
  r : Bool := true
  w : Bool := false
  x : Bool := false
  u : Bool := false
deriving DecidableEq, Repr

/-- A valid leaf entry. -/
structure Pte where
  pa : PA
  perm : Perm
deriving DecidableEq, Repr

structure Node (α : Type) where
  page : PA
  entry : Fin 512 → Option α

/-- A level-2 table: the `pagetable_t` of a process. -/
abbrev PageTable := Node (Node (Node Pte))

variable {α : Type}

def Node.empty (page : PA) : Node α := ⟨page, fun _ => none⟩

def Node.set (t : Node α) (i : Fin 512) (e : Option α) : Node α :=
  { t with entry := Function.update t.entry i e }

/-- One turn of the loop of `walk`: follow entry `i`, or allocate the missing
table there when `alloc` is set. -/
def Node.descend (t : Node (Node α)) (i : Fin 512) (alloc : Bool) (m : Kmem) :
    Option (Node α) × Node (Node α) × Kmem :=
  match t.entry i with
  | some c => (some c, t, m)
  | none =>
      if alloc then
        match kalloc m with
        | (none, m) => (none, t, m)
        | (some page, m) => (some (Node.empty page), t.set i (some (Node.empty page)), m)
      else (none, t, m)

/-- `walk`. The first component is `none` for a null result, and otherwise the
contents of the entry pointed at. Tables allocated on the way stay in the tree
even when a later allocation fails. -/
def walk (pt : PageTable) (va : Nat) (alloc : Bool) (m : Kmem) :
    Except Panic (Option (Option Pte) × PageTable × Kmem) :=
  if MAXVA ≤ va then .error .walk
  else
    match pt.descend (px 2 va) alloc m with
    | (none, pt, m) => .ok (none, pt, m)
    | (some l1, pt, m) =>
        match l1.descend (px 1 va) alloc m with
        | (none, l1, m) => .ok (none, pt.set (px 2 va) (some l1), m)
        | (some l0, l1, m) =>
            .ok (some (l0.entry (px 0 va)), pt.set (px 2 va) (some l1), m)

/-- Assign through the pointer that `walk` returned for `va`. -/
def Node.store (pt : PageTable) (va : Nat) (e : Option Pte) : PageTable :=
  match pt.entry (px 2 va) with
  | none => pt
  | some l1 =>
      match l1.entry (px 1 va) with
      | none => pt
      | some l0 => pt.set (px 2 va) (some (l1.set (px 1 va) (some (l0.set (px 0 va) e))))

/-- `walkaddr`: the physical page of a user mapping, or `none` for 0. -/
def walkaddr (pt : PageTable) (va : Nat) (m : Kmem) : Except Panic (Option PA) :=
  if MAXVA ≤ va then .ok none
  else do
    match (← walk pt va false m).1 with
    | some (some e) => .ok (if e.perm.u then some e.pa else none)
    | _ => .ok none

def mappagesLoop (perm : Perm) :
    Nat → PageTable → Nat → PA → Kmem → Except Panic (Bool × PageTable × Kmem)
  | 0, pt, _, _, m => .ok (true, pt, m)
  | n + 1, pt, a, pa, m => do
      let (pte, pt, m) ← walk pt a true m
      match pte with
      | none => .ok (false, pt, m)
      | some (some _) => .error .mappagesRemap
      | some none => mappagesLoop perm n (pt.store a (some ⟨pa, perm⟩)) (a + PGSIZE) (pa + PGSIZE) m

/-- `mappages`: the Boolean tells a 0 result from -1. -/
def mappages (pt : PageTable) (va size : Nat) (pa : PA) (perm : Perm) (m : Kmem) :
    Except Panic (Bool × PageTable × Kmem) :=
  if va % PGSIZE ≠ 0 then .error .mappagesVa
  else if size % PGSIZE ≠ 0 then .error .mappagesSize
  else if size = 0 then .error .mappagesEmpty
  else mappagesLoop perm (size / PGSIZE) pt va pa m

def uvmunmapLoop [Link] (doFree : Bool) :
    Nat → PageTable → Nat → Kmem → Except Panic (PageTable × Kmem)
  | 0, pt, _, m => .ok (pt, m)
  | n + 1, pt, a, m => do
      match (← walk pt a false m).1 with
      | some (some e) =>
          let m ← (if doFree then kfree e.pa m else .ok m)
          uvmunmapLoop doFree n (pt.store a none) (a + PGSIZE) m
      | _ => uvmunmapLoop doFree n pt (a + PGSIZE) m

/-- `uvmunmap`. The loop bound is the `uint64` sum `va + npages * PGSIZE`, so a
range that wraps around is empty. -/
def uvmunmap [Link] (pt : PageTable) (va npages : Nat) (doFree : Bool) (m : Kmem) :
    Except Panic (PageTable × Kmem) :=
  if va % PGSIZE ≠ 0 then .error .uvmunmap
  else uvmunmapLoop doFree ((addU64 va (npages * PGSIZE) - va) / PGSIZE) pt va m

def freeEntries (free : α → Kmem → Except Panic Kmem) (t : Node α) :
    List (Fin 512) → Kmem → Except Panic Kmem
  | [], m => .ok m
  | i :: is, m => do
      let m ← (match t.entry i with
        | some c => free c m
        | none => .ok m)
      freeEntries free t is m

def Node.freewalk [Link] (free : α → Kmem → Except Panic Kmem) (t : Node α) (m : Kmem) :
    Except Panic Kmem := do
  let m ← freeEntries free t (List.finRange 512) m
  kfree t.page m

/-- `freewalk`: a valid entry of a level-0 table is a leaf that should be gone. -/
def freewalk [Link] (pt : PageTable) (m : Kmem) : Except Panic Kmem :=
  Node.freewalk (Node.freewalk (Node.freewalk fun _ _ => .error .freewalkLeaf)) pt m

def uvmcreate (m : Kmem) : Option PageTable × Kmem :=
  match kalloc m with
  | (none, m) => (none, m)
  | (some page, m) => (some (Node.empty page), m)

end G9OS.Kernel
