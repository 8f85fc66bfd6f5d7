import G9OS.Kernel.PageTable

/-! # User memory (`vm.c`: uvmalloc, uvmdealloc, uvmfree, uvmcopy, vmfault, copyout)

The operations on whole address spaces, and the per-process page-table
constructors of `proc.c` that they serve.
-/

namespace G9OS.Kernel

variable [Link]

def permRWU : Perm := { w := true, u := true }

/-- Number of turns of a loop `for (a = lo; a < hi; a += PGSIZE)`. -/
def pagesBetween (lo hi : Nat) : Nat := (hi - lo + PGSIZE - 1) / PGSIZE

/-- `uvmdealloc`'s `int npages`, converted back to the `uint64` parameter. -/
def deallocPages (oldsz newsz : Nat) : Nat :=
  toU64 (int32 (((pgroundup oldsz - pgroundup newsz) / PGSIZE : Nat) : Int))

/-- `uvmdealloc`: the new size with the shrunken table. -/
def uvmdealloc (pt : PageTable) (oldsz newsz : Nat) (m : Kmem) :
    Except Panic (Nat × PageTable × Kmem) :=
  if newsz ≥ oldsz then .ok (oldsz, pt, m)
  else if pgroundup newsz < pgroundup oldsz then do
    let (pt, m) ← uvmunmap pt (pgroundup newsz) (deallocPages oldsz newsz) true m
    .ok (newsz, pt, m)
  else .ok (newsz, pt, m)

/-- The loop of `uvmalloc`; `base` is the rounded old size that an allocation
failure shrinks back to. -/
def uvmallocLoop (perm : Perm) (base newsz : Nat) :
    Nat → PageTable → Nat → Kmem → Except Panic (Nat × PageTable × Kmem)
  | 0, pt, _, m => .ok (newsz, pt, m)
  | n + 1, pt, a, m =>
      match kalloc m with
      | (none, m) => do
          let (_, pt, m) ← uvmdealloc pt a base m
          .ok (0, pt, m)
      | (some mem, m) => do
          let (ok, pt, m) ← mappages pt a PGSIZE mem perm m
          if ok then uvmallocLoop perm base newsz n pt (a + PGSIZE) m
          else do
            let m ← kfree mem m
            let (_, pt, m) ← uvmdealloc pt a base m
            .ok (0, pt, m)

/-- `uvmalloc`: the new size, or 0 on failure. -/
def uvmalloc (pt : PageTable) (oldsz newsz : Nat) (xperm : Perm) (m : Kmem) :
    Except Panic (Nat × PageTable × Kmem) :=
  if newsz < oldsz then .ok (oldsz, pt, m)
  else
    uvmallocLoop { xperm with r := true, u := true } (pgroundup oldsz) newsz
      (pagesBetween (pgroundup oldsz) newsz) pt (pgroundup oldsz) m

def uvmfree (pt : PageTable) (sz : Nat) (m : Kmem) : Except Panic Kmem := do
  let (pt, m) ← (if 0 < sz then uvmunmap pt 0 (pgroundup sz / PGSIZE) true m else .ok (pt, m))
  freewalk pt m

/-- The loop of `uvmcopy` from address `i`; on failure the pages copied so far
are unmapped and freed. -/
def uvmcopyLoop (old : PageTable) :
    Nat → PageTable → Nat → Kmem → Except Panic (Bool × PageTable × Kmem)
  | 0, new, _, m => .ok (true, new, m)
  | n + 1, new, i, m => do
      match (← walk old i false m).1 with
      | some (some e) =>
          match kalloc m with
          | (none, m) =>
              let (new, m) ← uvmunmap new 0 (i / PGSIZE) true m
              .ok (false, new, m)
          | (some mem, m) =>
              let (ok, new, m) ← mappages new i PGSIZE mem e.perm m
              if ok then uvmcopyLoop old n new (i + PGSIZE) m
              else
                let m ← kfree mem m
                let (new, m) ← uvmunmap new 0 (i / PGSIZE) true m
                .ok (false, new, m)
      | _ => uvmcopyLoop old n new (i + PGSIZE) m

def uvmcopy (old new : PageTable) (sz : Nat) (m : Kmem) :
    Except Panic (Bool × PageTable × Kmem) :=
  uvmcopyLoop old (pagesBetween 0 sz) new 0 m

/-- `uvmclear`: take `PTE_U` away from one page. -/
def uvmclear (pt : PageTable) (va : Nat) (m : Kmem) : Except Panic PageTable := do
  match (← walk pt va false m).1 with
  | none => .error .uvmclear
  | some none => .ok pt
  | some (some e) => .ok (pt.store va (some { e with perm := { e.perm with u := false } }))

def ismapped (pt : PageTable) (va : Nat) (m : Kmem) : Except Panic Bool := do
  match (← walk pt va false m).1 with
  | some (some _) => .ok true
  | _ => .ok false

/-- `vmfault` for a process of size `sz` with page table `own`, asked to fault
`va` into `pt`. The new page always goes into the process's own table. -/
def vmfault (sz : Nat) (own pt : PageTable) (va : Nat) (m : Kmem) :
    Except Panic (Option PA × PageTable × Kmem) :=
  if sz ≤ va then .ok (none, own, m)
  else do
    if ← ismapped pt (pgrounddown va) m then .ok (none, own, m)
    else
      match kalloc m with
      | (none, m) => .ok (none, own, m)
      | (some mem, m) =>
          let (ok, own, m) ← mappages own (pgrounddown va) PGSIZE mem permRWU m
          if ok then .ok (some mem, own, m)
          else
            let m ← kfree mem m
            .ok (none, own, m)

/-- The loop of `copyout` over the pages of the target range. With `other` set
the target is that page table, as in `kexec`; otherwise it is the process's own.
The bytes themselves are not modelled. -/
def copyoutLoop (sz : Nat) (other : Option PageTable) :
    Nat → PageTable → Nat → Nat → Kmem → Except Panic (Bool × PageTable × Kmem)
  | 0, own, _, _, m => .ok (true, own, m)
  | n + 1, own, dstva, len, m =>
      if len = 0 then .ok (true, own, m)
      else if MAXVA ≤ pgrounddown dstva then .ok (false, own, m)
      else do
        let pa0 ← walkaddr (other.getD own) (pgrounddown dstva) m
        let (pa0, own, m) ← (match pa0 with
          | some pa => .ok (some pa, own, m)
          | none => vmfault sz own (other.getD own) (pgrounddown dstva) m)
        match pa0 with
        | none => .ok (false, own, m)
        | some _ =>
            match (← walk (other.getD own) (pgrounddown dstva) false m).1 with
            | some (some e) =>
                if e.perm.w then
                  copyoutLoop sz other n own (pgrounddown dstva + PGSIZE)
                    (len - (PGSIZE - (dstva - pgrounddown dstva))) m
                else .ok (false, own, m)
            | some none => .ok (false, own, m)
            | none => .error .nullPointer

/-- `copyout` of `len` bytes to `dstva`: whether it succeeded. A turn copies at
least one byte, so `len` turns are enough. -/
def copyout (sz : Nat) (own : PageTable) (other : Option PageTable) (dstva len : Nat) (m : Kmem) :
    Except Panic (Bool × PageTable × Kmem) :=
  copyoutLoop sz other len own dstva len m

/-- `proc_pagetable`: an empty user page table with the trampoline and the
trapframe page mapped, or `none` for 0. -/
def procPagetable (trapframe : PA) (m : Kmem) : Except Panic (Option PageTable × Kmem) :=
  match uvmcreate m with
  | (none, m) => .ok (none, m)
  | (some pt, m) => do
      let (ok, pt, m) ← mappages pt TRAMPOLINE PGSIZE Link.trampoline { x := true } m
      if ok then
        let (ok, pt, m) ← mappages pt TRAPFRAME PGSIZE trapframe { w := true } m
        if ok then .ok (some pt, m)
        else
          let (pt, m) ← uvmunmap pt TRAMPOLINE 1 false m
          let m ← uvmfree pt 0 m
          .ok (none, m)
      else
        let m ← uvmfree pt 0 m
        .ok (none, m)

def procFreepagetable (pt : PageTable) (sz : Nat) (m : Kmem) : Except Panic Kmem := do
  let (pt, m) ← uvmunmap pt TRAMPOLINE 1 false m
  let (pt, m) ← uvmunmap pt TRAPFRAME 1 false m
  uvmfree pt sz m

end G9OS.Kernel
