import G9OS.Kernel.Proc

/-! # Shared memory regions (`shm.c`)

`shm_open` and `shm_close` hold `shm_lock` throughout, so each is one step.
-/

namespace G9OS.Kernel

def ShmRegion.setRefcount (x : ShmRegion) (n : Int) : ShmRegion := { x with refcount := n }

def State.setRegion (s : State) (r : Fin SHM_SLOTS) (x : ShmRegion) : State :=
  { s with shmTable := Function.update s.shmTable r x }

def regionSlot (s : State) (key : Int) : Option (Fin SHM_SLOTS) :=
  Fin.find? fun r => decide ((s.shmTable r).key = key)

def attachSlot (p : Proc) (key : Int) : Option (Fin PROC_SHM_SLOTS) :=
  Fin.find? fun i => decide ((p.shm i).key = key)

/-- `npages` of `shm_open`: `(size + PGSIZE - 1) / PGSIZE` in `int`, clamped. -/
def shmPages (size : Int) : Int := min (Int.tdiv (int32 (size + PGSIZE - 1)) PGSIZE) SHM_MAXPGS

variable [Link]

/-- `kfree` of `pages[k]`, `pages[k + 1]`, ... for `n` pages. -/
def kfreePages (pages : Nat → PA) : Nat → Nat → Kmem → Except Panic Kmem
  | 0, _, m => .ok m
  | n + 1, k, m => do
      let m ← kfree (pages k) m
      kfreePages pages n (k + 1) m

/-- Allocate `n` more pages from index `j` on; a failure frees the `j` pages
taken so far. The Boolean tells whether all pages were allocated. -/
def shmAllocPages : Nat → Nat → (Nat → PA) → Kmem → Except Panic (Bool × (Nat → PA) × Kmem)
  | 0, _, pages, m => .ok (true, pages, m)
  | n + 1, j, pages, m =>
      match kalloc m with
      | (none, m) => do
          let m ← kfreePages pages j 0 m
          .ok (false, pages, m)
      | (some pa, m) => shmAllocPages n (j + 1) (Function.update pages j pa) m

/-- Find the region with this key or create it; `none` is the failure of `shm_open`. -/
def shmGet (s : State) (key size : Int) : Except Panic (Option (Fin SHM_SLOTS) × State) :=
  match regionSlot s key with
  | some r => .ok (some r, s)
  | none =>
      match regionSlot s 0 with
      | none => .ok (none, s)
      | some r => do
          let (ok, pages, m) ←
            shmAllocPages (shmPages size).toNat 0 (s.shmTable r).pages s.kmem
          .ok (if ok then some r else none, (s.setKmem m).setRegion r
            { key := if ok then key else 0, npages := shmPages size, pages := pages
              refcount := 0 })

def shmMapLoop (pages : Nat → PA) (uva : Nat) :
    Nat → Nat → PageTable → Kmem → Except Panic (Bool × Nat × PageTable × Kmem)
  | 0, i, pt, m => .ok (true, i, pt, m)
  | n + 1, i, pt, m => do
      let (ok, pt, m) ← mappages pt (addU64 uva (i * PGSIZE)) PGSIZE (pages i) permRWU m
      if ok then shmMapLoop pages uva n (i + 1) pt m else .ok (false, i, pt, m)

def attached (s : State) (p : Fin NPROC) (pslot : Fin PROC_SHM_SLOTS) (r : Fin SHM_SLOTS)
    (a : ShmAttach) (sz : Nat) : State :=
  (s.modProc p fun q => { q with sz := sz, shm := Function.update q.shm pslot a }).setRegion r
    ((s.shmTable r).setRefcount (int32 ((s.shmTable r).refcount + 1)))

/-- The second half of `shm_open`: attach `p` to region `r`. -/
def shmAttach (s : State) (p : Fin NPROC) (r : Fin SHM_SLOTS) (key : Int) :
    Except Panic (Nat × State) :=
  match attachSlot (s.proc p) key with
  | some i => .ok (((s.proc p).shm i).uva, s)
  | none =>
      match attachSlot (s.proc p) 0 with
      | none => .ok (MINUS1, s)
      | some pslot =>
          let npages := (s.shmTable r).npages
          let uva := pgroundup (s.proc p).sz
          let mapSize := toU64 npages * PGSIZE % 2 ^ 64
          if TRAPFRAME < addU64 uva mapSize then .ok (MINUS1, s)
          else
            match (s.proc p).pagetable with
            | none => .error .nullPointer
            | some pt => do
                let (ok, i, pt, m) ←
                  shmMapLoop (s.shmTable r).pages uva npages.toNat 0 pt s.kmem
                if ok then
                  .ok (uva,
                    attached (s.setSpace p pt m) p pslot r ⟨key, uva, npages⟩ (addU64 uva mapSize))
                else
                  let (pt, m) ← uvmunmap pt uva i false m
                  .ok (MINUS1, s.setSpace p pt m)

def shmOpen (s : State) (p : Fin NPROC) (key size : Int) : Except Panic (Nat × State) :=
  if key ≤ 0 ∨ size ≤ 0 then .ok (MINUS1, s)
  else do
    match ← shmGet s key size with
    | (none, s) => .ok (MINUS1, s)
    | (some r, s) => shmAttach s p r key

def shmRelease (s : State) (r : Fin SHM_SLOTS) : Except Panic State :=
  let slot := s.shmTable r
  if int32 (slot.refcount - 1) ≤ 0 then do
    let m ← kfreePages slot.pages slot.npages.toNat 0 s.kmem
    .ok ((s.setKmem m).setRegion r { slot with key := 0, npages := 0, refcount := 0 })
  else .ok (s.setRegion r (slot.setRefcount (int32 (slot.refcount - 1))))

def dropAttach (pslot : Fin PROC_SHM_SLOTS) (p : Proc) : Proc :=
  { p with shm := Function.update p.shm pslot {} }

def shmClose (s : State) (p : Fin NPROC) (key : Int) : Except Panic (Int × State) :=
  if key ≤ 0 then .ok (-1, s)
  else
    match attachSlot (s.proc p) key with
    | none => .ok (-1, s)
    | some pslot =>
        match regionSlot s key with
        | none => .ok (-1, s)
        | some r =>
            match (s.proc p).pagetable with
            | none => .error .nullPointer
            | some pt => do
                let a := (s.proc p).shm pslot
                let (pt, m) ← uvmunmap pt a.uva (toU64 a.npages) false s.kmem
                let s ← shmRelease ((s.setSpace p pt m).modProc p (dropAttach pslot)) r
                .ok (0, s)

end G9OS.Kernel
