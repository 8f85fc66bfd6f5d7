import G9OS.Kernel.Proc

/-! # Replacing a program (`exec.c`)

The file system is outside the model: what `kexec` reads from the file and the
lengths of the argument strings are its inputs. Building the new image and
committing to it are separate functions, in the order of the source.
-/

namespace G9OS.Kernel

/-- A program header as read from the file. `reads k` tells whether the `k`-th
page-sized read of the segment's contents is complete. -/
structure ProgHdr where
  ptype : Nat
  flags : Nat
  vaddr : Nat
  filesz : Nat
  memsz : Nat
  reads : Nat → Bool

/-- What `kexec` finds in the file: the ELF header, if it was read in full, and
the program headers, a short read being `none`. -/
structure ExecFile where
  elfRead : Bool
  magic : Nat
  phdrs : List (Option ProgHdr)

abbrev ELF_MAGIC : Nat := 0x464C457F
abbrev ELF_PROG_LOAD : Nat := 1

def flags2perm (flags : Nat) : Perm :=
  { x := flags % 2 = 1, w := flags / 2 % 2 = 1 }

def subU64 (a b : Nat) : Nat := (a + 2 ^ 64 - b % 2 ^ 64) % 2 ^ 64

variable [Link]

/-- `loadseg` from its `k`-th page on. -/
def loadsegLoop (pt : PageTable) (ph : ProgHdr) : Nat → Nat → Kmem → Except Panic Bool
  | 0, _, _ => .ok true
  | n + 1, k, m => do
      match ← walkaddr pt (addU64 ph.vaddr (k * PGSIZE)) m with
      | none => .error .loadseg
      | some _ => if ph.reads k then loadsegLoop pt ph n (k + 1) m else .ok false

def loadseg (pt : PageTable) (ph : ProgHdr) (m : Kmem) : Except Panic Bool :=
  loadsegLoop pt ph (pagesBetween 0 (ph.filesz % 2 ^ 32)) 0 m

/-- The loop of `kexec` over the program headers: whether it ended without
`goto bad`, with the table and the size reached. -/
def loadSegments : List (Option ProgHdr) → PageTable → Nat → Kmem →
    Except Panic (Bool × PageTable × Nat × Kmem)
  | [], pt, sz, m => .ok (true, pt, sz, m)
  | none :: _, pt, sz, m => .ok (false, pt, sz, m)
  | some ph :: rest, pt, sz, m =>
      if ph.ptype ≠ ELF_PROG_LOAD then loadSegments rest pt sz m
      else if ph.memsz < ph.filesz then .ok (false, pt, sz, m)
      else if addU64 ph.vaddr ph.memsz < ph.vaddr then .ok (false, pt, sz, m)
      else if ph.vaddr % PGSIZE ≠ 0 then .ok (false, pt, sz, m)
      else do
        let (sz1, pt, m) ← uvmalloc pt sz (addU64 ph.vaddr ph.memsz) (flags2perm ph.flags) m
        if sz1 = 0 then .ok (false, pt, sz, m)
        else if ← loadseg pt ph m then loadSegments rest pt sz1 m
        else .ok (false, pt, sz1, m)

/-- Copy `len` bytes below `sp`, kept 16-byte aligned and above `stackbase`, into
the image `pt`: the new stack pointer, or `none` for `goto bad`. -/
def pushBytes (psz : Nat) (pt : PageTable) (stackbase sp len : Nat) (own : PageTable) (m : Kmem) :
    Except Panic (Option Nat × PageTable × Kmem) :=
  let sp := subU64 sp len
  let sp := sp - sp % 16
  if sp < stackbase then .ok (none, own, m)
  else do
    let (ok, own, m) ← copyout psz own (some pt) sp len m
    .ok (if ok then some sp else none, own, m)

def pushArgs (psz : Nat) (pt : PageTable) (stackbase : Nat) :
    List Nat → Nat → Nat → PageTable → Kmem → Except Panic (Option Nat × PageTable × Kmem)
  | [], argc, sp, own, m => pushBytes psz pt stackbase sp ((argc + 1) * 8) own m
  | len :: rest, argc, sp, own, m =>
      if MAXARG ≤ argc then .ok (none, own, m)
      else do
        let (sp, own, m) ← pushBytes psz pt stackbase sp (len + 1) own m
        match sp with
        | none => .ok (none, own, m)
        | some sp => pushArgs psz pt stackbase rest (argc + 1) sp own m

def buildStack (pt : PageTable) (sz : Nat) (m : Kmem) :
    Except Panic (Bool × PageTable × Nat × Kmem) := do
  let sz := pgroundup sz
  let (sz1, pt, m) ← uvmalloc pt sz (addU64 sz ((USERSTACK + 1) * PGSIZE)) { w := true } m
  if sz1 = 0 then .ok (false, pt, sz, m)
  else
    let pt ← uvmclear pt (subU64 sz1 ((USERSTACK + 1) * PGSIZE)) m
    .ok (true, pt, sz1, m)

/-- `kexec` up to its commit, for a process of size `psz` with trapframe `tf` and
page table `own`: the new image with its size, or `none` once the partial image
has been freed. -/
def kexecImage (psz : Nat) (tf : PA) (file : Option ExecFile) (argv : List Nat)
    (own : PageTable) (m : Kmem) :
    Except Panic (Option (PageTable × Nat) × PageTable × Kmem) :=
  match file with
  | none => .ok (none, own, m)
  | some f =>
      if f.elfRead = false ∨ f.magic ≠ ELF_MAGIC then .ok (none, own, m)
      else do
        match ← procPagetable tf m with
        | (none, m) => .ok (none, own, m)
        | (some pt, m) =>
            let (ok, pt, sz, m) ← loadSegments f.phdrs pt 0 m
            if ok then
              let (ok, pt, sz, m) ← buildStack pt sz m
              if ok then
                let (sp, own, m) ←
                  pushArgs psz pt (subU64 sz (USERSTACK * PGSIZE)) argv 0 sz own m
                match sp with
                | some _ => .ok (some (pt, sz), own, m)
                | none =>
                    let m ← procFreepagetable pt sz m
                    .ok (none, own, m)
              else
                let m ← procFreepagetable pt sz m
                .ok (none, own, m)
            else
              let m ← procFreepagetable pt sz m
              .ok (none, own, m)

/-- `kexec`: the number of arguments, or -1. -/
def kexec (s : State) (p : Fin NPROC) (file : Option ExecFile) (argv : List Nat) (name : String) :
    Except Panic (Int × State) :=
  match (s.proc p).pagetable, (s.proc p).trapframe with
  | some own, some tf => do
      let (image, own, m) ← kexecImage (s.proc p).sz tf file argv own s.kmem
      match image with
      | none => .ok (-1, s.setSpace p own m)
      | some (pt, sz) =>
          let m ← procFreepagetable own (s.proc p).sz m
          .ok (argv.length, (s.setSpace p pt m).modProc p fun q => { q with sz := sz, name := name })
  | _, _ => .error .nullPointer

end G9OS.Kernel
