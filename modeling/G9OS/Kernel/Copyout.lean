import G9OS.Kernel.ProcSteps

/-! # The bytes that copyout moves

`copyout` again, with the bytes it copies: each turn of its loop moves the part of the
source that fits on one page. Without the bytes it is the function of `Kernel.Vm`.
-/

namespace G9OS.Kernel

open Lib

/-- The bytes that a call has copied to user memory, as its `memmove`s wrote them, each with the
user address it went to. -/
abbrev Copied : Type := List (Nat × List UInt8)

def Copied.bytes (c : Copied) : List UInt8 := c.flatMap fun x => x.2

/-- The `n` bytes of a number in memory, low byte first. -/
def leBytes (n x : Nat) : List UInt8 := (List.range n).map fun k => UInt8.ofNat (x / 256 ^ k)

def uintBytes (x : Nat) : List UInt8 := leBytes 4 x

def intBytes (x : Int) : List UInt8 := leBytes 4 (x % 2 ^ 32).toNat

@[simp] theorem leBytes_length (n x : Nat) : (leBytes n x).length = n := by simp [leBytes]

@[simp] theorem uintBytes_length (x : Nat) : (uintBytes x).length = 4 := leBytes_length _ _

@[simp] theorem intBytes_length (x : Int) : (intBytes x).length = 4 := leBytes_length _ _

variable [Link]

/-- The page at `va0` for a turn of `copyout`, faulted in if need be: whether it can be written. -/
def copyoutPage (sz : Nat) (own : PageTable) (va0 : Nat) (m : Kmem) :
    Except Panic (Bool × PageTable × Kmem) := do
  let pa0 ← walkaddr own va0 m
  let (pa0, own, m) ← (match pa0 with
    | some pa => .ok (some pa, own, m)
    | none => vmfault sz own own va0 m)
  match pa0 with
  | none => .ok (false, own, m)
  | some _ =>
      match (← walk own va0 false m).1 with
      | some (some e) => .ok (e.perm.w, own, m)
      | some none => .ok (false, own, m)
      | none => .error .nullPointer

/-- The loop of `copyout` over the pages of the target range. -/
def copyoutBytesLoop (sz : Nat) :
    Nat → PageTable → Nat → List UInt8 → Kmem → Except Panic (Bool × Copied × PageTable × Kmem)
  | 0, own, _, _, m => .ok (true, [], own, m)
  | n + 1, own, dstva, src, m =>
      if src.length = 0 then .ok (true, [], own, m)
      else if MAXVA ≤ pgrounddown dstva then .ok (false, [], own, m)
      else do
        let (ok, own, m) ← copyoutPage sz own (pgrounddown dstva) m
        if ok then
          let fits := PGSIZE - (dstva - pgrounddown dstva)
          let (ok, copied, own, m) ←
            copyoutBytesLoop sz n own (pgrounddown dstva + PGSIZE) (src.drop fits) m
          .ok (ok, (dstva, src.take fits) :: copied, own, m)
        else .ok (false, [], own, m)

/-- `copyout` of the bytes `src` to address `dstva` of process `p`. -/
def copyoutTo (s : State) (p : Fin NPROC) (dstva : Nat) (src : List UInt8) :
    Except Panic (Bool × Copied × State) :=
  match (s.proc p).pagetable with
  | none => .error .nullPointer
  | some own => do
      let (ok, copied, own, m) ← copyoutBytesLoop (s.proc p).sz src.length own dstva src s.kmem
      .ok (ok, copied, s.setSpace p own m)

def dropCopied {α β : Type} (x : α × Copied × β) : α × β := (x.1, x.2.2)

variable {sz : Nat}

theorem copyoutLoop_succ (n : Nat) (own : PageTable) (dstva len : Nat) (m : Kmem)
    (hlen : len ≠ 0) (hlt : ¬ MAXVA ≤ pgrounddown dstva) :
    copyoutLoop sz none (n + 1) own dstva len m = (do
      let (ok, own, m) ← copyoutPage sz own (pgrounddown dstva) m
      if ok then
        copyoutLoop sz none n own (pgrounddown dstva + PGSIZE)
          (len - (PGSIZE - (dstva - pgrounddown dstva))) m
      else .ok (false, own, m)) := by
  rw [copyoutLoop, if_neg hlen, if_neg hlt, copyoutPage]
  simp only [Option.getD_none, bind_assoc]
  congr 1
  funext pa0
  congr 1
  funext x
  obtain ⟨pa, own1, m1⟩ := x
  cases pa with
  | none => rfl
  | some pa =>
      dsimp only
      rw [bind_assoc]
      congr 1
      funext y
      obtain ⟨e, -, -⟩ := y
      rcases e with - | - | e
      · rfl
      · rfl
      · rfl

/-- Without its bytes the loop is the one of `Kernel.Vm`. -/
theorem copyoutBytesLoop_forget (sz n : Nat) (own : PageTable) (dstva : Nat) (src : List UInt8)
    (m : Kmem) : (copyoutBytesLoop sz n own dstva src m).map dropCopied =
      copyoutLoop sz none n own dstva src.length m := by
  induction n generalizing own dstva src m with
  | zero => rfl
  | succ n ih =>
      by_cases hlen : src.length = 0
      · rw [copyoutBytesLoop, copyoutLoop, if_pos hlen, if_pos hlen]
        rfl
      by_cases hlt : MAXVA ≤ pgrounddown dstva
      · rw [copyoutBytesLoop, copyoutLoop, if_neg hlen, if_pos hlt, if_neg hlen, if_pos hlt]
        rfl
      rw [copyoutBytesLoop, if_neg hlen, if_neg hlt, copyoutLoop_succ n own dstva _ m hlen hlt]
      cases copyoutPage sz own (pgrounddown dstva) m with
      | error e => rfl
      | ok x =>
          obtain ⟨ok, own1, m1⟩ := x
          cases ok with
          | false => rfl
          | true =>
              have hrest := ih own1 (pgrounddown dstva + PGSIZE)
                (src.drop (PGSIZE - (dstva - pgrounddown dstva))) m1
              rw [List.length_drop] at hrest
              simp only [ok_bind, if_true]
              rw [← hrest]
              cases copyoutBytesLoop sz n own1 (pgrounddown dstva + PGSIZE)
                (src.drop (PGSIZE - (dstva - pgrounddown dstva))) m1 with
              | error e => rfl
              | ok y => rfl

omit [Link] in
theorem sub_pgrounddown_lt (a : Nat) : a - pgrounddown a < PGSIZE := by
  unfold pgrounddown
  norm_num
  omega

theorem copyoutBytesLoop_bytes {n dstva : Nat} {own own' : PageTable} {src : List UInt8}
    {m m' : Kmem} {copied : Copied} (hn : src.length ≤ n)
    (h : copyoutBytesLoop sz n own dstva src m = .ok (true, copied, own', m')) :
    copied.bytes = src := by
  induction n generalizing own dstva src m copied with
  | zero =>
      cases h
      exact (List.length_eq_zero_iff.1 (Nat.le_zero.1 hn)).symm
  | succ n ih =>
      unfold copyoutBytesLoop at h
      split at h
      · rename_i hlen
        cases h
        exact (List.length_eq_zero_iff.1 hlen).symm
      split at h
      · cases h
      obtain ⟨⟨ok, own1, m1⟩, -, h⟩ := bind_ok.1 h
      cases ok with
      | false => cases h
      | true =>
          obtain ⟨⟨ok, rest, own2, m2⟩, hl, h⟩ := bind_ok.1 h
          cases h
          have hlt := sub_pgrounddown_lt dstva
          have hrest := ih (by rw [List.length_drop]; omega) hl
          show _ ++ rest.bytes = src
          rw [hrest, List.take_append_drop]

end G9OS.Kernel
