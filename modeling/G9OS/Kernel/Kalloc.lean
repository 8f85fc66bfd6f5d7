import G9OS.Kernel.Layout

/-! # The physical page allocator (`kalloc.c`)

The free list is kept as the list of its page addresses, head first. The
contents of pages are not modelled: no function below branches on them.
-/

namespace G9OS.Kernel

/-- `kmem.freelist`. -/
abbrev Kmem := List PA

/-- Addresses that `kfree` accepts. -/
def PageOk [Link] (pa : PA) : Prop := pa % PGSIZE = 0 ∧ Link.kend ≤ pa ∧ pa < PHYSTOP

instance [Link] (pa : PA) : Decidable (PageOk pa) := inferInstanceAs (Decidable (_ ∧ _ ∧ _))

def kalloc : Kmem → Option PA × Kmem
  | [] => (none, [])
  | r :: rest => (some r, rest)

def kfree [Link] (pa : PA) (m : Kmem) : Except Panic Kmem :=
  if PageOk pa then .ok (pa :: m) else .error .kfree

/-- The loop of `freerange` over the next `n` pages from `p` on. -/
def freerangeLoop [Link] : Nat → PA → Kmem → Except Panic Kmem
  | 0, _, m => .ok m
  | n + 1, p, m => do
      let m ← kfree p m
      freerangeLoop n (p + PGSIZE) m

/-- `freerange`: the loop runs while a whole page is left below `paEnd`. -/
def freerange [Link] (paStart paEnd : PA) : Except Panic Kmem :=
  freerangeLoop ((paEnd - pgroundup paStart) / PGSIZE) (pgroundup paStart) []

def kinit [Link] : Except Panic Kmem := freerange Link.kend PHYSTOP

end G9OS.Kernel
