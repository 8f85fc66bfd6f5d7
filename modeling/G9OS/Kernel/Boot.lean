import G9OS.Kernel.System
import G9OS.Kernel.VmFacts

/-! # Booting

What `kinit` leaves on the free list, and a machine that runs can be replayed on.
-/

namespace G9OS.Kernel

open Lib

def pagesDown : Nat → PA → Kmem
  | 0, _ => []
  | n + 1, top => (top - PGSIZE) :: pagesDown n (top - PGSIZE)

theorem pagesDown_concat (n : Nat) (p : PA) :
    pagesDown (n + 1) (p + (n + 1) * PGSIZE) = pagesDown n (p + (n + 1) * PGSIZE) ++ [p] := by
  induction n generalizing p with
  | zero =>
      rw [Nat.zero_add, Nat.one_mul]
      show [p + PGSIZE - PGSIZE] = [p]
      rw [Nat.add_sub_cancel]
  | succ n ih =>
      have hstep : p + (n + 1 + 1) * PGSIZE - PGSIZE = p + (n + 1) * PGSIZE := by
        rw [Nat.succ_mul (n + 1), ← Nat.add_assoc, Nat.add_sub_cancel]
      rw [pagesDown, hstep, ih, pagesDown, hstep, List.cons_append]

section
variable [Link]

theorem freerangeLoop_eq (n : Nat) (p : PA) (m : Kmem) (hok : ∀ i < n, PageOk (p + i * PGSIZE)) :
    freerangeLoop n p m = .ok (pagesDown n (p + n * PGSIZE) ++ m) := by
  induction n generalizing p m with
  | zero => rfl
  | succ n ih =>
      have h0 : PageOk p := by
        have := hok 0 n.succ_pos
        rwa [Nat.zero_mul, Nat.add_zero] at this
      have hmove : ∀ i, p + PGSIZE + i * PGSIZE = p + (i + 1) * PGSIZE := fun i => by
        rw [Nat.succ_mul, Nat.add_assoc, Nat.add_comm PGSIZE]
      unfold freerangeLoop kfree
      rw [if_pos h0, ok_bind, ih]
      · rw [hmove, pagesDown_concat, List.append_assoc]
        rfl
      · intro i hi
        rw [hmove]
        exact hok (i + 1) (Nat.succ_lt_succ hi)

theorem kinit_eq (h : Link.kend ≤ PHYSTOP) :
    kinit = .ok (pagesDown ((PHYSTOP - pgroundup Link.kend) / PGSIZE) PHYSTOP) := by
  have h63 : Link.kend < 2 ^ 63 := lt_of_le_of_lt h (by decide)
  have hle := pgroundup_le h63
  have hal := pgroundup_aligned Link.kend
  have htop : pgroundup Link.kend ≤ PHYSTOP := pgroundup_le_of_le (by decide) (by decide) h
  have hend : pgroundup Link.kend + (PHYSTOP - pgroundup Link.kend) / PGSIZE * PGSIZE
      = PHYSTOP := by
    norm_num at hal htop ⊢
    omega
  unfold kinit freerange
  rw [freerangeLoop_eq, hend, List.append_nil]
  intro i hi
  refine ⟨?_, le_trans hle (Nat.le_add_right _ _), ?_⟩
  · rw [Nat.add_mul_mod_self_right, hal]
  · rw [← hend]
    exact Nat.add_lt_add_left (Nat.mul_lt_mul_of_pos_right hi (by decide)) _

theorem freerangeLoop_bootMemory {n : Nat} {p : PA} {m m' : Kmem} (hm : BootMemory m)
    (hlt : ∀ q ∈ m, q < p) (h : freerangeLoop n p m = .ok m') : BootMemory m' := by
  induction n generalizing p m with
  | zero => cases h; exact hm
  | succ n ih =>
      unfold freerangeLoop kfree at h
      rw [bind_ok] at h
      obtain ⟨m1, hf, h⟩ := h
      split at hf
      · rename_i hok
        cases hf
        refine ih ⟨List.nodup_cons.2 ⟨fun hp => lt_irrefl p (hlt p hp), hm.1⟩, ?_⟩ ?_ h
        · intro q hq
          rcases List.mem_cons.1 hq with rfl | hq
          · exact hok
          · exact hm.2 q hq
        · intro q hq
          rcases List.mem_cons.1 hq with rfl | hq
          · exact Nat.lt_add_of_pos_right (by decide)
          · exact lt_of_lt_of_le (hlt q hq) (Nat.le_add_right p PGSIZE)
      · cases hf

theorem kinit_bootMemory {m : Kmem} (h : kinit = .ok m) : BootMemory m :=
  freerangeLoop_bootMemory ⟨List.nodup_nil, fun _ hq => absurd hq List.not_mem_nil⟩
    (fun _ hq => absurd hq List.not_mem_nil) h

end

/-! ## A machine to run

A kernel that ends at `0x80030000`, with all memory behind it, and an `/init` of one
segment. -/

abbrev sampleLink : Link := ⟨0x80030000, 0x80008000, by decide⟩

def sampleMem : Kmem := pagesDown 32720 PHYSTOP

def sampleInit : ExecFile := ⟨true, ELF_MAGIC, [some ⟨ELF_PROG_LOAD, 7, 0, 100, 100, fun _ => true⟩]⟩

theorem sampleMem_bootMemory : @BootMemory sampleLink sampleMem :=
  letI := sampleLink
  kinit_bootMemory ((kinit_eq (by decide)).trans
    (congrArg (fun n => Except.ok (pagesDown n PHYSTOP)) (by decide)))

def sampleRun (ops : List Op) : Option State :=
  letI := sampleLink
  (boot sampleMem sampleInit [4]).toOption.bind fun s => replay next s ops

theorem sampleRun_reach {ok : State → Op → Prop} {ops : List Op} {s : State}
    (hok : ∀ op ∈ ops, ∀ u, ok u op) (h : sampleRun ops = some s) :
    Reach (@next sampleLink) ok (@Booted sampleLink) s := by
  unfold sampleRun at h
  obtain ⟨u, hb, hr⟩ := Option.bind_eq_some_iff.1 h
  exact replay_reach (.start ⟨_, _, _, sampleMem_bootMemory, toOption_some.1 hb⟩) hok hr

theorem sampleRun_snoc {ops : List Op} {op : Op} {s t : State} (h : sampleRun ops = some s)
    (hn : @next sampleLink s op = some t) : sampleRun (ops ++ [op]) = some t := by
  unfold sampleRun at h ⊢
  obtain ⟨u, hb, hr⟩ := Option.bind_eq_some_iff.1 h
  refine Option.bind_eq_some_iff.2 ⟨u, hb, ?_⟩
  rw [replay_snoc, hr]
  exact hn

theorem sampleRun_exists (ops : List Op) (P : State → Prop) [DecidablePred P]
    (h : (sampleRun ops).any (fun s => decide (P s)) = true) :
    ∃ s, sampleRun ops = some s ∧ P s := by
  obtain ⟨s, hs, hP⟩ := (Option.any_eq_true _ _).1 h
  exact ⟨s, hs, of_decide_eq_true hP⟩

theorem sampleRun_checked (ops : List Op) (ok : State → Op → Prop) [∀ s op, Decidable (ok s op)]
    (P : State → Prop) [DecidablePred P]
    (h : ((@boot sampleLink sampleMem sampleInit [4]).toOption.bind fun s =>
      replay (guarded (@next sampleLink) ok) s ops).any (fun s => decide (P s)) = true) :
    ∃ s, sampleRun ops = some s ∧ P s ∧ Reach (@next sampleLink) ok (@Booted sampleLink) s := by
  obtain ⟨s, hs, hP⟩ := (Option.any_eq_true _ _).1 h
  obtain ⟨u, hb, hr⟩ := Option.bind_eq_some_iff.1 hs
  refine ⟨s, Option.bind_eq_some_iff.2 ⟨u, hb, replay_of_guarded hr⟩, of_decide_eq_true hP, ?_⟩
  exact replay_guarded_reach (.start ⟨_, _, _, sampleMem_bootMemory, toOption_some.1 hb⟩) hr

end G9OS.Kernel
