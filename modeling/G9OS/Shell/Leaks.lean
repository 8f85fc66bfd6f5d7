import G9OS.Shell.Pipeline

/-! # What a failed pipeline leaves behind (`custom_shell.c`)

The error exits of `run_pipeline` close no pipe and wait for no child.
-/

namespace G9OS.Shell

open Lib

section
variable {α P : Type} {t0 t : Table (Obj α P)} {pipes : List (Nat × Nat)}

/-- If the shell goes on, the numbers that are open are those that were, and a pipeline in the
foreground has no child that is not waited for. -/
def Tidy (before : Table (Obj α P)) (background : Bool) : Outcome α P → Prop
  | .exited _ => True
  | .returned _ after children waited =>
      (∀ fd, after.obj fd ≠ none ↔ before.obj fd ≠ none) ∧
        (background = false → ∀ i < children.length, i ∈ waited)

theorem Piped.leaks (h : Piped t0 t pipes) (hne : pipes ≠ []) :
    ¬ ∀ fd, t.obj fd ≠ none ↔ t0.obj fd ≠ none := by
  obtain ⟨e, rest, rfl⟩ := List.exists_cons_of_ne_nil hne
  intro hsame
  have hopen : t.obj e.1 ≠ none := by
    rw [(h.ends 0 e rfl).1]
    nofun
  exact (hsame e.1).1 hopen (h.fresh e.1 (by simp [pipeFds]))

theorem Piped.same_of_nil (h : Piped t0 t []) (fd : Nat) : t.obj fd ≠ none ↔ t0.obj fd ≠ none := by
  rw [h.rest fd List.not_mem_nil]

/-- Forking leaves nothing behind exactly if there is no pipe, the first pipe fails, or nothing
fails. -/
theorem runForked_tidy_iff (calls : Calls) (cmds : List (Cmd P)) (background : Bool)
    (t0 : Table (Obj α P)) :
    Tidy t0 background (runForked calls cmds background t0) ↔
      cmds.length ≤ 1 ∨ calls.pipe 0 = false ∨
        (∀ k < cmds.length - 1, calls.pipe k = true) ∧ ∀ i < cmds.length, calls.fork i = true := by
  obtain ⟨pipes, t, hp, hall, hres⟩ := runForked_cases calls cmds background t0
  rcases hres with ⟨hrun, hlen, hfail⟩ | ⟨hlen, children, hres⟩
  · -- a pipe fails, and those in front of it stay open
    rw [hrun]
    cases pipes with
    | nil => exact iff_of_true ⟨hp.same_of_nil, nofun⟩ (.inr (.inl hfail))
    | cons e pipes =>
        refine iff_of_false (fun h => hp.leaks (List.cons_ne_nil _ _) h.1) ?_
        rintro (hone | hfirst | ⟨hpipe, -⟩)
        · omega
        · exact Bool.eq_false_iff.1 hfirst (hall 0 (Nat.succ_pos _))
        · exact Bool.eq_false_iff.1 hfail (hpipe _ hlen)
  · rcases hres with ⟨hrun, hcount, hfail⟩ | ⟨⟨status, hrun⟩, hcount, hfork, -⟩
    · -- a fork fails, and all pipes stay open
      rw [hrun]
      cases pipes with
      | nil =>
          rw [List.length_nil] at hlen
          refine iff_of_true ⟨hp.same_of_nil, fun _ i hi => ?_⟩ (.inl (by omega))
          omega
      | cons e pipes =>
          rw [List.length_cons] at hlen
          refine iff_of_false (fun h => hp.leaks (List.cons_ne_nil _ _) h.1) ?_
          rintro (hone | hfirst | ⟨-, hfork⟩)
          · omega
          · exact Bool.eq_false_iff.1 hfirst (hall 0 (Nat.succ_pos _))
          · exact Bool.eq_false_iff.1 hfail (hfork _ hcount)
    · -- nothing fails
      rw [hrun]
      refine iff_of_true ⟨fun fd => by rw [hp.closeAll], fun hfore i hi => ?_⟩
        (.inr (.inr ⟨fun k hk => hall k (hlen ▸ hk), hfork⟩))
      rw [hfore, if_neg Bool.false_ne_true, List.mem_range]
      omega

theorem runBuiltin_tidy {str : P → Word} {calls : Calls} {cmd : Cmd P} {o : Outcome α P}
    (background : Bool) (h : runBuiltin str calls cmd t0 = some o) : Tidy t0 background o := by
  unfold runBuiltin at h
  split at h
  · cases h
  · split at h
    · cases h
      exact trivial
    · split at h
      · cases h
        exact ⟨fun _ => Iff.rfl, nofun⟩
      · split at h
        · cases h
          exact ⟨fun _ => Iff.rfl, nofun⟩
        · cases h

/-- `run_pipeline` leaves nothing behind exactly if it opens no pipe or everything succeeds. -/
theorem runPipeline_tidy_iff (str : P → Word) (calls : Calls) (cmds : List (Cmd P))
    (background : Bool) (before : Table (Obj α P)) :
    Tidy before background (runPipeline str calls cmds background before) ↔
      cmds.length ≤ 1 ∨ calls.pipe 0 = false ∨
        (∀ k < cmds.length - 1, calls.pipe k = true) ∧ ∀ i < cmds.length, calls.fork i = true := by
  match cmds with
  | [] => exact iff_of_true ⟨fun _ => Iff.rfl, nofun⟩ (.inl (Nat.zero_le 1))
  | [cmd] =>
      refine iff_of_true ?_ (.inl le_rfl)
      show Tidy before background ((runBuiltin str calls cmd before).getD _)
      cases hb : runBuiltin str calls cmd before with
      | none => exact (runForked_tidy_iff calls [cmd] background before).2 (.inl le_rfl)
      | some o => exact runBuiltin_tidy background hb
  | _ :: _ :: _ => exact runForked_tidy_iff calls _ background before

end

/-- `a | b` when the second `fork` fails: the shell keeps both ends of the pipe, and does not wait
for the first child. -/
theorem second_fork_leaks :
    ∃ t children,
      runPipeline (fun _ => []) { fineCalls with fork := fun i => i == 0 }
          [({ argv := [1] } : Cmd Nat), { argv := [2] }] false (threeOpen.map .old) =
        .returned 1 t children [] ∧
      (t.obj 3 = some (.readEnd 0) ∧ t.obj 4 = some (.writeEnd 0)) ∧
      ((threeOpen.map .old : Table (Obj Unit Nat)).obj 3 = none) ∧ children.length = 1 :=
  ⟨_, _, rfl, by decide, by decide, rfl⟩

end G9OS.Shell
