import Mathlib

/-! # Runs of a labelled step function

A machine is a partial step function: `next s l = some t` when the machine in
state `s` can take the step labelled `l`, and then it is in `t`. Reachability,
runs with a side condition on the states before their steps, and executable
replay of a list of labels are all stated over such a function.
-/

namespace G9OS.Lib

variable {σ ℓ : Type}

/-- States reached from `start` by steps of `next` that all meet `ok` in the
state they are taken from. -/
inductive Reach (next : σ → ℓ → Option σ) (ok : σ → ℓ → Prop) (start : σ → Prop) : σ → Prop
  | start {s : σ} : start s → Reach next ok start s
  | step {s t : σ} {l : ℓ} :
      Reach next ok start s → ok s l → next s l = some t → Reach next ok start t

def Free (_ : σ) (_ : ℓ) : Prop := True

section
variable {next : σ → ℓ → Option σ} {ok ok' : σ → ℓ → Prop} {start : σ → Prop}

/-- The invariant rule: true at the start and kept by every admitted step. -/
theorem Reach.inv {I : σ → Prop} (h0 : ∀ s, start s → I s)
    (hs : ∀ s l t, I s → ok s l → next s l = some t → I t)
    {s : σ} (h : Reach next ok start s) : I s := by
  induction h with
  | start h => exact h0 _ h
  | step _ hok hn ih => exact hs _ _ _ ih hok hn

theorem Reach.trans {s t : σ} (h : Reach next ok start s) (h' : Reach next ok (· = s) t) :
    Reach next ok start t := by
  induction h' with
  | start hs =>
      rw [hs]
      exact h
  | step _ hok hn ih => exact .step ih hok hn

theorem Reach.mono (hw : ∀ s l, ok s l → ok' s l) {s : σ} (h : Reach next ok start s) :
    Reach next ok' start s := by
  induction h with
  | start h => exact .start h
  | step _ hok hn ih => exact .step ih (hw _ _ hok) hn

end

def replay (next : σ → ℓ → Option σ) : σ → List ℓ → Option σ
  | s, [] => some s
  | s, l :: ls =>
      match next s l with
      | none => none
      | some t => replay next t ls

theorem replay_snoc (next : σ → ℓ → Option σ) (s : σ) (ls : List ℓ) (l : ℓ) :
    replay next s (ls ++ [l]) = (replay next s ls).bind fun t => next t l := by
  induction ls generalizing s with
  | nil =>
      simp only [List.nil_append, replay, Option.bind_some]
      cases next s l <;> rfl
  | cons l' ls ih =>
      simp only [List.cons_append, replay]
      cases next s l' with
      | none => rfl
      | some u => exact ih u

/-- A successful replay of labels that meet the side condition everywhere reaches its
last state. -/
theorem replay_reach {next : σ → ℓ → Option σ} {ok : σ → ℓ → Prop} {start : σ → Prop} {s t : σ}
    {ls : List ℓ} (hs : Reach next ok start s) (hok : ∀ l ∈ ls, ∀ u, ok u l)
    (h : replay next s ls = some t) : Reach next ok start t := by
  induction ls generalizing s with
  | nil => cases h; exact hs
  | cons l ls ih =>
      unfold replay at h
      cases hn : next s l with
      | none => simp [hn] at h
      | some u =>
          simp only [hn] at h
          exact ih (.step hs (hok l List.mem_cons_self s) hn)
            (fun l' hl' => hok l' (List.mem_cons_of_mem _ hl')) h

/-- A step that can be taken until `done`, and lowers a rank, is taken until then. -/
theorem replay_ends {next : σ → ℓ → Option σ} {l : ℓ} {I : σ → Prop} (done : σ → Prop)
    (rank : σ → Nat)
    (hs : ∀ s, I s → ¬ done s → ∃ t, next s l = some t ∧ I t ∧ rank t < rank s) {s : σ}
    (h : I s) : ∃ n t, replay next s (List.replicate n l) = some t ∧ I t ∧ done t := by
  induction hr : rank s using Nat.strong_induction_on generalizing s with
  | _ r ih =>
      by_cases hd : done s
      · exact ⟨0, s, rfl, h, hd⟩
      · obtain ⟨t, hn, ht, hlt⟩ := hs s h hd
        obtain ⟨n, u, hu, hIu, hdu⟩ := ih (rank t) (hr ▸ hlt) ht rfl
        refine ⟨n + 1, u, ?_, hIu, hdu⟩
        rw [List.replicate_succ, replay, hn]
        exact hu

/-- From every state with `I` some steps lead to one with `I` and a lower rank, until `G` holds. -/
theorem exists_reach_of_rank {next : σ → ℓ → Option σ} {ok : σ → ℓ → Prop} (I G : σ → Prop)
    (rank : σ → Nat)
    (hs : ∀ s, I s → G s ∨ ∃ t, Reach next ok (· = s) t ∧ I t ∧ rank t < rank s) {s : σ} (h : I s) :
    ∃ t, Reach next ok (· = s) t ∧ I t ∧ G t := by
  induction hr : rank s using Nat.strong_induction_on generalizing s with
  | _ r ih =>
      rcases hs s h with hG | ⟨t, hst, ht, hlt⟩
      · exact ⟨s, .start rfl, h, hG⟩
      · obtain ⟨u, htu, hu, hG⟩ := ih (rank t) (hr ▸ hlt) ht rfl
        exact ⟨u, hst.trans htu, hu, hG⟩

def guarded (next : σ → ℓ → Option σ) (ok : σ → ℓ → Prop) [∀ s l, Decidable (ok s l)]
    (s : σ) (l : ℓ) : Option σ :=
  if ok s l then next s l else none

/-- A successful replay that checks the side condition before each step. -/
theorem replay_guarded_reach {next : σ → ℓ → Option σ} {ok : σ → ℓ → Prop}
    [∀ s l, Decidable (ok s l)] {start : σ → Prop} {s t : σ} {ls : List ℓ}
    (hs : Reach next ok start s) (h : replay (guarded next ok) s ls = some t) :
    Reach next ok start t := by
  induction ls generalizing s with
  | nil =>
      cases h
      exact hs
  | cons l ls ih =>
      simp only [replay, guarded] at h
      by_cases hok : ok s l
      · rw [if_pos hok] at h
        cases hn : next s l with
        | none => simp [hn] at h
        | some u =>
            simp only [hn] at h
            exact ih (.step hs hok hn) h
      · simp [hok] at h

theorem replay_of_guarded {next : σ → ℓ → Option σ} {ok : σ → ℓ → Prop}
    [∀ s l, Decidable (ok s l)] {s t : σ} {ls : List ℓ}
    (h : replay (guarded next ok) s ls = some t) : replay next s ls = some t := by
  induction ls generalizing s with
  | nil => exact h
  | cons l ls ih =>
      simp only [replay, guarded] at h ⊢
      by_cases hok : ok s l
      · rw [if_pos hok] at h
        cases hn : next s l with
        | none => simp [hn] at h
        | some u =>
            simp only [hn] at h
            exact ih h
      · simp [hok] at h

end G9OS.Lib
