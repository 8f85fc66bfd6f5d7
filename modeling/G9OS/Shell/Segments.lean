import G9OS.Shell.Parse

/-! # Empty segments of a pipeline (`custom_shell.c`)

`parse_pipeline` makes a command of every segment between two pipes, also of one without
arguments, and drops the last command only.
-/

namespace G9OS.Shell

inductive Role
  | bar
  | argument
  /-- a redirection, the file behind it, or the background sign -/
  | other
deriving DecidableEq, Repr

section
variable {P : Type} (str : P → Word)

/-- The roles of the tokens from left to right. The token behind a redirection is its file,
whatever it is. -/
def roles : List P → List Role
  | [] => []
  | t :: rest =>
      if str t = pipe then .bar :: roles rest
      else if str t = lt ∨ str t = gt ∨ str t = gtgt then
        match rest with
        | [] => [.other]
        | _ :: rest => .other :: .other :: roles rest
      else if str t = amp ∧ rest.isEmpty then [.other]
      else .argument :: roles rest

def segments (toks : List P) : List (List Role) := (roles str toks).splitOn .bar

end

def staffed {P : Type} (c : Cmd P) : Bool := !c.argv.isEmpty

section
variable {P : Type} {str : P → Word}

/-- Whether each command has an argument: those that are complete, and the rest of the tokens,
where the first segment belongs to the current command. -/
def staffing (done : List (Cmd P)) (cur : Cmd P) (rs : List Role) : List Bool :=
  done.map staffed ++
    ((rs.splitOn .bar).map fun seg => decide (Role.argument ∈ seg)).modifyHead (staffed cur || ·)

theorem staffing_nil (done : List (Cmd P)) (cur : Cmd P) :
    staffing done cur [] = (done ++ [cur]).map staffed := by
  simp [staffing]

theorem splitOn_bar (r : Role) (rs : List Role) :
    ∃ seg segs, rs.splitOn .bar = seg :: segs ∧
      (r :: rs).splitOn .bar = if r = .bar then [] :: seg :: segs else (r :: seg) :: segs := by
  unfold List.splitOn
  cases h : rs.splitOnP (· == Role.bar) with
  | nil => exact absurd h (List.splitOnP_ne_nil _ _)
  | cons seg segs =>
      refine ⟨seg, segs, rfl, ?_⟩
      rw [List.splitOnP_cons_eq_if_modifyHead, h]
      simp only [beq_iff_eq, List.modifyHead_cons]

theorem staffing_bar (done : List (Cmd P)) (cur : Cmd P) (rs : List Role) :
    staffing done cur (.bar :: rs) = staffing (done ++ [cur]) {} rs := by
  obtain ⟨seg, segs, hrs, hcons⟩ := splitOn_bar .bar rs
  simp [staffing, hrs, hcons, staffed]

theorem staffing_other {done : List (Cmd P)} {cur cur' : Cmd P} (hcur : cur'.argv = cur.argv)
    (rs : List Role) : staffing done cur (.other :: rs) = staffing done cur' rs := by
  obtain ⟨seg, segs, hrs, hcons⟩ := splitOn_bar .other rs
  simp [staffing, hrs, hcons, staffed, hcur]

theorem staffing_argument (done : List (Cmd P)) (cur : Cmd P) (t : P) (rs : List Role) :
    staffing done cur (.argument :: rs) =
      staffing done { cur with argv := cur.argv ++ [t] } rs := by
  obtain ⟨seg, segs, hrs, hcons⟩ := splitOn_bar .argument rs
  simp [staffing, hrs, hcons, staffed]

section
variable {t f : P} {rest : List P}

theorem roles_pipe (h : str t = pipe) : roles str (t :: rest) = .bar :: roles str rest := by
  rw [roles.eq_def]
  exact if_pos h

theorem roles_redirect (hpipe : str t ≠ pipe) (h : str t = lt ∨ str t = gt ∨ str t = gtgt) :
    roles str (t :: f :: rest) = .other :: .other :: roles str rest := by
  rw [roles.eq_def]
  exact (if_neg hpipe).trans (if_pos h)

theorem roles_last (hpipe : str t ≠ pipe) (hr : ¬ (str t = lt ∨ str t = gt ∨ str t = gtgt)) :
    roles str (t :: rest) =
      if str t = amp ∧ rest.isEmpty then [.other] else .argument :: roles str rest := by
  rw [roles.eq_def]
  exact (if_neg hpipe).trans (if_neg hr)

end

theorem parseLoop_staffing {toks : List P} {done cmds : List (Cmd P)} {cur : Cmd P}
    {background background' : Bool}
    (h : parseLoop str toks done cur background = .ok (cmds, background')) :
    cmds.map staffed = staffing done cur (roles str toks) := by
  -- a redirection changes no argument
  have hfile : ∀ (t f : P) (rest : List P) (done : List (Cmd P)) (cur cur' : Cmd P),
      str t ≠ pipe → (str t = lt ∨ str t = gt ∨ str t = gtgt) → cur'.argv = cur.argv →
      staffing done cur' (roles str rest) = staffing done cur (roles str (t :: f :: rest)) := by
    intro t f rest done cur cur' hpipe hr hargv
    rw [roles_redirect hpipe hr, staffing_other (rfl : cur.argv = cur.argv),
      staffing_other hargv]
  fun_induction parseLoop str toks done cur background with
  | case1 done cur background =>
      obtain ⟨rfl, rfl⟩ := Prod.mk.inj (Except.ok.inj h)
      rw [roles, staffing_nil]
  | case2 => cases h
  | case3 t rest done cur background ht hroom ih => rw [ih h, roles_pipe ht, staffing_bar]
  | case4 => cases h
  | case5 t done cur background hpipe ht f rest ih =>
      exact (ih h).trans (hfile t f rest done cur _ hpipe (.inl ht) rfl)
  | case6 => cases h
  | case7 t done cur background hpipe _ ht f rest ih =>
      exact (ih h).trans (hfile t f rest done cur _ hpipe (.inr (.inl ht)) rfl)
  | case8 => cases h
  | case9 t done cur background hpipe _ _ ht f rest ih =>
      exact (ih h).trans (hfile t f rest done cur _ hpipe (.inr (.inr ht)) rfl)
  | case10 t rest done cur background hpipe hin hout happ hamp ih =>
      have hnone : roles str rest = [] := by rw [List.isEmpty_iff.1 hamp.2, roles]
      rw [ih h, roles_last hpipe (by simp [hin, hout, happ]), if_pos hamp, hnone,
        staffing_other rfl]
  | case11 => cases h
  | case12 t rest done cur background hpipe hin hout happ hamp hroom ih =>
      rw [ih h, roles_last hpipe (by simp [hin, hout, happ]), if_neg hamp,
        staffing_argument]

theorem dropEmpty_staffed (cmds : List (Cmd P)) :
    (∀ c ∈ dropEmpty cmds, c.argv ≠ []) ↔ ∀ b ∈ (cmds.map staffed).dropLast, b = true := by
  have hstaffed : ∀ c : Cmd P, staffed c = true ↔ c.argv ≠ [] := fun c => by simp [staffed]
  induction cmds using List.reverseRecOn with
  | nil => exact iff_of_true nofun nofun
  | append_singleton cmds c _ =>
      rw [List.map_append, List.map_singleton, List.dropLast_concat, List.forall_mem_map]
      unfold dropEmpty
      rw [List.getLast?_concat]
      by_cases hc : c.argv = []
      · simp [hc, hstaffed]
      · simp [hc, hstaffed, or_imp, forall_and]

end

/-- The commands of a pipeline all have arguments exactly if every segment but the last has
one. -/
theorem parsePipeline_staffed_iff {P : Type} (str : P → Word) (toks : List P)
    (cmds : List (Cmd P)) (background : Bool)
    (h : parsePipeline str toks = .ok (cmds, background)) :
    (∀ c ∈ cmds, 1 ≤ c.argv.length) ↔
      ∀ seg ∈ (segments str toks).dropLast, Role.argument ∈ seg := by
  unfold parsePipeline at h
  cases hloop : parseLoop str toks [] {} false with
  | error e =>
      rw [hloop] at h
      cases h
  | ok r =>
      rw [hloop] at h
      obtain ⟨rfl, rfl⟩ := Prod.mk.inj (Except.ok.inj h)
      have hmap : r.1.map staffed =
          (segments str toks).map fun seg => decide (Role.argument ∈ seg) := by
        rw [parseLoop_staffing hloop, staffing]
        cases hseg : (roles str toks).splitOn Role.bar with
        | nil => exact absurd hseg (List.splitOnP_ne_nil _ _)
        | cons seg segs => simp [segments, hseg, staffed]
      have hdrop := dropEmpty_staffed r.1
      rw [hmap, ← List.map_dropLast, List.forall_mem_map] at hdrop
      simpa only [decide_eq_true_iff, Nat.one_le_iff_ne_zero, List.length_eq_zero_iff, Ne]
        using hdrop

/-- `ls | cat` -/
theorem parsePipeline_staffed_two :
    (∀ c ∈ [({ argv := [[108, 115]] } : Cmd Word), { argv := [[99, 97, 116]] }],
        1 ≤ c.argv.length) ↔
      ∀ seg ∈ (segments id [[108, 115], pipe, [99, 97, 116]]).dropLast, Role.argument ∈ seg :=
  parsePipeline_staffed_iff id _ _ false (by decide)

/-- `| b`, `a | | b` and `a | |` have a stage without arguments. -/
theorem empty_stages :
    parsePipeline id [pipe, [98]] = .ok ([{}, { argv := [[98]] }], false) ∧
    parsePipeline id [[97], pipe, pipe, [98]] =
      .ok ([{ argv := [[97]] }, {}, { argv := [[98]] }], false) ∧
    parsePipeline id [[97], pipe, pipe] = .ok ([{ argv := [[97]] }, {}], false) := by
  decide

end G9OS.Shell
