import G9OS.Shell.Tokenize

/-! # The parser of the shell (`custom_shell.c`)

`parse_pipeline` turns tokens into commands. It compares tokens as strings and stores
them as pointers, so it is written here over any type of tokens with the string of each.
-/

namespace G9OS.Shell

open Lib

/-- `Cmd`; `argc` is the length of `argv`. -/
structure Cmd (P : Type) where
  argv : List P := []
  redirIn : Option P := none
  redirOut : Option P := none
  appendOut : Bool := false
deriving DecidableEq, Repr

inductive ParseError
  | tooManyPipes
  | missingIn
  | missingOut
  | missingAppend
  | tooManyArguments
deriving DecidableEq, Repr

def ParseError.message : ParseError → String
  | .tooManyPipes => "custom_shell: too many pipes\n"
  | .missingIn => "custom_shell: missing file after '<'\n"
  | .missingOut => "custom_shell: missing file after '>'\n"
  | .missingAppend => "custom_shell: missing file after '>>'\n"
  | .tooManyArguments => "custom_shell: too many arguments\n"

abbrev pipe : Word := [124]
abbrev lt : Word := [60]
abbrev gt : Word := [62]
abbrev gtgt : Word := [62, 62]
abbrev amp : Word := [38]

section
variable {P : Type} (str : P → Word)

/-- The loop over the tokens, with the commands that are complete and the current one. -/
def parseLoop : List P → List (Cmd P) → Cmd P → Bool → Except ParseError (List (Cmd P) × Bool)
  | [], done, cur, background => .ok (done ++ [cur], background)
  | t :: rest, done, cur, background =>
      if str t = pipe then
        if MAX_CMDS ≤ done.length + 1 then .error .tooManyPipes
        else parseLoop rest (done ++ [cur]) {} background
      else if str t = lt then
        match rest with
        | [] => .error .missingIn
        | f :: rest => parseLoop rest done { cur with redirIn := some f } background
      else if str t = gt then
        match rest with
        | [] => .error .missingOut
        | f :: rest =>
            parseLoop rest done { cur with redirOut := some f, appendOut := false } background
      else if str t = gtgt then
        match rest with
        | [] => .error .missingAppend
        | f :: rest =>
            parseLoop rest done { cur with redirOut := some f, appendOut := true } background
      else if str t = amp ∧ rest.isEmpty then parseLoop rest done cur true
      else if MAX_ARGS - 1 ≤ cur.argv.length then .error .tooManyArguments
      else parseLoop rest done { cur with argv := cur.argv ++ [t] } background

/-- The trailing pipe: an empty last command is dropped. -/
def dropEmpty (cmds : List (Cmd P)) : List (Cmd P) :=
  match cmds.getLast? with
  | some c => if c.argv.isEmpty then cmds.dropLast else cmds
  | none => cmds

def parsePipeline (toks : List P) : Except ParseError (List (Cmd P) × Bool) :=
  (parseLoop str toks [] {} false).map fun r => (dropEmpty r.1, r.2)

end

/-! ## One piece of a line at a time, as words -/

/-- A word that is no operator, wherever it stands. -/
def IsArgument (w : Word) : Prop := w ≠ pipe ∧ w ≠ lt ∧ w ≠ gt ∧ w ≠ gtgt

instance (w : Word) : Decidable (IsArgument w) := inferInstanceAs (Decidable (_ ∧ _))

section
variable {w f : Word} {ws rest : List Word} {done : List (Cmd Word)} {cur : Cmd Word}
  {background : Bool}

theorem parseLoop_pipe (hroom : done.length + 1 < MAX_CMDS) :
    parseLoop id (pipe :: rest) done cur background =
      parseLoop id rest (done ++ [cur]) {} background := by
  rw [parseLoop.eq_def]
  simp only [id_eq, if_true, if_neg hroom.not_ge]

theorem parseLoop_in :
    parseLoop id (lt :: f :: rest) done cur background =
      parseLoop id rest done { cur with redirIn := some f } background := by
  simp [parseLoop]

theorem parseLoop_out :
    parseLoop id (gt :: f :: rest) done cur background =
      parseLoop id rest done { cur with redirOut := some f, appendOut := false } background := by
  simp [parseLoop]

theorem parseLoop_append :
    parseLoop id (gtgt :: f :: rest) done cur background =
      parseLoop id rest done { cur with redirOut := some f, appendOut := true } background := by
  simp [parseLoop]

theorem parseLoop_amp :
    parseLoop id [amp] done cur background = .ok (done ++ [cur], true) := by
  simp [parseLoop]

theorem parseLoop_arg (hw : IsArgument w) (hamp : w = amp → rest ≠ [])
    (hroom : cur.argv.length < MAX_ARGS - 1) :
    parseLoop id (w :: rest) done cur background =
      parseLoop id rest done { cur with argv := cur.argv ++ [w] } background := by
  have hlast : ¬ (w = amp ∧ rest.isEmpty) := by
    rintro ⟨heq, hrest⟩
    exact hamp heq (List.isEmpty_iff.1 hrest)
  rw [parseLoop.eq_def]
  simp only [id_eq, if_neg hw.1, if_neg hw.2.1, if_neg hw.2.2.1, if_neg hw.2.2.2, if_neg hlast,
    if_neg hroom.not_ge]

theorem parseLoop_args (hws : ∀ w ∈ ws, IsArgument w)
    (hamp : rest = [] → ws.getLast? ≠ some amp)
    (hroom : cur.argv.length + ws.length < MAX_ARGS) :
    parseLoop id (ws ++ rest) done cur background =
      parseLoop id rest done { cur with argv := cur.argv ++ ws } background := by
  induction ws generalizing cur with
  | nil => rw [List.nil_append, List.append_nil]
  | cons w ws ih =>
      rw [List.length_cons] at hroom
      have hone : parseLoop id (w :: (ws ++ rest)) done cur background =
          parseLoop id (ws ++ rest) done { cur with argv := cur.argv ++ [w] } background := by
        apply parseLoop_arg (hws w List.mem_cons_self)
        · rintro rfl hnil
          obtain ⟨rfl, hrest⟩ := List.append_eq_nil_iff.1 hnil
          exact hamp hrest rfl
        · omega
      rw [List.cons_append, hone, ih]
      · rw [List.append_assoc]
        rfl
      · intro v hv
        exact hws v (List.mem_cons_of_mem _ hv)
      · intro hrest hlast
        apply hamp hrest
        rw [List.getLast?_cons, hlast]
        rfl
      · rw [List.length_append, List.length_singleton]
        omega

end

/-! ## Tokens and their strings -/

def Cmd.map {P Q : Type} (f : P → Q) (c : Cmd P) : Cmd Q where
  argv := c.argv.map f
  redirIn := c.redirIn.map f
  redirOut := c.redirOut.map f
  appendOut := c.appendOut

def readBack {P : Type} (str : P → Word) (r : Except ParseError (List (Cmd P) × Bool)) :
    Except ParseError (List (Cmd Word) × Bool) :=
  r.map fun r => (r.1.map (Cmd.map str), r.2)

section
variable {P : Type} (str : P → Word)

theorem parseLoop_map (toks : List P) (done : List (Cmd P)) (cur : Cmd P) (background : Bool) :
    readBack str (parseLoop str toks done cur background) =
      parseLoop id (toks.map str) (done.map (Cmd.map str)) (cur.map str) background := by
  fun_induction parseLoop str toks done cur background with
  | case1 done cur background => simp [parseLoop, readBack, Except.map]
  | case2 t rest done cur background ht hfull =>
      rw [List.map_cons, parseLoop.eq_def]
      simp [readBack, Except.map, ht, hfull]
  | case3 t rest done cur background ht hroom ih =>
      rw [ih, List.map_cons, ht, parseLoop_pipe (by simpa using hroom), List.map_append]
      rfl
  | case4 t done cur background _ ht => simp [parseLoop, readBack, Except.map, ht]
  | case5 t done cur background _ ht f rest ih =>
      rw [ih, List.map_cons, List.map_cons, ht, parseLoop_in]
      rfl
  | case6 t done cur background _ _ ht => simp [parseLoop, readBack, Except.map, ht]
  | case7 t done cur background _ _ ht f rest ih =>
      rw [ih, List.map_cons, List.map_cons, ht, parseLoop_out]
      rfl
  | case8 t done cur background _ _ _ ht => simp [parseLoop, readBack, Except.map, ht]
  | case9 t done cur background _ _ _ ht f rest ih =>
      rw [ih, List.map_cons, List.map_cons, ht, parseLoop_append]
      rfl
  | case10 t rest done cur background _ _ _ _ ht ih =>
      rw [List.isEmpty_iff.1 ht.2, List.map_singleton, ht.1, parseLoop_amp]
      simp [parseLoop, readBack, Except.map]
  | case11 t rest done cur background hpipe hin hout happ hamp hfull =>
      rw [List.map_cons, parseLoop.eq_def]
      simp_all [readBack, Except.map, Cmd.map]
  | case12 t rest done cur background hpipe hin hout happ hamp hroom ih =>
      have hmore : str t = amp → rest.map str ≠ [] := fun heq hnil =>
        hamp ⟨heq, List.isEmpty_iff.2 (List.map_eq_nil_iff.1 hnil)⟩
      rw [ih, List.map_cons, parseLoop_arg ⟨hpipe, hin, hout, happ⟩ hmore]
      · simp [Cmd.map]
      · simpa [Cmd.map] using hroom

theorem dropEmpty_map (cmds : List (Cmd P)) :
    (dropEmpty cmds).map (Cmd.map str) = dropEmpty (cmds.map (Cmd.map str)) := by
  unfold dropEmpty
  rw [List.getLast?_map]
  cases cmds.getLast? with
  | none => rfl
  | some c =>
      have hargv : ((c.map str).argv.isEmpty = true) ↔ c.argv.isEmpty = true := by
        simp [Cmd.map]
      simp only [Option.map_some, hargv, apply_ite (List.map (Cmd.map str)), List.map_dropLast]

theorem parsePipeline_map (toks : List P) :
    readBack str (parsePipeline str toks) = parsePipeline id (toks.map str) := by
  have hloop := parseLoop_map str toks [] {} false
  rw [parsePipeline, parsePipeline]
  cases hres : parseLoop str toks [] {} false with
  | error e =>
      rw [hres] at hloop
      exact congrArg (Except.map _) hloop
  | ok r =>
      rw [hres] at hloop
      refine Eq.trans ?_ (congrArg (Except.map _) hloop)
      simp [readBack, Except.map, dropEmpty_map]

end

end G9OS.Shell
