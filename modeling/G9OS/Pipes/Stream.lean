import G9OS.Pipes.Machine

/-! # What goes through a pipe (`pipe.c`)

The bytes that are read are the bytes that were written, in their order, although both counters wrap
at the word size. A write that returns a number has put that many of its bytes into the pipe, and a
read that returns one has taken that many out of it.
-/

namespace G9OS.Pipes

open Lib

variable {bad : Bool} {out queue : List UInt8} {i n : Nat} {killed : Nat → Bool}
  {fault : Option Nat} {x : PipeProc} {stop : WriteStop}

/-- The bytes `q` are in the pipe, and `r` bytes have been read. -/
structure Stores (pi : Pipe) (r : Nat) (q : List UInt8) : Prop where
  nread : pi.nread = r % 2 ^ 32
  nwrite : pi.nwrite = (r + q.length) % 2 ^ 32
  room : q.length ≤ PIPESIZE
  cells : Window PIPESIZE pi.data r q

section
variable {pi pi' : Pipe} {r : Nat} {q : List UInt8} {ch : UInt8}

theorem Stores.empty_iff (h : Stores pi r q) : pi.Empty ↔ q = [] := by
  have hlt : q.length < 2 ^ 32 := h.room.trans_lt (by decide)
  rw [Pipe.Empty, h.nread, h.nwrite, counter_empty hlt, List.length_eq_zero_iff]

theorem Stores.full_iff (h : Stores pi r q) : pi.Full ↔ q.length = PIPESIZE := by
  rw [Pipe.Full, h.nread, h.nwrite, counter_full h.room (by decide)]

theorem Stores.put (h : Stores pi r q) (hroom : ¬ pi.Full) : Stores (pi.put ch) r (q ++ [ch]) := by
  have hlt : q.length < PIPESIZE := Nat.lt_of_le_of_ne h.room fun heq => hroom (h.full_iff.2 heq)
  have hcell : pi.nwrite % PIPESIZE = (r + q.length) % PIPESIZE := by
    rw [h.nwrite, Nat.mod_mod_of_dvd _ (by decide)]
  constructor
  · exact h.nread
  · rw [List.length_append, List.length_singleton, ← Nat.add_assoc, ← counter_succ, ← h.nwrite]
    rfl
  · rw [List.length_append, List.length_singleton]
    exact hlt
  · rw [Pipe.put, hcell]
    exact h.cells.push hlt

theorem Stores.first (h : Stores pi r (ch :: q)) : pi.first = ch := by
  rw [Pipe.first, h.nread, Nat.mod_mod_of_dvd _ (by decide)]
  exact h.cells.head

theorem Stores.skip (h : Stores pi r (ch :: q)) : Stores pi.skip (r + 1) q := by
  constructor
  · rw [← counter_succ, ← h.nread]
    rfl
  · rw [Nat.add_assoc, Nat.add_comm 1]
    exact h.nwrite
  · exact (Nat.le_succ _).trans h.room
  · exact h.cells.tail

def Pipe.buffered (pi : Pipe) : List UInt8 :=
  (List.range ((pi.nwrite + 2 ^ 32 - pi.nread) % 2 ^ 32)).map fun i =>
    pi.data ((pi.nread + i) % PIPESIZE)

theorem Stores.buffered_eq (h : Stores pi r q) : pi.buffered = q := by
  have hroom : q.length ≤ 512 := h.room
  have hcount : (pi.nwrite + 2 ^ 32 - pi.nread) % 2 ^ 32 = q.length := by
    rw [h.nread, h.nwrite]
    omega
  unfold Pipe.buffered
  rw [hcount]
  refine List.ext_getElem ?_ fun i hi hi' => ?_
  · rw [List.length_map, List.length_range]
  · rw [List.getElem_map, List.getElem_range, h.nread, Nat.add_mod,
      Nat.mod_mod_of_dvd _ (by decide), ← Nat.add_mod]
    exact h.cells i _ (List.getElem?_eq_getElem hi')

/-! ## The loops -/

structure WriteSpec (killed : Nat → Bool) (left : List (Option UInt8)) (i : Nat) (pi : Pipe)
    (r : Nat) (q : List UInt8) (pi' : Pipe) (out : List UInt8) (stop : WriteStop) : Prop where
  stores : Stores pi' r (q ++ out)
  ends : pi'.readopen = pi.readopen ∧ pi'.writeopen = pi.writeopen
  bytes : out.map some = left.take out.length
  short : out.length ≤ left.length
  began : out ≠ [] → pi.readopen = true ∧ killed i = false
  done : stop = .done → left.drop out.length = [] ∨ ∃ rest, left.drop out.length = none :: rest
  failed : stop = .failed →
    out.length < left.length ∧ (pi.readopen = false ∨ killed (i + out.length) = true)
  full : stop = .full → pi'.Full ∧ pi.readopen = true ∧ killed (i + out.length) = false

theorem WriteSpec.nothing {left : List (Option UInt8)} (h : Stores pi r q)
    (hdone : stop = .done → left = [] ∨ ∃ rest, left = none :: rest)
    (hfailed : stop = .failed → 0 < left.length ∧ (pi.readopen = false ∨ killed i = true))
    (hfull : stop = .full → pi.Full ∧ pi.readopen = true ∧ killed i = false) :
    WriteSpec killed left i pi r q pi [] stop := by
  refine ⟨?_, ⟨rfl, rfl⟩, rfl, Nat.zero_le _, fun hne => absurd rfl hne, hdone, hfailed, hfull⟩
  rw [List.append_nil]
  exact h

theorem writeLoop_spec {left : List (Option UInt8)} (h : Stores pi r q)
    (hl : writeLoop killed left i pi = (pi', out, stop)) :
    WriteSpec killed left i pi r q pi' out stop := by
  induction left generalizing i pi q out with
  | nil =>
      cases hl
      exact .nothing h (fun _ => .inl rfl) (fun hs => by cases hs) fun hs => by cases hs
  | cons x xs ih =>
      unfold writeLoop at hl
      by_cases hstop : pi.readopen = false ∨ killed i = true
      · rw [if_pos hstop] at hl
        cases hl
        exact .nothing h (fun hs => by cases hs) (fun _ => ⟨Nat.succ_pos _, hstop⟩)
          fun hs => by cases hs
      · rw [if_neg hstop] at hl
        have hgo : pi.readopen = true ∧ killed i = false := by simpa using hstop
        by_cases hfull : pi.Full
        · rw [if_pos hfull] at hl
          cases hl
          exact .nothing h (fun hs => by cases hs) (fun hs => by cases hs) fun _ => ⟨hfull, hgo⟩
        · rw [if_neg hfull] at hl
          cases x with
          | none =>
              cases hl
              exact .nothing h (fun _ => .inr ⟨xs, rfl⟩) (fun hs => by cases hs)
                fun hs => by cases hs
          | some ch =>
              rcases hl' : writeLoop killed xs (i + 1) (pi.put ch) with ⟨pi₁, out₁, stop₁⟩
              simp only [hl'] at hl
              cases hl
              have hrest := ih (h.put hfull) hl'
              have hlen : i + (ch :: out₁).length = i + 1 + out₁.length := by
                rw [List.length_cons]
                omega
              refine ⟨?_, hrest.ends, ?_, Nat.succ_le_succ hrest.short, fun _ => hgo, hrest.done,
                fun hs => ⟨?_, ?_⟩, fun hs => ?_⟩
              · rw [List.append_cons]
                exact hrest.stores
              · rw [List.map_cons, List.length_cons, List.take_succ_cons, hrest.bytes]
              · exact Nat.succ_lt_succ (hrest.failed hs).1
              · rw [hlen]
                exact (hrest.failed hs).2
              · rw [hlen]
                exact hrest.full hs

structure ReadSpec (fault : Option Nat) (left i : Nat) (pi : Pipe) (r : Nat) (q : List UInt8)
    (pi' : Pipe) (out rest : List UInt8) (bad : Bool) : Prop where
  queue : q = out ++ rest
  stores : Stores pi' (r + out.length) rest
  ends : pi'.readopen = pi.readopen ∧ pi'.writeopen = pi.writeopen
  short : out.length ≤ left
  good : bad = false → out.length = left ∨ rest = []
  faulted : bad = true → out.length < left ∧ rest ≠ [] ∧ fault = some (i + out.length)

theorem readLoop_spec {left : Nat} (h : Stores pi r q)
    (hl : readLoop fault left i pi = (pi', out, bad)) :
    ∃ rest, ReadSpec fault left i pi r q pi' out rest bad := by
  induction left generalizing i pi r q out with
  | zero =>
      cases hl
      exact ⟨q, rfl, h, ⟨rfl, rfl⟩, le_rfl, fun _ => .inl rfl, fun hb => by cases hb⟩
  | succ left ih =>
      unfold readLoop at hl
      by_cases hempty : pi.Empty
      · rw [if_pos hempty] at hl
        cases hl
        exact ⟨q, rfl, h, ⟨rfl, rfl⟩, Nat.zero_le _, fun _ => .inr (h.empty_iff.1 hempty),
          fun hb => by cases hb⟩
      · rw [if_neg hempty] at hl
        by_cases hfault : fault = some i
        · rw [if_pos hfault] at hl
          cases hl
          exact ⟨q, rfl, h, ⟨rfl, rfl⟩, Nat.zero_le _, fun hb => (by cases hb), fun _ =>
            ⟨Nat.succ_pos _, fun hnil => hempty (h.empty_iff.2 hnil), hfault⟩⟩
        · rw [if_neg hfault] at hl
          rcases hl' : readLoop fault left (i + 1) pi.skip with ⟨pi₁, out₁, bad₁⟩
          simp only [hl'] at hl
          cases hl
          cases q with
          | nil => exact absurd (h.empty_iff.2 rfl) hempty
          | cons ch q =>
              obtain ⟨rest, hrest⟩ := ih h.skip hl'
              refine ⟨rest, ?_, ?_, hrest.ends, Nat.succ_le_succ hrest.short, fun hb => ?_,
                fun hb => ?_⟩
              · rw [h.first, List.cons_append, hrest.queue]
              · rw [List.length_cons, Nat.add_comm out₁.length, ← Nat.add_assoc]
                exact hrest.stores
              · rcases hrest.good hb with hlen | hnil
                · exact .inl (congrArg Nat.succ hlen)
                · exact .inr hnil
              · obtain ⟨hlt, hne, hat⟩ := hrest.faulted hb
                refine ⟨Nat.succ_lt_succ hlt, hne, hat.trans (congrArg some ?_)⟩
                rw [List.length_cons]
                omega

end

/-! ## The stream -/

section
variable {P : Type} {s t : PipeState P} {a : PipeAct P} {p q : P}

def Fresh (s : PipeState P) : Prop := ∃ data, s = .fresh data

/-- Process `true` calls `pipewrite` with two bytes while `false` sleeps in `piperead`. -/
def twoProcs : PipeState Bool :=
  (piperead ((PipeState.fresh fun _ => 0).setProc false (.reading 5)) false none 5).setProc true
    (.writing [some 104, some 105] 0)

theorem reach_twoProcs : Reach PipeState.next Prompt Fresh twoProcs := by
  have h0 : Reach PipeState.next Prompt Fresh (PipeState.fresh fun _ => 0 : PipeState Bool) :=
    .start ⟨_, rfl⟩
  have h1 := Reach.step (l := PipeAct.read false 5) h0 trivial rfl
  have h2 := Reach.step (l := PipeAct.turn false none none) h1 rfl rfl
  exact .step (l := PipeAct.write true [some 104, some 105]) h2 trivial rfl

def oneTaken : PipeState Bool :=
  piperead ((piperead (pipewrite twoProcs true none [some 104, some 105] 0) false (some 0)
    5).setProc false (.reading 1)) false none 1

theorem reach_oneTaken : Reach PipeState.next Free Fresh oneTaken := by
  have h0 : Reach PipeState.next Free Fresh twoProcs := reach_twoProcs.mono fun _ _ _ => trivial
  have h1 := Reach.step (l := PipeAct.turn true none none) h0 trivial rfl
  have h2 := Reach.step (l := PipeAct.turn false none (some 0)) h1 trivial rfl
  have h3 := Reach.step (l := PipeAct.read false 1) h2 trivial rfl
  exact .step (l := PipeAct.turn false none none) h3 trivial rfl

def Carries (s : PipeState P) : Prop :=
  ∃ q, s.sent.map Prod.snd = s.taken.map Prod.snd ++ q ∧ Stores s.pipe s.taken.length q

theorem Carries.fresh (data : Nat → UInt8) : Carries (.fresh data : PipeState P) :=
  ⟨[], rfl, rfl, rfl, Nat.zero_le _, .nil⟩

theorem map_snd_tag (p : P) (out : List UInt8) :
    (out.map fun ch => (p, ch)).map Prod.snd = out := by
  rw [List.map_map]
  exact List.map_id out

variable [DecidableEq P]

theorem Carries.send (h : Carries s) (late : Option Nat) {left : List (Option UInt8)} {pi : Pipe}
    (hl : writeLoop killed left i s.pipe = (pi, out, stop)) : Carries (s.send p late pi out) := by
  obtain ⟨q, hq, hstores⟩ := h
  refine ⟨q ++ out, ?_, (writeLoop_spec hstores hl).stores⟩
  change (s.sent ++ out.map _).map Prod.snd = s.taken.map Prod.snd ++ (q ++ out)
  rw [List.map_append, map_snd_tag, hq, List.append_assoc]

omit [DecidableEq P] in
theorem Carries.take (h : Carries s) {pi : Pipe} (hl : readLoop fault n i s.pipe = (pi, out, bad)) :
    Carries (s.take p pi out) := by
  obtain ⟨q, hq, hstores⟩ := h
  obtain ⟨rest, hspec⟩ := readLoop_spec hstores hl
  refine ⟨rest, ?_, ?_⟩
  · change s.sent.map Prod.snd = (s.taken ++ out.map _).map Prod.snd ++ rest
    rw [List.map_append, map_snd_tag, hq, hspec.queue, List.append_assoc]
  · change Stores pi (s.taken ++ out.map fun ch => (p, ch)).length rest
    rw [List.length_append, List.length_map]
    exact hspec.stores

omit [DecidableEq P] in
theorem Carries.ends (h : Carries s) {r w : Bool} {proc : P → PipeProc} :
    Carries { s with pipe := { s.pipe with readopen := r, writeopen := w }, proc := proc } := by
  obtain ⟨q, hq, hstores⟩ := h
  exact ⟨q, hq, hstores.nread, hstores.nwrite, hstores.room, hstores.cells⟩

theorem Carries.step (h : Carries s) (hm : PipeMove s a t) : Carries t := by
  cases hm with
  | write | read | readFails | readSleeps | kill => exact h
  | @wrote p late _ _ _ _ _ hp hl => exact h.send late hl
  | @writeFails p late _ _ _ _ _ hp hl => exact h.send late hl
  | @writeSleeps p late _ _ _ _ _ hp hl => exact h.send late hl
  | got hp hready hl => exact h.take hl
  | closeWrite => exact h.ends
  | closeRead => exact h.ends

theorem reach_carries (h : Reach PipeState.next Free Fresh s) : Carries s := by
  refine Reach.inv ?_ ?_ h
  · rintro s ⟨data, rfl⟩
    exact .fresh data
  · intro s a t hs _ hn
    exact hs.step (next_pipeMove hn)

/-- Whatever the processes do, the bytes that have gone into a pipe are those that have come out of
it and, behind them, those in its buffer, of which there are at most `PIPESIZE`. -/
theorem pipe_stream (h : Reach PipeState.next Free Fresh s) :
    s.sent.map Prod.snd = s.taken.map Prod.snd ++ s.pipe.buffered ∧
      s.pipe.buffered.length ≤ PIPESIZE := by
  obtain ⟨q, hq, hstores⟩ := reach_carries h
  rw [hstores.buffered_eq]
  exact ⟨hq, hstores.room⟩

/-- Two bytes have gone in and one has come out. -/
theorem pipe_stream_oneTaken :
    oneTaken.sent.map Prod.snd = oneTaken.taken.map Prod.snd ++ oneTaken.pipe.buffered ∧
      oneTaken.pipe.buffered.length ≤ PIPESIZE :=
  pipe_stream reach_oneTaken

/-! ## What the calls return -/

def PipeState.sentBy (s : PipeState P) (p : P) : List UInt8 :=
  (s.sent.filter fun x => x.1 = p).map Prod.snd

def PipeState.takenBy (s : PipeState P) (p : P) : List UInt8 :=
  (s.taken.filter fun x => x.1 = p).map Prod.snd

def Told (s : PipeState P) (p : P) : PipeProc → Prop
  | .idle | .reading _ | .readSleep _ => True
  | .writing bs i | .writeSleep bs i => i ≤ bs.length ∧ bs.take i <:+ (s.sentBy p).map some
  | .wrote bs r => ∃ k ≤ bs.length, bs.take k <:+ (s.sentBy p).map some ∧
      (r = k ∧ (k = bs.length ∨ bs[k]? = some none) ∨
        r = -1 ∧ k < bs.length ∧ (s.pipe.readopen = false ∨ s.killed p = true))
  | .got n out r =>
      out <:+ s.takenBy p ∧ out.length ≤ n ∧ (r = out.length ∨ (r = -1 ∧ out = [])) ∧
        (r = 0 → n = 0 ∨ s.pipe.writeopen = false)

theorem filter_tag (out : List UInt8) :
    ((out.map fun ch => (p, ch)).filter fun x => decide (x.1 = q)).map Prod.snd =
      if p = q then out else [] := by
  by_cases hpq : p = q
  · rw [if_pos hpq, List.filter_eq_self.2, map_snd_tag]
    intro x hx
    obtain ⟨ch, -, rfl⟩ := List.mem_map.1 hx
    simpa using hpq
  · rw [if_neg hpq, List.filter_eq_nil_iff.2, List.map_nil]
    intro x hx
    obtain ⟨ch, -, rfl⟩ := List.mem_map.1 hx
    simpa using hpq

theorem sentBy_send (late : Option Nat) (pi : Pipe) (out : List UInt8) :
    (s.send p late pi out).sentBy q = s.sentBy q ++ if p = q then out else [] := by
  change ((s.sent ++ out.map _).filter _).map Prod.snd = _
  rw [List.filter_append, List.map_append, filter_tag]
  rfl

theorem takenBy_take (pi : Pipe) (out : List UInt8) :
    (s.take p pi out).takenBy q = s.takenBy q ++ if p = q then out else [] := by
  change ((s.taken ++ out.map _).filter _).map Prod.snd = _
  rw [List.filter_append, List.map_append, filter_tag]
  rfl

theorem Told.wakeReader (h : Told s p x) : Told s p x.wakeReader := by
  cases x <;> exact h

theorem Told.wakeWriter (h : Told s p x) : Told s p x.wakeWriter := by
  cases x <;> exact h

/-- What others do: they send and take their own bytes, and can only close an end or kill. -/
structure Aside (s t : PipeState P) (p : P) : Prop where
  sent : t.sentBy p = s.sentBy p
  taken : t.takenBy p = s.takenBy p
  writeopen : s.pipe.writeopen = false → t.pipe.writeopen = false
  readopen : s.pipe.readopen = false → t.pipe.readopen = false
  killed : s.killed p = true → t.killed p = true

theorem Told.mono (h : Told s p x) (ha : Aside s t p) : Told t p x := by
  cases x with
  | idle | reading | readSleep => trivial
  | writing bs i | writeSleep bs i =>
      refine ⟨h.1, ?_⟩
      rw [ha.sent]
      exact h.2
  | wrote bs r =>
      obtain ⟨k, hk, hsent, hres⟩ := h
      refine ⟨k, hk, by rw [ha.sent]; exact hsent, ?_⟩
      rcases hres with hres | ⟨hr, hlt, hwhy⟩
      · exact .inl hres
      · refine .inr ⟨hr, hlt, ?_⟩
        rcases hwhy with hopen | hkilled
        · exact .inl (ha.readopen hopen)
        · exact .inr (ha.killed hkilled)
  | got n out r =>
      obtain ⟨hout, hlen, hres, heof⟩ := h
      refine ⟨by rw [ha.taken]; exact hout, hlen, hres, fun hr => ?_⟩
      rcases heof hr with h0 | hclosed
      · exact .inl h0
      · exact .inr (ha.writeopen hclosed)

def AllTold (s : PipeState P) : Prop := ∀ q, Told s q (s.proc q)

theorem AllTold.wakeReaders (h : AllTold s) : AllTold s.wakeReaders := fun q =>
  ((h q).mono (t := s.wakeReaders) ⟨rfl, rfl, id, id, id⟩).wakeReader

theorem AllTold.wakeWriters (h : AllTold s) : AllTold s.wakeWriters := fun q =>
  ((h q).mono (t := s.wakeWriters) ⟨rfl, rfl, id, id, id⟩).wakeWriter

theorem AllTold.setProc (h : ∀ q, q ≠ p → Told s q (s.proc q)) (hx : Told s p x) :
    AllTold (s.setProc p x) := by
  intro q
  have htold : Told s q ((s.setProc p x).proc q) := by
    change Told s q (Function.update s.proc p x q)
    by_cases hq : q = p
    · subst hq
      rw [Function.update_self]
      exact hx
    · rw [Function.update_of_ne hq]
      exact h q hq
  exact htold.mono ⟨rfl, rfl, id, id, id⟩

theorem AllTold.send (h : AllTold s) {late : Option Nat} {pi : Pipe}
    (hends : pi.readopen = s.pipe.readopen ∧ pi.writeopen = s.pipe.writeopen) (q : P) (hq : q ≠ p) :
    Told (s.send p late pi out) q ((s.send p late pi out).proc q) := by
  refine (h q).mono ⟨?_, rfl, fun hw => hends.2.trans hw, fun hr => hends.1.trans hr, fun hk => ?_⟩
  · rw [sentBy_send, if_neg (Ne.symm hq), List.append_nil]
  · exact (Function.update_of_ne hq _ _).trans hk

theorem AllTold.take (h : AllTold s) {pi : Pipe}
    (hends : pi.readopen = s.pipe.readopen ∧ pi.writeopen = s.pipe.writeopen) (q : P) (hq : q ≠ p) :
    Told (s.take p pi out) q ((s.take p pi out).proc q) := by
  refine (h q).mono ⟨rfl, ?_, fun hw => hends.2.trans hw, fun hr => hends.1.trans hr, id⟩
  rw [takenBy_take, if_neg (Ne.symm hq), List.append_nil]

/-- A writer has sent the bytes up to where it is. -/
theorem suffix_send {bs : List (Option UInt8)} {pi : Pipe} {r : Nat} (late : Option Nat)
    (hw : i ≤ bs.length ∧ bs.take i <:+ (s.sentBy p).map some)
    (hspec : WriteSpec killed (bs.drop i) i s.pipe r queue pi out stop) :
    i + out.length ≤ bs.length ∧
      bs.take (i + out.length) <:+ ((s.send p late pi out).sentBy p).map some := by
  obtain ⟨hi, before, hbefore⟩ := hw
  have hshort := hspec.short
  rw [List.length_drop] at hshort
  refine ⟨by omega, ?_⟩
  rw [sentBy_send, if_pos rfl, List.map_append, hspec.bytes, ← hbefore, List.append_assoc,
    ← List.take_add]
  exact List.suffix_append _ _

/-- Why a turn of `pipewrite` has failed can be seen afterwards. -/
theorem killed_send {late : Option Nat} {j : Nat} {pi : Pipe} (h : s.killedAt p late j = true) :
    (s.send p late pi out).killed p = true := by
  change Function.update s.killed p (s.killed p || late.isSome) p = true
  rw [Function.update_self, Bool.or_eq_true]
  rw [PipeState.killedAt, Bool.or_eq_true] at h
  rcases h with h | h
  · exact .inl h
  · cases late with
    | none => cases h
    | some n => exact .inr rfl

omit [DecidableEq P] in
/-- A read that returns 0 was for nothing or found the pipe empty and closed. -/
theorem readResult_zero {pi : Pipe} {r : Nat} {rest : List UInt8} (hstores : Stores s.pipe r queue)
    (hready : ¬ (s.pipe.Empty ∧ s.pipe.writeopen = true))
    (hspec : ReadSpec fault n 0 s.pipe r queue pi out rest bad) (hr : readResult out bad = 0) :
    n = 0 ∨ pi.writeopen = false := by
  unfold readResult at hr
  split at hr
  · cases hr
  · rename_i hbad
    have hlen : out.length = 0 := by simpa using hr
    have hgood : bad = false := by simpa [hlen] using hbad
    rcases hspec.good hgood with heq | hnil
    · exact .inl (heq.symm.trans hlen)
    · have hempty : s.pipe.Empty := by
        rw [hstores.empty_iff, hspec.queue, hnil, List.append_nil]
        exact List.length_eq_zero_iff.1 hlen
      have hclosed : s.pipe.writeopen = false := by simpa [hempty] using hready
      exact .inr (hspec.ends.2.trans hclosed)

theorem AllTold.step (h : AllTold s) (hc : Carries s) (hm : PipeMove s a t) : AllTold t := by
  obtain ⟨queue, -, hstores⟩ := hc
  cases hm with
  | @write p bs hp =>
      have hx : Told s p (.writing bs 0) := ⟨Nat.zero_le _, List.nil_suffix⟩
      exact .setProc (fun q _ => h q) hx
  | @read p n hp =>
      have hx : Told s p (.reading n) := trivial
      exact .setProc (fun q _ => h q) hx
  | @wrote p late fault bs i pi out hp hl =>
      have hspec := writeLoop_spec hstores hl
      have hw := h p
      rw [hp] at hw
      have hx : Told (s.send p late pi out) p (.wrote bs (i + out.length : Nat)) := by
        obtain ⟨hle, hsent⟩ := suffix_send late hw hspec
        refine ⟨i + out.length, hle, hsent, .inl ⟨rfl, ?_⟩⟩
        rcases hspec.done rfl with hdone | ⟨rest, hdone⟩
        · rw [List.drop_drop, List.drop_eq_nil_iff] at hdone
          exact .inl (Nat.le_antisymm hle hdone)
        · have hfirst : ((bs.drop i).drop out.length)[0]? = some none := by rw [hdone]; rfl
          rw [List.drop_drop, List.getElem?_drop, Nat.add_zero] at hfirst
          exact .inr hfirst
      exact (AllTold.setProc (h.send hspec.ends) hx).wakeReaders
  | @writeFails p late fault bs i pi out hp hl =>
      have hspec := writeLoop_spec hstores hl
      have hw := h p
      rw [hp] at hw
      have hx : Told (s.send p late pi out) p (.wrote bs (-1)) := by
        obtain ⟨hle, hsent⟩ := suffix_send late hw hspec
        obtain ⟨hlt, hwhy⟩ := hspec.failed rfl
        rw [List.length_drop] at hlt
        refine ⟨i + out.length, hle, hsent, .inr ⟨rfl, by omega, ?_⟩⟩
        rcases hwhy with hopen | hkilled
        · exact .inl (hspec.ends.1.trans hopen)
        · exact .inr (killed_send hkilled)
      exact .setProc (h.send hspec.ends) hx
  | @writeSleeps p late fault bs i pi out hp hl =>
      have hspec := writeLoop_spec hstores hl
      have hw := h p
      rw [hp] at hw
      have hx : Told (s.send p late pi out) p (.writeSleep bs (i + out.length)) :=
        suffix_send _ hw hspec
      exact (AllTold.setProc (h.send hspec.ends) hx).wakeReaders
  | @readFails p late fault n hp hwait hkilled =>
      have hx : Told s p (.got n [] (-1)) :=
        ⟨List.nil_suffix, Nat.zero_le _, .inr ⟨rfl, rfl⟩, fun hr => absurd hr (by decide)⟩
      exact .setProc (fun q _ => h q) hx
  | @readSleeps p late fault n hp hwait hkilled =>
      have hx : Told s p (.readSleep n) := trivial
      exact .setProc (fun q _ => h q) hx
  | @got p late fault n pi out bad hp hready hl =>
      obtain ⟨rest, hspec⟩ := readLoop_spec hstores hl
      have hx : Told (s.take p pi out) p (.got n out (readResult out bad)) := by
        refine ⟨?_, hspec.short, ?_, fun hr => readResult_zero hstores hready hspec hr⟩
        · rw [takenBy_take, if_pos rfl]
          exact List.suffix_append _ _
        · unfold readResult
          split
          · rename_i hbad
            exact .inr ⟨rfl, List.length_eq_zero_iff.1 hbad.2⟩
          · exact .inl rfl
      exact (AllTold.setProc (h.take hspec.ends) hx).wakeWriters
  | @kill p =>
      have hset : AllTold (s.setProc p (s.proc p).wakeReader.wakeWriter) :=
        .setProc (fun q _ => h q) (h p).wakeReader.wakeWriter
      refine fun q => (hset q).mono ⟨rfl, rfl, id, id, fun hk => ?_⟩
      change Function.update s.killed p true q = true
      by_cases hq : q = p
      · rw [hq, Function.update_self]
      · rw [Function.update_of_ne hq]
        exact hk
  | closeWrite =>
      have hclosed : AllTold ({ s with pipe := { s.pipe with writeopen := false } }) :=
        fun q => (h q).mono ⟨rfl, rfl, fun _ => rfl, id, id⟩
      exact hclosed.wakeReaders
  | closeRead =>
      have hclosed : AllTold ({ s with pipe := { s.pipe with readopen := false } }) :=
        fun q => (h q).mono ⟨rfl, rfl, id, fun _ => rfl, id⟩
      exact hclosed.wakeWriters

/-- What a turn of `piperead` returns, if it returns: `m` bytes are asked for and there, and `copyout`
may fail before it has copied them. -/
def readReturn (n : Nat) (queue : List UInt8) (fault : Option Nat) : PipeProc :=
  let m := min n queue.length
  match fault with
  | none => .got n (queue.take m) m
  | some f =>
      if f < m then .got n (queue.take f) (if f = 0 then -1 else f) else .got n (queue.take m) m

omit [DecidableEq P] in
theorem ReadSpec.returns {pi pi' : Pipe} {r : Nat} {rest : List UInt8}
    (h : ReadSpec fault n 0 pi r queue pi' out rest bad)
    (hfault : ∀ f, fault = some f → f < out.length → False) :
    .got n out (readResult out bad) = readReturn n queue fault := by
  have hqueue := h.queue
  have hshort := h.short
  have hlen : queue.length = out.length + rest.length := by rw [hqueue, List.length_append]
  have htake : queue.take out.length = out := by rw [hqueue, List.take_left]
  cases bad with
  | true =>
      obtain ⟨hlt, hne, hat⟩ := h.faulted rfl
      rw [Nat.zero_add] at hat
      have hpos := List.length_pos_iff.2 hne
      have hless : out.length < min n queue.length := by omega
      rw [hat]
      simp only [readReturn, readResult, if_pos hless, htake, true_and]
  | false =>
      have hm : min n queue.length = out.length := by
        rcases h.good rfl with heq | hnil
        · omega
        · rw [hnil, List.length_nil] at hlen
          omega
      cases hf : fault with
      | none => simp [readReturn, readResult, hm, htake]
      | some f =>
          have hge : ¬ f < out.length := hfault f hf
          simp [readReturn, readResult, hm, htake, hge]

end

end G9OS.Pipes
