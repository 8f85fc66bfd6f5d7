import Mathlib

/-! # C strings as values

A string is the bytes in front of its terminating zero. Here are the comparison and the search
of the C library over such strings, and numbers as `printf` writes them.
-/

namespace G9OS.Lib

structure CStr where
  bytes : List UInt8
  nonzero : 0 ∉ bytes
deriving DecidableEq, Repr

/-- The string in a buffer with these bytes, which a zero byte follows. -/
def cstring (buf : List UInt8) : List UInt8 := buf.takeWhile (· != 0)

/-- `strcmp`: the difference of the first bytes that differ, where the end counts as 0. -/
def strcmp : List UInt8 → List UInt8 → Int
  | [], [] => 0
  | [], b :: _ => -b.toNat
  | a :: _, [] => a.toNat
  | a :: s, b :: t => if a = b then strcmp s t else a.toNat - b.toNat

/-- `strstr`: where the first occurrence begins. -/
def strstr : List UInt8 → List UInt8 → Option Nat
  | [], needle => if needle.isPrefixOf [] then some 0 else none
  | b :: hay, needle =>
      if needle.isPrefixOf (b :: hay) then some 0 else (strstr hay needle).map (· + 1)

/-- `%ld` -/
def decimal (n : Int) : List UInt8 :=
  let digits := (Nat.toDigits 10 n.natAbs).map fun c => UInt8.ofNat c.toNat
  if n < 0 then 45 :: digits else digits

/-- A field of at least `w` bytes. -/
def padLeft (w : Nat) (text : List UInt8) : List UInt8 :=
  List.replicate (w - text.length) 32 ++ text

/-! ## Comparing -/

theorem strcmp_neg (s t : List UInt8) : strcmp t s = -strcmp s t := by
  induction s generalizing t with
  | nil =>
      cases t with
      | nil => rfl
      | cons b t => exact (Int.neg_neg _).symm
  | cons a s ih =>
      cases t with
      | nil => rfl
      | cons b t =>
          by_cases h : a = b
          · rw [strcmp, strcmp, if_pos h, if_pos h.symm]
            exact ih t
          · rw [strcmp, strcmp, if_neg h, if_neg (Ne.symm h)]
            omega

theorem strcmp_nil_le (t : List UInt8) : strcmp [] t ≤ 0 := by
  cases t with
  | nil => exact le_rfl
  | cons b t =>
      rw [strcmp]
      omega

theorem strcmp_cons_le_iff {a b : UInt8} {s t : List UInt8} :
    strcmp (a :: s) (b :: t) ≤ 0 ↔ a.toNat < b.toNat ∨ a = b ∧ strcmp s t ≤ 0 := by
  rw [strcmp]
  split
  · rename_i h
    subst h
    simp
  · rename_i h
    have hne : a.toNat ≠ b.toNat := fun he => h (UInt8.toNat_inj.1 he)
    constructor
    · intro hle
      left
      omega
    · rintro (hlt | ⟨he, -⟩)
      · omega
      · exact absurd he h

theorem not_strcmp_cons_nil {a : UInt8} {s : List UInt8} (ha : a ≠ 0) :
    ¬ strcmp (a :: s) [] ≤ 0 := by
  have hne : a.toNat ≠ 0 := fun he => ha (UInt8.toNat_inj.1 he)
  rw [strcmp]
  omega

theorem strcmp_trans {s t u : List UInt8} (hs : 0 ∉ s) (ht : 0 ∉ t) (hst : strcmp s t ≤ 0)
    (htu : strcmp t u ≤ 0) : strcmp s u ≤ 0 := by
  induction s generalizing t u with
  | nil => exact strcmp_nil_le u
  | cons a s ih =>
      rw [List.mem_cons, not_or] at hs
      cases t with
      | nil => exact absurd hst (not_strcmp_cons_nil (Ne.symm hs.1))
      | cons b t =>
          rw [List.mem_cons, not_or] at ht
          cases u with
          | nil => exact absurd htu (not_strcmp_cons_nil (Ne.symm ht.1))
          | cons c u =>
              rw [strcmp_cons_le_iff] at hst htu ⊢
              rcases hst with hab | ⟨rfl, hst⟩
              · rcases htu with hbc | ⟨rfl, -⟩
                · exact .inl (hab.trans hbc)
                · exact .inl hab
              · rcases htu with hac | ⟨rfl, htu⟩
                · exact .inl hac
                · exact .inr ⟨rfl, ih hs.2 ht.2 hst htu⟩

/-! ## Searching -/

theorem strstr_isSome {hay needle : List UInt8} :
    (strstr hay needle).isSome = true ↔ needle <:+: hay := by
  induction hay with
  | nil =>
      rw [strstr, List.infix_nil]
      cases needle with
      | nil => exact iff_of_true rfl rfl
      | cons b needle => exact iff_of_false nofun nofun
  | cons b hay ih =>
      rw [strstr, List.infix_cons_iff, ← ih]
      split
      · rename_i h
        exact iff_of_true rfl (.inl (List.isPrefixOf_iff_prefix.1 h))
      · rename_i h
        rw [Option.isSome_map]
        exact ⟨.inr, fun hor => hor.resolve_left fun hp => h (List.isPrefixOf_iff_prefix.2 hp)⟩

/-! ## Buffers -/

theorem cstring_of_notMem {buf : List UInt8} (h : 0 ∉ buf) : cstring buf = buf := by
  refine List.takeWhile_eq_self_iff.2 fun b hb => bne_iff_ne.2 ?_
  rintro rfl
  exact h hb

theorem cstring_append_of_mem {buf : List UInt8} (h : 0 ∈ buf) (rest : List UInt8) :
    cstring (buf ++ rest) = cstring buf := by
  obtain ⟨front, back, rfl, hfront⟩ := List.eq_append_cons_of_mem h
  have hcut : ∀ back : List UInt8, cstring (front ++ 0 :: back) = front := by
    intro back
    unfold cstring
    rw [List.takeWhile_append_of_pos, List.takeWhile_cons_of_neg (by decide), List.append_nil]
    intro b hb
    refine bne_iff_ne.2 ?_
    rintro rfl
    exact hfront hb
  rw [List.append_assoc, List.cons_append, hcut, hcut]

/-! ## Printed text -/

theorem mem_decimal {n : Int} {c : UInt8} (h : c ∈ decimal n) :
    c = 45 ∨ 48 ≤ c.toNat ∧ c.toNat ≤ 57 := by
  have hdigit : ∀ d ∈ Nat.toDigits 10 n.natAbs, UInt8.ofNat d.toNat = c →
      48 ≤ c.toNat ∧ c.toNat ≤ 57 := by
    intro d hd heq
    have hrange := Nat.isDigit_of_mem_toDigits (by decide) (by decide) hd
    rw [Char.isDigit, Bool.and_eq_true, decide_eq_true_eq, decide_eq_true_eq] at hrange
    have hlow : 48 ≤ d.toNat := hrange.1
    have hhigh : d.toNat ≤ 57 := hrange.2
    have hval := congrArg UInt8.toNat heq
    rw [UInt8.toNat_ofNat'] at hval
    omega
  unfold decimal at h
  split at h
  · rcases List.mem_cons.1 h with rfl | hdig
    · exact .inl rfl
    · obtain ⟨d, hd, heq⟩ := List.mem_map.1 hdig
      exact .inr (hdigit d hd heq)
  · obtain ⟨d, hd, heq⟩ := List.mem_map.1 h
    exact .inr (hdigit d hd heq)

/-- What stands in front of the first separator, and what behind it. -/
theorem append_sep_inj {α : Type} {sep : α} {x y s t : List α} (hx : sep ∉ x) (hy : sep ∉ y)
    (h : x ++ sep :: s = y ++ sep :: t) : x = y ∧ s = t := by
  induction x generalizing y with
  | nil =>
      cases y with
      | nil => exact ⟨rfl, (List.cons.inj h).2⟩
      | cons b y => exact absurd (List.mem_cons.2 (.inl (List.cons.inj h).1)) hy
  | cons a x ih =>
      cases y with
      | nil => exact absurd (List.mem_cons.2 (.inl (List.cons.inj h).1.symm)) hx
      | cons b y =>
          have hab := (List.cons.inj h).1
          have htail := ih (fun hm => hx (List.mem_cons_of_mem a hm))
            (fun hm => hy (List.mem_cons_of_mem b hm)) (List.cons.inj h).2
          exact ⟨by rw [hab, htail.1], htail.2⟩

/-- Records with a common beginning and a separator behind them can be read back. -/
theorem flatMap_terminated_inj {α : Type} {sep : α} (start : List α) {xs ys : List (List α)}
    (hx : ∀ x ∈ xs, sep ∉ x) (hy : ∀ y ∈ ys, sep ∉ y)
    (h : xs.flatMap (fun x => start ++ x ++ [sep]) = ys.flatMap (fun y => start ++ y ++ [sep])) :
    xs = ys := by
  induction xs generalizing ys with
  | nil =>
      cases ys with
      | nil => rfl
      | cons y ys => simp at h
  | cons x xs ih =>
      cases ys with
      | nil => simp at h
      | cons y ys =>
          simp only [List.flatMap_cons, List.append_assoc, List.append_cancel_left_eq] at h
          rw [List.forall_mem_cons] at hx hy
          obtain ⟨hhead, htail⟩ := append_sep_inj hx.1 hy.1 h
          rw [hhead, ih hx.2 hy.2 (by simpa only [List.append_assoc] using! htail)]

end G9OS.Lib
