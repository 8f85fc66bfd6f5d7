import Mathlib

/-! # Circular doubly linked lists with a head

The nodes are `none`, which is the head, and `some b`. A list stands in the links when each node and
the one behind it point at each other. Pushing, unlinking and the walks in both directions are then
operations on that list.
-/

namespace G9OS.Lib

structure Dlist (ι : Type) where
  next : Option ι → Option ι
  prev : Option ι → Option ι

section
variable {ι : Type}

def Dlist.empty : Dlist ι := ⟨fun _ => none, fun _ => none⟩

def Dlist.flip (d : Dlist ι) : Dlist ι := ⟨d.prev, d.next⟩

/-- The nodes from `x` to `y`, with `l` between them. -/
inductive Linked (d : Dlist ι) : Option ι → List ι → Option ι → Prop
  | nil {x y : Option ι} (hn : d.next x = y) (hp : d.prev y = x) : Linked d x [] y
  | cons {x y : Option ι} {b : ι} {l : List ι} (hn : d.next x = some b)
      (hp : d.prev (some b) = x) (h : Linked d (some b) l y) : Linked d x (b :: l) y

structure Dlist.Is (d : Dlist ι) (l : List ι) : Prop where
  nodup : l.Nodup
  linked : Linked d none l none

variable {d d' : Dlist ι} {x y : Option ι} {b : ι} {l l₁ l₂ : List ι}

theorem Linked.congr (h : Linked d x l y)
    (hn : ∀ z, z = x ∨ z ∈ l.map some → d'.next z = d.next z)
    (hp : ∀ z, z ∈ l.map some ∨ z = y → d'.prev z = d.prev z) : Linked d' x l y := by
  induction h with
  | nil hn' hp' =>
      exact .nil ((hn _ (.inl rfl)).trans hn') ((hp _ (.inr rfl)).trans hp')
  | cons hn' hp' _ ih =>
      refine .cons ((hn _ (.inl rfl)).trans hn')
        ((hp _ (.inl List.mem_cons_self)).trans hp') (ih ?_ ?_)
      · rintro z (rfl | hz)
        · exact hn _ (.inr List.mem_cons_self)
        · exact hn z (.inr (List.mem_cons_of_mem _ hz))
      · rintro z (hz | rfl)
        · exact hp z (.inl (List.mem_cons_of_mem _ hz))
        · exact hp _ (.inr rfl)

theorem Linked.append (h₁ : Linked d x l₁ (some b)) (h₂ : Linked d (some b) l₂ y) :
    Linked d x (l₁ ++ b :: l₂) y := by
  induction l₁ generalizing x with
  | nil =>
      cases h₁ with
      | nil hn hp => exact .cons hn hp h₂
  | cons a l₁ ih =>
      cases h₁ with
      | cons hn hp h => exact .cons hn hp (ih h)

theorem Linked.split (h : Linked d x (l₁ ++ b :: l₂) y) :
    Linked d x l₁ (some b) ∧ Linked d (some b) l₂ y := by
  induction l₁ generalizing x with
  | nil =>
      cases h with
      | cons hn hp h => exact ⟨.nil hn hp, h⟩
  | cons a l₁ ih =>
      cases h with
      | cons hn hp h =>
          obtain ⟨h₁, h₂⟩ := ih h
          exact ⟨.cons hn hp h₁, h₂⟩

theorem Linked.flip (h : Linked d x l y) : Linked d.flip y l.reverse x := by
  induction h with
  | nil hn hp => exact .nil hp hn
  | @cons x y b l hn hp _ ih =>
      rw [List.reverse_cons]
      exact Linked.append ih (.nil hp hn)

theorem Linked.next_mem (h : Linked d x l y) : d.next x ∈ l.map some ∨ d.next x = y := by
  cases h with
  | nil hn => exact .inr hn
  | cons hn =>
      rw [hn]
      exact .inl List.mem_cons_self

theorem Linked.prev_mem (h : Linked d x l y) : d.prev y ∈ l.map some ∨ d.prev y = x := by
  have hmem := h.flip.next_mem
  rw [List.map_reverse, List.mem_reverse] at hmem
  exact hmem

/-! ## Walks -/

/-- The first node that meets `p`, from a node on to the head. -/
def search (step : Option ι → Option ι) (p : ι → Bool) : Nat → Option ι → Option ι
  | 0, _ => none
  | _ + 1, none => none
  | n + 1, some b => if p b then some b else search step p n (step (some b))

theorem Linked.search_next (h : Linked d x l none) (p : ι → Bool) {n : Nat}
    (hn : l.length ≤ n) : search d.next p n (d.next x) = l.find? p := by
  induction l generalizing x n with
  | nil =>
      cases h with
      | nil hx _ =>
          rw [hx]
          cases n <;> rfl
  | cons b l ih =>
      cases h with
      | cons hx _ h =>
          obtain ⟨n, rfl⟩ := Nat.exists_eq_add_of_le' (Nat.lt_of_lt_of_le (Nat.succ_pos _) hn)
          rw [hx, search, List.find?_cons, ih h (Nat.le_of_succ_le_succ hn)]
          cases p b <;> rfl

theorem Dlist.Is.search_next (h : d.Is l) (p : ι → Bool) {n : Nat} (hn : l.length ≤ n) :
    search d.next p n (d.next none) = l.find? p :=
  h.linked.search_next p hn

theorem Dlist.Is.search_prev (h : d.Is l) (p : ι → Bool) {n : Nat} (hn : l.length ≤ n) :
    search d.prev p n (d.prev none) = l.reverse.find? p :=
  h.linked.flip.search_next p (by rwa [List.length_reverse])

end

/-! ## Changes -/

section
variable {ι : Type} [DecidableEq ι]

def Dlist.pushFront (d : Dlist ι) (b : ι) : Dlist ι :=
  let first := d.next none
  { next := Function.update (Function.update d.next (some b) first) none (some b)
    prev := Function.update (Function.update d.prev (some b) none) first (some b) }

def Dlist.unlink (d : Dlist ι) (b : ι) : Dlist ι :=
  let prev := Function.update d.prev (d.next (some b)) (d.prev (some b))
  { next := Function.update d.next (prev (some b)) (d.next (some b))
    prev := prev }

variable {d : Dlist ι} {x y : Option ι} {b : ι} {l l₁ l₂ : List ι}

omit [DecidableEq ι] in
theorem Dlist.empty_is : (Dlist.empty : Dlist ι).Is [] := ⟨List.nodup_nil, .nil rfl rfl⟩

theorem Dlist.Is.pushFront (h : d.Is l) (hb : b ∉ l) : (d.pushFront b).Is (b :: l) := by
  refine ⟨List.nodup_cons.2 ⟨hb, h.nodup⟩, ?_⟩
  have hlinked := h.linked
  cases hlinked with
  | nil hn hp =>
      refine .cons ?_ ?_ (.nil ?_ ?_) <;> simp [Dlist.pushFront, hn]
  | @cons _ _ c l hn hp hl =>
      have hbc : b ≠ c := fun heq => hb (heq ▸ List.mem_cons_self)
      have hcl := (List.nodup_cons.1 h.nodup).1
      refine .cons ?_ ?_ (.cons ?_ ?_ (hl.congr ?_ ?_))
      · simp [Dlist.pushFront]
      · simp [Dlist.pushFront, hn, hbc]
      · simp [Dlist.pushFront, hn]
      · simp [Dlist.pushFront, hn]
      · intro z hz
        have hne : z ≠ none ∧ z ≠ some b := by
          rcases hz with rfl | hz
          · exact ⟨by simp, by simpa using hbc.symm⟩
          · obtain ⟨a, ha, rfl⟩ := List.mem_map.1 hz
            exact ⟨by simp, fun heq => hb (Option.some.inj heq ▸ List.mem_cons_of_mem _ ha)⟩
        simp [Dlist.pushFront, hne.1, hne.2]
      · intro z hz
        have hne : z ≠ some c ∧ z ≠ some b := by
          rcases hz with hz | rfl
          · obtain ⟨a, ha, rfl⟩ := List.mem_map.1 hz
            exact ⟨fun heq => hcl (Option.some.inj heq ▸ ha),
              fun heq => hb (Option.some.inj heq ▸ List.mem_cons_of_mem _ ha)⟩
          · exact ⟨by simp, by simp⟩
        simp [Dlist.pushFront, hn, hne.1, hne.2]

theorem Linked.bypass (h₁ : Linked d x l₁ (some b)) (h₂ : Linked d (some b) l₂ y)
    (hnodup : (l₁ ++ l₂).Nodup) (hx : x ∉ (l₁ ++ l₂).map some) (hy : y ∉ (l₁ ++ l₂).map some) :
    Linked ⟨Function.update d.next (d.prev (some b)) (d.next (some b)),
      Function.update d.prev (d.next (some b)) (d.prev (some b))⟩ x (l₁ ++ l₂) y := by
  induction l₁ generalizing x with
  | nil =>
      cases h₁ with
      | nil hn hp =>
          cases h₂ with
          | nil hn' hp' => exact .nil (by simp [hp, hn']) (by simp [hp, hn'])
          | @cons _ _ c l hn' hp' h =>
              refine .cons (by simp [hp, hn']) (by simp [hp, hn']) (h.congr ?_ ?_)
              · intro z hz
                have hne : z ≠ x := by
                  rintro rfl
                  refine hx ?_
                  rcases hz with rfl | hz
                  · exact List.mem_cons_self
                  · exact List.mem_cons_of_mem _ hz
                simp [hp, hne]
              · intro z hz
                have hne : z ≠ some c := by
                  rcases hz with hz | rfl
                  · obtain ⟨a, ha, rfl⟩ := List.mem_map.1 hz
                    exact fun heq => (List.nodup_cons.1 hnodup).1 (Option.some.inj heq ▸ ha)
                  · rintro rfl
                    exact hy List.mem_cons_self
                simp [hn', hne]
  | cons a l₁ ih =>
      cases h₁ with
      | cons hn hp h =>
          have hnodup' := List.nodup_cons.1 hnodup
          refine .cons ?_ ?_ (ih h hnodup'.2 ?_ ?_)
          · have hne : x ≠ d.prev (some b) := by
              rintro rfl
              refine hx (List.mem_map.2 ?_)
              rcases h.prev_mem with hmem | heq
              · obtain ⟨c, hc, hceq⟩ := List.mem_map.1 hmem
                exact ⟨c, List.mem_cons_of_mem _ (List.mem_append_left _ hc), hceq⟩
              · exact ⟨a, List.mem_cons_self, heq.symm⟩
            simp [hne, hn]
          · have hne : some a ≠ d.next (some b) := by
              intro heq
              rcases h₂.next_mem with hmem | hnext
              · rw [← heq] at hmem
                obtain ⟨c, hc, hceq⟩ := List.mem_map.1 hmem
                exact hnodup'.1 (List.mem_append_right _ (Option.some.inj hceq ▸ hc))
              · rw [← heq] at hnext
                exact hy (hnext ▸ List.mem_cons_self)
            simp [hne, hp]
          · intro hmem
            obtain ⟨c, hc, hceq⟩ := List.mem_map.1 hmem
            exact hnodup'.1 (Option.some.inj hceq ▸ hc)
          · exact fun hmem => hy (List.mem_cons_of_mem _ hmem)

theorem Dlist.Is.unlink (h : d.Is (l₁ ++ b :: l₂)) : (d.unlink b).Is (l₁ ++ l₂) := by
  obtain ⟨h₁, h₂⟩ := h.linked.split
  have hnodup := List.nodup_middle.1 h.nodup
  obtain ⟨hb, hrest⟩ := List.nodup_cons.1 hnodup
  have hnone : none ∉ (l₁ ++ l₂).map some := by simp
  refine ⟨hrest, ?_⟩
  have hne : some b ≠ d.next (some b) := by
    intro heq
    rcases h₂.next_mem with hmem | hnext
    · rw [← heq] at hmem
      obtain ⟨c, hc, hceq⟩ := List.mem_map.1 hmem
      exact hb (List.mem_append_right _ (Option.some.inj hceq ▸ hc))
    · rw [← heq] at hnext
      cases hnext
  have heq : d.unlink b = ⟨Function.update d.next (d.prev (some b)) (d.next (some b)),
      Function.update d.prev (d.next (some b)) (d.prev (some b))⟩ := by
    simp [Dlist.unlink, hne]
  rw [heq]
  exact h₁.bypass h₂ hrest hnone hnone

/-- A node that is taken out and put behind the head again. -/
theorem Dlist.Is.toFront (h : d.Is (l₁ ++ b :: l₂)) :
    ((d.unlink b).pushFront b).Is (b :: (l₁ ++ l₂)) :=
  h.unlink.pushFront (List.nodup_cons.1 (List.nodup_middle.1 h.nodup)).1

/-- Nodes pushed one after the other stand in the opposite order. -/
theorem Dlist.Is.foldl_pushFront {bs : List ι} (h : d.Is l) (hbs : (bs.reverse ++ l).Nodup) :
    (bs.foldl Dlist.pushFront d).Is (bs.reverse ++ l) := by
  induction bs generalizing d l with
  | nil => exact h
  | cons b bs ih =>
      rw [List.reverse_cons, List.append_assoc] at hbs ⊢
      have hb := (List.nodup_cons.1 hbs.of_append_right).1
      exact ih (h.pushFront hb) hbs

end

end G9OS.Lib
