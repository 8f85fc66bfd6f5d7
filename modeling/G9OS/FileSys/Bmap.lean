import G9OS.Lib.Owned
import G9OS.FileSys.Blocks

/-! # The blocks of a file (`bmap` in `fs.c`)

An inode refers to its blocks by the numbers in `addrs` and by those in the indirect block that the
last of them names. Over all inodes, every used data block is referred to from exactly one place.
-/

namespace G9OS.FileSys

open Lib

/-- The place of the number of the indirect block. -/
def indirect : Fin (NDIRECT + 1) := Fin.last NDIRECT

/-- A place for the number of a block: in the inode or in its indirect block. -/
inductive Slot
  | addr (i : Fin (NDIRECT + 1))
  | entry (j : Nat)
deriving DecidableEq

/-- The number at a place; 0 is none. -/
def Dinode.ref (ip : Dinode) (d : Nat → Block) : Slot → Nat
  | .addr i => (ip.addrs i).toNat
  | .entry j =>
      if ip.addrs indirect ≠ 0 ∧ j < NINDIRECT then getLE (d (ip.addrs indirect).toNat) 4 (4 * j)
      else 0

/-- The place of block number `bn` of a file. -/
def slotOf (bn : Nat) : Slot :=
  if bn < NDIRECT then .addr (Fin.ofNat (NDIRECT + 1) bn) else .entry (bn - NDIRECT)

/-! ## The code -/

def Dinode.setAddr (ip : Dinode) (i : Fin (NDIRECT + 1)) (a : UInt32) : Dinode :=
  { ip with addrs := Function.update ip.addrs i a }

def addrOrAlloc (sb : Superblock) (s : Blocks) (ip : Dinode) (i : Fin (NDIRECT + 1)) :
    Nat × Blocks × Dinode :=
  if ip.addrs i = 0 then
    let (addr, s) := balloc sb s
    if addr = 0 then (0, s, ip)
    else (addr, s, ip.setAddr i (UInt32.ofNat addr))
  else ((ip.addrs i).toNat, s, ip)

def entryOrAlloc (sb : Superblock) (s : Blocks) (bp bn : Nat) : Nat × Blocks :=
  let addr := getLE (s.data bp) 4 (4 * bn)
  if addr = 0 then
    let (addr, s) := balloc sb s
    if addr = 0 then (0, s) else (addr, s.logWrite bp (putLE (s.data bp) 4 (4 * bn) addr))
  else (addr, s)

def bmap (sb : Superblock) (s : Blocks) (ip : Dinode) (bn : Nat) :
    Except FsPanic (Nat × Blocks × Dinode) :=
  if bn < NDIRECT then .ok (addrOrAlloc sb s ip (Fin.ofNat (NDIRECT + 1) bn))
  else if bn - NDIRECT < NINDIRECT then
    let (addr, s, ip) := addrOrAlloc sb s ip indirect
    if addr = 0 then .ok (0, s, ip)
    else
      let (addr, s) := entryOrAlloc sb s addr (bn - NDIRECT)
      .ok (addr, s, ip)
  else .error .bmapOutOfRange

/-! ## Soundness of the disk -/

/-- The numbers at all places of all inodes. -/
def refs (ino : Nat → Dinode) (d : Nat → Block) (x : Nat × Slot) : Nat := (ino x.1).ref d x.2

structure Sound (sb : Superblock) (d : Nat → Block) (ino : Nat → Dinode) : Prop where
  owned : Owned sb.InData (sb.bit d) (refs ino d)
  metas : ∀ b < sb.dataStart, sb.bit d b = true
  mapped : ∀ inum bn, bn * BSIZE < (ino inum).size.toNat → refs ino d (inum, slotOf bn) ≠ 0
  small : ∀ inum, (ino inum).size.toNat ≤ MAXFILE * BSIZE
  free : ∀ inum, (ino inum).type = 0 → (ino inum).size = 0 ∧ ∀ x, refs ino d (inum, x) = 0

/-- Byte number `q` of a file, also behind its end; 0 where there is no block. -/
def Dinode.byte (ip : Dinode) (d : Nat → Block) (q : Nat) : UInt8 :=
  if ip.ref d (slotOf (q / BSIZE)) = 0 then 0 else d (ip.ref d (slotOf (q / BSIZE))) (q % BSIZE)

section
variable {sb : Superblock} {d d' : Nat → Block} {ino ino' : Nat → Dinode} {ip : Dinode}
  {inum j b c q bn : Nat} {x : Slot}

theorem slotOf_ne_indirect : slotOf bn ≠ .addr indirect := by
  unfold slotOf
  split
  · rename_i h
    intro heq
    have hval := congrArg Fin.val (Slot.addr.inj heq)
    rw [Fin.val_ofNat, Nat.mod_eq_of_lt (Nat.lt_succ_of_lt h)] at hval
    exact absurd hval h.ne
  · exact fun heq => by cases heq

theorem slotOf_inj {m : Nat} (h : slotOf bn = slotOf m) : bn = m := by
  unfold slotOf at h
  split at h
  · rename_i hbn
    split at h
    · rename_i hm
      have hval := congrArg Fin.val (Slot.addr.inj h)
      rwa [Fin.val_ofNat, Fin.val_ofNat, Nat.mod_eq_of_lt (Nat.lt_succ_of_lt hbn),
        Nat.mod_eq_of_lt (Nat.lt_succ_of_lt hm)] at hval
    · cases h
  · rename_i hbn
    split at h
    · cases h
    · rename_i hm
      have hval := Slot.entry.inj h
      rw [← Nat.sub_add_cancel (Nat.le_of_not_lt hbn), hval,
        Nat.sub_add_cancel (Nat.le_of_not_lt hm)]

theorem getLE_zero {w p : Nat} : getLE (fun _ => 0) w p = 0 := by
  induction w generalizing p with
  | zero => rfl
  | succ w ih => rw [getLE, ih]; rfl

theorem Dinode.ref_congr
    (h : ip.addrs indirect ≠ 0 → d' (ip.addrs indirect).toNat = d (ip.addrs indirect).toNat) :
    ip.ref d' x = ip.ref d x := by
  cases x with
  | addr i => rfl
  | entry j =>
      rw [Dinode.ref, Dinode.ref]
      split
      · rename_i hin
        rw [h hin.1]
      · rfl

theorem setAddr_self {i : Fin (NDIRECT + 1)} {a : UInt32} : (ip.setAddr i a).addrs i = a :=
  Function.update_self ..

theorem setAddr_of_ne {i k : Fin (NDIRECT + 1)} {a : UInt32} (h : k ≠ i) :
    (ip.setAddr i a).addrs k = ip.addrs k := Function.update_of_ne h _ _

theorem ref_entry_congr {ip' : Dinode} {k : Nat} (h : ip'.addrs indirect = ip.addrs indirect) :
    ip'.ref d (.entry k) = ip.ref d (.entry k) := by
  rw [Dinode.ref, Dinode.ref]
  simp only [h]

theorem refs_update_self {v : Dinode} :
    refs (Function.update ino inum v) d (inum, x) = v.ref d x := by
  rw [refs, Function.update_self]

theorem refs_update_of_ne {v : Dinode} (h : j ≠ inum) :
    refs (Function.update ino inum v) d (j, x) = refs ino d (j, x) := by
  rw [refs, refs, Function.update_of_ne h]

theorem Dinode.byte_congr {ip' : Dinode}
    (href : ip'.ref d' (slotOf (q / BSIZE)) = ip.ref d (slotOf (q / BSIZE)))
    (hdata : ip.ref d (slotOf (q / BSIZE)) ≠ 0 →
      d' (ip.ref d (slotOf (q / BSIZE))) = d (ip.ref d (slotOf (q / BSIZE)))) :
    ip'.byte d' q = ip.byte d q := by
  unfold Dinode.byte
  rw [href]
  split
  · rfl
  · rename_i hne
    rw [hdata hne]

theorem toNat_ne_zero {a : UInt32} : a.toNat ≠ 0 ↔ a ≠ 0 := by
  rw [ne_eq, ne_eq, ← UInt32.toNat_inj]
  rfl

theorem Sound.indirect_inData (h : Sound sb d ino) (ha : (ino j).addrs indirect ≠ 0) :
    sb.InData ((ino j).addrs indirect).toNat :=
  h.owned.inArea (j, .addr indirect) (toNat_ne_zero.2 ha)

theorem Sound.indirect_used (h : Sound sb d ino) (ha : (ino j).addrs indirect ≠ 0) :
    sb.bit d ((ino j).addrs indirect).toNat = true :=
  h.owned.marked (j, .addr indirect) (toNat_ne_zero.2 ha)

theorem Sound.inData_of_free (h : Sound sb d ino) (hlt : b < sb.size) (hb : sb.bit d b = false) :
    sb.InData b := by
  refine ⟨Nat.le_of_not_lt fun hmeta => ?_, hlt⟩
  rw [h.metas b hmeta] at hb
  cases hb

theorem ne_of_bit (hb : sb.bit d b = false) (hc : sb.bit d c = true) : c ≠ b := by
  rintro rfl
  rw [hb] at hc
  cases hc

theorem Sound.attach (h : Sound sb d ino) {x : Nat × Slot} (hb : sb.InData b)
    (hfree : sb.bit d b = false) (hx : refs ino d x = 0) (htype : (ino x.1).type ≠ 0)
    (hfields : ∀ j, (ino' j).type = (ino j).type ∧ (ino' j).size = (ino j).size)
    (hrefs : refs ino' d' = Function.update (refs ino d) x b)
    (hbits : ∀ c < sb.size, sb.bit d' c = Function.update (sb.bit d) b true c) :
    Sound sb d' ino' where
  owned := by
    rw [hrefs]
    exact (h.owned.take hx hb hfree).congr fun c hc => hbits c hc.2
  metas c hc := by
    rw [hbits c (hc.trans_le dataStart_le)]
    have hne : c ≠ b := fun heq => absurd hb.1 (Nat.not_le.2 (heq ▸ hc))
    rw [Function.update_of_ne hne]
    exact h.metas c hc
  mapped j bn hlt := by
    rw [(hfields j).2] at hlt
    rw [hrefs]
    by_cases heq : (j, slotOf bn) = x
    · rw [heq, Function.update_self]
      exact fun h0 => not_inData_zero (h0 ▸ hb)
    · rw [Function.update_of_ne heq]
      exact h.mapped j bn hlt
  small j := by
    rw [(hfields j).2]
    exact h.small j
  free j hj := by
    rw [(hfields j).1] at hj
    have hne : ∀ y, (j, y) ≠ x := by
      rintro y rfl
      exact htype hj
    rw [(hfields j).2, hrefs]
    refine ⟨(h.free j hj).1, fun y => ?_⟩
    rw [Function.update_of_ne (hne y)]
    exact (h.free j hj).2 y

theorem attach_byte {x : Nat × Slot} (hx : refs ino d x = 0)
    (hrefs : refs ino' d' = Function.update (refs ino d) x b) (hzero : d' b = fun _ => 0)
    (hdata : ∀ y : Nat × Slot, y.2 ≠ .addr indirect → refs ino d y ≠ 0 →
      d' (refs ino d y) = d (refs ino d y)) (j q : Nat) :
    (ino' j).byte d' q = (ino j).byte d q := by
  by_cases heq : (j, slotOf (q / BSIZE)) = x
  · have hbefore : (ino j).byte d q = 0 := by
      unfold Dinode.byte
      rw [if_pos]
      rw [← heq] at hx
      exact hx
    have hafter : (ino' j).ref d' (slotOf (q / BSIZE)) = b := by
      have := congrFun hrefs x
      rw [Function.update_self, ← heq] at this
      exact this
    rw [hbefore]
    unfold Dinode.byte
    rw [hafter, hzero]
    split <;> rfl
  · apply Dinode.byte_congr
    · have := congrFun hrefs (j, slotOf (q / BSIZE))
      rwa [Function.update_of_ne heq] at this
    · exact hdata (j, slotOf (q / BSIZE)) slotOf_ne_indirect

end

/-! ## A new block for a file -/

section
variable {sb : Superblock} {s : Blocks} {ino : Nat → Dinode} {ip : Dinode} {inum b : Nat}
  {i : Fin (NDIRECT + 1)}

theorem toNat_ofNat_of_inData (hb : sb.InData b) : (UInt32.ofNat b).toNat = b := by
  have hlt : b < 2 ^ 32 := by
    have h1 := hb.2
    have h2 := sb.size_lt
    omega
  exact UInt32.toNat_ofNat_of_lt hlt

theorem Sound.ref_take (h : Sound sb s.data ino) (hb : sb.InData b)
    (hfree : sb.bit s.data b = false) (j : Nat) (x : Slot) :
    (ino j).ref (take sb s b).data x = (ino j).ref s.data x :=
  Dinode.ref_congr fun ha => take_data hb.2 (h.indirect_inData ha).not_inBitmap
    (ne_of_bit hfree (h.indirect_used ha))

theorem refs_take_addr (h : Sound sb s.data (Function.update ino inum ip)) (hb : sb.InData b)
    (hfree : sb.bit s.data b = false) (hi : ip.addrs i = 0) :
    refs (Function.update ino inum (ip.setAddr i (UInt32.ofNat b))) (take sb s b).data =
      Function.update (refs (Function.update ino inum ip) s.data) (inum, .addr i) b := by
  funext ⟨j, x⟩
  have hsame := h.ref_take hb hfree j x
  by_cases hj : j = inum
  · subst hj
    rw [Function.update_self] at hsame
    rw [refs_update_self]
    cases x with
    | addr k =>
        by_cases hk : k = i
        · rw [hk, Function.update_self, Dinode.ref, setAddr_self, toNat_ofNat_of_inData hb]
        · rw [Function.update_of_ne (by simpa using hk), refs_update_self, Dinode.ref, Dinode.ref,
            setAddr_of_ne hk]
    | entry k =>
        rw [Function.update_of_ne (by simp), refs_update_self]
        by_cases hind : i = indirect
        · subst hind
          have hbefore : ip.ref s.data (.entry k) = 0 := if_neg fun hin => hin.1 hi
          rw [hbefore, Dinode.ref]
          split
          · rw [setAddr_self, toNat_ofNat_of_inData hb, take_data_self, getLE_zero]
          · rfl
        · rw [ref_entry_congr (setAddr_of_ne (Ne.symm hind)), hsame]
  · rw [Function.update_of_ne (by simp [hj]), refs_update_of_ne hj, refs_update_of_ne hj]
    rwa [Function.update_of_ne hj] at hsame

def addEntry (sb : Superblock) (s : Blocks) (bp k b : Nat) : Blocks :=
  let s := take sb s b
  s.logWrite bp (putLE (s.data bp) 4 (4 * k) b)

theorem addEntry_data {bp k c : Nat} (hb : b < sb.size) (hc : ¬ sb.InBitmap c) (hcb : c ≠ b)
    (hbp : c ≠ bp) : (addEntry sb s bp k b).data c = s.data c :=
  (Function.update_of_ne hbp _ _).trans (take_data hb hc hcb)

theorem refs_addEntry (h : Sound sb s.data ino) (hb : sb.InData b)
    (hfree : sb.bit s.data b = false) {k : Nat} (hk : k < NINDIRECT)
    (ha : (ino inum).addrs indirect ≠ 0) :
    refs ino (addEntry sb s ((ino inum).addrs indirect).toNat k b).data =
      Function.update (refs ino s.data) (inum, .entry k) b := by
  have hb32 : b < 256 ^ 4 := by
    have h1 := hb.2
    have h2 := sb.size_lt
    omega
  have hbp := h.indirect_inData ha
  funext ⟨j, x⟩
  cases x with
  | addr i =>
      rw [Function.update_of_ne (by simp)]
      rfl
  | entry l =>
      by_cases hj : j = inum
      · subst hj
        have hdata : (addEntry sb s ((ino j).addrs indirect).toNat k b).data
            ((ino j).addrs indirect).toNat =
              putLE (s.data ((ino j).addrs indirect).toNat) 4 (4 * k) b := by
          refine (Function.update_self ..).trans ?_
          rw [take_data hb.2 hbp.not_inBitmap (ne_of_bit hfree (h.indirect_used ha))]
        by_cases hl : l = k
        · subst hl
          rw [Function.update_self]
          change (if _ ∧ _ then _ else _) = _
          rw [if_pos ⟨ha, hk⟩, hdata, getLE_putLE_of_lt hb32]
        · rw [Function.update_of_ne (by simpa using hl)]
          change (if _ ∧ _ then _ else _) = (if _ ∧ _ then _ else _)
          rw [hdata, getLE_putLE_of_disjoint (by omega)]
      · rw [Function.update_of_ne (by simp [hj])]
        -- the indirect block of another inode
        refine Dinode.ref_congr fun haj => addEntry_data hb.2 (h.indirect_inData haj).not_inBitmap
          (ne_of_bit hfree (h.indirect_used haj)) ?_
        have hne : (j, Slot.addr indirect) ≠ (inum, Slot.addr indirect) := by simp [hj]
        have hrefs : refs ino s.data (j, .addr indirect) ≠ 0 := toNat_ne_zero.2 haj
        exact h.owned.ne_of_ne hrefs hne

theorem addEntry_bit {bp k c : Nat} (hb : sb.InData b) (hbp : ¬ sb.InBitmap bp) (hc : c < sb.size) :
    sb.bit (addEntry sb s bp k b).data c = Function.update (sb.bit s.data) b true c := by
  rw [← take_bit hb hc]
  apply bit_congr hc
  intro e he
  have hne : e ≠ bp := fun heq => hbp (heq ▸ he)
  exact Function.update_of_ne hne _ _

end

/-! ## What `bmap` does -/

/-- Inode `inum` has grown from `ip` on the disk `s` to `ip'` on the disk `s'`. The blocks given to
`log_write` are of the bitmap, the indirect block, or of the file at the numbers in `K`. -/
structure Grow (sb : Superblock) (ino : Nat → Dinode) (inum : Nat) (K : Nat → Prop)
    (s : Blocks) (ip : Dinode) (s' : Blocks) (ip' : Dinode) : Prop where
  sound : Sound sb s'.data (Function.update ino inum ip')
  fields : ip' = { ip with addrs := ip'.addrs }
  kept : ∀ x, ip.ref s.data x ≠ 0 → ip'.ref s'.data x = ip.ref s.data x
  others : ∀ j, j ≠ inum → ∀ q, (ino j).byte s'.data q = (ino j).byte s.data q
  metas : ∀ b < sb.bmapstart, s'.data b = s.data b
  logs : ∃ l, s'.logged = l ++ s.logged ∧ ∀ c ∈ l, sb.InBitmap c ∨ c ≠ 0 ∧
    (c = ip'.ref s'.data (.addr indirect) ∨ ∃ bn, K bn ∧ c = ip'.ref s'.data (slotOf bn))

structure Located (sb : Superblock) (ino : Nat → Dinode) (inum : Nat) (K : Nat → Prop)
    (s : Blocks) (ip : Dinode) (x : Slot) (r : Nat × Blocks × Dinode) : Prop where
  grow : Grow sb ino inum K s ip r.2.1 r.2.2
  bytes : ∀ q, r.2.2.byte r.2.1.data q = ip.byte s.data q
  addr : r.1 = r.2.2.ref r.2.1.data x
  same : ip.ref s.data x ≠ 0 → r = (ip.ref s.data x, s, ip)
  full : r.1 = 0 → ∀ b < sb.size, sb.bit r.2.1.data b = true

section
variable {sb : Superblock} {s s' : Blocks} {ino : Nat → Dinode} {ip ip' : Dinode} {inum b : Nat}
  {K : Nat → Prop} {x : Slot} {i : Fin (NDIRECT + 1)} {bn : Nat}

theorem Grow.refl (h : Sound sb s.data (Function.update ino inum ip)) :
    Grow sb ino inum K s ip s ip where
  sound := h
  fields := rfl
  kept _ _ := rfl
  others _ _ _ := rfl
  metas _ _ := rfl
  logs := ⟨[], rfl, fun _ hc => absurd hc List.not_mem_nil⟩

theorem Grow.trans {s'' : Blocks} {ip'' : Dinode} (h : Grow sb ino inum K s ip s' ip')
    (h' : Grow sb ino inum K s' ip' s'' ip'') : Grow sb ino inum K s ip s'' ip'' where
  sound := h'.sound
  fields := by
    rw [h'.fields, h.fields]
  kept x hx := by
    have hx' := h.kept x hx
    rw [h'.kept x (by rwa [hx']), hx']
  others j hj q := (h'.others j hj q).trans (h.others j hj q)
  metas b hb := (h'.metas b hb).trans (h.metas b hb)
  logs := by
    obtain ⟨l, hl, hin⟩ := h.logs
    obtain ⟨l', hl', hin'⟩ := h'.logs
    refine ⟨l' ++ l, by rw [hl', hl, List.append_assoc], fun c hc => ?_⟩
    rcases List.mem_append.1 hc with hc | hc
    · exact hin' c hc
    · rcases hin c hc with hbm | ⟨hne, hind | ⟨bn, hbn, hfile⟩⟩
      · exact .inl hbm
      · refine .inr ⟨hne, .inl ?_⟩
        rw [h'.kept _ (hind ▸ hne)]
        exact hind
      · refine .inr ⟨hne, .inr ⟨bn, hbn, ?_⟩⟩
        rw [h'.kept _ (hfile ▸ hne)]
        exact hfile

/-- A free block goes to the empty place `x` of the inode. -/
theorem Located.attach (h : Sound sb s.data (Function.update ino inum ip)) (hb : sb.InData b)
    (hfree : sb.bit s.data b = false) (hx : ip.ref s.data x = 0) (htype : ip.type ≠ 0)
    (hfields : ip' = { ip with addrs := ip'.addrs })
    (hrefs : refs (Function.update ino inum ip') s'.data =
      Function.update (refs (Function.update ino inum ip) s.data) (inum, x) b)
    (hbits : ∀ c < sb.size, sb.bit s'.data c = Function.update (sb.bit s.data) b true c)
    (hzero : s'.data b = fun _ => 0)
    (hdata : ∀ y : Nat × Slot, y.2 ≠ .addr indirect →
      refs (Function.update ino inum ip) s.data y ≠ 0 →
      s'.data (refs (Function.update ino inum ip) s.data y) =
        s.data (refs (Function.update ino inum ip) s.data y))
    (hmetas : ∀ b < sb.bmapstart, s'.data b = s.data b)
    (hlogs : ∃ l, s'.logged = l ++ s.logged ∧ ∀ c ∈ l, sb.InBitmap c ∨ c ≠ 0 ∧
      (c = ip'.ref s'.data (.addr indirect) ∨ ∃ bn, K bn ∧ c = ip'.ref s'.data (slotOf bn))) :
    Located sb ino inum K s ip x (b, s', ip') := by
  have hempty : refs (Function.update ino inum ip) s.data (inum, x) = 0 := by
    rwa [refs_update_self]
  have hb0 : b ≠ 0 := fun h0 => not_inData_zero (h0 ▸ hb)
  have hsound : Sound sb s'.data (Function.update ino inum ip') := by
    refine h.attach hb hfree hempty ?_ (fun j => ?_) hrefs hbits
    · rwa [Function.update_self]
    · by_cases hj : j = inum
      · rw [hj, Function.update_self, Function.update_self, hfields]
        exact ⟨rfl, rfl⟩
      · rw [Function.update_of_ne hj, Function.update_of_ne hj]
        exact ⟨rfl, rfl⟩
  have hbytes := attach_byte hempty hrefs hzero hdata
  have href : ∀ y, ip'.ref s'.data y =
      Function.update (refs (Function.update ino inum ip) s.data) (inum, x) b (inum, y) := by
    intro y
    rw [← hrefs, refs_update_self]
  have hplace : ip'.ref s'.data x = b := by rw [href, Function.update_self]
  refine ⟨⟨hsound, hfields, fun y hy => ?_, fun j hj q => ?_, hmetas, hlogs⟩, fun q => ?_,
    hplace.symm, fun hne => absurd hx hne, fun h0 => absurd h0 hb0⟩
  · have hyx : (inum, y) ≠ (inum, x) := by
      intro heq
      rw [(Prod.mk.inj heq).2] at hy
      exact hy hx
    rw [href, Function.update_of_ne hyx, refs_update_self]
  · have hj' := hbytes j q
    rwa [Function.update_of_ne hj, Function.update_of_ne hj] at hj'
  · have hself := hbytes inum q
    rwa [Function.update_self, Function.update_self] at hself

theorem addrOrAlloc_located (h : Sound sb s.data (Function.update ino inum ip))
    (htype : ip.type ≠ 0) (hK : i = indirect ∨ ∃ bn, K bn ∧ slotOf bn = .addr i) :
    Located sb ino inum K s ip (.addr i) (addrOrAlloc sb s ip i) := by
  unfold addrOrAlloc
  split
  · rename_i hi
    have hx : ip.ref s.data (.addr i) = 0 := by
      rw [Dinode.ref, hi]
      rfl
    generalize hr : balloc sb s = r
    have hcase : BallocCase sb s r := hr ▸ balloc_case
    cases hcase with
    | noRoom hfull =>
        exact ⟨.refl h, fun _ => rfl, hx.symm, fun hne => absurd hx hne, fun _ => hfull⟩
    | @takes b hlt hfree =>
        have hb := h.inData_of_free hlt hfree
        have hb0 : b ≠ 0 := fun h0 => not_inData_zero (h0 ▸ hb)
        have hplace : (ip.setAddr i (UInt32.ofNat b)).ref (take sb s b).data (.addr i) = b := by
          rw [Dinode.ref, setAddr_self, toNat_ofNat_of_inData hb]
        dsimp only
        rw [if_neg hb0]
        refine .attach h hb hfree hx htype rfl (refs_take_addr h hb hfree hi)
          (fun c hc => take_bit hb hc) take_data_self (fun y _ hy => ?_) (fun c hc => ?_)
          ⟨[b, sb.bblock b], rfl, fun c hc => ?_⟩
        · exact take_data hlt (h.owned.inArea y hy).not_inBitmap
            (h.owned.ne_of_free hb0 hfree y)
        · have hle : sb.bmapstart ≤ sb.dataStart := Nat.le_add_right _ _
          have hdata := hb.1
          exact take_data hlt (fun hbm => absurd hbm.1 (Nat.not_le.2 hc)) (by omega)
        · rcases List.mem_cons.1 hc with rfl | hc
          · refine .inr ⟨hb0, ?_⟩
            rcases hK with rfl | ⟨bn, hbn, hslot⟩
            · exact .inl hplace.symm
            · exact .inr ⟨bn, hbn, by rw [hslot, hplace]⟩
          · rw [List.mem_singleton.1 hc]
            exact .inl (inBitmap_bblock hlt)
  · rename_i hi
    have hx : ip.ref s.data (.addr i) ≠ 0 := toNat_ne_zero.2 hi
    exact ⟨.refl h, fun _ => rfl, rfl, fun _ => rfl, fun h0 => absurd h0 hx⟩

theorem entryOrAlloc_located (h : Sound sb s.data (Function.update ino inum ip))
    (htype : ip.type ≠ 0) (ha : ip.addrs indirect ≠ 0) {k : Nat} (hk : k < NINDIRECT)
    (hK : ∃ bn, K bn ∧ slotOf bn = .entry k) :
    Located sb ino inum K s ip (.entry k)
      ((entryOrAlloc sb s (ip.addrs indirect).toNat k).1,
        (entryOrAlloc sb s (ip.addrs indirect).toNat k).2, ip) := by
  have href : ip.ref s.data (.entry k) = getLE (s.data (ip.addrs indirect).toNat) 4 (4 * k) :=
    if_pos ⟨ha, hk⟩
  have hcur : (Function.update ino inum ip inum).addrs indirect = ip.addrs indirect := by
    rw [Function.update_self]
  unfold entryOrAlloc
  rw [← href]
  dsimp only
  split
  · rename_i hx
    generalize hr : balloc sb s = r
    have hcase : BallocCase sb s r := hr ▸ balloc_case
    cases hcase with
    | noRoom hfull =>
        exact ⟨.refl h, fun _ => rfl, hx.symm, fun hne => absurd hx hne, fun _ => hfull⟩
    | @takes b hlt hfree =>
        have hb := h.inData_of_free hlt hfree
        have hb0 : b ≠ 0 := fun h0 => not_inData_zero (h0 ▸ hb)
        have hbp := h.indirect_inData (hcur ▸ ha)
        have hused := h.indirect_used (hcur ▸ ha)
        have hrefs := refs_addEntry h hb hfree hk (hcur ▸ ha)
        rw [hcur] at hbp hused hrefs
        have hplace : ip.ref (addEntry sb s (ip.addrs indirect).toNat k b).data (.entry k) = b := by
          have := congrFun hrefs (inum, .entry k)
          rwa [Function.update_self, refs_update_self] at this
        rw [if_neg hb0]
        refine .attach h hb hfree hx htype rfl hrefs
          (fun c hc => addEntry_bit hb hbp.not_inBitmap hc)
          ((Function.update_of_ne (ne_of_bit hfree hused).symm _ _).trans take_data_self)
          (fun y hslot hy => ?_) (fun c hc => ?_)
          ⟨[(ip.addrs indirect).toNat, b, sb.bblock b], rfl, fun c hc => ?_⟩
        · have hne : y ≠ (inum, Slot.addr indirect) := by
            rintro rfl
            exact hslot rfl
          have hbpy := h.owned.ne_of_ne hy hne
          rw [refs_update_self] at hbpy
          exact addEntry_data hlt (h.owned.inArea y hy).not_inBitmap
            (h.owned.ne_of_free hb0 hfree y) hbpy
        · have hle : sb.bmapstart ≤ sb.dataStart := Nat.le_add_right _ _
          have hdata := hb.1
          have hdata' := hbp.1
          exact addEntry_data hlt (fun hbm => absurd hbm.1 (Nat.not_le.2 hc)) (by omega)
            (by omega)
        · rcases List.mem_cons.1 hc with rfl | hc
          · exact .inr ⟨toNat_ne_zero.2 ha, .inl rfl⟩
          · rcases List.mem_cons.1 hc with rfl | hc
            · obtain ⟨bn, hbn, hslot⟩ := hK
              exact .inr ⟨hb0, .inr ⟨bn, hbn, hslot ▸ hplace.symm⟩⟩
            · rw [List.mem_singleton.1 hc]
              exact .inl (inBitmap_bblock hlt)
  · rename_i hx
    exact ⟨.refl h, fun _ => rfl, rfl, fun _ => rfl, fun h0 => absurd h0 hx⟩

theorem Located.trans {x y : Slot} {r r' : Nat × Blocks × Dinode}
    (h : Located sb ino inum K s ip x r) (h' : Located sb ino inum K r.2.1 r.2.2 y r')
    (hxy : ip.ref s.data y ≠ 0 → ip.ref s.data x ≠ 0) :
    Located sb ino inum K s ip y r' where
  grow := h.grow.trans h'.grow
  bytes q := (h'.bytes q).trans (h.bytes q)
  addr := h'.addr
  same hy := by
    have hr := h.same (hxy hy)
    subst hr
    exact h'.same hy
  full := h'.full

theorem ref_entry_ne_zero {d : Nat → Block} {k : Nat} (h : ip.ref d (.entry k) ≠ 0) :
    ip.addrs indirect ≠ 0 := by
  intro h0
  exact h (if_neg fun hin => hin.1 h0)

/-- `bmap` finds the block of the file, or gives it a new one that is all zero, so no byte of any
file changes. It fails only if no block is free. -/
theorem bmap_located (h : Sound sb s.data (Function.update ino inum ip)) (htype : ip.type ≠ 0)
    (hbn : bn < MAXFILE) (hK : K bn) :
    ∃ r, bmap sb s ip bn = .ok r ∧ Located sb ino inum K s ip (slotOf bn) r := by
  by_cases hdirect : bn < NDIRECT
  · have hslot : slotOf bn = .addr (Fin.ofNat (NDIRECT + 1) bn) := if_pos hdirect
    refine ⟨_, if_pos hdirect, ?_⟩
    rw [hslot]
    exact addrOrAlloc_located h htype (.inr ⟨bn, hK, hslot⟩)
  · have hslot : slotOf bn = .entry (bn - NDIRECT) := if_neg hdirect
    have hk : bn - NDIRECT < NINDIRECT := by
      have hmax : bn < NDIRECT + NINDIRECT := hbn
      exact Nat.sub_lt_left_of_lt_add (Nat.le_of_not_lt hdirect) hmax
    unfold bmap
    rw [if_neg hdirect, if_pos hk, hslot]
    have hfirst := addrOrAlloc_located (K := K) h htype (.inl (rfl : indirect = indirect))
    generalize addrOrAlloc sb s ip indirect = r at hfirst
    obtain ⟨addr, s1, ip1⟩ := r
    have hxy : ip.ref s.data (.entry (bn - NDIRECT)) ≠ 0 → ip.ref s.data (.addr indirect) ≠ 0 :=
      fun hne => toNat_ne_zero.2 (ref_entry_ne_zero hne)
    have haddr : addr = (ip1.addrs indirect).toNat := hfirst.addr
    dsimp only
    split
    · rename_i h0
      subst h0
      have hnone : ip1.ref s1.data (.entry (bn - NDIRECT)) = 0 := by
        by_contra hne
        exact toNat_ne_zero.2 (ref_entry_ne_zero hne) haddr.symm
      refine ⟨_, rfl, hfirst.grow, hfirst.bytes, hnone.symm, fun hne => ?_, hfirst.full⟩
      have hsame := hfirst.same (hxy hne)
      exact absurd (congrArg Prod.fst hsame).symm (hxy hne)
    · rename_i h0
      have ha : ip1.addrs indirect ≠ 0 := toNat_ne_zero.1 (haddr ▸ h0)
      have htype1 : ip1.type ≠ 0 := by
        have hf : ip1 = { ip with addrs := ip1.addrs } := hfirst.grow.fields
        rw [hf]
        exact htype
      refine ⟨_, rfl, ?_⟩
      rw [haddr]
      exact hfirst.trans
        (entryOrAlloc_located hfirst.grow.sound htype1 ha hk ⟨bn, hK, hslot⟩) hxy

end

end G9OS.FileSys
