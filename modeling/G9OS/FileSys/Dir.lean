import G9OS.FileSys.Fs

/-! # Directories (`dirlookup` and `dirlink` in `fs.c`)

A directory is a file of entries of 16 bytes. An entry with inode number 0 is empty. A name has at
most `DIRSIZ` bytes, and ends before that at a zero byte.
-/

namespace G9OS.FileSys

open Lib

abbrev DIRSIZ : Nat := 14
abbrev T_DIR : Int16 := 1

/-! ## The code -/

/-- `strncmp(p, q, n)`, from position `i` on. -/
def strncmp (p q : Buf) : Nat → Nat → Int
  | 0, _ => 0
  | n + 1, i =>
      if p i ≠ 0 ∧ p i = q i then strncmp p q n (i + 1) else (p i).toNat - (q i).toNat

def namecmp (s t : Buf) : Int := strncmp s t DIRSIZ 0

/-- The `n` bytes that `strncpy` copies from position `i` on. -/
def strncpy (t : Buf) : Nat → Nat → List UInt8
  | 0, _ => []
  | n + 1, i => if t i = 0 then List.replicate (n + 1) 0 else t i :: strncpy t n (i + 1)

def direntInum (de : List UInt8) : Nat := (de.getD 0 0).toNat + 256 * (de.getD 1 0).toNat

def direntName (de : List UInt8) : Buf := fun i => de.getD (2 + i) 0

/-- An entry with the name and the inode number, of which it has 16 bits. -/
def dirent (inum : Nat) (name : Buf) : List UInt8 :=
  UInt8.ofNat inum :: UInt8.ofNat (inum / 256) :: strncpy name DIRSIZ 0

/-- The loop of `dirlookup`, for the given number of turns: the inode number and the offset. -/
def dirlookupLoop (sb : Superblock) (name : Buf) :
    Nat → Nat → Blocks → Dinode → Except FsPanic (Option (Nat × Nat) × Blocks × Dinode)
  | 0, _, s, dp => .ok (none, s, dp)
  | turns + 1, off, s, dp =>
      if off < dp.size.toNat then do
        let (r, de, s, dp) ← readi sb s dp 16 (UInt32.ofNat off) (UInt32.ofNat 16)
        if r ≠ 16 then .error .dirlookupRead
        else if direntInum de = 0 then dirlookupLoop sb name turns (off + 16) s dp
        else if namecmp name (direntName de) = 0 then .ok (some (direntInum de, off), s, dp)
        else dirlookupLoop sb name turns (off + 16) s dp
      else .ok (none, s, dp)

/-- The search of `dirlookup`. -/
def findDirent (sb : Superblock) (s : Blocks) (dp : Dinode) (name : Buf) :
    Except FsPanic (Option (Nat × Nat) × Blocks × Dinode) :=
  if dp.type ≠ T_DIR then .error .dirlookupNotDir
  else dirlookupLoop sb name dp.size.toNat 0 s dp

/-- The loop of `dirlink`: the offset of the first empty entry, or the end of the directory. -/
def emptyDirent (sb : Superblock) :
    Nat → Nat → Blocks → Dinode → Except FsPanic (Nat × Blocks × Dinode)
  | 0, off, s, dp => .ok (off, s, dp)
  | turns + 1, off, s, dp =>
      if off < dp.size.toNat then do
        let (r, de, s, dp) ← readi sb s dp 16 (UInt32.ofNat off) (UInt32.ofNat 16)
        if r ≠ 16 then .error .dirlinkRead
        else if direntInum de = 0 then .ok (off, s, dp)
        else emptyDirent sb turns (off + 16) s dp
      else .ok (off, s, dp)

/-- `dirlink`, without the reference that `dirlookup` takes to an inode that has the name and `iput`
gives back; `dnum` is `dp->inum`. -/
def dirlink (sb : Superblock) (s : Blocks) (dnum : Nat) (dp : Dinode) (name : Buf) (inum : Nat) :
    Except FsPanic (Int × Blocks × Dinode) := do
  let (found, s, dp) ← findDirent sb s dp name
  if found.isSome = true then .ok (-1, s, dp)
  else do
    let (off, s, dp) ← emptyDirent sb dp.size.toNat 0 s dp
    let (r, s, dp) ← writei sb s dnum dp (dirent inum name) (UInt32.ofNat off) (UInt32.ofNat 16)
    .ok (if r ≠ 16 then -1 else 0, s, dp)

/-- How `sys_unlink` empties the entry that `dirlookup` has found. -/
def clearDirent (sb : Superblock) (s : Blocks) (dnum : Nat) (dp : Dinode) (off : Nat) :
    Except FsPanic (Blocks × Dinode) := do
  let (r, s, dp) ← writei sb s dnum dp (List.replicate 16 0) (UInt32.ofNat off) (UInt32.ofNat 16)
  if r ≠ 16 then .error .unlinkWritei else .ok (s, dp)

/-! ## Names -/

def nameOf (b : Buf) : List UInt8 := cstr b DIRSIZ 0

theorem strncmp_eq_zero {p q : Buf} {n i : Nat} :
    strncmp p q n i = 0 ↔ cstr p n i = cstr q n i := by
  induction n generalizing i with
  | zero => simp [strncmp, cstr]
  | succ n ih =>
      by_cases hp : p i = 0
      · by_cases hq : q i = 0
        · simp [strncmp, cstr, hp, hq]
        · have hne : (q i).toNat ≠ 0 := fun h0 => hq (UInt8.toNat_inj.1 h0)
          simp [strncmp, cstr, hp, hq, hne]
      · by_cases hpq : p i = q i
        · have hq : ¬ q i = 0 := hpq ▸ hp
          simp [strncmp, cstr, hq, hpq, ih]
        · have hne : ((p i).toNat : Int) - (q i).toNat ≠ 0 := fun h0 =>
            hpq (UInt8.toNat_inj.1 (by omega))
          rw [strncmp, if_neg fun h => hpq h.2, cstr, if_neg hp, cstr]
          by_cases hq : q i = 0
          · simp [hq] at hne ⊢
            exact hne
          · simp [hq, hne, hpq]

theorem namecmp_eq_zero {s t : Buf} : namecmp s t = 0 ↔ nameOf s = nameOf t := strncmp_eq_zero

theorem length_strncpy {t : Buf} {n i : Nat} : (strncpy t n i).length = n := by
  induction n generalizing i with
  | zero => rfl
  | succ n ih =>
      unfold strncpy
      split
      · exact List.length_replicate
      · rw [List.length_cons, ih]

theorem cstr_strncpy {t b : Buf} {n i j : Nat}
    (hb : ∀ k < n, b (j + k) = (strncpy t n i).getD k 0) : cstr b n j = cstr t n i := by
  induction n generalizing i j with
  | zero => rfl
  | succ n ih =>
      have hfirst := hb 0 (Nat.succ_pos n)
      rw [Nat.add_zero] at hfirst
      unfold strncpy at hb hfirst
      rw [cstr, cstr]
      by_cases ht : t i = 0
      · simp [ht] at hfirst
        rw [if_pos hfirst, if_pos ht]
      · simp only [ht, if_false, List.getD_cons_zero] at hfirst
        rw [if_neg (hfirst ▸ ht), if_neg ht, hfirst, ih]
        intro k hk
        have hnext := hb (k + 1) (Nat.succ_lt_succ hk)
        simp only [ht, if_false, List.getD_cons_succ] at hnext
        rw [← hnext]
        congr 1
        omega

theorem length_dirent (inum : Nat) (name : Buf) : (dirent inum name).length = 16 := by
  rw [dirent, List.length_cons, List.length_cons, length_strncpy]

theorem direntInum_dirent {inum : Nat} {name : Buf} (h : inum < 65536) :
    direntInum (dirent inum name) = inum := by
  simp only [direntInum, dirent, List.getD_cons_zero, List.getD_cons_succ, UInt8.toNat_ofNat']
  omega

theorem nameOf_dirent {inum : Nat} {name : Buf} :
    nameOf (direntName (dirent inum name)) = nameOf name := by
  apply cstr_strncpy
  intro k _
  rw [direntName, dirent, Nat.zero_add, Nat.add_comm, List.getD_cons_succ, List.getD_cons_succ]

/-! ## Entries -/

def entryAt (bytes : List UInt8) (off : Nat) : List UInt8 := (bytes.drop off).take 16

structure HasEntry (bytes : List UInt8) (off : Nat) (name : List UInt8) (inum : Nat) : Prop where
  dvd : 16 ∣ off
  lt : off < bytes.length
  number : direntInum (entryAt bytes off) = inum
  used : inum ≠ 0
  named : nameOf (direntName (entryAt bytes off)) = name

def Leads (bytes : List UInt8) (name : List UInt8) (inum : Nat) : Prop :=
  ∃ off, HasEntry bytes off name inum

def UniqueNames (bytes : List UInt8) : Prop :=
  ∀ key o o' i i', HasEntry bytes o key i → HasEntry bytes o' key i' → o = o'

structure DirOk (sb : Superblock) (s : Blocks) (dnum : Nat) (dp : Dinode) : Prop where
  ok : FsOk sb s
  range : dnum < sb.ninodes
  inode : sb.inodes s.data dnum = dp
  type : dp.type = T_DIR
  dvd : 16 ∣ (files sb s dnum).bytes.length
  unique : UniqueNames (files sb s dnum).bytes

section
variable {sb : Superblock} {s : Blocks} {dnum off turns : Nat} {dp : Dinode}

theorem DirOk.size (h : DirOk sb s dnum dp) : (files sb s dnum).bytes.length = dp.size.toNat := by
  rw [← h.inode]
  exact length_bytes

theorem DirOk.room (h : DirOk sb s dnum dp) (hdvd : 16 ∣ off) (hoff : off < dp.size.toNat) :
    off + 16 ≤ dp.size.toNat := by
  have hsize := h.dvd
  rw [h.size] at hsize
  obtain ⟨a, rfl⟩ := hdvd
  obtain ⟨b, hb⟩ := hsize
  omega

/-- Reading an entry gives its 16 bytes and changes nothing. -/
theorem DirOk.readi (h : DirOk sb s dnum dp) (hdvd : 16 ∣ off) (hoff : off < dp.size.toNat) :
    readi sb s dp 16 (UInt32.ofNat off) (UInt32.ofNat 16) =
      .ok (16, entryAt (files sb s dnum).bytes off, s, dp) := by
  have hroom := h.room hdvd hoff
  have hlt := dp.size.toNat_lt
  have hsmall := h.ok.small dnum
  rw [h.inode] at hsmall
  have hmax : MAXFILE * BSIZE + 16 < 2 ^ 32 := by decide
  have hcast : (UInt32.ofNat off).toNat = off :=
    UInt32.toNat_ofNat_of_lt (hoff.trans dp.size.toNat_lt)
  have hcast' : (UInt32.ofNat 16).toNat = 16 := rfl
  have hsum : (UInt32.ofNat off).toNat + (UInt32.ofNat 16).toNat < 2 ^ 32 := by
    rw [hcast, hcast']
    omega
  have hread := readi_reads h.ok h.inode 16 hsum
  dsimp only at hread
  rw [hcast, hcast'] at hread
  have hlen : (entryAt (files sb s dnum).bytes off).length = 16 := by
    rw [entryAt, List.length_take, List.length_drop, h.size]
    omega
  rw [← entryAt, hlen, if_pos le_rfl, List.take_of_length_le hlen.le] at hread
  exact hread

theorem dirlookupLoop_finds (name : Buf) (h : DirOk sb s dnum dp) (hdvd : 16 ∣ off)
    (hturns : dp.size.toNat - off ≤ turns) :
    ∃ res, dirlookupLoop sb name turns off s dp = .ok (res, s, dp) ∧
      (res = none ∧ (∀ o inum, off ≤ o →
          ¬ HasEntry (files sb s dnum).bytes o (nameOf name) inum) ∨
        ∃ inum o, res = some (inum, o) ∧
          HasEntry (files sb s dnum).bytes o (nameOf name) inum) := by
  induction turns generalizing off with
  | zero =>
      refine ⟨none, rfl, .inl ⟨rfl, fun o inum ho hentry => ?_⟩⟩
      have hlt := hentry.lt
      rw [h.size] at hlt
      omega
  | succ turns ih =>
      unfold dirlookupLoop
      by_cases hoff : off < dp.size.toNat
      · have hroom := h.room hdvd hoff
        have hnext : 16 ∣ off + 16 := Dvd.dvd.add hdvd (dvd_refl 16)
        -- an entry from here on is this one, or behind it
        have hlater : ∀ o inum, off ≤ o → HasEntry (files sb s dnum).bytes o (nameOf name) inum →
            o = off ∨ off + 16 ≤ o := by
          intro o inum ho hentry
          obtain ⟨a, rfl⟩ := hdvd
          obtain ⟨b, hb⟩ := hentry.dvd
          omega
        rw [if_pos hoff, h.readi hdvd hoff, ok_bind]
        dsimp only
        rw [if_neg (by simp)]
        by_cases hinum : direntInum (entryAt (files sb s dnum).bytes off) = 0
        · rw [if_pos hinum]
          obtain ⟨res, hrun, hres⟩ := ih hnext (by omega)
          refine ⟨res, hrun, hres.imp (fun hnone => ⟨hnone.1, fun o inum ho hentry => ?_⟩) id⟩
          rcases hlater o inum ho hentry with rfl | hbehind
          · exact hentry.used (hentry.number.symm.trans hinum)
          · exact hnone.2 o inum hbehind hentry
        · rw [if_neg hinum]
          by_cases hname : namecmp name (direntName (entryAt (files sb s dnum).bytes off)) = 0
          · rw [if_pos hname]
            refine ⟨_, rfl, .inr ⟨_, _, rfl, hdvd, ?_, rfl, hinum, ?_⟩⟩
            · rw [h.size]
              exact hoff
            · exact (namecmp_eq_zero.1 hname).symm
          · rw [if_neg hname]
            obtain ⟨res, hrun, hres⟩ := ih hnext (by omega)
            refine ⟨res, hrun, hres.imp (fun hnone => ⟨hnone.1, fun o inum ho hentry => ?_⟩) id⟩
            rcases hlater o inum ho hentry with rfl | hbehind
            · exact hname (namecmp_eq_zero.2 hentry.named.symm)
            · exact hnone.2 o inum hbehind hentry
      · rw [if_neg hoff]
        refine ⟨none, rfl, .inl ⟨rfl, fun o inum ho hentry => ?_⟩⟩
        have hlt := hentry.lt
        rw [h.size] at hlt
        omega

theorem findDirent_cases (h : DirOk sb s dnum dp) (name : Buf) :
    ∃ res, findDirent sb s dp name = .ok (res, s, dp) ∧
      (res = none ∧ (∀ inum, ¬ Leads (files sb s dnum).bytes (nameOf name) inum) ∨
        ∃ inum o, res = some (inum, o) ∧
          HasEntry (files sb s dnum).bytes o (nameOf name) inum) := by
  obtain ⟨res, hrun, hres⟩ :=
    dirlookupLoop_finds name h (dvd_zero 16) (Nat.sub_le dp.size.toNat 0)
  refine ⟨res, ?_, hres.imp (fun hnone => ⟨hnone.1, ?_⟩) id⟩
  · rw [findDirent, if_neg (not_not.2 h.type)]
    exact hrun
  · rintro inum ⟨o, hentry⟩
    exact hnone.2 o inum (Nat.zero_le o) hentry

/-- No entry from `off` on and before `o` is empty. -/
def InUse (bytes : List UInt8) (off o : Nat) : Prop :=
  ∀ o', 16 ∣ o' → off ≤ o' → o' < o → direntInum (entryAt bytes o') ≠ 0

theorem InUse.nil {bytes : List UInt8} : InUse bytes off off :=
  fun _ _ hle hlt => absurd hle (Nat.not_le.2 hlt)

theorem InUse.cons {bytes : List UInt8} {o : Nat} (h : InUse bytes (off + 16) o) (hdvd : 16 ∣ off)
    (hused : direntInum (entryAt bytes off) ≠ 0) : InUse bytes off o := by
  intro o' hdvd' hle hlt
  by_cases heq : o' = off
  · rwa [heq]
  · apply h o' hdvd' _ hlt
    obtain ⟨a, rfl⟩ := hdvd
    obtain ⟨b, rfl⟩ := hdvd'
    omega

/-- `dirlink` finds the first empty entry or the end of the directory. -/
theorem emptyDirent_finds (h : DirOk sb s dnum dp) (hdvd : 16 ∣ off)
    (hle : off ≤ dp.size.toNat) (hturns : dp.size.toNat - off ≤ turns) :
    ∃ o, emptyDirent sb turns off s dp = .ok (o, s, dp) ∧ 16 ∣ o ∧ o ≤ dp.size.toNat ∧
      InUse (files sb s dnum).bytes off o ∧
      (o < dp.size.toNat → direntInum (entryAt (files sb s dnum).bytes o) = 0) := by
  induction turns generalizing off with
  | zero => exact ⟨off, rfl, hdvd, hle, .nil, fun hlt => absurd hlt (by omega)⟩
  | succ turns ih =>
      unfold emptyDirent
      by_cases hoff : off < dp.size.toNat
      · have hroom := h.room hdvd hoff
        rw [if_pos hoff, h.readi hdvd hoff, ok_bind]
        dsimp only
        rw [if_neg (by simp)]
        by_cases hinum : direntInum (entryAt (files sb s dnum).bytes off) = 0
        · rw [if_pos hinum]
          exact ⟨off, rfl, hdvd, hle, .nil, fun _ => hinum⟩
        · rw [if_neg hinum]
          obtain ⟨o, hrun, ho, hend, hused, hempty⟩ :=
            ih (Dvd.dvd.add hdvd (dvd_refl 16)) hroom (by omega)
          exact ⟨o, hrun, ho, hend, hused.cons hdvd hinum, hempty⟩
      · rw [if_neg hoff]
        exact ⟨off, rfl, hdvd, hle, .nil, fun hlt => absurd hlt hoff⟩

end

/-! ## Writing an entry -/

section
variable {sb : Superblock} {s s' : Blocks} {inum tot : Nat} {ip ip' : Dinode} {src : List UInt8}

theorem writeiLoop_end {n turns tot off : Nat} (h : n ≤ tot) :
    writeiLoop sb src n turns tot off s ip = .ok (tot, off, s, ip) := by
  cases turns with
  | zero => rfl
  | succ turns => exact if_neg (Nat.not_lt.2 h)

theorem writeiLoop_one_block {n turns off : Nat} {r : Nat × Nat × Blocks × Dinode}
    (hfit : off % BSIZE + n ≤ BSIZE) (hn : 0 < n) (hsrc : n ≤ src.length)
    (hrun : writeiLoop sb src n (turns + 1) 0 off s ip = .ok r) :
    ∃ addr s1 ip1, bmap sb s ip (off / BSIZE) = .ok (addr, s1, ip1) ∧
      (addr = 0 ∧ r.1 = 0 ∨ r.1 = n) := by
  have hm : min (n - 0) (BSIZE - off % BSIZE) = n := by omega
  unfold writeiLoop at hrun
  rw [if_pos hn] at hrun
  obtain ⟨⟨addr, s1, ip1⟩, hbmap, hrun⟩ := bind_ok.1 hrun
  refine ⟨addr, s1, ip1, hbmap, ?_⟩
  dsimp only at hrun
  by_cases haddr : addr = 0
  · rw [if_pos haddr] at hrun
    exact .inl ⟨haddr, congrArg Prod.fst (Except.ok.inj hrun).symm⟩
  · rw [if_neg haddr, hm, Nat.zero_add, if_pos hsrc, writeiLoop_end le_rfl] at hrun
    exact .inr (congrArg Prod.fst (Except.ok.inj hrun).symm)

/-- A write inside one block is made as a whole or not at all, and it is made if the file has the
block. -/
theorem writei_one_block {off n : UInt32} (h : FsOk sb s) (hip : sb.inodes s.data inum = ip)
    (hfit : off.toNat % BSIZE + n.toNat ≤ BSIZE) (hn : 0 < n.toNat)
    (hsrc : n.toNat ≤ src.length)
    (hrun : writei sb s inum ip src off n = .ok ((tot : Int), s', ip')) :
    (tot = 0 ∨ tot = n.toNat) ∧ (off.toNat < ip.size.toNat → tot = n.toNat) := by
  unfold writei at hrun
  split at hrun
  · cases hrun
  · split at hrun
    · cases hrun
    · obtain ⟨⟨t, o, s1, ip1⟩, hloop, hrun⟩ := bind_ok.1 hrun
      obtain ⟨k, hk⟩ := Nat.exists_eq_succ_of_ne_zero hn.ne'
      have htot : t = tot := Int.ofNat.inj (congrArg Prod.fst (Except.ok.inj hrun))
      have hloop' : writeiLoop sb src n.toNat (k + 1) 0 off.toNat s ip = .ok (t, o, s1, ip1) := by
        rw [← Nat.succ_eq_add_one, ← hk]
        exact hloop
      obtain ⟨addr, s2, ip2, hbmap, hcase⟩ := writeiLoop_one_block hfit hn hsrc hloop'
      rw [← htot]
      refine ⟨hcase.imp And.right id, fun hlt => ?_⟩
      obtain ⟨hne, hmapped⟩ := bmap_mapped h hip hlt
      rcases hcase with ⟨haddr, -⟩ | hall
      · have hsame := congrArg Prod.fst (Except.ok.inj (hmapped.symm.trans hbmap))
        exact absurd (hsame.trans haddr) hne
      · exact hall

end

section
variable {bytes : List UInt8} {off o inum i : Nat} {name : Buf} {key : List UInt8}

theorem entryAt_overwrite {w : List UInt8} (hw : w.length = 16) (hdvd : 16 ∣ off)
    (hle : off ≤ bytes.length) (ho : 16 ∣ o) (hne : o ≠ off) :
    entryAt (overwrite bytes off w) o = entryAt bytes o := by
  obtain ⟨a, rfl⟩ := hdvd
  obtain ⟨b, rfl⟩ := ho
  have hcase : 16 * b + 16 ≤ 16 * a ∨ 16 * a + 16 ≤ 16 * b := by omega
  rcases hcase with hbefore | hbehind
  · have htake := take_overwrite (w := w) hbefore hle
    have hcut : ∀ l : List UInt8, entryAt l (16 * b) = (l.take (16 * b + 16)).drop (16 * b) := by
      intro l
      rw [List.drop_take, Nat.add_sub_cancel_left, entryAt]
    rw [hcut, hcut, htake]
  · rw [entryAt, entryAt, drop_overwrite hle (by omega)]

/-- The entries of a directory after 16 bytes have been written over an entry or to its end. -/
theorem hasEntry_overwrite {w : List UInt8} (hw : w.length = 16) (hdvd : 16 ∣ off)
    (hle : off ≤ bytes.length) (hlen : 16 ∣ bytes.length) :
    HasEntry (overwrite bytes off w) o key i ↔
      o = off ∧ direntInum w = i ∧ i ≠ 0 ∧ nameOf (direntName w) = key ∨
        o ≠ off ∧ HasEntry bytes o key i := by
  have hnew : entryAt (overwrite bytes off w) off = w := by
    have hslice := slice_overwrite (w := w) hle
    rwa [hw] at hslice
  have hlength := length_overwrite (w := w) hle
  rw [hw] at hlength
  by_cases ho : o = off
  · subst ho
    constructor
    · intro h
      have hnumber := h.number
      have hnamed := h.named
      rw [hnew] at hnumber hnamed
      exact .inl ⟨rfl, hnumber, h.used, hnamed⟩
    · rintro (⟨-, hnumber, hused, hnamed⟩ | ⟨hne, -⟩)
      · exact ⟨hdvd, by omega, hnew.symm ▸ hnumber, hused, hnew.symm ▸ hnamed⟩
      · exact absurd rfl hne
  · constructor
    · intro h
      have hlt := h.lt
      have hnumber := h.number
      have hnamed := h.named
      rw [entryAt_overwrite hw hdvd hle h.dvd ho] at hnumber hnamed
      refine .inr ⟨ho, h.dvd, ?_, hnumber, h.used, hnamed⟩
      obtain ⟨a, rfl⟩ := hdvd
      obtain ⟨b, rfl⟩ := h.dvd
      obtain ⟨c, hc⟩ := hlen
      omega
    · rintro (⟨heq, -⟩ | ⟨-, h⟩)
      · exact absurd heq ho
      · have hsame := entryAt_overwrite hw hdvd hle h.dvd ho
        have hlt := h.lt
        exact ⟨h.dvd, by omega, hsame.symm ▸ h.number, h.used, hsame.symm ▸ h.named⟩

theorem hasEntry_dirent (hdvd : 16 ∣ off) (hle : off ≤ bytes.length) (hlen : 16 ∣ bytes.length)
    (h0 : inum ≠ 0) (h16 : inum < 65536) :
    HasEntry (overwrite bytes off (dirent inum name)) o key i ↔
      o = off ∧ key = nameOf name ∧ i = inum ∨ o ≠ off ∧ HasEntry bytes o key i := by
  rw [hasEntry_overwrite (length_dirent inum name) hdvd hle hlen, direntInum_dirent h16,
    nameOf_dirent]
  constructor
  · rintro (⟨ho, rfl, -, rfl⟩ | hold)
    · exact .inl ⟨ho, rfl, rfl⟩
    · exact .inr hold
  · rintro (⟨ho, rfl, rfl⟩ | hold)
    · exact .inl ⟨ho, rfl, h0, rfl⟩
    · exact .inr hold

theorem hasEntry_clear (hdvd : 16 ∣ off) (hle : off ≤ bytes.length) (hlen : 16 ∣ bytes.length) :
    HasEntry (overwrite bytes off (List.replicate 16 0)) o key i ↔
      o ≠ off ∧ HasEntry bytes o key i := by
  rw [hasEntry_overwrite List.length_replicate hdvd hle hlen]
  constructor
  · rintro (⟨-, rfl, hused, -⟩ | hold)
    · exact absurd rfl hused
    · exact hold
  · exact .inr

theorem unique_dirent (h : UniqueNames bytes) (hdvd : 16 ∣ off) (hle : off ≤ bytes.length)
    (hlen : 16 ∣ bytes.length) (h0 : inum ≠ 0) (h16 : inum < 65536)
    (hnew : ∀ i, ¬ Leads bytes (nameOf name) i) :
    UniqueNames (overwrite bytes off (dirent inum name)) := by
  intro key o o' i i' hentry hentry'
  rw [hasEntry_dirent hdvd hle hlen h0 h16] at hentry hentry'
  rcases hentry with ⟨rfl, rfl, -⟩ | ⟨-, hentry⟩
  · rcases hentry' with ⟨rfl, -, -⟩ | ⟨-, hentry'⟩
    · rfl
    · exact absurd ⟨o', hentry'⟩ (hnew i')
  · rcases hentry' with ⟨rfl, rfl, -⟩ | ⟨-, hentry'⟩
    · exact absurd ⟨o, hentry⟩ (hnew i)
    · exact h key o o' i i' hentry hentry'

theorem leads_dirent (hdvd : 16 ∣ off) (hle : off ≤ bytes.length) (hlen : 16 ∣ bytes.length)
    (hempty : off < bytes.length → direntInum (entryAt bytes off) = 0) (h0 : inum ≠ 0)
    (h16 : inum < 65536) :
    Leads (overwrite bytes off (dirent inum name)) key i ↔
      key = nameOf name ∧ i = inum ∨ Leads bytes key i := by
  constructor
  · rintro ⟨o, hentry⟩
    rw [hasEntry_dirent hdvd hle hlen h0 h16] at hentry
    rcases hentry with ⟨-, hkey, hi⟩ | ⟨-, hentry⟩
    · exact .inl ⟨hkey, hi⟩
    · exact .inr ⟨o, hentry⟩
  · rintro (⟨hkey, hi⟩ | ⟨o, hentry⟩)
    · exact ⟨off, (hasEntry_dirent hdvd hle hlen h0 h16).2 (.inl ⟨rfl, hkey, hi⟩)⟩
    · refine ⟨o, (hasEntry_dirent hdvd hle hlen h0 h16).2 (.inr ⟨?_, hentry⟩)⟩
      rintro rfl
      exact hentry.used (hentry.number.symm.trans (hempty hentry.lt))

end

/-! ## `dirlink` -/

def NoGrowth (sb : Superblock) (s' : Blocks) (bytes : List UInt8) : Prop :=
  (∀ b < sb.size, sb.bit s'.data b = true) ∨ MAXFILE * BSIZE < bytes.length + 16

/-- There is no place for another entry: all are in use, and the directory cannot grow. -/
def NoPlace (sb : Superblock) (s' : Blocks) (bytes : List UInt8) : Prop :=
  InUse bytes 0 bytes.length ∧ NoGrowth sb s' bytes

section
variable {sb : Superblock} {s : Blocks} {dnum off : Nat} {dp : Dinode}

/-- Writing an entry to its place. It is written as a whole, or not at all; the latter at the end of
the directory only. -/
theorem DirOk.write {w : List UInt8} (h : DirOk sb s dnum dp) (hlen : w.length = 16)
    (hdvd : 16 ∣ off) (hle : off ≤ dp.size.toNat)
    (hunique : UniqueNames (overwrite (files sb s dnum).bytes off w)) :
    ∃ r s' dp', writei sb s dnum dp w (UInt32.ofNat off) (UInt32.ofNat 16) = .ok (r, s', dp') ∧
      DirOk sb s' dnum dp' ∧ (∀ j, j ≠ dnum → files sb s' j = files sb s j) ∧
      (r = 16 ∧ (files sb s' dnum).bytes = overwrite (files sb s dnum).bytes off w ∨
        r ≠ 16 ∧ (files sb s' dnum).bytes = (files sb s dnum).bytes ∧ off = dp.size.toNat ∧
          NoGrowth sb s' (files sb s dnum).bytes) := by
  have hsize := h.size
  have hcast : (UInt32.ofNat off).toNat = off :=
    UInt32.toNat_ofNat_of_lt (hle.trans_lt dp.size.toNat_lt)
  have hcast' : (UInt32.ofNat 16).toNat = 16 := rfl
  by_cases hmax : off + 16 ≤ MAXFILE * BSIZE
  · have htype : dp.type ≠ 0 := by
      rw [h.type]
      decide
    have hoff : (UInt32.ofNat off).toNat ≤ dp.size.toNat := hcast.symm ▸ hle
    have hmax' : (UInt32.ofNat off).toNat + (UInt32.ofNat 16).toNat ≤ MAXFILE * BSIZE := by
      rwa [hcast, hcast']
    obtain ⟨tot, m, s', dp', hrun, hdone⟩ :=
      writei_done w h.ok h.range h.inode htype hoff hmax'
    have hfit : (UInt32.ofNat off).toNat % BSIZE + (UInt32.ofNat 16).toNat ≤ BSIZE := by
      rw [hcast, hcast']
      obtain ⟨a, rfl⟩ := hdvd
      change 16 * a % 1024 + 16 ≤ 1024
      omega
    obtain ⟨hall, hmapped⟩ := writei_one_block h.ok h.inode hfit (by decide) (by rw [hlen]; rfl)
      hrun
    have hwhole := hdone.whole (by rw [hlen]; rfl)
    have hfiles := hdone.files
    have hstop := hdone.stop
    rw [hcast, ← hwhole] at hfiles
    rw [hcast'] at hall hmapped hstop
    rw [hcast] at hmapped
    have hothers : ∀ j, j ≠ dnum → files sb s' j = files sb s j := by
      intro j hj
      rw [hfiles, Function.update_of_ne hj]
    have hinode : sb.inodes s'.data dnum = dp' := by rw [hdone.inodes, Function.update_self]
    have htype' : dp'.type = T_DIR := by
      have hsame := congrArg File.type (congrFun hfiles dnum)
      rw [Function.update_self] at hsame
      rw [← hinode]
      refine hsame.trans ?_
      rw [← h.type, ← h.inode]
      rfl
    have hbytes := congrArg File.bytes (congrFun hfiles dnum)
    rw [Function.update_self] at hbytes
    dsimp only at hbytes
    rcases hall with rfl | rfl
    · -- nothing is written, and this happens at the end of the directory only
      have hend : off = dp.size.toNat := le_antisymm hle (Nat.le_of_not_lt fun hlt =>
        absurd (hmapped hlt) (by decide))
      have hkeep : (files sb s' dnum).bytes = (files sb s dnum).bytes := by
        rw [hbytes, hsize, ← hend]
        simp [overwrite, hsize, hend]
      refine ⟨_, s', dp', hrun, ⟨hdone.ok, h.range, hinode, htype', ?_, ?_⟩, hothers,
        .inr ⟨by decide, hkeep, hend, ?_⟩⟩
      · rw [hkeep]
        exact h.dvd
      · rw [hkeep]
        exact h.unique
      · rcases hstop (by decide) with hshort | hfull
        · rw [hlen] at hshort
          exact absurd hshort (by decide)
        · exact .inl hfull
    · have hover := length_overwrite (w := w) (hle.trans hsize.ge)
      rw [hlen] at hover
      have hwritten : (files sb s' dnum).bytes =
          overwrite (files sb s dnum).bytes off w := by
        rw [hbytes, List.take_of_length_le hlen.le, List.take_of_length_le hover.le]
      refine ⟨_, s', dp', hrun, ⟨hdone.ok, h.range, hinode, htype', ?_, ?_⟩, hothers,
        .inl ⟨rfl, hwritten⟩⟩
      · rw [hwritten, hover]
        obtain ⟨a, rfl⟩ := hdvd
        obtain ⟨b, hb⟩ := h.dvd
        rw [hb]
        omega
      · rw [hwritten]
        exact hunique
  · have hrefused : Refused dp.size.toNat (UInt32.ofNat off) (UInt32.ofNat 16) := by
      apply Or.inr
      rw [hcast, hcast']
      exact Nat.lt_of_not_le hmax
    have hsmall := h.ok.small dnum
    rw [h.inode] at hsmall
    have hend : off = dp.size.toNat := le_antisymm hle (Nat.le_of_not_lt fun hlt =>
      hmax ((h.room hdvd hlt).trans hsmall))
    refine ⟨-1, s, dp, writei_refused hrefused, h, fun _ _ => rfl,
      .inr ⟨by decide, rfl, hend, .inr ?_⟩⟩
    omega

end

/-! ## Directories as maps -/

def letterName : Buf := fun i => if i = 0 then 97 else 0

theorem rootDir_empty : (files sbDefault rootDisk 1).bytes = [] := by
  apply List.length_eq_zero_iff.1
  have hsize : (sbDefault.inodes rootDisk.data 1).size = 0 := by decide +kernel
  refine length_bytes.trans ?_
  rw [hsize]
  rfl

theorem dirOk_root : DirOk sbDefault rootDisk 1 (sbDefault.inodes rootDisk.data 1) where
  ok := rootDisk_ok.1
  range := by decide
  inode := rfl
  type := rootDisk_ok.2
  dvd := by
    rw [rootDir_empty]
    exact dvd_zero 16
  unique := by
    rw [rootDir_empty]
    intro key o o' i i' hentry
    exact absurd hentry.lt (Nat.not_lt_zero o)

theorem exists_linked : ∃ s dp, DirOk sbDefault s 1 dp ∧
    HasEntry (files sbDefault s 1).bytes 0 (nameOf letterName) 2 := by
  have hempty : ∀ i, ¬ Leads (files sbDefault rootDisk 1).bytes (nameOf letterName) i := by
    rw [rootDir_empty]
    rintro i ⟨o, hentry⟩
    exact absurd hentry.lt (Nat.not_lt_zero o)
  have hunique : UniqueNames
      (overwrite (files sbDefault rootDisk 1).bytes 0 (dirent 2 letterName)) :=
    unique_dirent dirOk_root.unique (dvd_zero 16) (Nat.zero_le _) dirOk_root.dvd (by decide)
      (by decide) hempty
  obtain ⟨r, s, dp, hrun, hok, -, hcase⟩ :=
    dirOk_root.write (length_dirent 2 letterName) (dvd_zero 16) (Nat.zero_le _) hunique
  have hfirst : (writei sbDefault rootDisk 1 (sbDefault.inodes rootDisk.data 1)
      (dirent 2 letterName) (UInt32.ofNat 0) (UInt32.ofNat 16)).map Prod.fst = .ok 16 := by
    decide +kernel
  rw [hrun] at hfirst
  have hr : r = 16 := Except.ok.inj hfirst
  rcases hcase with ⟨-, hbytes⟩ | ⟨hne, -⟩
  · refine ⟨s, dp, hok, ?_⟩
    rw [hbytes, hasEntry_dirent (dvd_zero 16) (Nat.zero_le _) dirOk_root.dvd (by decide)
      (by decide)]
    exact .inl ⟨rfl, rfl, rfl⟩
  · exact absurd hr hne

/-! ## `dirlookup` -/

section
variable {P : Type} [DecidableEq P] {sb : Superblock} {s : FsState P} {p : P} {dp : Fin NINODE}
  {i : Nat}

structure Referenced (s s' : FsState P) (p : P) (j : Fin NINODE) (i : Nat) : Prop where
  blocks : s'.blocks = s.blocks
  number : (s'.itable j).inum = i
  ref : (s'.itable j).ref = (s.itable j).ref + 1
  holds : (s'.proc p).holds j = (s.proc p).holds j + 1
  others : ∀ k, k ≠ j → s'.itable k = s.itable k
  lock : s'.lock = s.lock
  procs : ∀ q, q ≠ p → s'.proc q = s.proc q

omit [DecidableEq P] in
theorem Referenced.lookup {s' : FsState P} {j : Fin NINODE} (h : Referenced s s' p j i)
    (hbefore : s.lookup i = some j ∨ s.lookup i = none) : s'.lookup i = some j := by
  have hj : 0 < (s'.itable j).ref ∧ (s'.itable j).inum = i := ⟨h.ref ▸ Nat.succ_pos _, h.number⟩
  have hother : ∀ k, k ≠ j → (0 < (s'.itable k).ref ∧ (s'.itable k).inum = i ↔
      0 < (s.itable k).ref ∧ (s.itable k).inum = i) := fun k hk => by rw [h.others k hk]
  rcases hbefore with hsome | hnone
  · have hold := lookup_some hsome
    rw [← hsome]
    unfold FsState.lookup
    congr 1
    funext k
    apply decide_eq_decide.2
    by_cases hk : k = j
    · subst hk
      exact ⟨fun _ => hold, fun _ => hj⟩
    · exact hother k hk
  · -- no other entry is the inode's, so the one that is found is `j`
    cases hfound : s'.lookup i with
    | none => exact absurd hj.2 (lookup_none hfound hj.1)
    | some k =>
        by_cases hk : k = j
        · rw [hk]
        · obtain ⟨hpos, hnumber⟩ := (hother k hk).1 (lookup_some hfound)
          exact absurd hnumber (lookup_none hnone hpos)

end

/-! ## `dirlink` and `sys_unlink` -/

section
variable {sb : Superblock} {s : Blocks} {dnum inum : Nat} {dp : Dinode}

/-- `dirlink` adds the name to the directory if it is not there, and changes nothing else: neither
what the other names lead to nor another file. If it returns -1, the name is there already or there
is no place for the entry, and the directory is as it was. -/
theorem dirlink_inserts (h : DirOk sb s dnum dp) (h0 : inum ≠ 0) (h16 : inum < 65536)
    (name : Buf) :
    ∃ r s' dp', dirlink sb s dnum dp name inum = .ok (r, s', dp') ∧ DirOk sb s' dnum dp' ∧
      (∀ j, j ≠ dnum → files sb s' j = files sb s j) ∧
      (r = 0 ∧ (∀ i, ¬ Leads (files sb s dnum).bytes (nameOf name) i) ∧
          (∀ key i, Leads (files sb s' dnum).bytes key i ↔
            key = nameOf name ∧ i = inum ∨ Leads (files sb s dnum).bytes key i) ∨
        r = -1 ∧ (files sb s' dnum).bytes = (files sb s dnum).bytes ∧
          ((∃ i, Leads (files sb s dnum).bytes (nameOf name) i) ∨
            NoPlace sb s' (files sb s dnum).bytes)) := by
  obtain ⟨res, hlook, hres⟩ := findDirent_cases h name
  unfold dirlink
  rw [hlook, ok_bind]
  dsimp only
  rcases hres with ⟨rfl, hnone⟩ | ⟨i, o, rfl, hentry⟩
  · rw [if_neg (by decide)]
    obtain ⟨off, hloop, hdvd, hle, hused, hempty⟩ :=
      emptyDirent_finds h (dvd_zero 16) (Nat.zero_le _) (Nat.sub_le dp.size.toNat 0)
    obtain ⟨r, s', dp', hrun, hok, hothers, hcase⟩ := h.write (length_dirent inum name) hdvd hle
      (unique_dirent h.unique hdvd (hle.trans h.size.ge) h.dvd h0 h16 hnone)
    rw [hloop, ok_bind]
    dsimp only
    rw [hrun, ok_bind]
    refine ⟨_, s', dp', rfl, hok, hothers, ?_⟩
    rcases hcase with ⟨rfl, hbytes⟩ | ⟨hr, hbytes, hend, hgrow⟩
    · refine .inl ⟨if_neg (not_not.2 rfl), hnone, fun key i => ?_⟩
      rw [hbytes]
      apply leads_dirent hdvd (hle.trans h.size.ge) h.dvd _ h0 h16
      rwa [h.size]
    · rw [hend, ← h.size] at hused
      exact .inr ⟨if_pos hr, hbytes, .inr ⟨hused, hgrow⟩⟩
  · exact ⟨-1, s, dp, rfl, h, fun _ _ => rfl, .inr ⟨rfl, rfl, .inl ⟨i, o, hentry⟩⟩⟩

theorem dirlink_inserts_root :
    ∃ s' dp', dirlink sbDefault rootDisk 1 (sbDefault.inodes rootDisk.data 1) letterName 2 =
        .ok (0, s', dp') ∧ DirOk sbDefault s' 1 dp' ∧
      (∀ j, j ≠ 1 → files sbDefault s' j = files sbDefault rootDisk j) ∧
      ∀ key i, Leads (files sbDefault s' 1).bytes key i ↔
        key = nameOf letterName ∧ i = 2 ∨ Leads (files sbDefault rootDisk 1).bytes key i := by
  have hfirst : (dirlink sbDefault rootDisk 1 (sbDefault.inodes rootDisk.data 1) letterName 2).map
      Prod.fst = .ok 0 := by decide +kernel
  obtain ⟨r, s', dp', hrun, hok, hothers, hcase⟩ :=
    dirlink_inserts dirOk_root (show 2 ≠ 0 by decide) (by decide) letterName
  rw [hrun] at hfirst
  obtain rfl : r = 0 := Except.ok.inj hfirst
  rcases hcase with ⟨-, -, hleads⟩ | ⟨hneg, -⟩
  · exact ⟨s', dp', hrun, hok, hothers, hleads⟩
  · cases hneg

/-- Emptying an entry takes its name away and nothing else, and does not panic. -/
theorem clearDirent_removes {off i : Nat} {key : List UInt8} (h : DirOk sb s dnum dp)
    (hentry : HasEntry (files sb s dnum).bytes off key i) :
    ∃ s' dp', clearDirent sb s dnum dp off = .ok (s', dp') ∧ DirOk sb s' dnum dp' ∧
      (∀ j, j ≠ dnum → files sb s' j = files sb s j) ∧
      ∀ key' i', Leads (files sb s' dnum).bytes key' i' ↔
        key' ≠ key ∧ Leads (files sb s dnum).bytes key' i' := by
  have hlt := hentry.lt
  have hclear : ∀ {o key' i'}, HasEntry (overwrite (files sb s dnum).bytes off
      (List.replicate 16 0)) o key' i' ↔ o ≠ off ∧ HasEntry (files sb s dnum).bytes o key' i' :=
    hasEntry_clear hentry.dvd hlt.le h.dvd
  have hunique : UniqueNames (overwrite (files sb s dnum).bytes off (List.replicate 16 0)) :=
    fun key' o o' i' i'' he he' => h.unique key' o o' i' i'' (hclear.1 he).2 (hclear.1 he').2
  rw [h.size] at hlt
  obtain ⟨r, s', dp', hrun, hok, hothers, hcase⟩ :=
    h.write List.length_replicate hentry.dvd hlt.le hunique
  rcases hcase with ⟨rfl, hbytes⟩ | ⟨-, -, hend, -⟩
  · have hcall : clearDirent sb s dnum dp off = .ok (s', dp') := by
      unfold clearDirent
      rw [hrun, ok_bind]
      exact if_neg (not_not.2 rfl)
    refine ⟨s', dp', hcall, hok, hothers, fun key' i' => ?_⟩
    rw [hbytes]
    constructor
    · rintro ⟨o, he⟩
      obtain ⟨hne, he⟩ := hclear.1 he
      refine ⟨?_, o, he⟩
      rintro rfl
      exact hne (h.unique _ _ _ _ _ he hentry)
    · rintro ⟨hne, o, he⟩
      refine ⟨o, hclear.2 ⟨?_, he⟩⟩
      rintro rfl
      exact hne (he.named.symm.trans hentry.named)
  · exact absurd hend hlt.ne

theorem clearDirent_removes_letter : ∃ s dp s' dp', clearDirent sbDefault s 1 dp 0 = .ok (s', dp') ∧
    ∀ i, ¬ Leads (files sbDefault s' 1).bytes (nameOf letterName) i := by
  obtain ⟨s, dp, hok, hentry⟩ := exists_linked
  obtain ⟨s', dp', hrun, -, -, hleads⟩ := clearDirent_removes hok hentry
  exact ⟨s, dp, s', dp', hrun, fun i hi => ((hleads _ i).1 hi).1 rfl⟩

end

end G9OS.FileSys
