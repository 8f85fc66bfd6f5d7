import G9OS.Lib.Bytes
import G9OS.Lib.Halt
import G9OS.FileSys.Bmap

/-! # Reading and writing files (`readi`, `writei` and `iupdate` in `fs.c`)

A file is a list of bytes in blocks that `bmap` finds. A write puts bytes over those of the file,
from a place inside it or at its end, and a read gives them back. The caller holds the lock of the
inode. The bytes come from user memory or go there, of which only the first part may be valid.
-/

namespace G9OS.FileSys

open Lib

def iupdate (sb : Superblock) (s : Blocks) (inum : Nat) (ip : Dinode) : Blocks :=
  s.logWrite (sb.iblock inum) (putDinode (s.data (sb.iblock inum)) (inum % IPB) ip)

/-- The loop of `readi`, for at most the given number of turns; `room` bytes at `dst` are valid. The
result is what `readi` returns and what it has copied. -/
def readiLoop (sb : Superblock) (room n : Nat) :
    Nat → Nat → Nat → Blocks → Dinode → Except FsPanic (Int × List UInt8 × Blocks × Dinode)
  | 0, tot, _, s, ip => .ok (tot, [], s, ip)
  | turns + 1, tot, off, s, ip =>
      if tot < n then do
        let (addr, s, ip) ← bmap sb s ip (off / BSIZE)
        if addr = 0 then .ok (tot, [], s, ip)
        else
          let m := min (n - tot) (BSIZE - off % BSIZE)
          let chunk := slice (s.data addr) (off % BSIZE) m
          if tot + m ≤ room then do
            let (r, out, s, ip) ← readiLoop sb room n turns (tot + m) (off + m) s ip
            .ok (r, chunk ++ out, s, ip)
          else .ok (-1, chunk.take (room - tot), s, ip)
      else .ok (tot, [], s, ip)

def readi (sb : Superblock) (s : Blocks) (ip : Dinode) (room : Nat) (off n : UInt32) :
    Except FsPanic (Int × List UInt8 × Blocks × Dinode) :=
  if off > ip.size ∨ off + n < off then .ok (0, [], s, ip)
  else
    let n := if off + n > ip.size then ip.size - off else n
    readiLoop sb room n.toNat n.toNat 0 off.toNat s ip

/-- The loop of `writei`, for at most the given number of turns; `src` are the valid bytes at `src`.
The result is `tot` and `off` at its end. A copy that fails may have changed the buffer, which is
then released without `log_write`. -/
def writeiLoop (sb : Superblock) (src : List UInt8) (n : Nat) :
    Nat → Nat → Nat → Blocks → Dinode → Except FsPanic (Nat × Nat × Blocks × Dinode)
  | 0, tot, off, s, ip => .ok (tot, off, s, ip)
  | turns + 1, tot, off, s, ip =>
      if tot < n then do
        let (addr, s, ip) ← bmap sb s ip (off / BSIZE)
        if addr = 0 then .ok (tot, off, s, ip)
        else
          let m := min (n - tot) (BSIZE - off % BSIZE)
          let chunk := (src.drop tot).take m
          let d := store (s.data addr) (off % BSIZE) chunk
          if tot + m ≤ src.length then
            writeiLoop sb src n turns (tot + m) (off + m) (s.logWrite addr d) ip
          else .ok (tot, off, { s with data := Function.update s.data addr d }, ip)
      else .ok (tot, off, s, ip)

def writei (sb : Superblock) (s : Blocks) (inum : Nat) (ip : Dinode) (src : List UInt8)
    (off n : UInt32) : Except FsPanic (Int × Blocks × Dinode) :=
  if off > ip.size ∨ off + n < off then .ok (-1, s, ip)
  else if (off + n).toNat > MAXFILE * BSIZE then .ok (-1, s, ip)
  else do
    let (tot, off, s, ip) ← writeiLoop sb src n.toNat n.toNat 0 off.toNat s ip
    let ip := if off > ip.size.toNat then { ip with size := UInt32.ofNat off } else ip
    .ok (tot, iupdate sb s inum ip, ip)

def Dinode.bytes (ip : Dinode) (d : Nat → Block) : List UInt8 := slice (ip.byte d) 0 ip.size.toNat

/-! ## Positions in blocks -/

section
variable {q off m : Nat}

theorem mod_lt_bsize : off % BSIZE < BSIZE := Nat.mod_lt _ (by decide)

theorem pos_in_block {i : Nat} (h : off % BSIZE + i < BSIZE) :
    (off + i) / BSIZE = off / BSIZE ∧ (off + i) % BSIZE = off % BSIZE + i := by
  have hpos : 0 < BSIZE := by decide
  have hsum : off + i = BSIZE * (off / BSIZE) + (off % BSIZE + i) := by
    rw [← Nat.add_assoc, Nat.div_add_mod]
  rw [hsum]
  exact ⟨by rw [Nat.mul_add_div hpos, Nat.div_eq_of_lt h, Nat.add_zero],
    by rw [Nat.mul_add_mod, Nat.mod_eq_of_lt h]⟩

theorem pos_lt_of_div_eq (h : q / BSIZE = off / BSIZE) (hq : off ≤ q) :
    q % BSIZE = off % BSIZE + (q - off) := by
  have h1 := Nat.div_add_mod q BSIZE
  have h2 := Nat.div_add_mod off BSIZE
  rw [h] at h1
  omega

end

/-! ## A write inside one block of a file -/

section
variable {sb : Superblock} {s : Blocks} {ino : Nat → Dinode} {ip : Dinode} {inum addr off : Nat}
  {K : Nat → Prop} {w : List UInt8} {d : Block}

theorem Sound.ref_update (h : Sound sb s.data ino) {y : Nat × Slot}
    (hslot : y.2 ≠ .addr indirect) (j : Nat) (x : Slot) :
    (ino j).ref (Function.update s.data (refs ino s.data y) d) x = (ino j).ref s.data x := by
  refine Dinode.ref_congr fun ha => Function.update_of_ne (fun heq => ?_) _ _
  have hind : refs ino s.data (j, .addr indirect) ≠ 0 := toNat_ne_zero.2 ha
  have hsame := h.owned.inj (j, .addr indirect) y hind heq
  rw [← hsame] at hslot
  exact hslot rfl

theorem Sound.update_data (h : Sound sb s.data ino) {y : Nat × Slot} (hy : refs ino s.data y ≠ 0)
    (hslot : y.2 ≠ .addr indirect) :
    Sound sb (Function.update s.data (refs ino s.data y) d) ino := by
  have hrefs : refs ino (Function.update s.data (refs ino s.data y) d) = refs ino s.data := by
    funext ⟨j, x⟩
    exact h.ref_update hslot j x
  have hdata := h.owned.inArea y hy
  have hbit : ∀ b < sb.size, sb.bit (Function.update s.data (refs ino s.data y) d) b =
      sb.bit s.data b := by
    intro b hb
    apply bit_congr hb
    intro c hc
    have hne : c ≠ refs ino s.data y := by
      rintro rfl
      exact hdata.not_inBitmap hc
    exact Function.update_of_ne hne _ _
  constructor
  · rw [hrefs]
    exact h.owned.congr fun b hb => hbit b hb.2
  · intro b hb
    rw [hbit b (hb.trans_le dataStart_le)]
    exact h.metas b hb
  · rw [hrefs]
    exact h.mapped
  · exact h.small
  · rw [hrefs]
    exact h.free

theorem Sound.write_byte (h : Sound sb s.data ino)
    (hne : (ino inum).ref s.data (slotOf (off / BSIZE)) ≠ 0)
    (hfit : off % BSIZE + w.length ≤ BSIZE) :
    (ino inum).byte (Function.update s.data ((ino inum).ref s.data (slotOf (off / BSIZE)))
        (store (s.data ((ino inum).ref s.data (slotOf (off / BSIZE)))) (off % BSIZE) w)) =
      store ((ino inum).byte s.data) off w := by
  funext q
  have href := h.ref_update (d := store (s.data ((ino inum).ref s.data (slotOf (off / BSIZE))))
    (off % BSIZE) w) (y := (inum, slotOf (off / BSIZE))) slotOf_ne_indirect inum
  unfold refs at href
  by_cases hblock : q / BSIZE = off / BSIZE
  · have hnew : (ino inum).byte (Function.update s.data
        ((ino inum).ref s.data (slotOf (off / BSIZE)))
        (store (s.data ((ino inum).ref s.data (slotOf (off / BSIZE)))) (off % BSIZE) w)) q =
        store (s.data ((ino inum).ref s.data (slotOf (off / BSIZE)))) (off % BSIZE) w
          (q % BSIZE) := by
      rw [Dinode.byte, href, hblock, if_neg hne, Function.update_self]
    have hold : (ino inum).byte s.data q =
        s.data ((ino inum).ref s.data (slotOf (off / BSIZE))) (q % BSIZE) := by
      rw [Dinode.byte, hblock, if_neg hne]
    rw [hnew]
    by_cases hq : off ≤ q ∧ q < off + w.length
    · obtain ⟨i, rfl⟩ := Nat.exists_eq_add_of_le hq.1
      have hi : i < w.length := Nat.lt_of_add_lt_add_left hq.2
      rw [pos_lt_of_div_eq hblock hq.1, Nat.add_sub_cancel_left, store_inside hi, store_inside hi]
    · rw [store_outside hq, hold, store_outside]
      intro hin
      apply hq
      have h1 := Nat.div_add_mod q BSIZE
      have h2 := Nat.div_add_mod off BSIZE
      rw [hblock] at h1
      omega
  · have hout : ¬ (off ≤ q ∧ q < off + w.length) := by
      rintro ⟨hle, hlt⟩
      obtain ⟨i, rfl⟩ := Nat.exists_eq_add_of_le hle
      exact hblock (pos_in_block (by omega)).1
    rw [store_outside hout]
    refine Dinode.byte_congr (href _) fun hq => Function.update_of_ne (fun heq => ?_) _ _
    have hsame := h.owned.inj (inum, slotOf (q / BSIZE)) (inum, slotOf (off / BSIZE)) hq heq
    exact hblock (slotOf_inj (Prod.mk.inj hsame).2)

/-- A write inside one block, with or without `log_write`. -/
theorem Grow.write (s' : Blocks) (h : Sound sb s.data (Function.update ino inum ip))
    (haddr : addr = ip.ref s.data (slotOf (off / BSIZE))) (hne : addr ≠ 0)
    (hfit : off % BSIZE + w.length ≤ BSIZE) (hK : K (off / BSIZE))
    (hdata : s'.data = Function.update s.data addr (store (s.data addr) (off % BSIZE) w))
    (hlog : s'.logged = addr :: s.logged ∨ s'.logged = s.logged) :
    Grow sb ino inum K s ip s' ip ∧ ip.byte s'.data = store (ip.byte s.data) off w := by
  have hy : refs (Function.update ino inum ip) s.data (inum, slotOf (off / BSIZE)) = addr := by
    rw [refs_update_self, haddr]
  have hy0 := hne
  rw [← hy] at hy0
  have hin := h.owned.inArea _ hy0
  rw [hy] at hin
  have href : ∀ j x, (Function.update ino inum ip j).ref s'.data x =
      (Function.update ino inum ip j).ref s.data x := by
    intro j x
    have := h.ref_update (d := store (s.data addr) (off % BSIZE) w)
      (y := (inum, slotOf (off / BSIZE))) slotOf_ne_indirect j x
    rwa [hy, ← hdata] at this
  have hself : ∀ x, ip.ref s'.data x = ip.ref s.data x := by
    intro x
    have := href inum x
    rwa [Function.update_self] at this
  refine ⟨⟨?_, rfl, fun x _ => hself x, fun j hj q => ?_, fun b hb => ?_, ?_⟩, ?_⟩
  · have := h.update_data (d := store (s.data addr) (off % BSIZE) w) hy0 slotOf_ne_indirect
    rwa [hy, ← hdata] at this
  · have hjref := href j (slotOf (q / BSIZE))
    rw [Function.update_of_ne hj] at hjref
    refine Dinode.byte_congr hjref fun hq => ?_
    rw [hdata]
    refine Function.update_of_ne (fun heq => ?_) _ _
    have hq' : refs (Function.update ino inum ip) s.data (j, slotOf (q / BSIZE)) ≠ 0 := by
      rwa [refs_update_of_ne hj]
    have hsame := h.owned.inj _ (inum, slotOf (off / BSIZE)) hq' (by
      rw [hy, refs_update_of_ne hj]
      exact heq)
    exact hj (Prod.mk.inj hsame).1
  · rw [hdata]
    have hle : sb.bmapstart ≤ sb.dataStart := Nat.le_add_right _ _
    have hstart := hin.1
    exact Function.update_of_ne (by omega) _ _
  · rcases hlog with hlog | hlog
    · refine ⟨[addr], hlog, fun c hc => ?_⟩
      rw [List.mem_singleton.1 hc]
      exact .inr ⟨hne, .inr ⟨off / BSIZE, hK, haddr.trans (hself _).symm⟩⟩
    · exact ⟨[], hlog, fun c hc => absurd hc List.not_mem_nil⟩
  · have hne' : (Function.update ino inum ip inum).ref s.data (slotOf (off / BSIZE)) ≠ 0 := by
      rwa [Function.update_self, ← haddr]
    have hbyte := h.write_byte hne' hfit
    rwa [Function.update_self, ← haddr, ← hdata] at hbyte

end

/-! ## The loop of `writei` -/

/-- What the loop has done from `tot` and `off` on. It may have written more bytes than it counts,
if a copy failed. It stops early if the source ends or no block is free. -/
structure Wrote (sb : Superblock) (ino : Nat → Dinode) (inum : Nat) (K : Nat → Prop)
    (src : List UInt8) (n tot off : Nat) (s : Blocks) (ip : Dinode)
    (r : Nat × Nat × Blocks × Dinode) : Prop where
  grow : Grow sb ino inum K s ip r.2.2.1 r.2.2.2
  le : tot ≤ r.1
  position : r.2.1 = off + (r.1 - tot)
  bytes : ∃ m, r.1 ≤ tot + m ∧ tot + m ≤ n ∧ tot + m ≤ src.length ∧
    (n ≤ src.length → r.1 = tot + m) ∧
    r.2.2.2.byte r.2.2.1.data = store (ip.byte s.data) off ((src.drop tot).take m)
  mapped : ∀ q, off ≤ q → q < r.2.1 → r.2.2.2.ref r.2.2.1.data (slotOf (q / BSIZE)) ≠ 0
  stop : r.1 < n → src.length < n ∨ ∀ b < sb.size, sb.bit r.2.2.1.data b = true

section
variable {sb : Superblock} {ino : Nat → Dinode} {ip : Dinode} {inum n : Nat} {K : Nat → Prop}
  {src : List UInt8} {s : Blocks}

theorem Grow.type_ne {s' : Blocks} {ip' : Dinode} (h : Grow sb ino inum K s ip s' ip')
    (htype : ip.type ≠ 0) : ip'.type ≠ 0 := by
  rw [h.fields]
  exact htype

theorem Wrote.nothing {tot off : Nat} {s' : Blocks} {ip' : Dinode}
    (hgrow : Grow sb ino inum K s ip s' ip') (hbytes : ∀ q, ip'.byte s'.data q = ip.byte s.data q)
    (hn : tot ≤ n) (hsrc : tot ≤ src.length)
    (hstop : tot < n → src.length < n ∨ ∀ b < sb.size, sb.bit s'.data b = true) :
    Wrote sb ino inum K src n tot off s ip (tot, off, s', ip') where
  grow := hgrow
  le := le_rfl
  position := by
    dsimp only
    omega
  bytes := by
    refine ⟨0, le_rfl, hn, hsrc, fun _ => rfl, ?_⟩
    rw [List.take_zero, store_nil]
    exact funext hbytes
  mapped q hq hlt := absurd hlt (Nat.not_lt.2 hq)
  stop := hstop

theorem writeiLoop_wrote (src : List UInt8) (n : Nat) {turns : Nat} (tot off : Nat)
    (h : Sound sb s.data (Function.update ino inum ip)) (htype : ip.type ≠ 0)
    (hturns : n - tot ≤ turns) (hn : tot ≤ n) (hsrc : tot ≤ src.length)
    (hmax : off + (n - tot) ≤ MAXFILE * BSIZE)
    (hK : ∀ q, off ≤ q → q < off + (n - tot) → K (q / BSIZE)) :
    ∃ r, writeiLoop sb src n turns tot off s ip = .ok r ∧
      Wrote sb ino inum K src n tot off s ip r := by
  induction turns generalizing tot off s ip with
  | zero =>
      refine ⟨_, rfl, .nothing (.refl h) (fun _ => rfl) hn hsrc fun hlt => ?_⟩
      omega
  | succ turns ih =>
      unfold writeiLoop
      by_cases hlt : tot < n
      · rw [if_pos hlt]
        have hKoff : K (off / BSIZE) := hK off le_rfl (by omega)
        have hbn : off / BSIZE < MAXFILE :=
          (Nat.div_lt_iff_lt_mul (by decide)).2 (by omega)
        obtain ⟨⟨addr, s1, ip1⟩, hbmap, hloc⟩ := bmap_located h htype hbn hKoff
        rw [hbmap, ok_bind]
        dsimp only
        by_cases h0 : addr = 0
        · rw [if_pos h0]
          exact ⟨_, rfl, .nothing hloc.grow hloc.bytes hn hsrc fun _ => .inr (hloc.full h0)⟩
        · rw [if_neg h0]
          generalize hm : min (n - tot) (BSIZE - off % BSIZE) = m
          have hmod : off % BSIZE < BSIZE := mod_lt_bsize
          have hlen : ((src.drop tot).take m).length = min m (src.length - tot) := by
            rw [List.length_take, List.length_drop]
          have hfit : off % BSIZE + ((src.drop tot).take m).length ≤ BSIZE := by omega
          have haddr : addr = ip1.ref s1.data (slotOf (off / BSIZE)) := hloc.addr
          have htype1 := hloc.grow.type_ne htype
          by_cases hcopy : tot + m ≤ src.length
          · rw [if_pos hcopy]
            obtain ⟨hgrow, hbyte⟩ := Grow.write
              (s1.logWrite addr (store (s1.data addr) (off % BSIZE) ((src.drop tot).take m)))
              hloc.grow.sound haddr h0 hfit hKoff rfl (.inl rfl)
            obtain ⟨r, hr, hwrote⟩ := ih (tot + m) (off + m) hgrow.sound htype1
              (by omega) (by omega) hcopy (by omega) fun q hq hq' => hK q (by omega) (by omega)
            have hfull : ((src.drop tot).take m).length = m := by omega
            refine ⟨r, hr, (hloc.grow.trans hgrow).trans hwrote.grow, ?_, ?_, ?_, ?_, hwrote.stop⟩
            · exact (Nat.le_add_right tot m).trans hwrote.le
            · have hle := hwrote.le
              rw [hwrote.position]
              omega
            · obtain ⟨m', h1, h2, h3, hwhole, hbytes⟩ := hwrote.bytes
              refine ⟨m + m', by omega, by omega, by omega,
                fun hle => (hwhole hle).trans (Nat.add_assoc tot m m'), ?_⟩
              have happ : store (store (ip.byte s.data) off ((src.drop tot).take m))
                  (off + ((src.drop tot).take m).length) ((src.drop (tot + m)).take m') =
                  store (ip.byte s.data) off _ := store_append
              rw [hbytes, hbyte, funext hloc.bytes]
              rw [hfull] at happ
              rw [happ, List.take_add, List.drop_drop]
            · intro q hq hqlt
              by_cases hqm : q < off + m
              · obtain ⟨i, rfl⟩ := Nat.exists_eq_add_of_le hq
                rw [(pos_in_block (by omega)).1]
                have hkept := hgrow.kept (slotOf (off / BSIZE)) (haddr ▸ h0)
                rw [hwrote.grow.kept _ (by rw [hkept]; exact haddr ▸ h0), hkept]
                exact haddr ▸ h0
              · exact hwrote.mapped q (by omega) hqlt
          · rw [if_neg hcopy]
            obtain ⟨hgrow, hbyte⟩ := Grow.write
              ⟨Function.update s1.data addr
                (store (s1.data addr) (off % BSIZE) ((src.drop tot).take m)), s1.logged⟩
              hloc.grow.sound haddr h0 hfit hKoff rfl (.inr rfl)
            refine ⟨_, rfl, hloc.grow.trans hgrow, le_rfl, ?_, ?_, ?_, ?_⟩
            · dsimp only
              omega
            · refine ⟨src.length - tot, by dsimp only; omega, by omega, by omega,
                fun hle => absurd hle (by omega), ?_⟩
              dsimp only
              rw [hbyte, funext hloc.bytes, List.take_of_length_le (i := m), List.take_of_length_le]
              · rw [List.length_drop]
              · rw [List.length_drop]
                omega
            · intro q hq hqlt
              exact absurd hqlt (Nat.not_lt.2 hq)
            · intro _
              exact .inl (by omega)
      · rw [if_neg hlt]
        exact ⟨_, rfl, .nothing (.refl h) (fun _ => rfl) hn hsrc fun hlt' => absurd hlt' hlt⟩

end

/-! ## The disk between two calls -/

def FsOk (sb : Superblock) (s : Blocks) : Prop := Sound sb s.data (sb.inodes s.data)

/-- A file as the users of the file system see it. -/
@[ext]
structure File where
  type : Int16
  major : Int16
  minor : Int16
  nlink : Int16
  bytes : List UInt8
deriving DecidableEq

def Dinode.file (ip : Dinode) (d : Nat → Block) : File :=
  ⟨ip.type, ip.major, ip.minor, ip.nlink, ip.bytes d⟩

def files (sb : Superblock) (s : Blocks) (inum : Nat) : File := (sb.inodes s.data inum).file s.data

section
variable {sb : Superblock} {s : Blocks} {ino : Nat → Dinode} {ip : Dinode} {d d' : Nat → Block}
  {inum j q : Nat}

theorem Sound.congr_metas (h : Sound sb d ino) (d' : Nat → Block)
    (hd : ∀ b, sb.bmapstart ≤ b → b < sb.size → d' b = d b) :
    Sound sb d' ino ∧ (∀ j x, (ino j).ref d' x = (ino j).ref d x) ∧
      ∀ j q, (ino j).byte d' q = (ino j).byte d q := by
  have hle : sb.bmapstart ≤ sb.dataStart := Nat.le_add_right _ _
  have href : ∀ j x, (ino j).ref d' x = (ino j).ref d x := fun j x =>
    Dinode.ref_congr fun ha =>
      hd _ (hle.trans (h.indirect_inData ha).1) (h.indirect_inData ha).2
  have hrefs : refs ino d' = refs ino d := funext fun x => href x.1 x.2
  have hbit : ∀ b < sb.size, sb.bit d' b = sb.bit d b := fun b hb =>
    bit_congr hb fun c hc => hd c hc.1 (hc.2.trans_le dataStart_le)
  refine ⟨⟨?_, fun b hb => ?_, ?_, h.small, ?_⟩, href, fun j q => ?_⟩
  · rw [hrefs]
    exact h.owned.congr fun b hb => hbit b hb.2
  · rw [hbit b (hb.trans_le dataStart_le)]
    exact h.metas b hb
  · rw [hrefs]
    exact h.mapped
  · rw [hrefs]
    exact h.free
  · refine Dinode.byte_congr (href j _) fun hne => ?_
    have hin := h.owned.inArea (j, slotOf (q / BSIZE)) hne
    exact hd _ (hle.trans hin.1) hin.2

theorem iupdate_data {b : Nat} (hinum : inum < sb.ninodes) (hb : sb.bmapstart ≤ b) :
    (iupdate sb s inum ip).data b = s.data b := by
  have hlt := iblock_lt hinum
  exact Function.update_of_ne (by omega) _ _

/-- What `iupdate` makes of a disk on which only the inode itself was still to be written. -/
theorem Sound.iupdate (h : Sound sb s.data (Function.update (sb.inodes s.data) inum ip))
    (hinum : inum < sb.ninodes) :
    sb.inodes (iupdate sb s inum ip).data = Function.update (sb.inodes s.data) inum ip ∧
      FsOk sb (iupdate sb s inum ip) ∧
      (∀ j x, (Function.update (sb.inodes s.data) inum ip j).ref (iupdate sb s inum ip).data x =
        (Function.update (sb.inodes s.data) inum ip j).ref s.data x) ∧
      ∀ j q, (Function.update (sb.inodes s.data) inum ip j).byte (iupdate sb s inum ip).data q =
        (Function.update (sb.inodes s.data) inum ip j).byte s.data q := by
  have hino : sb.inodes (FileSys.iupdate sb s inum ip).data =
      Function.update (sb.inodes s.data) inum ip := inodes_putDinode hinum
  obtain ⟨hsound, href, hbyte⟩ := h.congr_metas (FileSys.iupdate sb s inum ip).data
    fun b hb _ => iupdate_data hinum hb
  refine ⟨hino, ?_, href, hbyte⟩
  unfold FsOk
  rwa [hino]

theorem Dinode.file_congr (h : ∀ q, ip.byte d' q = ip.byte d q) : ip.file d' = ip.file d := by
  unfold Dinode.file Dinode.bytes
  rw [funext h]

theorem files_eq {s' : Blocks} {ip' : Dinode}
    (hino : sb.inodes s'.data = Function.update (sb.inodes s.data) inum ip')
    (hothers : ∀ j, j ≠ inum → ∀ q, (sb.inodes s.data j).byte s'.data q =
      (sb.inodes s.data j).byte s.data q) :
    files sb s' = Function.update (files sb s) inum (ip'.file s'.data) := by
  funext j
  unfold files
  rw [hino]
  by_cases hj : j = inum
  · subst hj
    rw [Function.update_self, Function.update_self]
  · rw [Function.update_of_ne hj, Function.update_of_ne hj]
    exact Dinode.file_congr (hothers j hj)

end

/-! ## `writei` -/

/-- A call of `writei` that is not refused: it returns `tot`, and has put `m` bytes over those of
the file, of which those behind the end of the file do not show. -/
structure WriteDone (sb : Superblock) (s : Blocks) (inum : Nat) (src : List UInt8)
    (off n tot m : Nat) (s' : Blocks) (ip' : Dinode) : Prop where
  ok : FsOk sb s'
  inodes : sb.inodes s'.data = Function.update (sb.inodes s.data) inum ip'
  tot_le : tot ≤ m
  le_n : m ≤ n
  le_src : m ≤ src.length
  whole : n ≤ src.length → tot = m
  stop : tot < n → src.length < n ∨ ∀ b < sb.size, sb.bit s'.data b = true
  files : files sb s' = Function.update (files sb s) inum { files sb s inum with
    bytes := (overwrite (files sb s inum).bytes off (src.take m)).take
      (max (files sb s inum).bytes.length (off + tot)) }
  logs : ∃ l, s'.logged = l ++ s.logged ∧ ∀ c ∈ l, sb.InBitmap c ∨ c = sb.iblock inum ∨
    c = ip'.ref s'.data (.addr indirect) ∨
    ∃ q, off ≤ q ∧ q < off + n ∧ c = ip'.ref s'.data (slotOf (q / BSIZE))

section
variable {sb : Superblock} {s : Blocks} {ip : Dinode} {inum : Nat} {src : List UInt8}
  {off n : UInt32}

theorem length_bytes {d : Nat → Block} : (ip.bytes d).length = ip.size.toNat := length_slice

theorem toNat_add_of_le {off n : UInt32} (h : off.toNat + n.toNat ≤ MAXFILE * BSIZE) :
    (off + n).toNat = off.toNat + n.toNat := by
  have hlt : MAXFILE * BSIZE < 2 ^ 32 := by decide
  rw [UInt32.toNat_add, Nat.mod_eq_of_lt (h.trans_lt hlt)]

def grown (ip : Dinode) (off : Nat) : Dinode :=
  if off > ip.size.toNat then { ip with size := UInt32.ofNat off } else ip

theorem grown_size {off : Nat} (h : off ≤ MAXFILE * BSIZE) :
    (grown ip off).size.toNat = max ip.size.toNat off := by
  have hlt : MAXFILE * BSIZE < 2 ^ 32 := by decide
  have hcast : (UInt32.ofNat off).toNat = off := UInt32.toNat_ofNat_of_lt (h.trans_lt hlt)
  unfold grown
  split
  · rename_i hgt
    dsimp only
    rw [hcast]
    omega
  · omega

theorem grown_fields {off : Nat} : grown ip off = { ip with size := (grown ip off).size } := by
  unfold grown
  split <;> rfl

theorem grown_ref {off : Nat} {d : Nat → Block} {x : Slot} :
    (grown ip off).ref d x = ip.ref d x := by
  rw [grown_fields]
  cases x <;> rfl

theorem Sound.grown {ino : Nat → Dinode} {d : Nat → Block} {off : Nat}
    (h : Sound sb d (Function.update ino inum ip)) (htype : ip.type ≠ 0)
    (hmax : off ≤ MAXFILE * BSIZE)
    (hmapped : ∀ q, ip.size.toNat ≤ q → q < off → ip.ref d (slotOf (q / BSIZE)) ≠ 0) :
    Sound sb d (Function.update ino inum (grown ip off)) := by
  have hrefs : refs (Function.update ino inum (FileSys.grown ip off)) d =
      refs (Function.update ino inum ip) d := by
    funext ⟨j, x⟩
    by_cases hj : j = inum
    · rw [hj, refs_update_self, refs_update_self, grown_ref]
    · rw [refs_update_of_ne hj, refs_update_of_ne hj]
  refine ⟨?_, h.metas, fun j bn hlt => ?_, fun j => ?_, fun j hj => ?_⟩
  · rw [hrefs]
    exact h.owned
  · rw [hrefs]
    by_cases hj : j = inum
    · subst hj
      rw [Function.update_self, grown_size hmax] at hlt
      by_cases hsize : bn * BSIZE < ip.size.toNat
      · apply h.mapped
        rwa [Function.update_self]
      · have hnew := hmapped (bn * BSIZE) (by omega) (by omega)
        rw [Nat.mul_div_cancel bn (by decide)] at hnew
        rwa [refs_update_self]
    · rw [Function.update_of_ne hj] at hlt
      apply h.mapped
      rwa [Function.update_of_ne hj]
  · by_cases hj : j = inum
    · have hold := h.small inum
      rw [Function.update_self] at hold
      rw [hj, Function.update_self, grown_size hmax]
      omega
    · have hold := h.small j
      rw [Function.update_of_ne hj] at hold ⊢
      exact hold
  · by_cases hji : j = inum
    · subst hji
      rw [Function.update_self, grown_fields] at hj
      exact absurd hj htype
    · have hold := h.free j
      rw [Function.update_of_ne hji] at hold hj ⊢
      rw [hrefs]
      exact hold hj

theorem grown_byte {off : Nat} {d : Nat → Block} {q : Nat} :
    (grown ip off).byte d q = ip.byte d q := by
  unfold Dinode.byte
  rw [grown_ref]

/-- The bytes that show after `m` bytes have been put over those of a file, and the end of the file
is at `off + tot` or where it was. -/
theorem bytes_written {size off tot m : Nat} {f : Nat → UInt8} (hoff : off ≤ size) (htot : tot ≤ m)
    (hm : m ≤ src.length) :
    slice (store f off (src.take m)) 0 (max size (off + tot)) =
      (overwrite (slice f 0 size) off (src.take m)).take (max size (off + tot)) := by
  have hlen : (src.take m).length = m := List.length_take_of_le hm
  rw [← slice_store hoff, take_slice, hlen, Nat.min_eq_left (by omega)]

/-- `writei` returns -1 at once. -/
def Refused (size : Nat) (off n : UInt32) : Prop :=
  size < off.toNat ∨ MAXFILE * BSIZE < off.toNat + n.toNat

theorem writei_refused (h : Refused ip.size.toNat off n) :
    writei sb s inum ip src off n = .ok (-1, s, ip) := by
  unfold writei
  by_cases hfirst : off > ip.size ∨ off + n < off
  · rw [if_pos hfirst]
  · rw [if_neg hfirst, if_pos]
    have hno : (off + n).toNat = off.toNat + n.toNat := by
      have hle : ¬ (off + n).toNat < off.toNat := fun hlt =>
        hfirst (.inr (UInt32.lt_iff_toNat_lt.2 hlt))
      have hoff := off.toNat_lt
      have hn := n.toNat_lt
      rw [UInt32.toNat_add] at hle ⊢
      omega
    rw [hno]
    refine h.resolve_left fun hlt => hfirst (.inl ?_)
    exact UInt32.lt_iff_toNat_lt.2 hlt

/-- A write from inside the file or its end, within the largest size, is not refused. It keeps the
disk sound, changes no other file, and stops early only if the source ends or the disk is full. -/
theorem writei_done (src : List UInt8) (h : FsOk sb s) (hinum : inum < sb.ninodes)
    (hip : sb.inodes s.data inum = ip) (htype : ip.type ≠ 0) (hoff : off.toNat ≤ ip.size.toNat)
    (hmax : off.toNat + n.toNat ≤ MAXFILE * BSIZE) :
    ∃ tot m s' ip', writei sb s inum ip src off n = .ok ((tot : Nat), s', ip') ∧
      WriteDone sb s inum src off.toNat n.toNat tot m s' ip' := by
  have hsum := toNat_add_of_le hmax
  have hlt : ¬ (off > ip.size ∨ off + n < off) := by
    rintro (hgt | hlt)
    · exact absurd (UInt32.lt_iff_toNat_lt.1 hgt) (Nat.not_lt.2 hoff)
    · have hlt := UInt32.lt_iff_toNat_lt.1 hlt
      omega
  have hcur : Function.update (sb.inodes s.data) inum ip = sb.inodes s.data := by
    rw [← hip, Function.update_eq_self]
  have h1 : Sound sb s.data (Function.update (sb.inodes s.data) inum ip) := by
    rw [hcur]
    exact h
  obtain ⟨⟨tot, off', s1, ip1⟩, hrun, hwrote⟩ := writeiLoop_wrote src n.toNat 0 off.toNat
    (K := fun bn => ∃ q, off.toNat ≤ q ∧
      q < off.toNat + n.toNat ∧ bn = q / BSIZE) h1 htype (Nat.sub_le _ _) (Nat.zero_le _)
    (Nat.zero_le _) (by omega) fun q hq hq' => ⟨q, hq, by omega, rfl⟩
  obtain ⟨m, htm, hmn, hms, hwhole, hbytes⟩ := hwrote.bytes
  have hgrow := hwrote.grow
  have hpos := hwrote.position
  dsimp only at hpos htm hmn hms hwhole hbytes hgrow
  have hsize1 : ip1.size = ip.size := by rw [hgrow.fields]
  have htype1 := hgrow.type_ne htype
  have hmax' : off' ≤ MAXFILE * BSIZE := by omega
  have hmapped : ∀ q, ip1.size.toNat ≤ q → q < off' → ip1.ref s1.data (slotOf (q / BSIZE)) ≠ 0 :=
    fun q hq hlt => hwrote.mapped q (by rw [hsize1] at hq; omega) hlt
  have hino1 : sb.inodes s1.data = sb.inodes s.data := inodes_congr hgrow.metas
  have hsound := hgrow.sound.grown htype1 hmax' hmapped
  rw [← hino1] at hsound
  obtain ⟨hino, hok, href, hbyte⟩ := hsound.iupdate hinum
  generalize hs2 : iupdate sb s1 inum (grown ip1 off') = s2 at hino hok href hbyte
  have hself := hbyte inum
  have hrself := href inum
  rw [Function.update_self] at hself hrself
  refine ⟨tot, m, s2, grown ip1 off', ?_, ?_⟩
  · unfold writei
    rw [if_neg hlt, if_neg (by omega), hrun, ok_bind, ← hs2]
    rfl
  · rw [hino1] at hino
    refine ⟨hok, hino, by omega, by omega, by omega, fun hle => by have := hwhole hle; omega,
      fun htot => ?_, ?_, ?_⟩
    · rcases hwrote.stop htot with hs | hfull
      · exact .inl hs
      · refine .inr fun b hb => ?_
        rw [← hfull b hb, ← hs2]
        exact bit_congr hb fun c hc => iupdate_data hinum hc.1
    · have hothers : ∀ j, j ≠ inum → ∀ q, (sb.inodes s.data j).byte s2.data q =
          (sb.inodes s.data j).byte s.data q := by
        intro j hj q
        have hj2 := hbyte j q
        rw [Function.update_of_ne hj, hino1] at hj2
        exact hj2.trans (hgrow.others j hj q)
      rw [files_eq hino hothers]
      refine congrArg (Function.update _ _) ?_
      have hfields : grown ip1 off' = { ip with
          addrs := ip1.addrs, size := (grown ip1 off').size } := by
        rw [grown_fields, hgrow.fields]
      unfold files
      rw [hip]
      have hnew : (grown ip1 off').bytes s2.data =
          (overwrite (ip.bytes s.data) off.toNat (src.take m)).take
            (max (ip.bytes s.data).length (off.toNat + tot)) := by
        unfold Dinode.bytes
        rw [funext hself, length_slice, ← bytes_written hoff (by omega) (by omega),
          grown_size hmax', hsize1, show off' = off.toNat + tot by omega]
        congr 1
        funext q
        rw [grown_byte, hbytes, List.drop_zero]
      unfold Dinode.file
      rw [hnew, hfields]
    · obtain ⟨l, hl, hin⟩ := hgrow.logs
      refine ⟨sb.iblock inum :: l, ?_, fun c hc => ?_⟩
      · rw [← hs2, List.cons_append, ← hl]
        rfl
      · rcases List.mem_cons.1 hc with rfl | hc
        · exact .inr (.inl rfl)
        · rcases hin c hc with hbm | ⟨-, hind | ⟨bn, ⟨q, hq, hq', rfl⟩, hfile⟩⟩
          · exact .inl hbm
          · refine .inr (.inr (.inl ?_))
            rw [hrself, grown_ref]
            exact hind
          · refine .inr (.inr (.inr ⟨q, hq, hq', ?_⟩))
            rw [hrself, grown_ref]
            exact hfile

end

/-! ## `readi` -/

section
variable {sb : Superblock} {s : Blocks} {ip : Dinode} {inum : Nat}

theorem Sound.type_ne {ino : Nat → Dinode} {d : Nat → Block} {x : Slot} (h : Sound sb d ino)
    (hx : (ino inum).ref d x ≠ 0) : (ino inum).type ≠ 0 :=
  fun h0 => hx ((h.free inum h0).2 x)

theorem bmap_mapped (h : FsOk sb s) (hip : sb.inodes s.data inum = ip) {q : Nat}
    (hq : q < ip.size.toNat) :
    ip.ref s.data (slotOf (q / BSIZE)) ≠ 0 ∧
      bmap sb s ip (q / BSIZE) = .ok (ip.ref s.data (slotOf (q / BSIZE)), s, ip) := by
  have hcur : Function.update (sb.inodes s.data) inum ip = sb.inodes s.data := by
    rw [← hip, Function.update_eq_self]
  have hsound : Sound sb s.data (Function.update (sb.inodes s.data) inum ip) := by
    rw [hcur]
    exact h
  have hne : ip.ref s.data (slotOf (q / BSIZE)) ≠ 0 := by
    have hmapped := h.mapped inum (q / BSIZE) (by
      rw [hip]
      exact (Nat.div_mul_le_self q BSIZE).trans_lt hq)
    rw [← hip]
    exact hmapped
  have htype : ip.type ≠ 0 := by
    rw [← hip] at hne ⊢
    exact h.type_ne hne
  have hbn : q / BSIZE < MAXFILE := by
    have hsmall := h.small inum
    rw [hip] at hsmall
    exact (Nat.div_lt_iff_lt_mul (by decide)).2 (hq.trans_le hsmall)
  obtain ⟨r, hr, hloc⟩ := bmap_located (K := fun _ => True) hsound htype hbn trivial
  exact ⟨hne, hr.trans (congrArg _ (hloc.same hne))⟩

theorem slice_block {off m : Nat} (hne : ip.ref s.data (slotOf (off / BSIZE)) ≠ 0)
    (hm : off % BSIZE + m ≤ BSIZE) :
    slice (s.data (ip.ref s.data (slotOf (off / BSIZE)))) (off % BSIZE) m =
      slice (ip.byte s.data) off m := by
  refine slice_congr fun i hi => ?_
  have hin : off % BSIZE + i < BSIZE := by omega
  obtain ⟨hdiv, hmod⟩ := pos_in_block hin
  rw [Dinode.byte, hdiv, hmod, if_neg hne]

theorem readiLoop_reads (h : FsOk sb s) (hip : sb.inodes s.data inum = ip)
    {room n turns tot off : Nat} (hturns : n - tot ≤ turns) (hn : tot ≤ n) (hroom : tot ≤ room)
    (hsize : off + (n - tot) ≤ ip.size.toNat) :
    readiLoop sb room n turns tot off s ip =
      .ok (if n ≤ room then n else -1,
        slice (ip.byte s.data) off (min (n - tot) (room - tot)), s, ip) := by
  induction turns generalizing tot off with
  | zero =>
      obtain rfl : tot = n := by omega
      rw [readiLoop, if_pos hroom, Nat.sub_self, Nat.zero_min]
      rfl
  | succ turns ih =>
      unfold readiLoop
      by_cases hlt : tot < n
      · obtain ⟨hne, hbmap⟩ := bmap_mapped h hip (q := off) (by omega)
        rw [if_pos hlt, hbmap, ok_bind]
        dsimp only
        rw [if_neg hne]
        generalize hm : min (n - tot) (BSIZE - off % BSIZE) = m
        have hmod : off % BSIZE < BSIZE := mod_lt_bsize
        rw [slice_block hne (by omega)]
        by_cases hfits : tot + m ≤ room
        · rw [if_pos hfits, ih (by omega) (by omega) hfits (by omega), ok_bind]
          dsimp only
          rw [← slice_add]
          congr 4
          omega
        · rw [if_neg hfits, if_neg (by omega), take_slice]
          congr 4
          omega
      · obtain rfl : tot = n := by omega
        rw [if_neg hlt, if_pos hroom, Nat.sub_self, Nat.zero_min]
        rfl

/-- A read gives the bytes of the file from `off` on, as many as there are and as there is room for,
and changes nothing. It returns their number, or -1 if there is not enough room. -/
theorem readi_reads (h : FsOk sb s) (hip : sb.inodes s.data inum = ip) (room : Nat)
    {off n : UInt32} (hsum : off.toNat + n.toNat < 2 ^ 32) :
    let want := ((files sb s inum).bytes.drop off.toNat).take n.toNat
    readi sb s ip room off n =
      .ok (if want.length ≤ room then want.length else -1, want.take room, s, ip) := by
  have hbytes : (files sb s inum).bytes = slice (ip.byte s.data) 0 ip.size.toNat := by
    rw [← hip]
    rfl
  intro want
  have hwant : want =
      slice (ip.byte s.data) off.toNat (min n.toNat (ip.size.toNat - off.toNat)) := by
    change ((files sb s inum).bytes.drop off.toNat).take n.toNat = _
    rw [hbytes, drop_slice, take_slice, Nat.zero_add]
  have hadd : (off + n).toNat = off.toNat + n.toNat := by
    rw [UInt32.toNat_add, Nat.mod_eq_of_lt hsum]
  have hlen : want.length = min n.toNat (ip.size.toNat - off.toNat) := by
    rw [hwant, length_slice]
  unfold readi
  by_cases hoff : off > ip.size
  · have hgt := UInt32.lt_iff_toNat_lt.1 hoff
    have hzero : want.length = 0 := by omega
    rw [if_pos (.inl hoff), hzero, if_pos (Nat.zero_le _), List.length_eq_zero_iff.1 hzero,
      List.take_nil]
    rfl
  · have hle : off.toNat ≤ ip.size.toNat := Nat.le_of_not_lt fun hlt =>
      hoff (UInt32.lt_iff_toNat_lt.2 hlt)
    have hno : ¬ (off > ip.size ∨ off + n < off) := by
      rintro (hgt | hlt)
      · exact hoff hgt
      · have := UInt32.lt_iff_toNat_lt.1 hlt
        omega
    rw [if_neg hno]
    have hn : (if off + n > ip.size then ip.size - off else n).toNat = want.length := by
      rw [hlen]
      split
      · rename_i hgt
        have hgt := UInt32.lt_iff_toNat_lt.1 hgt
        rw [UInt32.toNat_sub_of_le _ _ (UInt32.le_iff_toNat_le.2 hle)]
        omega
      · rename_i hgt
        have hng : ¬ ip.size.toNat < (off + n).toNat := fun hlt =>
          hgt (UInt32.lt_iff_toNat_lt.2 hlt)
        omega
    dsimp only
    rw [hn, readiLoop_reads h hip (Nat.sub_le _ _) (Nat.zero_le _) (Nat.zero_le _) (by omega)]
    rw [hwant, take_slice, length_slice, Nat.sub_zero, Nat.sub_zero, Nat.min_comm room]

theorem readi_same (h : FsOk sb s) (hip : sb.inodes s.data inum = ip) (room : Nat)
    (off n : UInt32) : ∃ r out, readi sb s ip room off n = .ok (r, out, s, ip) := by
  by_cases hfirst : off > ip.size ∨ off + n < off
  · exact ⟨0, [], if_pos hfirst⟩
  · refine ⟨_, _, readi_reads h hip room ?_⟩
    have hle : ¬ (off + n).toNat < off.toNat := fun hlt =>
      hfirst (.inr (UInt32.lt_iff_toNat_lt.2 hlt))
    have hoff := off.toNat_lt
    have hn := n.toNat_lt
    rw [UInt32.toNat_add] at hle
    omega

end

end G9OS.FileSys
