import G9OS.Lib.CText
import G9OS.Lib.Exchange
import G9OS.Tools.Copy

/-! # `custom_ls.c`

`list_dir` collects the names that `readdir` returns in an array, which is doubled whenever it
is full, sorts the array by exchange and prints the entries.
-/

namespace G9OS.Tools

open Lib

structure LsOptions where
  long : Bool := false                       -- `-l`
  all : Bool := false                        -- `-a`
deriving DecidableEq, Repr

/-- The type of a file, as far as `mode_str` tells types apart. -/
inductive FileType
  | dir
  | link
  | char
  | block
  | fifo
  | socket
  | other
deriving DecidableEq, Repr

/-- What `print_entry` takes from `lstat`; `mtime` is the text that `strftime` makes of the
time. -/
structure LongStat where
  type : FileType
  perm : BitVec 9
  nlink : Nat
  size : Int
  mtime : List UInt8
deriving DecidableEq, Repr

def FileType.letter : FileType → UInt8
  | .dir => 100
  | .link => 108
  | .char => 99
  | .block => 98
  | .fifo => 112
  | .socket => 115
  | .other => 45

/-- `mode_str`: `rwx` for the owner, the group and the others, with a dash for what is missing. -/
def modeStr (type : FileType) (perm : BitVec 9) : List UInt8 :=
  type.letter :: (List.range 9).map fun k =>
    if perm.getLsbD (8 - k) then [114, 119, 120].getD (k % 3) 0 else 45

/-- `print_entry`: what it writes to standard output. -/
def printEntry (o : LsOptions) (lstat : Pathname → Option LongStat) (dir : Pathname)
    (name : CStr) : List UInt8 :=
  if o.long then
    match lstat (cut (dir ++ slash :: name.bytes)) with
    | none => []
    | some st =>
        modeStr st.type st.perm ++ [32] ++ padLeft 2 (decimal st.nlink) ++ [32] ++
          padLeft 8 (decimal st.size) ++ [32] ++ st.mtime ++ [32] ++ name.bytes ++ [10]
  else name.bytes ++ [10]

/-- `names` with room for `cap` pointers, of which the first ones are set. -/
structure NameArray where
  names : Array CStr := #[]
  cap : Nat := 0
  fits : names.size ≤ cap := by decide

/-- `names[count++] = strdup(...)`, behind the test for a full array. -/
def NameArray.push (a : NameArray) (name : CStr) : NameArray where
  names := a.names.push name
  cap := if a.cap ≤ a.names.size then if a.cap = 0 then 32 else a.cap * 2 else a.cap
  fits := by
    have := a.fits
    rw [Array.size_push]
    split
    · split
      · omega
      · omega
    · omega

def hidden (name : CStr) : Bool := name.bytes.head? = some 46

def readEntries (o : LsOptions) : List CStr → NameArray → NameArray
  | [], a => a
  | name :: entries, a =>
      if !o.all && hidden name then readEntries o entries a
      else readEntries o entries (a.push name)

/-- `list_dir`: what it writes to standard output, given what `opendir` and `readdir` return. -/
def listDir (o : LsOptions) (lstat : Pathname → Option LongStat) (path : Pathname)
    (entries : Option (List CStr)) : List UInt8 :=
  match entries with
  | none => []
  | some entries =>
      let a := readEntries o entries {}
      let sorted := exchangeSort (fun s t => decide (0 < strcmp s.bytes t.bytes)) a.names
      sorted.toList.flatMap (printEntry o lstat path)

/-! ## The names that are printed -/

def listed (o : LsOptions) (entries : List CStr) : List CStr :=
  entries.filter fun name => o.all || !hidden name

theorem readEntries_names (o : LsOptions) (entries : List CStr) (a : NameArray) :
    (readEntries o entries a).names.toList = a.names.toList ++ listed o entries := by
  induction entries generalizing a with
  | nil => exact (List.append_nil _).symm
  | cons name entries ih =>
      rw [readEntries, listed, List.filter_cons]
      cases hskip : !o.all && hidden name with
      | true =>
          have hkeep : (o.all || !hidden name) = false := by
            rw [Bool.and_eq_true, Bool.not_eq_true'] at hskip
            simp [hskip]
          rw [hkeep]
          exact ih a
      | false =>
          have hkeep : (o.all || !hidden name) = true := by
            cases hall : o.all with
            | true => rfl
            | false =>
                rw [hall] at hskip
                simpa using hskip
          rw [hkeep]
          refine (ih (a.push name)).trans ?_
          simp [NameArray.push, listed]

/-- The entries of a directory are printed in the order of `strcmp`, each one once, in either
format. -/
theorem listDir_sorted (o : LsOptions) (lstat : Pathname → Option LongStat) (path : Pathname)
    (entries : List CStr) :
    ∃ sorted : List CStr,
      listDir o lstat path (some entries) = sorted.flatMap (printEntry o lstat path) ∧
      sorted.Pairwise (fun s t => strcmp s.bytes t.bytes ≤ 0) ∧ sorted.Perm (listed o entries) := by
  refine ⟨_, rfl, ?_, ?_⟩
  · refine (exchangeSort_sorted ?_ ?_ _).imp fun h => ?_
    · intro s t h
      rw [decide_eq_true_eq] at h
      rw [decide_eq_false_iff_not, strcmp_neg s.bytes]
      omega
    · intro s t u hst htu
      rw [decide_eq_false_iff_not, not_lt] at hst htu ⊢
      exact strcmp_trans s.nonzero t.nonzero hst htu
    · rw [decide_eq_false_iff_not, not_lt] at h
      exact h
  · refine (Array.perm_iff_toList_perm.1 (exchangeSort_perm _ _)).trans ?_
    rw [readEntries_names]
    exact List.Perm.refl _

/-- In the short format the lines are the names, without `-a` those whose first byte is no dot. -/
theorem listDir_short (all : Bool) (lstat : Pathname → Option LongStat) (path : Pathname)
    (entries : List CStr) :
    ∃ sorted : List CStr,
      listDir { all := all } lstat path (some entries) =
        sorted.flatMap (fun name => name.bytes ++ [10]) ∧
      sorted.Pairwise (fun s t => strcmp s.bytes t.bytes ≤ 0) ∧
      sorted.Perm (entries.filter fun name => all || decide (name.bytes.head? ≠ some 46)) := by
  obtain ⟨sorted, hout, hsorted, hperm⟩ := listDir_sorted { all := all } lstat path entries
  refine ⟨sorted, hout, hsorted, ?_⟩
  simpa only [decide_not, listed, hidden] using hperm

/-- `.`, `b`, `a`, `ab` -/
example : listDir {} (fun _ => none) [] (some [⟨[46], by decide⟩, ⟨[98], by decide⟩,
    ⟨[97], by decide⟩, ⟨[97, 98], by decide⟩]) = [97, 10, 97, 98, 10, 98, 10] := by
  decide +kernel

end G9OS.Tools
