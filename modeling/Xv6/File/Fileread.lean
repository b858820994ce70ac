import Xv6.Console.Console
import Xv6.Pipe.Read
import Xv6.File.Partial

/-!
# `fileread`

`kernel/file.c`'s `fileread` on each kind of file, as a sequence of stores to user memory. The count
is an `int`: `piperead` and `consoleread` keep it signed, `readi` takes it as a `uint`.

What the processes that a read waits for do is an input: the pipe as it is when the reader has
`pi->lock` and need not sleep any more, and the characters that `consoleread` takes.
-/

namespace Xv6

open Prog Vol List

def CONSOLE : Int16 := 1

inductive FileKind where
  -- `FD_PIPE`
  | pipe
  -- `FD_INODE`
  | inode (k : Fin NINODE) (off : UInt32)
  -- `FD_DEVICE`
  | device (major : Int16)

structure OpenFile where
  readable : Bool
  kind : FileKind

structure ReadEnv where
  -- The addresses that `copyout` can store to.
  mapped : UInt64 → Bool
  killed : Bool
  -- The pipe when the first loop of `piperead` ends.
  pipe : Pipe
  /-- The character that round `j` of the loop of `consoleread` takes, if it does not find the
  process killed while it waits for it. -/
  input : Nat → Option UInt8

/-- `target - n` in `uint`, returned as an `int`. -/
def uintDiff (target n : Int) : Int :=
  let d := (target - n) % 2 ^ 32
  if d < 2 ^ 31 then d else d - 2 ^ 32

/-- The loop of `consoleread`, in round `j`; `fuel` bounds the rounds by `n`. -/
def consolereadLoop (env : ReadEnv) (target : Int) : Nat → Nat → UInt64 → Int → Int × List Store
  | 0, _, _, n => (uintDiff target n, [])
  | fuel + 1, j, dst, n =>
    if 0 < n then
      match env.input j with
      | none => (-1, [])
      | some c =>
        if c = ctrl 'D' then
          (uintDiff target n, [])
        else if env.mapped dst then
          if c = newline then
            (uintDiff target (n - 1), [(dst, c)])
          else
            let (r, stores) := consolereadLoop env target fuel (j + 1) (dst + 1) (n - 1)
            (r, (dst, c) :: stores)
        else
          (uintDiff target n, [])
    else
      (uintDiff target n, [])

/-- `target` is `n` as a `uint`. -/
def consoleread (env : ReadEnv) (dst : UInt64) (n : Int) : Int × List Store :=
  consolereadLoop env (n % 2 ^ 32) n.toNat 0 dst n

/-- What `fileread` returns, the file with its new offset, and what was stored. -/
def fileread (sb : Superblock) (env : ReadEnv) (f : OpenFile) (addr : UInt64) (n : Int32) :
    FsM (Int × OpenFile × List Store) :=
  if f.readable = false then
    return (-1, f, [])
  else
    match f.kind with
    | .pipe =>
      match piperead env.mapped env.killed env.pipe addr n.toInt with
      | some (r, _, stores) => return (r, f, stores)
      | none => throw .asleep
    | .device major =>
      -- the console is the only device with a `read`
      if major < 0 ∨ NDEV ≤ major ∨ major ≠ CONSOLE then
        return (-1, f, [])
      else
        let (r, stores) := consoleread env addr n.toInt
        return (r, f, stores)
    | .inode k off => do
      ilock sb k
      let (r, bytes) ← readi sb k (fun j => env.mapped (addr + UInt64.ofNat j)) off n.toUInt32
      let f := if 0 < r then { f with kind := .inode k (off + UInt32.ofNat r.toNat) } else f
      iunlock k
      return (r, f, storesAt addr 0 bytes)

structure Within (addr : UInt64) (n : Int32) (r : Int) (stores : List Store) : Prop where
  ret : r ≤ max n.toInt 0
  stores : ∀ st ∈ stores, (st.1 - addr).toNat < n.toInt.toNat

/-- A negative count for a plain file that starts before the end of the file, and that `off + n` does
not make wrap. -/
def ReadsToEnd (sb : Superblock) (s : Fs) (env : ReadEnv) (f : OpenFile) (addr : UInt64)
    (n : Int32) : Prop :=
  f.readable = true ∧ n.toInt < 0 ∧ env.mapped addr = true ∧
    ∃ k off, f.kind = .inode k off ∧ (off.toNat : Int) < - n.toInt ∧
      off.toNat < (s.vol sb).size (s.itable k).inum

/-! ## Stores -/

section Stores

variable {addr : UInt64} {n : Int32}

theorem mem_storesAt {i : Nat} {bytes : List UInt8} {st : Store} (h : st ∈ storesAt addr i bytes) :
    ∃ j, j < bytes.length ∧ st.1 = addr + UInt64.ofNat (i + j) := by
  induction bytes generalizing i with
  | nil => cases h
  | cons ch rest ih =>
    rcases mem_cons.mp h with rfl | hrest
    · exact ⟨0, Nat.succ_pos _, rfl⟩
    · obtain ⟨j, hj, haddr⟩ := ih hrest
      refine ⟨j + 1, Nat.succ_lt_succ hj, ?_⟩
      rw [haddr, show i + 1 + j = i + (j + 1) by omega]

theorem toNat_lt_of_int32 (n : Int32) : n.toInt.toNat < 2 ^ 64 := by
  have := n.toInt_lt
  omega

theorem Within.of_storesAt {r : Int} {bytes : List UInt8} (hr : r ≤ max n.toInt 0)
    (hlen : bytes.length ≤ n.toInt.toNat) : Within addr n r (storesAt addr 0 bytes) where
  ret := hr
  stores := by
    intro st hst
    obtain ⟨j, hj, haddr⟩ := mem_storesAt hst
    have hlt := toNat_lt_of_int32 n
    rw [haddr, Nat.zero_add, Bytes.toNat_add_ofNat_sub addr (by omega)]
    omega

theorem Within.nothing {r : Int} (hr : r ≤ 0) : Within addr n r [] where
  ret := by omega
  stores := fun _ hst => nomatch hst

end Stores

/-! ## Pipes and the console -/

section Waits

variable {addr : UInt64} {n : Int32}

theorem piperead_within {mapped : UInt64 → Bool} {killed : Bool} {pi pi' : Pipe} {r : Int}
    {stores : List Store} (hrun : piperead mapped killed pi addr n.toInt = some (r, pi', stores)) :
    Within addr n r stores := by
  unfold piperead at hrun
  split at hrun
  · split at hrun
    · cases hrun
      exact .nothing (by omega)
    · cases hrun
  · obtain ⟨g, hle, -, hret, hstores, -⟩ := pipereadLoop_end mapped addr n.toInt.toNat 0 pi
    cases hrun
    rw [hstores]
    refine .of_storesAt ?_ ?_
    · rw [hret]
      omega
    · rw [length_take]
      omega

theorem uintDiff_of_le {target n : Int} (hn : 0 ≤ n ∧ n ≤ target) (ht : target < 2 ^ 31) :
    uintDiff target n = target - n := by
  simp only [uintDiff]
  omega

theorem storesAt_succ (addr : UInt64) (i : Nat) (bytes : List UInt8) :
    storesAt (addr + 1) i bytes = storesAt addr (i + 1) bytes := by
  induction bytes generalizing i with
  | nil => rfl
  | cons ch rest ih =>
    have haddr : addr + 1 + UInt64.ofNat i = addr + UInt64.ofNat (i + 1) := by
      rw [UInt64.ofNat_add, UInt64.add_assoc, UInt64.add_comm (UInt64.ofNat i)]
      rfl
    unfold storesAt
    rw [haddr, ih]

theorem consolereadLoop_spec (env : ReadEnv) {target : Int} (ht : target < 2 ^ 31) (fuel j : Nat)
    (dst : UInt64) {n : Int} (hn : 0 ≤ n ∧ n ≤ target) :
    ∃ bytes : List UInt8, (bytes.length : Int) ≤ n ∧
      (consolereadLoop env target fuel j dst n).2 = storesAt dst 0 bytes ∧
      (consolereadLoop env target fuel j dst n).1 ≤ target - n + bytes.length := by
  -- ways out of the loop that store nothing
  have hnone : ∃ bytes : List UInt8, (bytes.length : Int) ≤ n ∧ [] = storesAt dst 0 bytes ∧
      uintDiff target n ≤ target - n + bytes.length :=
    ⟨[], hn.1, rfl, by rw [uintDiff_of_le hn ht]; simp⟩
  induction fuel generalizing j dst n with
  | zero => exact hnone
  | succ fuel ih =>
    unfold consolereadLoop
    by_cases hpos : 0 < n
    swap
    · rw [if_neg hpos]
      exact hnone
    rw [if_pos hpos]
    cases env.input j with
    | none => exact ⟨[], hn.1, rfl, by simp; omega⟩
    | some c =>
      have hn' : 0 ≤ n - 1 ∧ n - 1 ≤ target := by omega
      have hdiff := uintDiff_of_le hn' ht
      dsimp only
      by_cases heof : c = ctrl 'D'
      · rw [if_pos heof]
        exact hnone
      rw [if_neg heof]
      by_cases hmapped : env.mapped dst = true
      swap
      · rw [if_neg hmapped]
        exact hnone
      rw [if_pos hmapped]
      have hdst : dst + UInt64.ofNat 0 = dst := UInt64.add_zero dst
      by_cases hline : c = newline
      · rw [if_pos hline]
        refine ⟨[c], by simp; omega, by simp [storesAt], ?_⟩
        dsimp only
        rw [hdiff, length_singleton]
        omega
      · rw [if_neg hline]
        obtain ⟨bytes, hlen, hstores, hret⟩ := ih (j + 1) (dst + 1) hn'
          ⟨[], hn'.1, rfl, by rw [hdiff]; simp⟩
        refine ⟨c :: bytes, by simp; omega, ?_, ?_⟩
        · dsimp only
          rw [hstores, storesAt_succ, storesAt, hdst]
        · dsimp only
          rw [length_cons]
          omega

theorem consoleread_within (env : ReadEnv) (addr : UInt64) (n : Int32) :
    Within addr n (consoleread env addr n.toInt).1 (consoleread env addr n.toInt).2 := by
  have hlt := n.toInt_lt
  have hle := n.le_toInt
  unfold consoleread
  by_cases hpos : 0 < n.toInt
  · rw [Int.emod_eq_of_lt hpos.le (by omega)]
    obtain ⟨bytes, hlen, hstores, hret⟩ :=
      consolereadLoop_spec env hlt n.toInt.toNat 0 addr ⟨hpos.le, le_rfl⟩
    rw [hstores]
    exact .of_storesAt (by omega) (by omega)
  · -- the loop is not entered, and `target - n` is a multiple of 2 ^ 32
    rw [show n.toInt.toNat = 0 by omega]
    have hzero : uintDiff (n.toInt % 2 ^ 32) n.toInt = 0 := by
      simp only [uintDiff]
      omega
    exact .nothing hzero.le

end Waits

/-! ## Plain files -/

section Inodes

variable {sb : Superblock} {s : Fs} {k : Fin NINODE} {addr : UInt64} {n : Int32}

/-- `readi` cuts the count to what is asked for, unless that is negative and does not wrap. -/
theorem readLen_le_iff {size : Nat} {off : UInt32} (hsize : size ≤ MAXFILE * BSIZE) :
    readLen size off.toNat n.toUInt32.toNat ≤ n.toInt.toNat ↔
      ¬ (n.toInt < 0 ∧ (off.toNat : Int) < - n.toInt ∧ off.toNat < size) := by
  have hn := Bytes.toNat_toUInt32 n
  have hlt := n.toInt_lt
  have hle := n.le_toInt
  have hoff := off.toNat_lt
  simp only [MAXFILE, NDIRECT, NINDIRECT, BSIZE] at hsize
  unfold readLen
  split at hn <;> split <;> omega

theorem readi_within_iff {env : ReadEnv} {off : UInt32} {r : Int} {bytes : List UInt8} {s' : Fs}
    (hwork : Work sb s k) (hvol : s.volAt sb k = s.vol sb)
    (hcov : (s.vol sb).Covered (s.itable k).inum)
    (hrun : (readi sb k (fun j => env.mapped (addr + UInt64.ofNat j)) off n.toUInt32).run s
      = .ok ((r, bytes), s')) :
    s' = s ∧ (Within addr n r (storesAt addr 0 bytes) ↔
      ¬ (n.toInt < 0 ∧ env.mapped addr = true ∧ (off.toNat : Int) < - n.toInt ∧
        off.toNat < (s.vol sb).size (s.itable k).inum)) := by
  have hspec := readi_spec hwork (by rwa [hvol])
    (fun j => env.mapped (addr + UInt64.ofNat j)) off n.toUInt32
  rw [hvol] at hspec
  obtain ⟨rfl, m, hm, hbytes, hok, hres⟩ := (wp_iff.1 hspec).1 _ _ hrun
  refine ⟨rfl, ?_⟩
  set len := readLen ((s'.vol sb).size (s'.itable k).inum) off.toNat n.toUInt32.toNat with hlen
  have hblen : bytes.length = m := by
    rw [show bytes = _ from hbytes, length_map, length_range]
  have hfirst : env.mapped (addr + UInt64.ofNat 0) = env.mapped addr := by
    rw [show addr + UInt64.ofNat 0 = addr from UInt64.add_zero addr]
  by_cases hle : len ≤ n.toInt.toNat
  · refine iff_of_true (.of_storesAt ?_ (by omega)) fun hend =>
      (readLen_le_iff hcov.1).mp hle ⟨hend.1, hend.2.2⟩
    rcases hres with ⟨hr, -⟩ | ⟨hr, -⟩
    · rw [show r = _ from hr]
      omega
    · rw [show r = _ from hr]
      omega
  · -- the count is negative and the read goes on to the end of the file
    obtain ⟨hneg, hoff, hsize⟩ := not_not.mp ((readLen_le_iff hcov.1).not.mp hle)
    constructor
    · rintro ⟨hret, hstores⟩ ⟨-, hmapped, -⟩
      rcases hres with ⟨hr, -⟩ | ⟨-, hshort, hstop⟩
      · have hr' : r = len := hr
        omega
      · -- the first byte is stored
        cases bytes with
        | nil =>
          obtain rfl : m = 0 := hblen.symm
          rw [hfirst, hmapped] at hstop
          cases hstop
        | cons ch rest =>
          have := hstores _ (mem_cons_self ..)
          omega
    · intro hend
      have hunmapped : env.mapped addr ≠ true := fun h => hend ⟨hneg, h, hoff, hsize⟩
      have hm0 : m = 0 := by
        by_contra hpos
        exact hunmapped (hfirst.symm.trans (hok 0 (by omega)))
      rcases hres with ⟨-, hall⟩ | ⟨hr, -⟩
      · omega
      · rw [show r = _ from hr, eq_nil_of_length_eq_zero (hblen.trans hm0)]
        exact .nothing (by omega)

end Inodes

/-- A read transfers no more than asked for, unless it is one of a plain file with a negative count
that `readi` takes for a large one. -/
theorem fileread_within_iff {sb : Superblock} {s s' : Fs} (h : s.Good sb) {env : ReadEnv}
    {f f' : OpenFile} {addr : UInt64} {n : Int32} {r : Int} {stores : List Store}
    (hrun : (fileread sb env f addr n).run s = .ok ((r, f', stores), s')) :
    Within addr n r stores ↔ ¬ ReadsToEnd sb s env f addr n := by
  unfold fileread at hrun
  by_cases hreadable : f.readable = false
  · rw [if_pos hreadable] at hrun
    cases hrun
    exact iff_of_true (.nothing (by omega)) fun hend => absurd (hreadable.symm.trans hend.1) nofun
  rw [if_neg hreadable] at hrun
  obtain ⟨readable, kind⟩ := f
  dsimp only at hrun hreadable
  cases kind with
  | pipe =>
    have hother : ¬ ReadsToEnd sb s env ⟨readable, .pipe⟩ addr n := fun ⟨_, _, _, _, _, hk, _⟩ =>
      nomatch hk
    refine iff_of_true ?_ hother
    dsimp only at hrun
    split at hrun
    · rename_i r' pi' st hread
      cases hrun
      exact piperead_within hread
    · cases hrun
  | device major =>
    have hother : ¬ ReadsToEnd sb s env ⟨readable, .device major⟩ addr n :=
      fun ⟨_, _, _, _, _, hk, _⟩ => nomatch hk
    refine iff_of_true ?_ hother
    dsimp only at hrun
    split at hrun
    · cases hrun
      exact .nothing (by omega)
    · cases hrun
      exact consoleread_within env addr n
  | inode k off =>
    simp only [StateT.run_bind, bind_ok] at hrun
    obtain ⟨⟨_, s1⟩, hlock, ⟨⟨r', bytes⟩, s2⟩, hread, ⟨_, s3⟩, hunlock, hret⟩ := hrun
    cases hret
    obtain ⟨href, -, htype, rfl⟩ := (wp_iff.1 (ilock_spec (h.table.entry _))).1 _ _ hlock
    have hgood := ilock_good h href htype
    obtain ⟨hr, hv⟩ := (hgood.table.entry k).held (by rw [Fs.itable_setEntry])
    obtain ⟨-, hiff⟩ := readi_within_iff (hgood.work hr hv) (hgood.volAt hr hv)
      (hgood.wf.covered _ (hgood.alloc hr hv)) hread
    rw [Fs.itable_setEntry, Fs.vol_setEntry] at hiff
    rw [hiff, not_iff_not]
    have hread : readable = true := by simpa using hreadable
    constructor
    · rintro ⟨hneg, hmapped, hoff, hsize⟩
      exact ⟨hread, hneg, hmapped, k, off, rfl, hoff, hsize⟩
    · rintro ⟨-, hneg, hmapped, _, _, heq, hoff, hsize⟩
      cases heq
      exact ⟨hneg, hmapped, hoff, hsize⟩

def allMapped : ReadEnv := ⟨fun _ => true, false, ⟨fun _ => 0, 0, 0, true, true⟩, fun _ => none⟩

/-- `read(fd, (char *)8192, -1)` of the file that holds 1, 2, 3, 4: the file's size, what is returned
and what is stored. -/
def readMinusOne : FsM (Nat × Int × List Store) := do
  let k ← fourBytes Mkfs.sb
  let s ← get
  let (r, _, stores) ← fileread Mkfs.sb allMapped ⟨true, .inode k 0⟩ 8192 (-1)
  return ((s.vol Mkfs.sb).size (s.itable k).inum, r, stores)

theorem readMinusOne_run : (readMinusOne.run Mkfs.fs).map Prod.fst
    = .ok (4, 4, [(8192, 1), (8193, 2), (8194, 3), (8195, 4)]) := by decide +kernel

theorem readMinusOne_ok : ∃ k s f' s', s.Good Mkfs.sb ∧
    (s.vol Mkfs.sb).size (s.itable k).inum = 4 ∧
    (fileread Mkfs.sb allMapped ⟨true, .inode k 0⟩ 8192 (-1)).run s
      = .ok ((4, f', [(8192, 1), (8193, 2), (8194, 3), (8195, 4)]), s') := by
  obtain ⟨t, hrun⟩ := ok_of_map_fst readMinusOne_run
  unfold readMinusOne at hrun
  simp only [StateT.run_bind, bind_ok] at hrun
  obtain ⟨⟨k, s⟩, hfour, ⟨s1, s1'⟩, hget, ⟨⟨r, f', stores⟩, s2⟩, hread, hret⟩ := hrun
  cases hget
  obtain ⟨hval, -⟩ := Prod.mk.inj (Except.ok.inj hret)
  simp only [Prod.mk.injEq] at hval
  obtain ⟨hsize, rfl, rfl⟩ := hval
  have hopen := fourBytes_unlocked Mkfs.layout Mkfs.good fs_unused hfour
  exact ⟨k, s, f', s2, hopen.good, hsize, hread⟩

theorem fileread_within_iff_minusOne : ∃ k s r f' stores s', s.Good Mkfs.sb ∧
    (fileread Mkfs.sb allMapped ⟨true, .inode k 0⟩ 8192 (-1)).run s = .ok ((r, f', stores), s') ∧
    (Within 8192 (-1) r stores ↔
      ¬ ReadsToEnd Mkfs.sb s allMapped ⟨true, .inode k 0⟩ 8192 (-1)) := by
  obtain ⟨k, s, f', s', hgood, -, hrun⟩ := readMinusOne_ok
  exact ⟨k, s, 4, f', _, s', hgood, hrun, fileread_within_iff hgood hrun⟩

/-- A count of −1 transfers the four bytes of the file. -/
theorem fileread_past_count : ∃ k s f' s', s.Good Mkfs.sb ∧
    (s.vol Mkfs.sb).size (s.itable k).inum = 4 ∧
    (fileread Mkfs.sb allMapped ⟨true, .inode k 0⟩ 8192 (-1)).run s
      = .ok ((4, f', [(8192, 1), (8193, 2), (8194, 3), (8195, 4)]), s') ∧
    ¬ Within 8192 (-1) 4 [(8192, 1), (8193, 2), (8194, 3), (8195, 4)] := by
  obtain ⟨k, s, f', s', hgood, hsize, hrun⟩ := readMinusOne_ok
  refine ⟨k, s, f', s', hgood, hsize, hrun, fun hwithin => ?_⟩
  exact absurd hwithin.ret (by decide)

end Xv6
