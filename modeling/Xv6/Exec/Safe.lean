import Xv6.Exec.Commit
import Xv6.Sysfile.Fail

/-!
# Replacing the user image is safe

`exec` from start to end: whatever the file holds, it starts a program or leaves no trace. It does
not panic once it has found and locked the file.
-/

namespace Xv6

open Prog Radix ExecM

def elfOf (file : List UInt8) : Elfhdr := .ofBytes (filePart file 0 EHSIZE)

/-- The segments of a file, in the order of their headers. The offset of the headers is an `int`. -/
def segsOf (file : List UInt8) : List Proghdr :=
  loadHdrs file (elfOf file).phnum ((elfOf file).phoff % 2 ^ 32)

/-- A process that calls `exec`: its address space is in order, no other call is going on in the
file system, and the arguments are short strings in pages of their own. -/
structure ExecReady (sb : Superblock) (F : Set Nat) (t : Shape Pte) (trampoline : Nat)
    (cwd : Fin NINODE) (argv : List Nat) (strs : List (List UInt8)) (s : ExecSys) : Prop where
  layout : sb.Layout
  space : Space F s.vm s.proc.pagetable (npages s.proc.sz) t s.vm.mem
  quiet : s.fs.Quiet sb
  cwd : 0 < (s.fs.itable cwd).ref
  trampoline : trampoline < 2 ^ 54
  trapframe : s.proc.tfPage < 2 ^ 54
  args : ArgPages F s.vm argv strs
  argc : argv.length < MAXARG

section File

variable {sb : Superblock} {F : Set Nat} {s s₀ : ExecSys} {t : Shape Pte} {argv : List Nat}
  {strs : List (List UInt8)} {trampoline : Nat} {ip : Fin NINODE} {E : ExecPanic → Prop}

structure Closed (sb : Superblock) (s : ExecSys) (ip : Fin NINODE) (s' : ExecSys) : Prop where
  quiet : s'.fs.Quiet sb
  refs : ∀ j, (s'.fs.itable j).ref = (s.fs.itable j).ref - if ip = j then 1 else 0
  ops : s'.ops = s.ops - 1

theorem Closed.congr {s' s'' : ExecSys} (h : Closed sb s ip s') (hfs : s''.fs = s'.fs)
    (hops : s''.ops = s'.ops) : Closed sb s ip s'' := by
  refine ⟨?_, ?_, hops.trans h.ops⟩
  · rw [hfs]
    exact h.quiet
  · rw [hfs]
    exact h.refs

theorem wp_close (hl : sb.Layout) (hlock : s₀.fs.Locked sb ip) (hfs : s.fs = s₀.fs)
    (hops : s.ops = s₀.ops) {α : Type} {c : ExecM α} {Q : α → ExecSys → Prop}
    (hQ : ∀ f o, Closed sb s₀ ip { s with fs := f, ops := o } → wp E c Q { s with fs := f, ops := o }) :
    wp E (do ExecM.fs (iunlockput sb ip); endOp; c) Q s := by
  rw [wp_bind, wp_fs, hfs]
  refine (iunlockput_locked hl hlock).call fun _ f hpost => ?_
  rw [wp_bind, wp_endOp]
  refine hQ f (s.ops - 1) ⟨hpost.1, hpost.2, ?_⟩
  show s.ops - 1 = _
  rw [hops]

theorem Built.close {n root : Nat} {f : Fs} {o : Nat} (h : Built F s₀ s root n t) :
    Built F { s₀ with fs := f, ops := o } { s with fs := f, ops := o } root n t where
  __ := h
  same := by rw [h.same]

theorem execFile_spec (hl : sb.Layout) (hlock : s.fs.Locked sb ip)
    (hspace : Space F s.vm s.proc.pagetable (npages s.proc.sz) t s.vm.mem)
    (htramp : trampoline < 2 ^ 54) (htf : s.proc.tfPage < 2 ^ 54) (hargs : ArgPages F s.vm argv strs)
    (hargc : argv.length < MAXARG) (path : List UInt8) :
    wp E (execFile sb trampoline ip path argv) (fun r s' => Closed sb s ip s' ∧
      Execed F s.vm s.proc (s.fs.file sb ip) (segsOf (s.fs.file sb ip)).reverse
        (elfOf (s.fs.file sb ip)).entry path strs r s') s := by
  obtain ⟨file, hfile⟩ : ∃ file, file = s.fs.file sb ip := ⟨_, rfl⟩
  rw [← hfile]
  -- letting go of the file once the memory is back
  have hclose {s' : ExecSys} (hfs : s'.fs = s.fs) (hops : s'.ops = s.ops)
      (hundone : Undone s.vm s.proc s') : wp E (do ExecM.fs (iunlockput sb ip); endOp; return -1)
        (fun r s' => Closed sb s ip s' ∧ Execed F s.vm s.proc file (segsOf file).reverse
          (elfOf file).entry path strs r s') s' :=
    wp_close hl hlock hfs hops fun f o hclosed =>
      ⟨hclosed, .inl ⟨rfl, hundone.proc, hundone.mem, hundone.free, hundone.base⟩⟩
  have hself : Undone s.vm s.proc s := ⟨rfl, fun _ _ => rfl, .refl _, rfl⟩
  unfold execFile
  rw [wp_bind, wp_fs]
  refine (readi_locked hlock (by decide)).mono ?_ fun _ => False.elim
  rintro r f ⟨rfl, -, hfull⟩
  rw [show (UInt32.ofNat EHSIZE).toNat = EHSIZE by decide, ← hfile] at hfull
  dsimp only
  rw [wp_ite]
  refine ⟨fun _ => hclose rfl rfl hself, fun hall => ?_⟩
  obtain ⟨-, hbytes⟩ := hfull (not_not.mp hall)
  have helf : Elfhdr.ofBytes r.2 = elfOf file := by rw [hbytes]; rfl
  rw [helf, wp_ite]
  refine ⟨fun _ => hclose rfl rfl hself, fun _ => ?_⟩
  rw [wp_bind, wp_myproc, wp_bind, wp_vm]
  refine ((procPagetable_base ..).and (procPagetable_spec hspace.toPool.frees htramp htf)).call
    fun root v hpost => ?_
  obtain ⟨hpost, hbase⟩ := hpost
  cases root with
  | none =>
    exact hclose rfl rfl ⟨rfl, fun q hq => hpost.outside hq, hspace.toPool.perm hpost, hbase⟩
  | some root =>
    obtain ⟨t₁, h1⟩ := hpost
    have hbuilt : Built s.vm.frees s { s with vm := v } root (npages 0) t₁ :=
      ⟨rfl, h1.self, fun q hq => h1.outside hq, hbase⟩
    have hload : Loaded file v 0 t₁ [] :=
      ⟨fun q hq => absurd hq (Nat.not_lt_zero q), fun a ha => absurd ha (Nat.not_lt_zero _), rfl,
        fun ph hph => absurd hph List.not_mem_nil, fun ph hph => absurd hph List.not_mem_nil⟩
    dsimp only
    rw [wp_bind]
    refine (loadSegments_spec hlock hbuilt (hfile ▸ hload)).call ?_
    rintro ⟨ok, sz⟩ s2 ⟨t₂, h2, hload2⟩
    cases ok with
    | false =>
      show wp E (ExecM.vm (procFreepagetable root sz) >>= fun _ => _) _ s2
      rw [wp_bind]
      exact (h2.free rfl hspace.toPool).call fun _ s3 hpost => hclose hpost.1.1 hpost.1.2 hpost.2
    | true =>
      have hload2' := hload2 rfl
      rw [List.append_nil, ← hfile, UInt32.toNat_ofNat'] at hload2'
      refine wp_close hl hlock h2.fs (by rw [h2.same]) fun f o hclosed => ?_
      refine (execImage_spec { s with fs := f, ops := o } hspace h2.close hload2' hargs hargc _
        path).call fun r s3 hpost => ⟨hclosed.congr hpost.1.1 hpost.1.2, hpost.2⟩

end File

/-! ## The call -/

section Exec

variable {sb : Superblock} {F : Set Nat} {s : ExecSys} {t : Shape Pte} {argv : List Nat}
  {strs : List (List UInt8)} {trampoline : Nat} {cwd : Fin NINODE}

theorem nameiLock_spec (hl : sb.Layout) {fs : Fs} (h : fs.Quiet sb) (hcwd : 0 < (fs.itable cwd).ref)
    (path : List UInt8) :
    wp (fun _ => True) (nameiLock sb cwd path) (fun r fs' => fs.Holds fs' r ∧
      match r with
      | none => fs'.Quiet sb
      | some ip => fs'.Locked sb ip) fs := by
  unfold nameiLock
  rw [wp_bind]
  refine (namei_spec hl h hcwd path).call fun r fs1 hpost => ?_
  cases r with
  | none => exact ⟨hpost.2, hpost.1⟩
  | some ip =>
    dsimp only
    rw [wp_bind]
    refine (ilock_quiet hpost.1 hpost.2.pos).mono (fun _ fs2 hpost2 => ?_) fun _ _ => trivial
    obtain ⟨hlocked, -, -, href⟩ := hpost2
    exact ⟨fun j => (href j).trans (hpost.2 j), hlocked⟩

/-- `exec` starts a program or leaves no trace; it can fail only in finding and locking the file. -/
theorem exec_spec (h : ExecReady sb F t trampoline cwd argv strs s) (path : List UInt8) :
    wp (fun e => ∃ e', e = .fs e' ∧ (nameiLock sb cwd path).run s.fs = .error e')
      (exec sb trampoline cwd path argv) (fun r s' => s'.fs.Quiet sb ∧
        (∀ j, (s'.fs.itable j).ref = (s.fs.itable j).ref) ∧ s'.ops = s.ops ∧
        (r = -1 ∧ Undone s.vm s.proc s' ∨ ∃ ip fs1 t',
          (nameiLock sb cwd path).run s.fs = .ok (some ip, fs1) ∧ r = strs.length ∧
          Started F s.vm s.proc s' t' (fs1.file sb ip) (segsOf (fs1.file sb ip)).reverse
            (elfOf (fs1.file sb ip)).entry path strs)) s := by
  unfold exec
  rw [wp_bind, wp_beginOp, wp_bind, wp_fs]
  refine (nameiLock_spec h.layout h.quiet h.cwd path).run.mono (fun r fs1 hpost => ?_)
    fun e he => ⟨e, rfl, he.2⟩
  obtain ⟨⟨hholds, hpost⟩, hrun⟩ := hpost
  cases r with
  | none =>
    dsimp only
    rw [wp_bind, wp_endOp]
    refine ⟨hpost, fun j => ?_, rfl, .inl ⟨rfl, rfl, fun _ _ => rfl, .refl _, rfl⟩⟩
    exact hholds j
  | some ip =>
    refine (execFile_spec (s := { s with fs := fs1, ops := s.ops + 1 }) h.layout hpost h.space
      h.trampoline h.trapframe h.args h.argc path).call fun r s' hexec => ?_
    obtain ⟨hclosed, hexec⟩ := hexec
    refine ⟨hclosed.quiet, fun j => ?_, hclosed.ops, hexec.imp_right fun hr => ?_⟩
    · rw [hclosed.refs j]
      show (fs1.itable j).ref - _ = _
      rw [hholds j]
      simp only [Option.some_inj]
      omega
    · obtain ⟨hr, t', hstarted⟩ := hr
      exact ⟨ip, fs1, t', hrun, hr, hstarted⟩

/-- Whatever the file holds and however little memory there is, `exec` does not panic once the file
is found and locked, and when it fails everything is as it was. -/
theorem exec_safe_atomic (h : ExecReady sb F t trampoline cwd argv strs s) (path : List UInt8) :
    wp (fun e => ∃ e', e = .fs e' ∧ (nameiLock sb cwd path).run s.fs = .error e')
      (exec sb trampoline cwd path argv) (fun r s' => r = -1 →
        s'.proc = s.proc ∧ Space F s'.vm s.proc.pagetable (npages s.proc.sz) t s'.vm.mem ∧
        (∀ p, p ∉ s.vm.free → s'.vm.mem p = s.vm.mem p) ∧ s'.vm.free.Perm s.vm.free ∧
        (∀ j, (s'.fs.itable j).lock = (s.fs.itable j).lock ∧
          (s'.fs.itable j).ref = (s.fs.itable j).ref) ∧ s'.ops = s.ops) s := by
  refine (exec_spec h path).call fun r s' hpost hfail => ?_
  obtain ⟨hquiet, hrefs, hops, ⟨-, hundone⟩ | ⟨ip, fs1, t', -, hr, -⟩⟩ := hpost
  · refine ⟨hundone.proc, h.space.undone hundone.mem hundone.free hundone.base, hundone.mem,
      hundone.free, fun j => ⟨?_, hrefs j⟩, hops⟩
    rw [hquiet.unlocked j, h.quiet.unlocked j]
  · omega

end Exec

/-- The first process, in the root directory of the disk of `mkfs`. -/
def firstSys : ExecSys where
  vm := firstVm
  fs := Mkfs.rootIdle
  ops := 0
  proc := firstProc

theorem firstSys_ready : ∃ t : Shape Pte,
    ExecReady Mkfs.sb {p | p ∈ bootVm.free} t 0x80007 Mkfs.entry0 [] [] firstSys := by
  obtain ⟨t, h⟩ := firstVm_space
  exact ⟨t, {
    layout := Mkfs.layout
    space := h.self
    quiet := Mkfs.rootIdle_quiet
    cwd := by decide
    trampoline := by decide
    trapframe := by decide
    args := List.Forall₂.nil
    argc := by decide }⟩

/-! ## A small program -/

/-- An ELF file with one segment, to be loaded at `vaddr`: three bytes of code, a zero, and four bytes
of bss. -/
def elfByte (vaddr : UInt8) (j : Nat) : UInt8 :=
  ([(0, 0x7F), (1, 0x45), (2, 0x4C), (3, 0x46), (32, 64), (56, 1), (64, 1), (72, 120), (80, vaddr),
    (96, 4), (104, 8), (120, 0x93), (121, 8), (122, 0x10)].lookup j).getD 0

def elfFile (vaddr : UInt8) : List UInt8 := (List.range 124).map (elfByte vaddr)

def install (vaddr : UInt8) : FsM (Option Int) := do
  match ← create Mkfs.sb Mkfs.entry0 xPath.bytes T_FILE 0 0 with
  | none => return none
  | some ip =>
    let r ← FileCall.run Mkfs.sb (.writei ip (fun j => some (elfByte vaddr j)) 0 124)
    iunlock ip
    return some r.1

theorem install_good {vaddr : UInt8} {s₀ s' : Fs} (h : s₀.Sound Mkfs.sb) (hcwd : 0 < (s₀.itable Mkfs.entry0).ref)
    {r : Int} (hrun : (install vaddr).run s₀ = .ok (some r, s')) : s'.Good Mkfs.sb := by
  have hspec : wp (fun _ => True) (install vaddr) (fun r s => r ≠ none → s.Good Mkfs.sb) s₀ := by
    unfold install
    rw [wp_bind]
    refine (create_spec Mkfs.layout h hcwd xPath.noNul T_FILE 0 0).call fun r s hpost => ?_
    cases r with
    | none => exact fun hne => absurd rfl hne
    | some ip =>
      have hold : s.Holding Mkfs.sb {ip} := by
        cases hpost with
        | old hold => exact hold
        | new _ hold => exact hold
      have hlock : (s.itable ip).lock = true := by
        rw [hold.lock]
        simp
      have hcopies : (FileCall.writei ip (fun j => some (elfByte vaddr j)) 0 124).Copies := fun _ _ =>
        Option.some_ne_none _
      dsimp only
      rw [wp_bind]
      refine (writei_post Mkfs.layout hold.good hlock hcopies).mono (fun r s1 hwrite => ?_)
        fun _ _ => trivial
      have hlock1 : (s1.itable ip).lock = true := by
        rw [show s1.itable ip = _ from hwrite.only.self]
        exact hlock
      rw [wp_bind]
      refine iunlock_spec.mono (fun _ s2 hun => ?_) fun _ _ => trivial
      obtain ⟨-, -, rfl⟩ := hun
      exact fun _ => iunlock_good hwrite.good ((hwrite.good.table.entry ip).held hlock1).1
  exact (wp_iff.1 hspec).1 _ s' hrun (Option.some_ne_none r)

def elfFs (vaddr : UInt8) : Fs :=
  match (install vaddr).run Mkfs.rootIdle with
  | .ok (_, fs) => fs
  | .error _ => Mkfs.rootIdle

theorem elfFs_quiet {vaddr : UInt8} (hvaddr : vaddr ∈ [0, 8]) : (elfFs vaddr).Quiet Mkfs.sb where
  good := by
    have hall : ∀ vaddr : UInt8, vaddr ∈ [0, 8] →
        ((install vaddr).run Mkfs.rootIdle).map Prod.fst = .ok (some 124) := by
      decide +kernel
    obtain ⟨s, hrun⟩ := ok_of_map_fst (hall vaddr hvaddr)
    have hgood := install_good Mkfs.rootIdle_whole.toSound (by decide) hrun
    unfold elfFs
    rwa [hrun]
  dirs i hi htype e he := by
    have hall : ∀ vaddr ∈ [0, 8], ∀ i, i < Mkfs.sb.ninodes →
        (((elfFs vaddr).vol Mkfs.sb).ino i).type = T_DIR →
        ((elfFs vaddr).vol Mkfs.sb).size i = BSIZE ∧ ∀ e, e < 64 →
          (((elfFs vaddr).vol Mkfs.sb).dirent i (e * DESIZE)).inum.toNat < Mkfs.sb.ninodes := by
      decide +kernel
    obtain ⟨hsize, hdirents⟩ := hall vaddr hvaddr i hi.1 htype
    rw [hsize] at he
    refine hdirents e ?_
    unfold DESIZE DIRSIZ BSIZE at he
    omega
  unlocked := by
    have hall : ∀ vaddr ∈ [0, 8], ∀ j, ((elfFs vaddr).itable j).lock = false := by decide +kernel
    exact hall vaddr hvaddr

theorem elfFs_file {v : UInt8} (hv : v ∈ [0, 8]) : ∃ ip s,
    (nameiLock Mkfs.sb Mkfs.entry0 xPath.bytes).run (elfFs v) = .ok (some ip, s) ∧
      s.file Mkfs.sb ip = elfFile v := by
  have hall : ∀ vaddr ∈ [0, 8], ((nameiLock Mkfs.sb Mkfs.entry0 xPath.bytes).run (elfFs vaddr)).map
      (fun r => r.1.map (r.2.file Mkfs.sb)) = .ok (some (elfFile vaddr)) := by
    decide +kernel
  obtain ⟨⟨r, s⟩, hrun, hfile⟩ := ok_of_map (hall v hv)
  obtain ⟨ip, rfl, hfile⟩ := Option.map_eq_some_iff.mp hfile
  exact ⟨ip, s, hrun, hfile⟩

def sysOf (fs : Fs) : ExecSys := { firstSys with fs := fs }

theorem sysOf_ready {fs : Fs} (hquiet : fs.Quiet Mkfs.sb) (hcwd : 0 < (fs.itable Mkfs.entry0).ref) :
    ∃ t : Shape Pte, ExecReady Mkfs.sb {p | p ∈ bootVm.free} t 0x80007 Mkfs.entry0 [] [] (sysOf fs) := by
  obtain ⟨t, h⟩ := firstSys_ready
  exact ⟨t, { h with quiet := hquiet, cwd := hcwd }⟩

theorem elfFs_ready {v : UInt8} (hv : v ∈ [0, 8]) : ∃ t : Shape Pte,
    ExecReady Mkfs.sb {p | p ∈ bootVm.free} t 0x80007 Mkfs.entry0 [] [] (sysOf (elfFs v)) := by
  have hcwd : ∀ vaddr ∈ [0, 8], 0 < ((elfFs vaddr).itable Mkfs.entry0).ref := by decide +kernel
  exact sysOf_ready (elfFs_quiet hv) (hcwd v hv)

/-- The segment would start in the middle of a page. `exec` finds that when it has allocated a page
table and the page. -/
theorem exec_safe_atomic_unaligned : ∃ s',
    (exec Mkfs.sb 0x80007 Mkfs.entry0 xPath.bytes []).run (sysOf (elfFs 8)) = .ok (-1, s') ∧
      s'.proc = firstProc ∧ s'.vm.free.Perm firstVm.free ∧ s'.ops = 0 := by
  have hseg : ⟨ELF_PROG_LOAD, 120, 8, 4, 8⟩ ∈ (segsOf (elfFile 8)).reverse := by
    rw [show segsOf (elfFile 8) = [⟨ELF_PROG_LOAD, 120, 8, 4, 8⟩] by rfl]
    exact List.mem_singleton_self _
  -- with the file system a variable, so that no run is unfolded
  have hall {fs fs1 : Fs} {ip : Fin NINODE} {t : Shape Pte}
      (h : ExecReady Mkfs.sb {p | p ∈ bootVm.free} t 0x80007 Mkfs.entry0 [] [] (sysOf fs))
      (hfound : (nameiLock Mkfs.sb Mkfs.entry0 xPath.bytes).run fs = .ok (some ip, fs1))
      (hfile : fs1.file Mkfs.sb ip = elfFile 8) : ∃ s',
      (exec Mkfs.sb 0x80007 Mkfs.entry0 xPath.bytes []).run (sysOf fs) = .ok (-1, s') ∧
        s'.proc = firstProc ∧ s'.vm.free.Perm firstVm.free ∧ s'.ops = 0 := by
    have hspec := wp_iff.mp (exec_spec h xPath.bytes)
    cases hexec : (exec Mkfs.sb 0x80007 Mkfs.entry0 xPath.bytes []).run (sysOf fs) with
    | error e =>
      obtain ⟨e', -, herror⟩ := hspec.2 e hexec
      cases hfound.symm.trans herror
    | ok x =>
      obtain ⟨-, -, -, ⟨hfail, -⟩ | ⟨ip', fs', t', hfound', -, hstarted⟩⟩ := hspec.1 x.1 x.2 hexec
      · obtain ⟨hproc, -, -, hfree, -, hops⟩ :=
          (wp_iff.mp (exec_safe_atomic h xPath.bytes)).1 x.1 x.2 hexec hfail
        exact ⟨x.2, by rw [← hfail], hproc, hfree, hops⟩
      · -- a program that was started has its segments at the start of pages
        cases hfound.symm.trans hfound'
        rw [hfile] at hstarted
        exact absurd (hstarted.segments _ hseg).1 (by decide)
  obtain ⟨t, h⟩ := elfFs_ready (v := 8) (by decide)
  obtain ⟨ip, fs, hfound, hfile⟩ := elfFs_file (v := 8) (by decide)
  exact hall h hfound hfile

end Xv6
