import Xv6.Exec.Safe

/-!
# The image of a program

What the memory of a program holds when `exec` has started it, read off the file: segment by
segment, if the segments use different pages.
-/

namespace Xv6

open Prog Radix List

def loads (file : List UInt8) : List Proghdr :=
  loadHdrs file (elfOf file).phnum (elfOf file).phoff

/-- The header table and the parts of the segments lie in the file, and the segments cover disjoint
sets of pages. -/
structure ElfOk (file : List UInt8) : Prop where
  table : (elfOf file).phoff + (elfOf file).phnum * PHSIZE ≤ file.length
  parts : ∀ ph ∈ loads file, ph.off + ph.filesz ≤ file.length
  pages : (loads file).Pairwise fun ph qh => ∀ a b, ph.Has a → qh.Has b → a / PGSIZE ≠ b / PGSIZE

structure Image (file : List UInt8) (t : Shape Pte) (s : ExecSys) : Prop where
  part : ∀ ph ∈ loads file, ∀ j < ph.filesz,
    userByte t s.vm.mem (ph.vaddr + j) = file.getD (ph.off + j) 0
  bss : ∀ ph ∈ loads file, ∀ j, ph.filesz ≤ j → j < ph.memsz →
    userByte t s.vm.mem (ph.vaddr + j) = 0
  rest : ∀ a < npages (segEnd (loads file)) * PGSIZE, (∀ ph ∈ loads file, ¬ ph.Has a) →
    userByte t s.vm.mem a = 0
  size : s.proc.sz = npages (segEnd (loads file)) * PGSIZE + 2 * PGSIZE
  guard : (t.leaf (npages (segEnd (loads file)))).U = false
  pc : s.proc.trapframe.epc = (elfOf file).entry

variable {file : List UInt8} {segs : List Proghdr} {ph : Proghdr} {a : Nat}

theorem segEnd_reverse (segs : List Proghdr) : segEnd segs.reverse = segEnd segs :=
  eq_of_forall_ge_iff fun n => by simp only [segEnd_le, mem_reverse]

theorem loadByte_of_has (hfits : ∀ ph ∈ segs, ph.filesz ≤ ph.memsz)
    (hapart : segs.Pairwise fun ph qh => ¬ (ph.Has a ∧ qh.Has a)) (hph : ph ∈ segs)
    (ha : ph.Has a) : loadByte file segs a = if a < ph.vaddr + ph.filesz then
      file.getD (ph.off % 2 ^ 32 + (a - ph.vaddr)) 0 else 0 := by
  induction segs with
  | nil => cases hph
  | cons qh segs ih =>
    rw [forall_mem_cons] at hfits
    rw [pairwise_cons] at hapart
    rw [loadByte]
    rcases mem_cons.1 hph with rfl | hph
    · by_cases hlt : a < ph.vaddr + ph.filesz
      · rw [if_pos ⟨ha.1, hlt⟩, if_pos hlt]
      · rw [if_neg fun hin => hlt hin.2, if_neg hlt]
        refine loadByte_eq_zero hfits.2 fun qh hqh hin => hapart.1 qh hqh ⟨ha, hin⟩
    · rw [if_neg fun hin => hapart.1 ph hph ⟨⟨hin.1, by omega⟩, ha⟩]
      exact ih hfits.2 hapart.2 hph

theorem Started.image {F : Set Nat} {v : Vm} {p : UserProc} {s' : ExecSys} {t : Shape Pte}
    {path : List UInt8} {strs : List (List UInt8)} (hlt : file.length < 2 ^ 32) (hok : ElfOk file)
    (h : Started F v p s' t file (segsOf file).reverse (elfOf file).entry path strs) :
    Image file t s' := by
  have hsegs : segsOf file = loads file := by
    have := hok.table
    rw [segsOf, Nat.mod_eq_of_lt (by omega), loads]
  obtain ⟨-, -, -, ⟨sp, hproc⟩, hsize, hbytes, hguard, -, hsegments, -⟩ := h
  rw [hsegs] at hbytes hsegments
  rw [hsegs, segEnd_reverse] at hsize hguard
  have hfits : ∀ ph ∈ (loads file).reverse, ph.filesz ≤ ph.memsz := fun ph hph =>
    (hsegments ph hph).2
  have hin : ∀ ph ∈ loads file, ∀ a, ph.Has a → a / PGSIZE < npages (segEnd (loads file).reverse) :=
    fun ph hph a ha => page_lt (ha.2.trans_le (segEnd_le.1 le_rfl ph (mem_reverse.2 hph)))
  have hbyte : ∀ ph ∈ loads file, ∀ a, ph.Has a → userByte t s'.vm.mem a =
      if a < ph.vaddr + ph.filesz then file.getD (ph.off + (a - ph.vaddr)) 0 else 0 := by
    intro ph hph a ha
    have hpart := hok.parts ph hph
    have hapart : (loads file).reverse.Pairwise fun ph qh => ¬ (ph.Has a ∧ qh.Has a) :=
      pairwise_reverse.2 (hok.pages.imp fun hpages hboth => hpages a a hboth.2 hboth.1 rfl)
    rw [hbytes a (hin ph hph a ha), loadByte_of_has hfits hapart (mem_reverse.2 hph) ha,
      Nat.mod_eq_of_lt (by omega)]
  refine ⟨fun ph hph j hj => ?_, fun ph hph j hle hj => ?_, fun a ha hno => ?_, hsize, hguard, ?_⟩
  · have hfit := hfits ph (mem_reverse.2 hph)
    rw [hbyte ph hph _ ⟨by omega, by omega⟩, if_pos (by omega), Nat.add_sub_cancel_left]
  · rw [hbyte ph hph _ ⟨by omega, by omega⟩, if_neg (by omega)]
  · rw [hbytes a (by rw [segEnd_reverse]; exact Nat.div_lt_of_lt_mul (Nat.mul_comm .. ▸ ha))]
    exact loadByte_eq_zero hfits fun ph hph => hno ph (mem_reverse.1 hph)
  · rw [hproc]

/-- **`exec` builds the image the file describes.** When it succeeds on a file whose segments lie in
the file and use different pages, memory holds the parts of the segments, and zeros elsewhere. -/
theorem exec_builds_image {sb : Superblock} {F : Set Nat} {s : ExecSys} {t : Shape Pte}
    {argv : List Nat} {strs : List (List UInt8)} {trampoline : Nat} {cwd : Fin NINODE}
    (h : ExecReady sb F t trampoline cwd argv strs s) (path : List UInt8) :
    wp (fun e => ∃ e', e = .fs e' ∧ (nameiLock sb cwd path).run s.fs = .error e')
      (exec sb trampoline cwd path argv) (fun r s' => r ≠ -1 → ∃ ip fs1 t',
        (nameiLock sb cwd path).run s.fs = .ok (some ip, fs1) ∧
        Space F s'.vm s'.proc.pagetable (npages s'.proc.sz) t' s'.vm.mem ∧
        (ElfOk (fs1.file sb ip) → Image (fs1.file sb ip) t' s')) s := by
  refine (exec_spec h path).call fun r s' hpost hr => ?_
  obtain ⟨-, -, -, ⟨hfail, -⟩ | ⟨ip, fs1, t', hrun, -, hstarted⟩⟩ := hpost
  · exact absurd hfail hr
  · exact ⟨ip, fs1, t', hrun, hstarted.space, hstarted.image (fs1.file_lt sb ip)⟩

/-! ## When `exec` succeeds -/

section Succeeds

open ExecM

variable (sb : Superblock) (trampoline : Nat) (cwd : Fin NINODE) (path : List UInt8) (argv : List Nat)

/-- `execImage` up to where it replaces the image, without `bad:`. -/
def prepareImage (pagetable sz : Nat) : ExecM Bool := do
  let sz := PGROUNDUP sz
  let sz1 ← vm (uvmalloc pagetable sz ((sz + 2 * PGSIZE) % 2 ^ 64))
  if sz1 = 0 then
    return false
  else
    vm (uvmclear pagetable (sz1 - 2 * PGSIZE))
    match ← pushArgv pagetable (sz1 - PGSIZE) sz1 argv with
    | none => return false
    | some _ => return true

/-- The same of `exec`. -/
def prepare : ExecM Bool := do
  beginOp
  match ← fs (nameiLock sb cwd path) with
  | none => return false
  | some ip =>
    let r ← fs (readi sb ip (fun _ => true) 0 (UInt32.ofNat EHSIZE))
    let elf := Elfhdr.ofBytes r.2
    if r.1 ≠ EHSIZE then
      return false
    else if elf.magic ≠ ELF_MAGIC then
      return false
    else
      match ← vm (procPagetable trampoline (← myproc).tfPage) with
      | none => return false
      | some pagetable =>
        match ← loadSegments sb pagetable ip elf.phnum (UInt32.ofNat elf.phoff) 0 with
        | (false, _) => return false
        | (true, sz) =>
          fs (iunlockput sb ip)
          endOp
          prepareImage argv pagetable sz

variable {sb trampoline cwd path argv} {s : ExecSys}

theorem execImage_succeeds {pagetable sz entry : Nat}
    (h : wp (fun _ => False) (prepareImage argv pagetable sz) (fun b _ => b = true) s) :
    wp (fun _ => True) (execImage sb pagetable sz entry path argv) (fun r _ => r ≠ -1) s := by
  unfold prepareImage at h
  unfold execImage
  rw [wp_bind, wp_myproc]
  dsimp only at h ⊢
  rw [wp_bind] at h ⊢
  refine h.mono (fun sz1 s1 h1 => ?_) fun _ _ => trivial
  -- the addresses do not matter
  generalize sz1 - 2 * PGSIZE = guard at h1 ⊢
  generalize sz1 - PGSIZE = stackbase at h1 ⊢
  rw [wp_ite] at h1 ⊢
  refine ⟨fun hz => (Bool.false_ne_true (h1.1 hz)).elim, fun hz => ?_⟩
  have h2 := h1.2 hz
  rw [wp_bind] at h2 ⊢
  refine h2.mono (fun _ s2 h2 => ?_) fun _ _ => trivial
  rw [wp_bind] at h2 ⊢
  refine h2.mono (fun r s3 h3 => ?_) fun _ _ => trivial
  cases r with
  | none => cases h3
  | some r =>
    dsimp only
    rw [wp_bind, wp_setProc, wp_bind, wp_iff]
    refine ⟨fun _ s _ => ?_, fun _ _ => trivial⟩
    show (r.1 : Int) ≠ -1
    omega

theorem exec_succeeds {s₁ : ExecSys} (h : (prepare sb trampoline cwd path argv).run s = .ok (true, s₁)) :
    wp (fun _ => True) (exec sb trampoline cwd path argv) (fun r _ => r ≠ -1) s := by
  replace h : wp (fun _ => False) (prepare sb trampoline cwd path argv) (fun b _ => b = true) s :=
    (wp_of_run h).mpr rfl
  -- both take the same steps, and every way out of `prepare` but the last returns `false`
  unfold prepare at h
  unfold exec
  rw [wp_bind] at h ⊢
  refine h.mono (fun _ s h => ?_) fun _ _ => trivial
  rw [wp_bind] at h ⊢
  refine h.mono (fun r s h => ?_) fun _ _ => trivial
  cases r with
  | none => cases h
  | some ip =>
    show wp _ (execFile sb trampoline ip path argv) _ s
    unfold execFile
    dsimp only at h
    rw [wp_bind] at h ⊢
    refine h.mono (fun r s h => ?_) fun _ _ => trivial
    rw [wp_ite] at h ⊢
    refine ⟨fun hne => (Bool.false_ne_true (h.1 hne)).elim, fun hne => ?_⟩
    replace h := h.2 hne
    rw [wp_ite] at h ⊢
    refine ⟨fun hne => (Bool.false_ne_true (h.1 hne)).elim, fun hne => ?_⟩
    replace h := h.2 hne
    rw [wp_bind] at h ⊢
    refine h.mono (fun p s h => ?_) fun _ _ => trivial
    rw [wp_bind] at h ⊢
    refine h.mono (fun r s h => ?_) fun _ _ => trivial
    cases r with
    | none => cases h
    | some pagetable =>
      dsimp only at h ⊢
      rw [wp_bind] at h ⊢
      refine h.mono (fun r s h => ?_) fun _ _ => trivial
      obtain ⟨_ | _, sz⟩ := r
      · cases h
      · dsimp only at h ⊢
        rw [wp_bind] at h ⊢
        refine h.mono (fun _ s h => ?_) fun _ _ => trivial
        rw [wp_bind] at h ⊢
        exact h.mono (fun _ s h => execImage_succeeds h) fun _ _ => trivial

end Succeeds

/-! ## A small program -/

theorem elfFile_ok : ElfOk (elfFile 0) := by
  have hloads : loads (elfFile 0) = [⟨ELF_PROG_LOAD, 120, 0, 4, 8⟩] := by rfl
  refine ⟨by decide +kernel, ?_, ?_⟩
  · rw [hloads]
    decide +kernel
  · rw [hloads]
    exact pairwise_singleton _ _

theorem prepare_elfFs : ∃ s',
    (prepare Mkfs.sb 0x80007 Mkfs.entry0 xPath.bytes []).run (sysOf (elfFs 0)) = .ok (true, s') :=
  ok_of_map_fst (by decide +kernel)

/-- The program is started, with no arguments. -/
theorem exec_builds_image_x : ∃ r s' t,
    (exec Mkfs.sb 0x80007 Mkfs.entry0 xPath.bytes []).run (sysOf (elfFs 0)) = .ok (r, s') ∧
      r ≠ -1 ∧ Image (elfFile 0) t s' := by
  -- with the file system a variable, so that no run is unfolded
  have hall {fs fs1 : Fs} {ip : Fin NINODE} {t : Shape Pte} {s₁ : ExecSys}
      (h : ExecReady Mkfs.sb {p | p ∈ bootVm.free} t 0x80007 Mkfs.entry0 [] [] (sysOf fs))
      (hfound : (nameiLock Mkfs.sb Mkfs.entry0 xPath.bytes).run fs = .ok (some ip, fs1))
      (hfile : fs1.file Mkfs.sb ip = elfFile 0)
      (hprepare : (prepare Mkfs.sb 0x80007 Mkfs.entry0 xPath.bytes []).run (sysOf fs)
        = .ok (true, s₁)) : ∃ r s' t,
      (exec Mkfs.sb 0x80007 Mkfs.entry0 xPath.bytes []).run (sysOf fs) = .ok (r, s') ∧
        r ≠ -1 ∧ Image (elfFile 0) t s' := by
    have hspec := wp_iff.mp (exec_builds_image h xPath.bytes)
    cases hexec : (exec Mkfs.sb 0x80007 Mkfs.entry0 xPath.bytes []).run (sysOf fs) with
    | error e =>
      obtain ⟨e', -, herror⟩ := hspec.2 e hexec
      cases hfound.symm.trans herror
    | ok x =>
      have hr := (wp_iff.mp (exec_succeeds hprepare)).1 x.1 x.2 hexec
      obtain ⟨ip', fs', t', hfound', -, himage⟩ := hspec.1 x.1 x.2 hexec hr
      cases hfound.symm.trans hfound'
      rw [hfile] at himage
      exact ⟨x.1, x.2, t', rfl, hr, himage elfFile_ok⟩
  obtain ⟨t, h⟩ := elfFs_ready (v := 0) (by decide)
  obtain ⟨ip, fs, hfound, hfile⟩ := elfFs_file (v := 0) (by decide)
  obtain ⟨s₁, hprepare⟩ := prepare_elfFs
  exact hall h hfound hfile hprepare

end Xv6
