import Xv6.Exec.Safe

/-!
# The arguments of `exec`

`sys_exec` copies every argument to a page of its own before it calls `exec`, and frees these pages
whatever `exec` returns. They come off the free list one after the other, so the free list of the
caller is `argv` followed by what is left of it (`Fetched`): that is what makes the state in which
`exec` is called one that it is ready for, with the pages of the arguments out of its reach.
-/

namespace Xv6

open Prog Radix ExecM List

/-- `argv` has been taken off the free list of `s`, and nothing else has been written to. -/
structure Fetched (s : ExecSys) (argv : List Nat) (s' : ExecSys) : Prop where
  same : s' = { s with vm := s'.vm }
  base : s'.vm.base = s.vm.base
  free : s.vm.free = argv ++ s'.vm.free
  mem : ∀ p, p ∉ argv → s'.vm.mem p = s.vm.mem p

def HasString (v : Vm) (p : Nat) : Prop := ∃ str, IsString (v.mem p) str

section Args

variable {sb : Superblock} {F : Set Nat} {s s' : ExecSys} {t : Shape Pte} {n : Nat} {argv : List Nat}
  {trampoline : Nat} {cwd : Fin NINODE} {E : ExecPanic → Prop}

theorem Fetched.taken (h : Space F s.vm s.proc.pagetable n t s.vm.mem) (hf : Fetched s argv s') :
    Space (s'.vm.frees ∪ owned t n) s'.vm s'.proc.pagetable n t s'.vm.mem := by
  have hnodup := h.nodup
  rw [hf.free] at hnodup
  have hproc : s'.proc = s.proc := by rw [hf.same]
  rw [hproc]
  refine h.taken (fun p hp => hf.mem p fun hin => hp ?_) hnodup.of_append_right (fun p hp => ?_) hf.base
  · rw [hf.free]
    exact mem_append_left _ hin
  · rw [hf.free]
    exact mem_append_right _ hp

theorem Fetched.snoc (hf : Fetched s argv s') (hnodup : s.vm.free.Nodup) {v : Vm} {arg : Nat}
    (hbase : v.base = s'.vm.base) (hfree : s'.vm.free = arg :: v.free)
    (hmem : ∀ p, p ≠ arg → v.mem p = s'.vm.mem p) :
    arg ∉ argv ∧ Fetched s (argv ++ [arg]) { s' with vm := v } := by
  have hsnoc : s.vm.free = (argv ++ [arg]) ++ v.free := by
    rw [append_assoc, singleton_append, ← hfree, hf.free]
  rw [hsnoc] at hnodup
  refine ⟨fun hin => ?_, by rw [hf.same], hbase.trans hf.base, hsnoc, fun p hp => ?_⟩
  · exact (nodup_append.mp hnodup.of_append_left).2.2 arg hin arg (mem_singleton_self _) rfl
  · rw [mem_append, not_or, mem_singleton] at hp
    exact (hmem p hp.2).trans (hf.mem p hp.1)

theorem exists_argPages {v : Vm} (h : ∀ p ∈ argv, p ∉ F ∧ HasString v p) :
    ∃ strs, ArgPages F v argv strs := by
  induction argv with
  | nil => exact ⟨[], .nil⟩
  | cons p argv ih =>
    obtain ⟨hp, str, hstr⟩ := h p (mem_cons_self ..)
    obtain ⟨strs, hstrs⟩ := ih fun q hq => h q (mem_cons_of_mem _ hq)
    exact ⟨str :: strs, .cons ⟨hp, hstr⟩ hstrs⟩

/-- The pages of the arguments are neither free any more nor pages of the caller. -/
theorem Fetched.apart (h : Space F s.vm s.proc.pagetable n t s.vm.mem) (hf : Fetched s argv s')
    {p : Nat} (hp : p ∈ argv) : p ∉ s'.vm.frees ∪ owned t n := by
  have hnodup := h.nodup
  rw [hf.free] at hnodup
  rintro (hfree | howned)
  · exact (nodup_append.mp hnodup).2.2 p hp p hfree rfl
  · exact h.owned_free howned (hf.free ▸ mem_append_left _ hp)

theorem Fetched.store {arg : Nat} (hf : Fetched s argv s') (harg : arg ∈ argv) (pg : Page) :
    Fetched s argv { s' with vm := s'.vm.setPage arg pg } := by
  refine ⟨by rw [hf.same], hf.base, hf.free, fun p hp => ?_⟩
  show Function.update s'.vm.mem arg pg p = _
  rw [Function.update_of_ne (ne_of_mem_of_not_mem harg hp).symm, hf.mem p hp]

/-- A string that `copyinstr` has found, copied to the start of a page. -/
theorem Copyinstr.isString {v v' : Vm} {va : Nat} {r : Int × List UInt8}
    (h : Copyinstr t v va PGSIZE [] r v') (hr : ¬ r.1 < 0) (pg : Page) :
    ∃ str, IsString (Bytes.blit pg 0 r.2.length (r.2.getD · 0)) str := by
  obtain ⟨-, m, hm, hstr, -, ⟨-, k, rfl, hnul, htext⟩ | ⟨hneg, -⟩⟩ := h
  swap
  · omega
  rw [nil_append] at hstr
  have hlen (m : Nat) : (userBytes t v.mem va m).length = m := by rw [userBytes, length_map, length_range]
  have hget {m j : Nat} (hj : j < m) :
      (userBytes t v.mem va m).getD j 0 = userByte t v.mem (va + j) := by
    unfold userBytes
    rw [getD_eq_getElem?_getD, List.getElem?_map, List.getElem?_range hj]
    rfl
  have hpage {j : Nat} (hj : j < k + 1) :
      Bytes.blit pg 0 r.2.length (r.2.getD · 0) j = userByte t v.mem (va + j) := by
    rw [hstr, hlen, Bytes.blit_of_mem (by omega), Nat.sub_zero, hget hj]
  refine ⟨userBytes t v.mem va k, by rw [hlen]; omega, fun j hj => ?_, ?_, fun hzero => ?_⟩
  · rw [hlen] at hj
    rw [hpage (by omega), hget hj]
  · rw [hlen, hpage (by omega), hnul]
  · obtain ⟨j, hj, heq⟩ := mem_map.mp hzero
    exact htext j (mem_range.mp hj) heq

theorem fetchaddr_spec (h : UserTable s.vm s.proc.pagetable t) (addr : Nat) :
    wp E (fetchaddr addr) (fun _ s' => s' = s) s := by
  unfold fetchaddr
  rw [wp_bind, wp_myproc]
  split
  · rfl
  · rw [wp_bind, wp_vm]
    refine (copyin_user h addr 8).call fun r v hr => ?_
    rw [hr.1]
    split <;> rfl

theorem fetchstr_spec (h : UserTable s.vm s.proc.pagetable t) (addr max : Nat) :
    wp E (fetchstr addr max) (fun r s' => s' = s ∧ Copyinstr t s.vm addr max [] r s.vm) s := by
  unfold fetchstr
  rw [wp_bind, wp_myproc, wp_vm]
  refine (copyinstr_user h addr max).call fun r v hr => ?_
  obtain ⟨rfl, hr⟩ := hr
  exact ⟨rfl, rfl, hr⟩

/-- The loop of `sys_exec` over the arguments. It never gives up a page it has taken, so those it
has when it gives up can be freed. -/
theorem fetchArgs_spec {s₀ : ExecSys} (h : Space F s₀.vm s₀.proc.pagetable n t s₀.vm.mem) (uargv : Nat)
    {m : Nat} (hf : Fetched s₀ argv s) (hargs : ∀ p ∈ argv, HasString s.vm p) (hm : argv.length + m ≤ MAXARG) :
    wp E (fetchArgs uargv m argv) (fun r s' => Fetched s₀ r.2 s' ∧
      (r.1 = true → (∀ p ∈ r.2, HasString s'.vm p) ∧ r.2.length < MAXARG)) s := by
  induction m generalizing argv s with
  | zero => exact ⟨hf, fun hr => absurd hr Bool.false_ne_true⟩
  | succ m ih =>
    unfold fetchArgs
    rw [wp_bind]
    refine (fetchaddr_spec (hf.taken h).userTable _).call ?_
    rintro ⟨r, uarg⟩ s1 hs1
    rw [hs1]
    dsimp only
    split
    · exact ⟨hf, fun hr => absurd hr Bool.false_ne_true⟩
    split
    · exact ⟨hf, fun _ => ⟨hargs, by show argv.length < _; omega⟩⟩
    rw [wp_bind, wp_vm]
    refine (kalloc_base.and (kalloc_spec (hf.taken h).toPool)).call ?_
    rintro (_ | arg) v ⟨hpost, hbase⟩
    · rw [hpost.1]
      exact ⟨hf, fun hr => absurd hr Bool.false_ne_true⟩
    obtain ⟨-, -, -, hfree, hmem, -⟩ := hpost
    obtain ⟨hnew, hf1⟩ := hf.snoc h.nodup hbase hfree hmem
    rw [wp_bind]
    refine (fetchstr_spec (hf1.taken h).userTable uarg PGSIZE).call ?_
    rintro ⟨r, str⟩ s2 ⟨hs2, hstr⟩
    rw [hs2, wp_bind, wp_vm, wp_loadPage, wp_bind, wp_vm, wp_storePage]
    have hf2 := hf1.store (mem_append_right _ (mem_singleton_self arg))
      (Bytes.blit (v.mem arg) 0 str.length (str.getD · 0))
    dsimp only
    split
    · exact ⟨hf2, fun hr => absurd hr Bool.false_ne_true⟩
    · rename_i hr
      refine ih hf2 (fun p hp => ?_) (by rw [length_append, length_singleton]; omega)
      show ∃ str, IsString (Function.update v.mem arg _ p) str
      rcases mem_append.mp hp with hp | hp
      · have hne := ne_of_mem_of_not_mem hp hnew
        rw [Function.update_of_ne hne, hmem p hne]
        exact hargs p hp
      · rw [mem_singleton.mp hp, Function.update_self]
        exact hstr.isString hr (v.mem arg)

theorem freeArgs_spec (hrange : ∀ p ∈ argv, s.vm.base ≤ p ∧ p * PGSIZE < PHYSTOP) :
    wp E (freeArgs argv) (fun _ s' => s' = { s with vm := s'.vm } ∧ s'.vm.base = s.vm.base ∧
      s'.vm.free.Perm (argv ++ s.vm.free) ∧ ∀ p, p ∉ argv → s'.vm.mem p = s.vm.mem p) s := by
  induction argv generalizing s with
  | nil => exact ⟨rfl, rfl, .refl _, fun _ _ => rfl⟩
  | cons arg argv ih =>
    have harg := hrange arg (mem_cons_self ..)
    unfold freeArgs
    rw [wp_bind, wp_vm]
    show wp _ (if arg < s.vm.base ∨ PHYSTOP ≤ arg * PGSIZE then _ else _) _ s.vm
    rw [if_neg (by omega)]
    show wp E (freeArgs argv) _
      { s with vm := { s.vm.setPage arg fun _ => 1 with free := arg :: s.vm.free } }
    refine wp.call (ih fun p hp => ?_) ?_
    · exact hrange p (mem_cons_of_mem _ hp)
    rintro _ s' ⟨hsame, hbase, hfree, hmem⟩
    refine ⟨hsame, hbase, hfree.trans perm_middle, fun p hp => ?_⟩
    rw [mem_cons, not_or] at hp
    rw [hmem p hp.2]
    exact Function.update_of_ne hp.1 ..

theorem Fetched.undone {s1 s2 s3 : ExecSys} (hf : Fetched s argv s1) (hu : Undone s1.vm s.proc s2)
    (hproc : s3.proc = s2.proc) (hbase : s3.vm.base = s2.vm.base)
    (hfree : s3.vm.free.Perm (argv ++ s2.vm.free))
    (hmem : ∀ p, p ∉ argv → s3.vm.mem p = s2.vm.mem p) : Undone s.vm s.proc s3 where
  proc := hproc.trans hu.proc
  mem p hp := by
    rw [hf.free, mem_append, not_or] at hp
    rw [hmem p hp.1, hu.mem p hp.2, hf.mem p hp.1]
  free := by
    rw [hf.free]
    exact hfree.trans (hu.free.append_left argv)
  base := hbase.trans (hu.base.trans hf.base)

/-- Whatever it is called with, `sys_exec` fails only in finding and locking the file, and when it
returns `-1` everything is as it was. -/
theorem sysExec_safe_atomic (h : ExecReady sb F t trampoline cwd [] [] s) (upath uargv : Nat) :
    wp (fun e => ∃ path e', e = .fs e' ∧ (nameiLock sb cwd path).run s.fs = .error e')
      (sysExec sb trampoline cwd upath uargv) (fun r s' => s'.fs.Quiet sb ∧
        (∀ j, (s'.fs.itable j).ref = (s.fs.itable j).ref) ∧ s'.ops = s.ops ∧
        (r = -1 → Undone s.vm s.proc s')) s := by
  unfold sysExec
  rw [wp_bind]
  refine (fetchstr_spec h.space.userTable upath MAXPATH).call ?_
  rintro ⟨r, path⟩ s1 ⟨hs1, -⟩
  rw [hs1]
  dsimp only
  split
  · exact ⟨h.quiet, fun _ => rfl, rfl, fun _ => ⟨rfl, fun _ _ => rfl, .refl _, rfl⟩⟩
  rw [wp_bind]
  refine (fetchArgs_spec h.space uargv ⟨rfl, rfl, rfl, fun _ _ => rfl⟩ (by simp) le_rfl).call ?_
  rintro ⟨ok, argv⟩ s1 ⟨hf, hargs⟩
  obtain ⟨v, rfl⟩ : ∃ v, s1 = { s with vm := v } := ⟨_, hf.same⟩
  -- whatever happens to the rest of memory, the pages of the arguments can be freed
  have hrange {s2 : ExecSys} (hbase : s2.vm.base = v.base) :
      ∀ p ∈ argv, s2.vm.base ≤ p ∧ p * PGSIZE < PHYSTOP := by
    intro p hp
    rw [hbase, hf.base]
    exact h.space.range p ((h.space.cover p).mpr (.inl (hf.free ▸ mem_append_left _ hp)))
  cases ok with
  | false =>
    rw [wp_bind]
    refine (freeArgs_spec (hrange rfl)).call ?_
    rintro _ s2 ⟨hsame, hbase, hfree, hmem⟩
    have hundone : Undone v s.proc { s with vm := v } := ⟨rfl, fun _ _ => rfl, .refl _, rfl⟩
    rw [hsame]
    exact ⟨h.quiet, fun _ => rfl, rfl, fun _ => hf.undone hundone rfl hbase hfree hmem⟩
  | true =>
    obtain ⟨hstrings, hargc⟩ := hargs rfl
    obtain ⟨strs, hpages⟩ := exists_argPages fun p hp => ⟨hf.apart h.space hp, hstrings p hp⟩
    have hready : ExecReady sb (v.frees ∪ owned t (npages s.proc.sz)) t trampoline cwd argv strs
        { s with vm := v } :=
      { h with space := hf.taken h.space, args := hpages, argc := hargc }
    rw [wp_bind]
    refine (exec_spec hready _).mono (fun r s2 hpost => ?_) fun e he => ⟨_, he⟩
    obtain ⟨hquiet, hrefs, hops, hexec⟩ := hpost
    have hbase2 : s2.vm.base = v.base := by
      rcases hexec with ⟨-, hundone⟩ | ⟨_, _, _, _, _, hstarted⟩
      · exact hundone.base
      · exact hstarted.base
    rw [wp_bind]
    refine (freeArgs_spec (hrange hbase2)).call ?_
    rintro _ s3 ⟨hsame, hbase, hfree, hmem⟩
    rw [hsame]
    refine ⟨hquiet, hrefs, hops, fun hfail => ?_⟩
    rcases hexec with ⟨-, hundone⟩ | ⟨_, _, _, _, hr, _⟩
    · exact hf.undone hundone rfl hbase hfree hmem
    · omega

end Args

end Xv6
