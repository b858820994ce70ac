import Xv6.Exec.Stack

/-!
# From the loaded program to the running one

The rest of `exec`: the guard page and the stack, the arguments, and the exchange of the two
address spaces. The new one is made of pages that were free; when it is given up they are all free
again, and when the old one is given up its pages are free instead.
-/

namespace Xv6

open Prog Radix ExecM

/-- Nothing but free pages of `v` has been touched, and they are free again. -/
structure Undone (v : Vm) (p : UserProc) (s : ExecSys) : Prop where
  proc : s.proc = p
  mem : ∀ q, q ∉ v.free → s.vm.mem q = v.mem q
  free : s.vm.free.Perm v.free
  base : s.vm.base = v.base

section Pages

variable {F G T X : Set Nat} {s₀ s : ExecSys} {root n sz : Nat} {t t₀ : Shape Pte} {c : Nat → Page}
  {E : ExecPanic → Prop}

theorem Built.free (h : Built s₀.vm.frees s₀ s root n t) (hn : npages sz = n)
    (hpool : Pool G s₀.vm T X c) :
    wp E (ExecM.vm (procFreepagetable root sz)) (fun _ s' => (s'.fs = s₀.fs ∧ s'.ops = s₀.ops) ∧
      Undone s₀.vm s₀.proc s') s := by
  subst hn
  rw [wp_vm]
  refine ((procFreepagetable_base ..).and (procFreepagetable_spec h.space)).call ?_
  rintro _ v ⟨hfree, hbase⟩
  refine ⟨⟨by rw [h.same], by rw [h.same]⟩, by rw [h.same], fun p hp => ?_, hpool.perm hfree,
    hbase.trans h.base⟩
  show v.mem p = _
  rw [hfree.outside hp, h.rest p hp]

theorem Built.uvmclear (h : Built F s₀ s root n t) {v : Nat} (hv : v < n) :
    wp E (ExecM.vm (uvmclear root (v * PGSIZE))) (fun _ s' => ∃ t' : Shape Pte,
      Built F s₀ s' root n t' ∧ (∀ w, w ≠ v → t'.leaf w = t.leaf w) ∧ (t'.leaf v).U = false ∧
        ∀ a, a / PGSIZE < n → userByte t' s'.vm.mem a = userByte t s.vm.mem a) s := by
  rw [wp_vm]
  refine ((uvmclear_base ..).and (uvmclear_spec h.space hv)).call ?_
  rintro _ vm ⟨⟨t', hleaf, -, hpa, hU, h'⟩, hbase⟩
  have hrest (w : Nat) (hw : w ≠ v) : t'.leaf w = t.leaf w := by
    rw [hleaf, Function.update_of_ne hw]
  refine ⟨t', ⟨by rw [h.same], h'.self, fun p hp => ?_, hbase.trans h.base⟩, hrest, hU, fun a ha => ?_⟩
  · show vm.mem p = _
    rw [h'.outside hp, h.rest p hp]
  · show vm.mem (t'.leaf (a / PGSIZE)).pa _ = s.vm.mem (t.leaf (a / PGSIZE)).pa _
    rw [h'.user_mem ha]
    by_cases hav : a / PGSIZE = v
    · rw [hav, hpa]
    · rw [hrest _ hav]

theorem Built.commit {n0 : Nat} (hold : Space F s₀.vm s₀.proc.pagetable n0 t₀ s₀.vm.mem)
    (hn0 : npages s₀.proc.sz = n0) (h : Built s₀.vm.frees s₀ s root n t) (p : UserProc) :
    wp E (ExecM.vm (procFreepagetable s₀.proc.pagetable s₀.proc.sz)) (fun _ s' =>
      (s'.proc = p ∧ s'.fs = s₀.fs ∧ s'.ops = s₀.ops) ∧ Space F s'.vm root n t s'.vm.mem ∧
        (∀ q, q ∉ F → s'.vm.mem q = s₀.vm.mem q) ∧ s'.vm.base = s₀.vm.base ∧
        ∀ q, q ∈ owned t n → s'.vm.mem q = s.vm.mem q) { s with proc := p } := by
  subst hn0
  have hapart : ∀ q ∈ owned t₀ (npages s₀.proc.sz), q ∉ s₀.vm.frees := fun q hq => hold.owned_free hq
  have hold' := hold.disjoint h.space.toPool h.rest hapart h.base
  rw [wp_vm]
  refine ((procFreepagetable_base ..).and (procFreepagetable_spec hold')).call ?_
  rintro _ v ⟨hfree, hbase⟩
  have hset := hfree.frees_eq
  have hkeep : ∀ q ∈ owned t n, q ∉ s.vm.frees ∪ owned t₀ (npages s₀.proc.sz) := by
    rintro q hq (hf | ho)
    · exact h.space.owned_free hq hf
    · exact hapart q ho (h.space.owned_mem hq)
  have hmem (q : Nat) (hq : q ∈ owned t n) : v.mem q = s.vm.mem q := hfree.outside (hkeep q hq)
  have hspace := h.space.move hmem hfree (fun q hq hf => hkeep q hq (hset ▸ hf)) hbase
  have hF : v.frees ∪ owned t n = F := by
    rw [hold.pool_eq, hset, h.space.pool_eq]
    rw [Set.union_right_comm]
  rw [hF] at hspace
  refine ⟨⟨rfl, by rw [h.same], by rw [h.same]⟩, hspace, fun q hq => ?_, hbase.trans h.base, hmem⟩
  rw [hold.pool_eq, h.space.pool_eq] at hq
  show v.mem q = _
  rw [hfree.outside fun hin => hq ?_, h.rest q fun hin => hq (.inl (h.space.pool_eq ▸ hin))]
  rcases hin with hf | ho
  · exact .inl (.inl hf)
  · exact .inr ho

end Pages

/-! ## The running program -/

/-- `exec` has started a program: the segments `segs` of `file`, with the arguments `strs`. -/
structure Started (F : Set Nat) (v : Vm) (p : UserProc) (s' : ExecSys) (t : Shape Pte) (file : List UInt8)
    (segs : List Proghdr) (entry : Nat) (path : List UInt8) (strs : List (List UInt8)) : Prop where
  space : Space F s'.vm s'.proc.pagetable (npages s'.proc.sz) t s'.vm.mem
  rest : ∀ q, q ∉ F → s'.vm.mem q = v.mem q
  base : s'.vm.base = v.base
  proc : ∃ sp, s'.proc = { p with
    pagetable := s'.proc.pagetable
    sz := s'.proc.sz
    name := safestrcpy (lastElem path path) NAMESIZE
    trapframe := ⟨entry, sp, sp⟩ }
  size : s'.proc.sz = npages (segEnd segs) * PGSIZE + 2 * PGSIZE
  bytes : ∀ a, a / PGSIZE < npages (segEnd segs) → userByte t s'.vm.mem a = loadByte file segs a
  guard : (t.leaf (npages (segEnd segs))).U = false
  flags : ∀ q, q < npages s'.proc.sz → q ≠ npages (segEnd segs) → (t.leaf q).flags = userFlags
  segments : ∀ ph ∈ segs, ph.vaddr % PGSIZE = 0 ∧ ph.filesz ≤ ph.memsz
  args : ∃ strings, ArgLayout (userByte t s'.vm.mem) s'.proc.sz strs s'.proc.trapframe.sp strings

/-- What `exec` did to a process `p`: it has started a program, or has left no trace. -/
def Execed (F : Set Nat) (v : Vm) (p : UserProc) (file : List UInt8) (segs : List Proghdr)
    (entry : Nat) (path : List UInt8) (strs : List (List UInt8)) (r : Int) (s' : ExecSys) : Prop :=
  r = -1 ∧ Undone v p s' ∨
    r = strs.length ∧ ∃ t, Started F v p s' t file segs entry path strs

section Image

variable {sb : Superblock} {F : Set Nat} {s₀ s : ExecSys} {root sz : Nat} {t t₀ : Shape Pte}
  {E : ExecPanic → Prop} {file : List UInt8} {segs : List Proghdr} {argv : List Nat}
  {strs : List (List UInt8)}

variable (s₀) in
theorem execImage_spec (hold : Space F s₀.vm s₀.proc.pagetable (npages s₀.proc.sz) t₀ s₀.vm.mem)
    (h : Built s₀.vm.frees s₀ s root (npages sz) t) (hload : Loaded file s.vm sz t segs)
    (hargs : ArgPages F s₀.vm argv strs) (hargc : argv.length < MAXARG) (entry : Nat)
    (path : List UInt8) :
    wp E (execImage sb root sz entry path argv) (fun r s' =>
      (s'.fs = s₀.fs ∧ s'.ops = s₀.ops) ∧
        Execed F s₀.vm s₀.proc file segs entry path strs r s') s := by
  have hpg := PGSIZE_pos
  have hproc : s.proc = s₀.proc := by rw [h.same]
  have hsmall := h.space.size_lt
  have hround : PGROUNDUP sz = npages sz * PGSIZE := pgroundup_eq (by omega)
  have hn := h.space.lt
  have hnew : (npages sz * PGSIZE + 2 * PGSIZE) % 2 ^ 64 = npages sz * PGSIZE + 2 * PGSIZE := by
    refine Nat.mod_eq_of_lt ?_
    unfold PGSIZE
    omega
  have hargs' : ArgPages s₀.vm.frees s₀.vm argv strs :=
    List.Forall₂.imp (fun p str hp => ⟨fun hf => hp.1 (by rw [hold.pool_eq]; exact .inl hf), hp.2⟩) hargs
  -- giving up
  have hbad {s' : ExecSys} {n sz' : Nat} {t' : Shape Pte} (h' : Built s₀.vm.frees s₀ s' root n t')
      (hn : npages sz' = n) : wp E (execBad sb (some root) sz' none) (fun r s' =>
        (s'.fs = s₀.fs ∧ s'.ops = s₀.ops) ∧
          Execed F s₀.vm s₀.proc file segs entry path strs r s') s' := by
    unfold execBad
    dsimp only
    rw [wp_bind]
    exact (h'.free hn hold.toPool).call fun _ s'' hpost => ⟨hpost.1, .inl ⟨rfl, hpost.2⟩⟩
  unfold execImage
  rw [wp_bind, wp_myproc]
  dsimp only
  rw [hround, hnew, wp_bind]
  refine (h.uvmalloc (npages_mul _) _).call ?_
  rintro sz1 s1 ⟨t₁, ⟨rfl, h1⟩ | ⟨hsz1, h1, hgrown, hkept⟩⟩
  · rw [if_pos rfl]
    exact hbad h1 (npages_mul _)
  have hsz1' : sz1 = (npages sz + 2) * PGSIZE := by
    rw [Nat.add_mul]
    omega
  have hnp : npages sz1 = npages sz + 2 := by rw [hsz1', npages_mul]
  rw [hnp] at h1 hgrown
  rw [if_neg (by rw [hsz1']; exact (Nat.mul_pos (by omega) hpg).ne'), wp_bind]
  have hguard : sz1 - 2 * PGSIZE = npages sz * PGSIZE := by
    rw [Nat.add_mul] at hsz1'
    omega
  rw [hguard]
  refine (h1.uvmclear (by omega)).call ?_
  rintro _ s2 ⟨t₂, h2, hsame, hU, hbytes⟩
  rw [wp_bind]
  refine (pushArgv_spec h2 hargs' hargc (by rw [Nat.add_mul] at hsz1'; omega) hsz1').call
    fun r s3 h3 => ?_
  cases r with
  | none => exact hbad h3.built hnp
  | some q =>
    obtain ⟨hargc', hlayout⟩ := h3.pushed q rfl
    rw [hproc]
    dsimp only
    rw [wp_bind, wp_setProc, wp_bind]
    refine (h3.built.commit hold rfl _).call ?_
    rintro _ s4 ⟨⟨hp4, hfs4, hops4⟩, hspace, hrest, hbase, hmem⟩
    have hsz4 : s4.proc.sz = sz1 := by rw [hp4]
    have hsp4 : s4.proc.trapframe.sp = q.2 := by rw [hp4]
    have hpt4 : s4.proc.pagetable = root := by rw [hp4]
    -- user memory is what it was before the old address space was freed
    have hbyte (a : Nat) (ha : a / PGSIZE < npages sz + 2) :
        userByte t₂ s4.vm.mem a = userByte t₂ s3.vm.mem a := by
      unfold userByte
      rw [hmem _ (.inr (mem_user ha))]
    refine ⟨⟨hfs4, hops4⟩, .inr ⟨by rw [hargc'], t₂, ⟨?_, hrest, hbase, ⟨q.2, ?_⟩, ?_, ?_, ?_, ?_,
      ?_, ?_⟩⟩⟩
    · rw [hpt4, hsz4, hnp]
      exact hspace
    · rw [hp4]
    · rw [hsz4, hsz1', ← hload.size, Nat.add_mul]
    · intro a ha
      rw [← hload.size] at ha
      have hlow : a < sz1 - PGSIZE := by
        rw [Nat.div_lt_iff_lt_mul hpg] at ha
        rw [Nat.add_mul] at hsz1'
        omega
      rw [hbyte a (by omega), h3.below a (by omega) hlow, hbytes a (by omega),
        hkept a ha, hload.bytes a ha]
    · rw [← hload.size]
      exact hU
    · intro w hw hne
      rw [hsz4, hnp] at hw
      rw [← hload.size] at hne
      rw [hsame w hne]
      by_cases hlow : w < npages sz
      · rw [hgrown.same w (.inl hlow)]
        exact hload.flags w hlow
      · exact hgrown.flags w (by omega) (by omega)
    · exact fun ph hph => ⟨hload.aligned ph hph, hload.fits ph hph⟩
    · rw [hsz4, hsp4]
      obtain ⟨strings, hlay⟩ := hlayout
      exact ⟨strings, hlay.congr fun a ha => hbyte a (by
        rw [Nat.div_lt_iff_lt_mul hpg]
        omega)⟩

end Image

end Xv6
