import Xv6.Vm.Copy

/-!
# Growing and shrinking a process

`growproc` and `sys_sbrk`. The sizes pass through `uint` and `int` variables: for a process that
fits into memory nothing is lost, but a shrink by more than the size wraps around to a size above
the old one, and `uvmdealloc` takes that for nothing to do.
-/

namespace Xv6

open Prog Radix UInt32

/-- The registers in `p->trapframe` that `exec` sets. -/
structure Trapframe where
  epc : Nat
  sp : Nat
  a1 : Nat
  deriving DecidableEq

/-- What `struct proc` says of the user image; `tfPage` is the page of `p->trapframe`. -/
structure UserProc where
  pagetable : Nat
  sz : Nat
  tfPage : Nat
  trapframe : Trapframe
  name : List UInt8
  deriving DecidableEq

/-- `growproc(n)` of process `p`: the value returned, and the process after it. -/
def growproc (p : UserProc) (n : Int32) : VmM (Int × UserProc) := do
  let sz := UInt32.ofNat p.sz
  if 0 < n.toInt then
    let sz := UInt32.ofNat (← uvmalloc p.pagetable sz.toNat (sz + n.toUInt32).toNat)
    if sz = 0 then
      return (-1, p)
    else
      return (0, { p with sz := sz.toNat })
  else if n.toInt < 0 then
    let sz := UInt32.ofNat (← uvmdealloc p.pagetable sz.toNat (sz + n.toUInt32).toNat)
    return (0, { p with sz := sz.toNat })
  else
    return (0, { p with sz := sz.toNat })

def sysSbrk (p : UserProc) (n : Int32) : VmM (Int × UserProc) := do
  let addr := (UInt32.ofNat p.sz).toInt32
  let (r, p) ← growproc p n
  if r < 0 then
    return (-1, p)
  else
    return (addr.toInt, p)

/-- `sys_sbrk(n)` returned `r` with the process `p'`: the size is `n` more, memory below both sizes
is as it was and new pages hold zeroes, or the call failed and nothing changed. -/
def SbrkExact (F : Set Nat) (s : Vm) (t : Shape Pte) (p : UserProc) (n : Int32) (r : Int)
    (p' : UserProc) (s' : Vm) : Prop :=
  ∃ (t' : Shape Pte) (c' : Nat → Page), Space F s' p'.pagetable (npages p'.sz) t' c' ∧
    (r = p.sz ∧ (p'.sz : Int) = p.sz + n.toInt ∧ p' = { p with sz := p'.sz } ∧
        (∀ a, a < p.sz → a < p'.sz → t'.leaf (a / PGSIZE) = t.leaf (a / PGSIZE) ∧
          userByte t' s'.mem a = userByte t s.mem a) ∧
        (∀ v, npages p.sz ≤ v → v < npages p'.sz → (t'.leaf v).flags = userFlags ∧
          s'.mem (t'.leaf v).pa = fun _ => 0) ∨
      r = -1 ∧ p' = p ∧ t'.leaf = t.leaf ∧ ∀ a, a < p.sz → userByte t s'.mem a = userByte t s.mem a)

section Sbrk

variable {F : Set Nat} {s : Vm} {t : Shape Pte} {c : Nat → Page} {p : UserProc} {n : Int32}
  {E : VmPanic → Prop}

theorem Space.size_lt {root sz : Nat} (h : Space F s root (npages sz) t c) : sz < 2 ^ 27 := by
  have hle := le_npages sz
  have hlt := h.lt
  unfold PGSIZE at hle
  omega

theorem toNat_add_int (sz : Nat) (n : Int32) (h : sz < 2 ^ 27) :
    ((UInt32.ofNat sz + n.toUInt32).toNat : Int)
      = if n.toInt < 0 ∧ -n.toInt ≤ sz ∨ 0 ≤ n.toInt then sz + n.toInt else sz + n.toInt + 2 ^ 32 := by
  have hn := Bytes.toNat_toUInt32 n
  have hlo := n.le_toInt
  have hhi := n.toInt_lt
  rw [UInt32.toNat_add, toNat_ofNat']
  split at hn <;> split <;> omega

theorem toInt_ofNat_toInt32 {sz : Nat} (h : sz < 2 ^ 27) :
    (UInt32.ofNat sz).toInt32.toInt = sz := by
  have hnat : (UInt32.ofNat sz).toInt32.toBitVec.toNat = sz :=
    toNat_ofNat_of_lt' (lt_trans h (by decide))
  rw [← Int32.toInt_toBitVec, BitVec.toInt_eq_toNat_cond, hnat]
  split
  · rfl
  · omega

theorem sysSbrk_of_growproc {Q : Int × UserProc → Vm → Prop} (hsz : p.sz < 2 ^ 27)
    (h : wp E (growproc p n) (fun r s' => Q (if r.1 < 0 then -1 else p.sz, r.2) s') s) :
    wp E (sysSbrk p n) Q s := by
  unfold sysSbrk
  show wp E (growproc p n >>= fun x =>
    if x.1 < 0 then pure (-1, x.2) else pure ((UInt32.ofNat p.sz).toInt32.toInt, x.2)) Q s
  rw [toInt_ofNat_toInt32 hsz, wp_bind]
  refine h.call fun r s' hpost => ?_
  split
  · next hneg => rwa [if_pos hneg] at hpost
  · next hneg => rwa [if_neg hneg] at hpost

variable (h : Space F s p.pagetable (npages p.sz) t c)

include h

theorem sbrk_grow (hn : 0 < n.toInt) :
    wp E (sysSbrk p n) (fun r s' => SbrkExact F s t p n r.1 r.2 s') s := by
  have hsz := h.size_lt
  have hhi := n.toInt_lt
  obtain ⟨new, hnew⟩ : ∃ new : Nat, (new : Int) = p.sz + n.toInt := ⟨(p.sz + n.toInt).toNat, by omega⟩
  have hsum := toNat_add_int p.sz n hsz
  rw [if_pos (by omega), ← hnew] at hsum
  have hsum' : (UInt32.ofNat p.sz + n.toUInt32).toNat = new := by exact_mod_cast hsum
  have hold : (UInt32.ofNat p.sz).toNat = p.sz := toNat_ofNat_of_lt' (lt_trans hsz (by decide))
  have hnew' : (UInt32.ofNat new).toNat = new := toNat_ofNat_of_lt' (show new < 2 ^ 32 by omega)
  refine sysSbrk_of_growproc hsz ?_
  unfold growproc
  dsimp only
  rw [if_pos hn, hsum', hold, wp_bind]
  refine (uvmalloc_spec h rfl new).call ?_
  rintro r s' ⟨t', c', hkeeps, hr⟩
  -- pages of the old size hold what they held
  have hpages : ∀ v, v < npages p.sz → c' (t.leaf v).pa = s.mem (t.leaf v).pa := fun v hv => by
    rw [hkeeps _ (.inr (mem_user hv)), h.user_mem hv]
  rcases hr with ⟨rfl, hleaf, h'⟩ | ⟨rfl, hgrown, h'⟩
  · rw [if_pos (by decide), wp_pure]
    refine ⟨t', c', h', .inr ⟨rfl, rfl, hleaf, fun a ha => ?_⟩⟩
    have hv := page_lt ha
    have hmem := h'.user_mem hv
    rw [hleaf] at hmem
    unfold userByte
    rw [hmem, hpages _ hv]
  · have hmax : max p.sz new = new := max_eq_right (by omega)
    rw [hmax] at hgrown h' ⊢
    have hne : UInt32.ofNat new ≠ 0 := fun hzero => by
      rw [hzero] at hnew'
      have : (0 : UInt32).toNat = 0 := rfl
      omega
    rw [if_neg hne, wp_pure, hnew']
    refine ⟨t', c', h', .inl ⟨rfl, hnew, rfl, fun a ha _ => ?_, fun v hlo hhi => ?_⟩⟩
    · have hv := page_lt ha
      have hsame := hgrown.same _ (.inl hv)
      have hv' : a / PGSIZE < npages new := hv.trans_le (npages_mono (by omega))
      refine ⟨hsame, ?_⟩
      have hmem := h'.user_mem hv'
      rw [hsame] at hmem
      unfold userByte
      rw [hsame, hmem, hpages _ hv]
    · have hin : v < npages p.sz + (npages new - npages p.sz) := by
        have hhi' : v < npages new := hhi
        omega
      exact ⟨hgrown.flags v hlo hin, (h'.user_mem hhi).trans (hgrown.zero v hlo hin)⟩

theorem growproc_dealloc (hn : n.toInt < 0) {new : Nat}
    (hsum : (UInt32.ofNat p.sz + n.toUInt32).toNat = new) :
    wp E (growproc p n) (fun r s' => r = (0, { p with sz := min p.sz new }) ∧ ∃ t' : Shape Pte,
      t'.leaf = clearRange t.leaf (npages (min p.sz new)) (npages p.sz - npages (min p.sz new)) ∧
      Space F s' p.pagetable (npages (min p.sz new)) t' c) s := by
  have hsz := h.size_lt
  have hold : (UInt32.ofNat p.sz).toNat = p.sz := toNat_ofNat_of_lt' (lt_trans hsz (by decide))
  have hmin : (UInt32.ofNat (min p.sz new)).toNat = min p.sz new :=
    toNat_ofNat_of_lt' ((min_le_left ..).trans_lt (lt_trans hsz (by decide)))
  unfold growproc
  dsimp only
  rw [if_neg (by omega), if_pos hn, hsum, hold, wp_bind]
  refine (uvmdealloc_spec h rfl).call ?_
  rintro r s' ⟨rfl, hpost⟩
  rw [wp_pure, hmin]
  exact ⟨rfl, hpost⟩

theorem sbrk_shrink (hn : n.toInt < 0) (hle : -n.toInt ≤ p.sz) :
    wp E (sysSbrk p n) (fun r s' => SbrkExact F s t p n r.1 r.2 s') s := by
  have hsz := h.size_lt
  obtain ⟨new, hnew⟩ : ∃ new : Nat, (new : Int) = p.sz + n.toInt := ⟨(p.sz + n.toInt).toNat, by omega⟩
  -- the sum of `uint`s does not wrap, as the new size is not negative
  have hsum := toNat_add_int p.sz n hsz
  rw [if_pos (.inl ⟨hn, hle⟩), ← hnew] at hsum
  have hmin : min p.sz new = new := min_eq_right (by omega)
  have hspec := growproc_dealloc (E := E) h hn (by exact_mod_cast hsum)
  rw [hmin] at hspec
  refine sysSbrk_of_growproc hsz (hspec.call ?_)
  rintro r s' ⟨rfl, t', hleaf, h'⟩
  refine ⟨t', c, h', .inl ⟨rfl, hnew, rfl, fun a _ ha => ?_, fun v hlo hhi => ?_⟩⟩
  · have hv : a / PGSIZE < npages new := page_lt ha
    have hv' : a / PGSIZE < npages p.sz := hv.trans_le (npages_mono (by omega))
    have hsame : t'.leaf (a / PGSIZE) = t.leaf (a / PGSIZE) := by
      rw [hleaf]
      exact if_neg (by omega)
    have hmem := h'.user_mem hv
    refine ⟨hsame, ?_⟩
    unfold userByte
    rw [hmem, hsame, h.user_mem hv']
  · have hhi' : v < npages new := hhi
    -- there are no new pages
    have hle' : npages new ≤ npages p.sz := npages_mono (by omega)
    omega

theorem sbrk_negative (hn : n.toInt < 0) :
    wp E (sysSbrk p n) (fun r _ => r.1 = p.sz) s := by
  have hsz := h.size_lt
  exact sysSbrk_of_growproc hsz ((growproc_dealloc h hn rfl).call fun r s' hpost => by
    rw [hpost.1]
    rfl)

theorem sbrk_zero (hn : n.toInt = 0) :
    wp E (sysSbrk p n) (fun r s' => SbrkExact F s t p n r.1 r.2 s') s := by
  have hsz := h.size_lt
  have hold : (UInt32.ofNat p.sz).toNat = p.sz := toNat_ofNat_of_lt' (lt_trans hsz (by decide))
  refine sysSbrk_of_growproc hsz ?_
  unfold growproc
  dsimp only
  rw [if_neg (by omega), if_neg (by omega), wp_pure, hold]
  refine ⟨t, c, h, .inl ⟨rfl, ?_, rfl, fun a _ _ => ⟨rfl, rfl⟩, fun v hlo hhi => ?_⟩⟩
  · rw [hn, add_zero]
  exact absurd (lt_of_le_of_lt hlo hhi) (lt_irrefl _)

omit h

/-- **`sys_sbrk`.** It returns, and does what it should exactly when the new size is not negative:
`growproc` takes the sum for a `uint` and hands a shrink below zero to `uvmdealloc`, which leaves
the old size in place without an error. -/
theorem sbrk_exact_iff (h : Space F s p.pagetable (npages p.sz) t c) (n : Int32) :
    ∃ r p' s', (sysSbrk p n).run s = .ok ((r, p'), s') ∧
      (SbrkExact F s t p n r p' s' ↔ 0 ≤ n.toInt ∨ -n.toInt ≤ p.sz) := by
  rcases lt_trichotomy n.toInt 0 with hn | hn | hn
  · by_cases hle : -n.toInt ≤ p.sz
    · obtain ⟨r, s', hrun, hpost⟩ := (sbrk_shrink h hn hle).returns
      exact ⟨r.1, r.2, s', hrun, iff_of_true hpost (.inr hle)⟩
    · obtain ⟨r, s', hrun, hr⟩ := (sbrk_negative h hn).returns
      refine ⟨r.1, r.2, s', hrun, iff_of_false ?_ (by omega)⟩
      rintro ⟨t', c', -, ⟨-, hsz, -⟩ | ⟨hneg, -⟩⟩ <;> omega
  · obtain ⟨r, s', hrun, hpost⟩ := (sbrk_zero h hn).returns
    exact ⟨r.1, r.2, s', hrun, iff_of_true hpost (.inl hn.ge)⟩
  · obtain ⟨r, s', hrun, hpost⟩ := (sbrk_grow h hn).returns
    exact ⟨r.1, r.2, s', hrun, iff_of_true hpost (.inl hn.le)⟩

end Sbrk

def firstProc : UserProc where
  pagetable := 0x80100
  sz := 0
  tfPage := 0x80200
  trapframe := ⟨0, 0, 0⟩
  name := []

/-- A process with two pages gives 4100 bytes back, and with them its second page. -/
theorem sbrk_exact_iff_shrinks : ∃ t : Shape Pte, ∃ r p' s',
    (sysSbrk { firstProc with sz := 2 * PGSIZE } (-4100)).run twoPageVm = .ok ((r, p'), s') ∧
      p'.sz = 4092 ∧ SbrkExact {p | p ∈ bootVm.free} twoPageVm t { firstProc with sz := 2 * PGSIZE }
        (-4100) r p' s' := by
  obtain ⟨t, c, h, -⟩ := twoPageVm_space
  obtain ⟨r, p', s', hrun, hiff⟩ := sbrk_exact_iff (p := { firstProc with sz := 2 * PGSIZE }) h (-4100)
  have hexact := hiff.mpr (.inr (by decide))
  refine ⟨t, r, p', s', hrun, ?_, hexact⟩
  have hsz : ((sysSbrk { firstProc with sz := 2 * PGSIZE } (-4100)).run twoPageVm).map (fun x => x.1.2.sz)
      = .ok 4092 := by decide +kernel
  rw [hrun] at hsz
  exact Except.ok.inj hsz

/-- A process of 4096 bytes gives back 8192: `sys_sbrk` returns the old size, and that is still the
size. -/
theorem sbrk_beyond_size :
    ((do
      let (_, p) ← sysSbrk firstProc 4096
      let (r, p') ← sysSbrk p (-8192)
      return (p.sz, r, p'.sz) : VmM (Nat × Int × Nat)).run firstVm).map Prod.fst
      = .ok (4096, 4096, 4096) := by
  decide +kernel

end Xv6
