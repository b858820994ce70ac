import Xv6.Exec.Exec
import Xv6.Fs.Contents
import Xv6.Fs.Namei
import Xv6.Vm.Base
import Xv6.Vm.Owner

/-!
# Loading a program

What `loadseg` and the loop over the program headers do to the address space under construction.
The pages grow with the running maximum of the segments' ends; a segment is then copied over them.
`loadByte` is what user memory holds after the segments of a list, the last one first.
-/

namespace Xv6

open Prog Radix ExecM List

section Rules

variable {E : ExecPanic → Prop} {s : ExecSys} {α : Type}

theorem wp_vm {c : VmM α} {Q : α → ExecSys → Prop} :
    wp E (ExecM.vm c) Q s ↔ wp (fun e => E (.vm e)) c (fun a v => Q a { s with vm := v }) s.vm :=
  wp_within

theorem wp_fs {c : FsM α} {Q : α → ExecSys → Prop} :
    wp E (ExecM.fs c) Q s ↔ wp (fun e => E (.fs e)) c (fun a v => Q a { s with fs := v }) s.fs :=
  wp_within

theorem wp_myproc {Q : UserProc → ExecSys → Prop} : wp E myproc Q s ↔ Q s.proc s := Iff.rfl

variable {Q : Unit → ExecSys → Prop}

theorem wp_setProc {p : UserProc} : wp E (setProc p) Q s ↔ Q () { s with proc := p } := Iff.rfl

theorem wp_beginOp : wp E beginOp Q s ↔ Q () { s with ops := s.ops + 1 } := Iff.rfl

theorem wp_endOp : wp E endOp Q s ↔ Q () { s with ops := s.ops - 1 } := Iff.rfl

end Rules

/-! ## Reading the file -/

/-- The file that entry `k` of the table is of. -/
def Fs.file (sb : Superblock) (s : Fs) (k : Fin NINODE) : List UInt8 :=
  (s.vol sb).content (s.itable k).inum

def filePart (file : List UInt8) (off n : Nat) : List UInt8 :=
  (List.range n).map fun j => file.getD (off + j) 0

theorem length_filePart (file : List UInt8) (off n : Nat) : (filePart file off n).length = n := by
  rw [filePart, length_map, length_range]

theorem getD_filePart (file : List UInt8) (off : Nat) {n j : Nat} (hj : j < n) :
    (filePart file off n).getD j 0 = file.getD (off + j) 0 := by
  unfold filePart
  rw [getD_eq_getElem?_getD, List.getElem?_map, List.getElem?_range hj]
  rfl

theorem getD_content (v : Vol) {i o : Nat} (ho : o < v.size i) :
    (v.content i).getD o 0 = v.fileByte i o := by
  unfold Vol.content
  rw [getD_eq_getElem?_getD, List.getElem?_map, List.getElem?_range ho]
  rfl

section Read

variable {sb : Superblock} {s : Fs} {k : Fin NINODE}

theorem Fs.file_lt (sb : Superblock) (s : Fs) (k : Fin NINODE) : (s.file sb k).length < 2 ^ 32 := by
  unfold Fs.file
  rw [length_content]
  exact UInt32.toNat_lt _

theorem readi_locked (h : s.Locked sb k) {off n : UInt32} (hn : 0 < n.toNat) :
    wp (fun _ => False) (readi sb k (fun _ => true) off n) (fun r s' => s' = s ∧
      r.2.length ≤ n.toNat ∧ (r.1 = n.toNat → off.toNat + n.toNat ≤ (s.file sb k).length ∧
        r.2 = filePart (s.file sb k) off.toNat n.toNat)) s := by
  have hspec := readi_spec (h.good.work h.ref h.valid) (by
    rw [h.good.volAt h.ref h.valid]
    exact h.good.wf.covered _ (h.good.alloc h.ref h.valid)) (fun _ => true) off n
  rw [h.good.volAt h.ref h.valid] at hspec
  refine hspec.call ?_
  rintro r s' ⟨rfl, m, hm, hbytes, -, hres⟩
  have hle := hm.trans (readLen_le ..)
  have hlen : r.2.length = m := by rw [hbytes, length_map, length_range]
  refine ⟨rfl, hlen ▸ hle, fun hall => ?_⟩
  obtain ⟨hr, rfl⟩ := hres.resolve_right fun ⟨hno, _⟩ => by omega
  have hfull : readLen ((s'.vol sb).size (s'.itable k).inum) off.toNat n.toNat = n.toNat := by omega
  have hin : off.toNat + n.toNat ≤ (s'.vol sb).size (s'.itable k).inum := by
    unfold readLen at hfull
    split at hfull
    · omega
    · omega
  refine ⟨?_, ?_⟩
  · unfold Fs.file
    rwa [length_content]
  · rw [hbytes, hfull]
    unfold filePart
    refine map_congr_left fun j hj => (getD_content _ ?_).symm
    have := mem_range.mp hj
    omega

end Read

/-! ## The address space under construction -/

/-- From `s₀` to `s` only the pages of `F` have been used, and they hold a new address space. -/
structure Built (F : Set Nat) (s₀ s : ExecSys) (root n : Nat) (t : Shape Pte) : Prop where
  same : s = { s₀ with vm := s.vm }
  space : Space F s.vm root n t s.vm.mem
  rest : ∀ p, p ∉ F → s.vm.mem p = s₀.vm.mem p
  base : s.vm.base = s₀.vm.base

section Built

variable {F : Set Nat} {s₀ s : ExecSys} {root n : Nat} {t : Shape Pte} {E : ExecPanic → Prop}

theorem Built.fs (h : Built F s₀ s root n t) : s.fs = s₀.fs := by rw [h.same]

theorem Built.stored (h : Built F s₀ s root n t) {v : Vm} (hspace : Space F v root n t v.mem)
    {dstva m : Nat} {src : Nat → UInt8} (hst : Stored t n s.vm v dstva src m) :
    Built F s₀ { s with vm := v } root n t where
  same := by rw [h.same]
  space := hspace
  rest p hp := by
    rw [← h.rest p hp]
    exact hst.rest p fun hx => hp (h.space.mem_data hx)
  base := hst.base.trans h.base

theorem Built.uvmalloc (h : Built F s₀ s root n t) {oldsz : Nat} (hn : npages oldsz = n)
    (newsz : Nat) :
    wp E (ExecM.vm (uvmalloc root oldsz newsz)) (fun r s' => ∃ t' : Shape Pte,
      r = 0 ∧ Built F s₀ s' root n t' ∨
      r = max oldsz newsz ∧ Built F s₀ s' root (npages r) t' ∧
        Grown t t' s'.vm.mem n (npages r - n) ∧
        ∀ a, a / PGSIZE < n → userByte t' s'.vm.mem a = userByte t s.vm.mem a) s := by
  rw [wp_vm]
  refine ((uvmalloc_base ..).and (uvmalloc_spec h.space hn newsz)).call ?_
  rintro r v ⟨⟨t', c', hkeeps, hres⟩, hbase⟩
  have hrest {m : Nat} (h' : Space F v root m t' c') (p : Nat) (hp : p ∉ F) :
      v.mem p = s₀.vm.mem p := by
    rw [h'.outside hp, hkeeps p (.inl hp), h.rest p hp]
  refine ⟨t', hres.imp ?_ ?_⟩
  · rintro ⟨hr, -, h'⟩
    exact ⟨hr, by rw [h.same], h'.self, hrest h', hbase.trans h.base⟩
  · rintro ⟨hr, hgrown, h'⟩
    refine ⟨hr, ⟨by rw [h.same], h'.self, hrest h', hbase.trans h.base⟩, ⟨hgrown.same, hgrown.flags,
      fun q hlo hhi => ?_⟩, fun a ha => ?_⟩
    · have hle : npages oldsz ≤ npages r := npages_mono (hr ▸ le_max_left ..)
      rw [← hgrown.zero q hlo hhi]
      exact h'.user_mem (by omega)
    · have hle : n ≤ npages r := hn ▸ npages_mono (hr ▸ le_max_left ..)
      have hsame := hgrown.same (a / PGSIZE) (.inl ha)
      show v.mem (t'.leaf (a / PGSIZE)).pa _ = s.vm.mem (t.leaf (a / PGSIZE)).pa _
      rw [h'.user_mem (ha.trans_le hle), hsame, hkeeps _ (.inr (mem_user ha))]

end Built

theorem Stored.congr {t : Shape Pte} {n : Nat} {s s' : Vm} {dstva m : Nat} {src src' : Nat → UInt8}
    (h : Stored t n s s' dstva src m) (hsrc : ∀ j, j < m → src' j = src j) :
    Stored t n s s' dstva src' m where
  __ := h
  byte a ha := by
    rw [h.byte a ha]
    split
    · rw [hsrc _ (by omega)]
    · rfl

theorem Stored.elsewhere {t : Shape Pte} {n : Nat} {s s' : Vm} {dstva : Nat} {src : Nat → UInt8}
    (h : Stored t n s s' dstva src 0) (dstva' : Nat) (src' : Nat → UInt8) :
    Stored t n s s' dstva' src' 0 where
  __ := h
  byte a ha := by
    rw [h.byte a ha, if_neg (by omega), if_neg (by omega)]

/-! ## Segments -/

section Loadseg

variable {sb : Superblock} {F : Set Nat} {s₀ s : ExecSys} {root n : Nat} {t : Shape Pte}
  {E : ExecPanic → Prop} {ip : Fin NINODE}

/-- What the rest of `loadseg` does, from `i` on: it stores the bytes of the file, or gives up. -/
def Loadseg (F : Set Nat) (s₀ : ExecSys) (root n : Nat) (t : Shape Pte) (s : ExecSys)
    (file : List UInt8) (va off sz i : Nat) (r : Int) (s' : ExecSys) : Prop :=
  Built F s₀ s' root n t ∧ (r = -1 ∨ r = 0 ∧
    Stored t n s.vm s'.vm (va + i) (fun j => file.getD (off + (i + j)) 0) (sz - i))

theorem loadsegFrom_spec (hlock : s₀.fs.Locked sb ip) (h : Built F s₀ s root n t)
    (hreach : ∀ a, a / PGSIZE < n → Reach t a) {va sz k rounds : Nat} {offset : UInt32}
    (hva : va % PGSIZE = 0) (hsz : va + sz ≤ n * PGSIZE) (hk : k + rounds = npages sz)
    (hoff : k * PGSIZE < sz → offset.toNat + k * PGSIZE < 2 ^ 32) :
    wp E (loadsegFrom sb root va ip offset sz rounds (k * PGSIZE))
      (Loadseg F s₀ root n t s (s₀.fs.file sb ip) va offset.toNat sz (k * PGSIZE)) s := by
  have hn := h.space.lt
  have hsmall : n * PGSIZE < 2 ^ 27 := by
    unfold PGSIZE
    omega
  induction rounds generalizing s k with
  | zero =>
    have hdone : sz ≤ k * PGSIZE := by
      have hle := le_npages sz
      rwa [← hk, Nat.add_zero] at hle
    unfold loadsegFrom
    rw [if_neg (by omega), wp_pure]
    refine ⟨h, .inr ⟨rfl, ?_⟩⟩
    rw [Nat.sub_eq_zero_of_le hdone]
    exact .nothing ..
  | succ rounds ih =>
    have hlt : k * PGSIZE < sz := lt_npages.mp (by omega)
    have hpage : (va + k * PGSIZE) % PGSIZE = 0 := by
      rw [Nat.add_mul_mod_self_right]
      exact hva
    have hin : (va + k * PGSIZE) / PGSIZE < n := by
      rw [Nat.div_lt_iff_lt_mul PGSIZE_pos]
      omega
    have hmod : (va + k * PGSIZE) % 2 ^ 64 = va + k * PGSIZE := Nat.mod_eq_of_lt (by omega)
    -- the part of the segment that lies in this page
    obtain ⟨m, hm⟩ : ∃ m, m = if sz - k * PGSIZE < PGSIZE then sz - k * PGSIZE else PGSIZE := ⟨_, rfl⟩
    have hmpos : 0 < m := by
      rw [hm]
      split
      · exact Nat.sub_pos_of_lt hlt
      · exact PGSIZE_pos
    have hmle : m ≤ PGSIZE ∧ m ≤ sz - k * PGSIZE := by
      rw [hm]
      split
      · omega
      · omega
    have hmsmall : (UInt32.ofNat m).toNat = m := UInt32.toNat_ofNat_of_lt' (by
      have hpg : PGSIZE < UInt32.size := by decide
      omega)
    have hoff' : (offset + UInt32.ofNat (k * PGSIZE)).toNat = offset.toNat + k * PGSIZE := by
      rw [UInt32.toNat_add, UInt32.toNat_ofNat_of_lt' (show k * PGSIZE < UInt32.size by
        have hpg : 2 ^ 27 < UInt32.size := by decide
        omega)]
      exact Nat.mod_eq_of_lt (hoff hlt)
    unfold loadsegFrom
    rw [← hm, hmod, wp_bind, wp_vm]
    refine (walkaddr_user h.space.userTable _).call ?_
    rintro pa v ⟨rfl, hpa⟩
    obtain ⟨-, rfl, hne⟩ := hpa.resolve_right fun hno => hno.1 (hreach _ hin)
    rw [if_neg hne]
    dsimp only
    rw [wp_bind, wp_fs]
    have hlock' : s.fs.Locked sb ip := by rw [h.fs]; exact hlock
    refine (readi_locked hlock' (by rw [hmsmall]; exact hmpos)).mono ?_ fun _ => False.elim
    rintro r fs ⟨rfl, hlen, hfull⟩
    rw [hmsmall, hoff'] at hfull
    rw [hmsmall] at hlen
    rw [wp_bind, wp_vm, wp_loadPage, wp_bind, wp_vm, wp_storePage]
    -- what was read is in the page
    obtain ⟨v, hv⟩ : ∃ v, v = s.vm.setPage (t.leaf ((va + k * PGSIZE) / PGSIZE)).pa
      (Bytes.blit (s.vm.mem (t.leaf ((va + k * PGSIZE) / PGSIZE)).pa) 0 r.2.length (r.2.getD · 0)) :=
      ⟨_, rfl⟩
    rw [← hv]
    have hchunk : (va + k * PGSIZE) % PGSIZE + r.2.length ≤ PGSIZE := by omega
    have hstore : UserStored t s.vm v (va + k * PGSIZE) (r.2.getD · 0) r.2.length :=
      h.space.userTable.store (hreach _ hin) hchunk (r.2.getD · 0) (by rw [hpage]; exact hv)
    obtain ⟨hspace, hst⟩ := h.space.wrote hstore fun j hj => reach_chunk (hreach _ hin) hchunk hj
    have hbuilt := h.stored hspace hst
    rw [wp_ite]
    refine ⟨fun _ => ⟨hbuilt, .inl rfl⟩, fun hall => ?_⟩
    obtain ⟨hfile, hbytes⟩ := hfull (not_not.mp hall)
    have hfilelt := s.fs.file_lt sb ip
    have hpart : Stored t n s.vm v (va + k * PGSIZE)
        (fun j => (s₀.fs.file sb ip).getD (offset.toNat + (k * PGSIZE + j)) 0) m := by
      rw [hbytes, length_filePart] at hst
      refine hst.congr fun j hj => ?_
      rw [getD_filePart _ _ hj, h.fs, Nat.add_assoc]
    have hnext : (k * PGSIZE + PGSIZE) % 2 ^ 32 = (k + 1) * PGSIZE := by
      rw [Nat.succ_mul]
      have hpg : PGSIZE < 2 ^ 31 := by decide
      omega
    rw [hnext]
    have hwhole : (k + 1) * PGSIZE < sz → m = PGSIZE := fun hmore => by
      rw [hm, if_neg]
      rw [Nat.succ_mul] at hmore
      omega
    refine (ih (k := k + 1) hbuilt (by omega) fun hmore => ?_).call ?_
    · have := hwhole hmore
      rw [Nat.succ_mul]
      omega
    rintro r' s' ⟨hbuilt', hres⟩
    refine ⟨hbuilt', hres.imp_right ?_⟩
    rintro ⟨hr, hst'⟩
    refine ⟨hr, ?_⟩
    by_cases hmore : (k + 1) * PGSIZE < sz
    · have hm' := hwhole hmore
      rw [hm'] at hpart
      have hsum : sz - k * PGSIZE = PGSIZE + (sz - (k + 1) * PGSIZE) := by
        rw [Nat.succ_mul] at hmore ⊢
        omega
      rw [hsum]
      refine hpart.append ?_
      have haddr : va + k * PGSIZE + PGSIZE = va + (k + 1) * PGSIZE := by rw [Nat.succ_mul, Nat.add_assoc]
      rw [haddr]
      refine hst'.congr fun j _ => ?_
      rw [Nat.succ_mul, Nat.add_assoc (k * PGSIZE)]
    · -- that was the last page, and no more is stored
      have hrest : sz - (k + 1) * PGSIZE = 0 := Nat.sub_eq_zero_of_le (by omega)
      have hlast : m = sz - k * PGSIZE := by
        rw [Nat.succ_mul] at hmore
        rw [hm]
        split
        · rfl
        · omega
      rw [hrest] at hst'
      rw [← hlast]
      exact hpart.append (k := 0) (hst'.elsewhere ..)

theorem loadseg_spec (hlock : s₀.fs.Locked sb ip) (h : Built F s₀ s root n t)
    (hreach : ∀ a, a / PGSIZE < n → Reach t a) {va : Nat} {offset sz : UInt32}
    (hva : va % PGSIZE = 0) (hsz : va + sz.toNat ≤ n * PGSIZE) :
    wp E (loadseg sb root va ip offset sz)
      (Loadseg F s₀ root n t s (s₀.fs.file sb ip) va offset.toNat sz.toNat 0) s := by
  have hoff : 0 * PGSIZE < sz.toNat → offset.toNat + 0 * PGSIZE < 2 ^ 32 := by
    rw [Nat.zero_mul]
    exact fun _ => offset.toNat_lt
  have hspec := loadsegFrom_spec (E := E) hlock h hreach hva hsz (Nat.zero_add _) hoff
  rwa [Nat.zero_mul] at hspec

end Loadseg

/-! ## Program headers -/

def segEnd : List Proghdr → Nat
  | [] => 0
  | ph :: segs => max (segEnd segs) (ph.vaddr + ph.memsz)

/-- What user memory holds at `a` after the segments were loaded, the last one first. -/
def loadByte (file : List UInt8) : List Proghdr → Nat → UInt8
  | [], _ => 0
  | ph :: segs, a =>
    if ph.vaddr ≤ a ∧ a < ph.vaddr + ph.filesz then
      file.getD (ph.off % 2 ^ 32 + (a - ph.vaddr)) 0
    else
      loadByte file segs a

def Proghdr.Has (ph : Proghdr) (a : Nat) : Prop := ph.vaddr ≤ a ∧ a < ph.vaddr + ph.memsz

theorem segEnd_le {segs : List Proghdr} {n : Nat} :
    segEnd segs ≤ n ↔ ∀ ph ∈ segs, ph.vaddr + ph.memsz ≤ n := by
  induction segs with
  | nil => simp [segEnd]
  | cons ph segs ih => rw [segEnd, max_le_iff, ih, forall_mem_cons, and_comm]

theorem loadByte_eq_zero {file : List UInt8} {segs : List Proghdr} {a : Nat}
    (hfits : ∀ ph ∈ segs, ph.filesz ≤ ph.memsz) (hno : ∀ ph ∈ segs, ¬ ph.Has a) :
    loadByte file segs a = 0 := by
  induction segs with
  | nil => rfl
  | cons ph segs ih =>
    rw [forall_mem_cons] at hfits hno
    rw [loadByte, if_neg fun hin => hno.1 ⟨hin.1, by omega⟩]
    exact ih hfits.2 hno.2

structure Loaded (file : List UInt8) (v : Vm) (sz : Nat) (t : Shape Pte) (segs : List Proghdr) :
    Prop where
  flags : ∀ q, q < npages sz → (t.leaf q).flags = userFlags
  bytes : ∀ a, a / PGSIZE < npages sz → userByte t v.mem a = loadByte file segs a
  size : sz = segEnd segs
  aligned : ∀ ph ∈ segs, ph.vaddr % PGSIZE = 0
  fits : ∀ ph ∈ segs, ph.filesz ≤ ph.memsz

section Proghdrs

variable {sb : Superblock} {F : Set Nat} {s₀ s : ExecSys} {root sz : Nat} {t : Shape Pte}
  {E : ExecPanic → Prop} {ip : Fin NINODE} {segs : List Proghdr}

def addSeg (ph : Proghdr) (segs : List Proghdr) : List Proghdr :=
  if ph.type = ELF_PROG_LOAD then ph :: segs else segs

/-- What a part of the loop does: the address space has grown, and if it came to its end the segments
are loaded. -/
def LoadPost (F : Set Nat) (s₀ : ExecSys) (root : Nat) (file : List UInt8) (segs : List Proghdr)
    (r : Bool × Nat) (s' : ExecSys) : Prop :=
  ∃ t : Shape Pte, Built F s₀ s' root (npages r.2) t ∧ (r.1 = true → Loaded file s'.vm r.2 t segs)

theorem loadProghdr_spec (hlock : s₀.fs.Locked sb ip) (h : Built F s₀ s root (npages sz) t)
    (hload : Loaded (s₀.fs.file sb ip) s.vm sz t segs) {ph : Proghdr} (hvaddr : ph.vaddr < 2 ^ 64)
    (hmemsz : ph.memsz < 2 ^ 64) :
    wp E (loadProghdr sb root ip ph sz)
      (LoadPost F s₀ root (s₀.fs.file sb ip) (addSeg ph segs)) s := by
  unfold loadProghdr
  rw [wp_ite]
  refine ⟨fun hskip => ⟨t, h, fun _ => ?_⟩, fun htype => ?_⟩
  · rw [addSeg, if_neg hskip]
    exact hload
  rw [addSeg, if_pos (not_not.mp htype), wp_ite]
  refine ⟨fun _ => ⟨t, h, fun hno => by cases hno⟩, fun hfile => ?_⟩
  rw [wp_ite]
  refine ⟨fun _ => ⟨t, h, fun hno => by cases hno⟩, fun hwrap => ?_⟩
  have hend : (ph.vaddr + ph.memsz) % 2 ^ 64 = ph.vaddr + ph.memsz := by omega
  rw [hend, wp_bind]
  refine (h.uvmalloc rfl _).call ?_
  rintro sz1 s1 ⟨t₁, ⟨rfl, h1⟩ | ⟨hsz1, h1, hgrown, hkept⟩⟩
  · rw [if_pos rfl]
    exact ⟨t₁, h1, fun hno => by cases hno⟩
  rw [wp_ite]
  refine ⟨fun hzero => ?_, fun _ => ?_⟩
  · -- nothing was allocated
    have hsz : sz = 0 := by omega
    rw [hzero] at h1
    subst hsz
    exact ⟨t₁, h1, fun hno => by cases hno⟩
  rw [wp_ite]
  refine ⟨fun _ => ⟨t₁, h1, fun hno => by cases hno⟩, fun halign => ?_⟩
  have halign' := not_not.mp halign
  have hle : npages sz ≤ npages sz1 := npages_mono (by omega)
  have hflags (q : Nat) (hq : q < npages sz1) : (t₁.leaf q).flags = userFlags := by
    by_cases hlow : q < npages sz
    · rw [hgrown.same q (.inl hlow)]
      exact hload.flags q hlow
    · exact hgrown.flags q (by omega) (by omega)
  have hsmall := h1.space.size_lt
  have hfilesz : (UInt32.ofNat ph.filesz).toNat = ph.filesz :=
    UInt32.toNat_ofNat_of_lt' (show ph.filesz < 2 ^ 32 by omega)
  have hoff : (UInt32.ofNat ph.off).toNat = ph.off % 2 ^ 32 := UInt32.toNat_ofNat' ..
  have hroom : ph.vaddr + (UInt32.ofNat ph.filesz).toNat ≤ npages sz1 * PGSIZE := by
    have := le_npages sz1
    omega
  rw [wp_bind]
  refine (loadseg_spec hlock h1 (fun a ha => h1.space.reach_of_flags ha (hflags _ ha)) halign'
    hroom).call ?_
  rintro r s2 ⟨h2, hres⟩
  rw [wp_ite]
  refine ⟨fun _ => ⟨t₁, h2, fun hno => by cases hno⟩, fun hok => ⟨t₁, h2, fun _ => ?_⟩⟩
  obtain ⟨-, hst⟩ := hres.resolve_left fun hno => by omega
  refine ⟨hflags, fun a ha => ?_, ?_, ?_, ?_⟩
  · rw [hst.byte a ha, hfilesz, hoff]
    unfold loadByte
    rw [Nat.add_zero, Nat.sub_zero]
    refine if_congr Iff.rfl ?_ ?_
    · rw [Nat.zero_add]
    · by_cases hlow : a / PGSIZE < npages sz
      · rw [hkept a hlow, hload.bytes a hlow]
      · have hin : a / PGSIZE < npages sz1 := ha
        have hzero := hgrown.zero (a / PGSIZE) (by omega) (by omega)
        have habove : sz ≤ a := by
          by_contra hlt
          exact hlow (page_lt (by omega))
        rw [loadByte_eq_zero hload.fits fun ph hph hin =>
          (hin.2.trans_le (segEnd_le.1 hload.size.ge ph hph)).not_ge habove]
        show s1.vm.mem (t₁.leaf (a / PGSIZE)).pa _ = 0
        rw [hzero]
  · rw [segEnd, ← hload.size]
    exact hsz1
  · exact forall_mem_cons.mpr ⟨halign', hload.aligned⟩
  · exact forall_mem_cons.mpr ⟨by omega, hload.fits⟩

def headerAt (file : List UInt8) (off : Nat) : Proghdr := .ofBytes (filePart file off PHSIZE)

/-- The segments of `n` headers from `off` on, in their order. -/
def loadHdrs (file : List UInt8) : Nat → Nat → List Proghdr
  | 0, _ => []
  | n + 1, off => addSeg (headerAt file off) (loadHdrs file n (off + PHSIZE))

theorem reverse_addSeg (ph : Proghdr) (hdrs segs : List Proghdr) :
    (addSeg ph hdrs).reverse ++ segs = hdrs.reverse ++ addSeg ph segs := by
  unfold addSeg
  split
  · rw [reverse_cons, append_assoc, singleton_append]
  · rfl

theorem Proghdr.lt_of_bytes (bytes : List UInt8) :
    (Proghdr.ofBytes bytes).vaddr < 2 ^ 64 ∧ (Proghdr.ofBytes bytes).memsz < 2 ^ 64 :=
  ⟨Bytes.getLE_lt .., Bytes.getLE_lt ..⟩

theorem loadSegments_spec (hlock : s₀.fs.Locked sb ip) {n : Nat} {off : UInt32}
    (h : Built F s₀ s root (npages sz) t) (hload : Loaded (s₀.fs.file sb ip) s.vm sz t segs) :
    wp E (loadSegments sb root ip n off sz) (LoadPost F s₀ root (s₀.fs.file sb ip)
      ((loadHdrs (s₀.fs.file sb ip) n off.toNat).reverse ++ segs)) s := by
  induction n generalizing s sz t segs off with
  | zero => exact ⟨t, h, fun _ => hload⟩
  | succ n ih =>
    unfold loadSegments
    rw [wp_bind, wp_fs]
    have hlock' : s.fs.Locked sb ip := by rw [h.fs]; exact hlock
    have hsize : (UInt32.ofNat PHSIZE).toNat = PHSIZE := by decide
    refine (readi_locked hlock' (by decide)).mono ?_ fun _ => False.elim
    rintro r fs ⟨rfl, -, hfull⟩
    rw [hsize, h.fs] at hfull
    rw [wp_ite]
    refine ⟨fun _ => ⟨t, h, fun hno => by cases hno⟩, fun hall => ?_⟩
    obtain ⟨hin, hbytes⟩ := hfull (not_not.mp hall)
    have hlt := s₀.fs.file_lt sb ip
    have hnext : (off + UInt32.ofNat PHSIZE).toNat = off.toNat + PHSIZE := by
      rw [UInt32.toNat_add, hsize, Nat.mod_eq_of_lt (by omega)]
    rw [wp_bind, hbytes]
    obtain ⟨hvaddr, hmemsz⟩ := Proghdr.lt_of_bytes (filePart (s₀.fs.file sb ip) off.toNat PHSIZE)
    refine (loadProghdr_spec hlock h hload hvaddr hmemsz).call ?_
    rintro ⟨ok, sz1⟩ s1 ⟨t₁, h1, hload1⟩
    cases ok with
    | false => exact ⟨t₁, h1, fun hno => by cases hno⟩
    | true =>
      refine (ih h1 (hload1 rfl)).call fun r s2 hpost => ?_
      rw [hnext] at hpost
      rw [loadHdrs, reverse_addSeg]
      exact hpost

end Proghdrs

end Xv6
