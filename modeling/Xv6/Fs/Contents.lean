import Xv6.Fs.Mkfs

/-!
# Files are lists of bytes

To its users an inode is a list of bytes: `writei` replaces or extends a part of it and `readi`
returns a part of it. `FileCall.spec` is that view, and `file_refines_bytes` says that every run
of calls follows it.
-/

namespace Xv6

open Prog Vol Function List

/-! ## The abstract view -/

def Vol.content (v : Vol) (i : Nat) : List UInt8 := (List.range (v.size i)).map (v.fileByte i)

/-- `l` with the bytes from `off` on replaced by `new`; it grows where `new` goes past its end. -/
def overwrite (l : List UInt8) (off : Nat) (new : List UInt8) : List UInt8 :=
  l.take off ++ new ++ l.drop (off + new.length)

inductive FileCall where
  | writei (k : Fin NINODE) (src : Nat → Option UInt8) (off n : UInt32)
  | readi (k : Fin NINODE) (dst : Nat → Bool) (off n : UInt32)

namespace FileCall

def entry : FileCall → Fin NINODE
  | writei k _ _ _ => k
  | readi k _ _ _ => k

/-- The value returned, and the bytes stored for the caller. -/
def run (sb : Superblock) : FileCall → FsM (Int × List UInt8)
  | writei k src off n => do
    let r ← Xv6.writei sb k src off n
    return (r, [])
  | readi k dst off n => Xv6.readi sb k dst off n

/-- The addresses the call copies from or to can be used. -/
def Copies : FileCall → Prop
  | writei _ src _ n => ∀ j, j < n.toNat → src j ≠ none
  | readi _ dst _ n => ∀ j, j < n.toNat → dst j = true

def Reads : FileCall → Prop
  | writei _ _ _ _ => False
  | readi _ _ _ _ => True

/-- The call has returned `r` without writing: it is a `readi`, or a `writei` that was refused. -/
def Idle (c : FileCall) (r : Int × List UInt8) : Prop := c.Reads ∨ r.1 = -1

def needs : FileCall → Nat
  | writei _ _ off n => 2 * spans off.toNat n.toNat
  | readi _ _ _ _ => 0

def Stores (o : Nat) : FileCall → Prop
  | writei _ _ off n => off.toNat ≤ o ∧ o < off.toNat + n.toNat
  | readi _ _ _ _ => False

/-- What the call does to a file that is the list `l`. -/
def spec (l : List UInt8) : FileCall → (Int × List UInt8) × List UInt8
  | writei _ src off n =>
    if off.toNat ≤ l.length ∧ off.toNat + n.toNat < 2 ^ 32 ∧
        off.toNat + n.toNat ≤ MAXFILE * BSIZE then
      ((n.toNat, []), overwrite l off.toNat ((List.range n.toNat).map fun j => (src j).getD 0))
    else
      ((-1, []), l)
  | readi _ _ off n =>
    if l.length < off.toNat ∨ 2 ^ 32 ≤ off.toNat + n.toNat then
      ((0, []), l)
    else
      let bytes := (l.drop off.toNat).take n.toNat
      ((bytes.length, bytes), l)

/-- A run of calls, on files that are lists. `inum k` is the file that entry `k` is of. -/
def specs (inum : Fin NINODE → Nat) :
    List FileCall → (Nat → List UInt8) → List (Int × List UInt8) × (Nat → List UInt8)
  | [], files => ([], files)
  | c :: rest, files =>
    let done := c.spec (files (inum c.entry))
    let after := specs inum rest (update files (inum c.entry) done.2)
    (done.1 :: after.1, after.2)

end FileCall

/-! ## One call -/

section Call

variable {sb : Superblock} {s : Fs}

@[simp] theorem length_content (v : Vol) (i : Nat) : (v.content i).length = v.size i := by
  simp [Vol.content]

theorem content_overwrite {v v' : Vol} {i off n : Nat} {g : Nat → UInt8} (hoff : off ≤ v.size i)
    (hsize : v'.size i = max (v.size i) (off + n))
    (hdone : ∀ o, off ≤ o → o < off + n → v'.fileByte i o = g (o - off))
    (hrest : ∀ o, o < v'.size i → o < off ∨ off + n ≤ o → v'.fileByte i o = v.fileByte i o) :
    v'.content i = overwrite (v.content i) off ((List.range n).map g) := by
  apply ext_getElem
  · simp only [overwrite, length_content, length_append, length_take, length_map,
      length_range, length_drop, hsize]
    omega
  · intro o ho ho'
    have hval : (v'.content i)[o] = v'.fileByte i o := by simp [Vol.content]
    rw [hval]
    rw [length_content] at ho
    simp only [overwrite, getElem_append, length_append, length_take,
      length_content, length_map, length_range]
    have hmin : min off (v.size i) = off := by omega
    -- before the part, in it, after it
    split
    · split
      · rw [hrest o ho (by omega)]
        simp [Vol.content]
      · rw [hdone o (by omega) (by omega)]
        simp [hmin]
    · rw [hrest o ho (by omega)]
      simp only [Vol.content, getElem_drop, getElem_map, getElem_range]
      congr 1
      omega

theorem content_slice (v : Vol) (i off n : Nat) :
    ((v.content i).drop off).take n
      = (List.range (min n (v.size i - off))).map fun j => v.fileByte i (off + j) := by
  apply ext_getElem
  · simp
  · intro o ho ho'
    simp [Vol.content]

theorem readLen_le (size off n : Nat) : readLen size off n ≤ n := by
  unfold readLen
  split <;> omega

theorem spec_readi (v : Vol) (i : Nat) (k : Fin NINODE) (dst : Nat → Bool) (off n : UInt32) :
    FileCall.spec (v.content i) (.readi k dst off n)
      = ((((readLen (v.size i) off.toNat n.toNat : Nat) : Int),
          (List.range (readLen (v.size i) off.toNat n.toNat)).map
            fun j => v.fileByte i (off.toNat + j)), v.content i) := by
  unfold FileCall.spec readLen
  dsimp only
  rw [length_content, content_slice, length_map, length_range]
  split
  · rfl
  · rfl

/-- What a call has done: to its own file what `FileCall.spec` says, to the others nothing. -/
structure FileCall.Post (sb : Superblock) (s : Fs) (c : FileCall) (r : Int × List UInt8) (s' : Fs) :
    Prop where
  good : s'.Good sb
  only : Only s s' c.entry
  result : r = (c.spec ((s.vol sb).content (s.itable c.entry).inum)).1
  content : (s'.vol sb).content (s.itable c.entry).inum
    = (c.spec ((s.vol sb).content (s.itable c.entry).inum)).2
  bytes : ∀ o, ¬ c.Stores o →
    (s'.vol sb).fileByte (s.itable c.entry).inum o = (s.vol sb).fileByte (s.itable c.entry).inum o
  alloc : ∀ j, (s'.vol sb).Alloc sb j ↔ (s.vol sb).Alloc sb j
  other : ∀ j, (s.vol sb).Alloc sb j → ((s.itable c.entry).inum = j → c.Idle r) →
    (s'.vol sb).ino j = (s.vol sb).ino j ∧ (∀ q, (s'.vol sb).addr j q = (s.vol sb).addr j q) ∧
      ∀ o, (s'.vol sb).fileByte j o = (s.vol sb).fileByte j o
  nfree : (s.vol sb).nfree sb ≤ (s'.vol sb).nfree sb + c.needs

theorem FileCall.Post.same {c : FileCall} {r : Int × List UInt8} (h : s.Good sb)
    (hspec : c.spec ((s.vol sb).content (s.itable c.entry).inum)
      = (r, (s.vol sb).content (s.itable c.entry).inum)) : c.Post sb s r s where
  good := h
  only := .refl ..
  result := by rw [hspec]
  content := by rw [hspec]
  bytes _ _ := rfl
  alloc _ := Iff.rfl
  other _ _ _ := ⟨rfl, fun _ => rfl, fun _ => rfl⟩
  nfree := Nat.le_add_right ..

variable (hl : sb.Layout)

include hl

theorem writei_post {k : Fin NINODE} {src : Nat → Option UInt8} {off n : UInt32} (h : s.Good sb)
    (hlock : (s.itable k).lock = true) (hcopies : (FileCall.writei k src off n).Copies) :
    wp (fun e => e = .outOfBlocks ∧ (s.vol sb).nfree sb < (FileCall.writei k src off n).needs)
      (FileCall.run sb (.writei k src off n))
      (FileCall.Post sb s (.writei k src off n)) s := by
  obtain ⟨hr, hv⟩ := (h.table.entry k).held hlock
  have hspec := writei_spec hl (h.work hr hv) ?_ off n (.inl hcopies)
  swap
  · rw [h.volAt hr hv]
    exact h.wf.covered _ (h.alloc hr hv)
  rw [h.volAt hr hv] at hspec
  unfold FileCall.run
  rw [wp_bind]
  refine hspec.call fun r s' hpost => ?_
  rw [wp_pure]
  rcases hpost with ⟨hbad, rfl, rfl⟩ | ⟨hfits, w, rfl, hw⟩
  · refine .same h ?_
    unfold FileCall.spec
    rw [length_content]
    exact if_neg hbad
  -- the copies succeed, so everything is written
  obtain rfl : w = n.toNat := hw.short.resolve_right fun ⟨j, hj, hnone⟩ => hcopies j hj hnone
  have hino := hw.ino
  have haddr := hw.addr
  have hblk := hw.blk
  have hsize := hw.size
  have hrest := hw.rest
  rw [h.volAt hr hv] at hino haddr hblk hsize hrest
  have htype : ∀ j, ((s'.vol sb).ino j).type = ((s.vol sb).ino j).type := by
    intro j
    by_cases hj : j = (s.itable k).inum
    · obtain ⟨a, z, ha⟩ := hw.self
      rw [hj, ha, ((h.table.entry k).copy hr hv).1]
    · rw [hino j hj]
  have hspec' : FileCall.spec ((s.vol sb).content (s.itable k).inum) (.writei k src off n)
      = (((n.toNat : Int), []), (s'.vol sb).content (s.itable k).inum) := by
    unfold FileCall.spec
    rw [length_content]
    refine (if_pos hfits).trans ?_
    have hnew := content_overwrite (g := fun j => (src j).getD 0) hfits.1 hsize hw.done
      fun o _ => hrest o
    rw [hnew]
  exact {
    good := hw.good h hr hv
    only := hw.only
    result := (congrArg Prod.fst hspec').symm
    content := (congrArg Prod.snd hspec').symm
    bytes := fun o ho => hrest o (by
      have : ¬ (off.toNat ≤ o ∧ o < off.toNat + n.toNat) := ho
      omega)
    alloc := fun _ => Vol.alloc_congr htype
    other := fun j hj hread => by
      have hji : j ≠ (s.itable k).inum := fun heq => by
        rcases hread heq.symm with hread | hrefused
        · exact hread
        · cases hrefused
      refine ⟨hino j hji, fun q => haddr j q hj (.inl hji), fun o => ?_⟩
      unfold Vol.fileByte
      rw [hblk j _ hj hji]
    nfree := by
      have := hw.nfree
      rwa [h.volAt hr hv] at this }

omit hl in
theorem readi_post {k : Fin NINODE} {dst : Nat → Bool} {off n : UInt32} (h : s.Good sb)
    (hlock : (s.itable k).lock = true) (hcopies : (FileCall.readi k dst off n).Copies) :
    wp (fun _ => False) (FileCall.run sb (.readi k dst off n))
      (FileCall.Post sb s (.readi k dst off n)) s := by
  obtain ⟨hr, hv⟩ := (h.table.entry k).held hlock
  have hspec := readi_spec (h.work hr hv) (by
    rw [h.volAt hr hv]
    exact h.wf.covered _ (h.alloc hr hv)) dst off n
  rw [h.volAt hr hv] at hspec
  refine hspec.call ?_
  rintro r s' ⟨rfl, m, hm, hbytes, -, hres⟩
  obtain ⟨hlen, rfl⟩ := hres.resolve_right fun ⟨_, hj, hdst⟩ => by
    rw [hcopies m (hj.trans_le (readLen_le ..))] at hdst
    cases hdst
  refine .same h ((spec_readi (s'.vol sb) (s'.itable k).inum k dst off n).trans ?_)
  rw [← hlen, ← hbytes]
  rfl

theorem FileCall.run_spec (c : FileCall) (h : s.Good sb)
    (hlock : (s.itable c.entry).lock = true) (hcopies : c.Copies) :
    wp (fun e => e = .outOfBlocks ∧ (s.vol sb).nfree sb < c.needs) (c.run sb) (c.Post sb s) s := by
  cases c with
  | writei k src off n => exact writei_post hl h hlock hcopies
  | readi k dst off n => exact (readi_post h hlock hcopies).mono (fun _ _ h => h) fun _ => False.elim

end Call

/-! ## Runs of calls -/

section Run

variable {sb : Superblock}

/-- What a run of calls has done. `inum` and `files` are what the entries and the files were. -/
structure RunPost (sb : Superblock) (inum : Fin NINODE → Nat) (files : Nat → List UInt8) (s : Fs)
    (calls : List FileCall) (rs : List (Int × List UInt8)) (s' : Fs) : Prop where
  results : rs = (FileCall.specs inum calls files).1
  content : ∀ i, (s.vol sb).Alloc sb i →
    (s'.vol sb).content i = (FileCall.specs inum calls files).2 i
  other : ∀ i, (s.vol sb).Alloc sb i → (∀ x ∈ calls.zip rs, inum x.1.entry = i → x.1.Idle x.2) →
    (s'.vol sb).ino i = (s.vol sb).ino i ∧ (∀ q, (s'.vol sb).addr i q = (s.vol sb).addr i q) ∧
      ∀ o, (s'.vol sb).fileByte i o = (s.vol sb).fileByte i o
  bytes : ∀ i o, (s.vol sb).Alloc sb i → (∀ c ∈ calls, inum c.entry = i → ¬ c.Stores o) →
    (s'.vol sb).fileByte i o = (s.vol sb).fileByte i o
  good : s'.Good sb

theorem RunPost.nil {inum : Fin NINODE → Nat} {files : Nat → List UInt8} {s : Fs} (h : s.Good sb)
    (hfiles : ∀ i, (s.vol sb).Alloc sb i → files i = (s.vol sb).content i) :
    RunPost sb inum files s [] [] s where
  results := rfl
  content i hi := (hfiles i hi).symm
  other _ _ _ := ⟨rfl, fun _ => rfl, fun _ => rfl⟩
  bytes _ _ _ _ := rfl
  good := h

theorem RunPost.cons {inum : Fin NINODE → Nat} {files : Nat → List UInt8} {s s1 s' : Fs}
    {c : FileCall} {rest : List FileCall} {r : Int × List UInt8} {rs : List (Int × List UInt8)}
    (hinum : inum c.entry = (s.itable c.entry).inum)
    (hfile : files (inum c.entry) = (s.vol sb).content (s.itable c.entry).inum)
    (h : c.Post sb s r s1) (hrest : RunPost sb inum
      (update files (inum c.entry) (c.spec (files (inum c.entry))).2) s1 rest rs s') :
    RunPost sb inum files s (c :: rest) (r :: rs) s' where
  results := by
    unfold FileCall.specs
    rw [h.result, hrest.results, hfile]
  content i hi := hrest.content i ((h.alloc i).mpr hi)
  other i hi hcalls := by
    have hc := h.other i hi fun heq => hcalls (c, r) (mem_cons_self ..) (hinum.trans heq)
    have hr := hrest.other i ((h.alloc i).mpr hi) fun x hx => hcalls x (mem_cons_of_mem _ hx)
    exact ⟨hr.1.trans hc.1, fun q => (hr.2.1 q).trans (hc.2.1 q), fun o => (hr.2.2 o).trans (hc.2.2 o)⟩
  bytes i o hi hcalls := by
    refine (hrest.bytes i o ((h.alloc i).mpr hi) fun c' hc' =>
      hcalls c' (mem_cons_of_mem _ hc')).trans ?_
    by_cases hown : (s.itable c.entry).inum = i
    · have hstores := hcalls c (mem_cons_self ..) (hinum.trans hown)
      rw [← hown]
      exact h.bytes o hstores
    · exact (h.other i hi fun heq => absurd heq hown).2.2 o
  good := hrest.good

theorem runs_spec (hl : sb.Layout) (inum : Fin NINODE → Nat) (calls : List FileCall)
    (files : Nat → List UInt8) {s : Fs} (h : s.Good sb) (hinum : ∀ k, (s.itable k).inum = inum k)
    (hfiles : ∀ i, (s.vol sb).Alloc sb i → files i = (s.vol sb).content i)
    (hlock : ∀ c ∈ calls, (s.itable c.entry).lock = true) (hcopies : ∀ c ∈ calls, c.Copies) :
    wp (fun e => e = .outOfBlocks ∧ (s.vol sb).nfree sb < (calls.map FileCall.needs).sum)
      (calls.mapM (FileCall.run sb)) (RunPost sb inum files s calls) s := by
  induction calls generalizing s files with
  | nil =>
    rw [mapM_nil, wp_pure]
    exact .nil h hfiles
  | cons c rest ih =>
    rw [mapM_cons, wp_bind, map_cons, sum_cons]
    have hc := mem_cons_self (a := c) (l := rest)
    refine (c.run_spec hl h (hlock c hc) (hcopies c hc)).mono (fun r s1 hpost => ?_) ?_
    swap
    · rintro e ⟨rfl, hfew⟩
      exact ⟨rfl, by omega⟩
    obtain ⟨hr, hv⟩ := (h.table.entry c.entry).held (hlock c hc)
    have hfile : files (inum c.entry) = (s.vol sb).content (s.itable c.entry).inum := by
      rw [← hinum]
      exact hfiles _ (h.alloc hr hv)
    -- the entries keep their inodes and their locks
    have hentry : ∀ k, (s1.itable k).inum = (s.itable k).inum ∧
        (s1.itable k).lock = (s.itable k).lock := by
      intro k
      obtain ⟨d, hd⟩ := hpost.only
      rw [hd]
      by_cases hk : k = c.entry
      · rw [hk, update_self]
        exact ⟨rfl, rfl⟩
      · rw [update_of_ne hk]
        exact ⟨rfl, rfl⟩
    have hrest := ih (update files (inum c.entry) (c.spec (files (inum c.entry))).2)
      hpost.good (fun k => (hentry k).1.trans (hinum k)) ?_
      (fun c' hc' => (hentry _).2.trans (hlock c' (mem_cons_of_mem _ hc')))
      fun c' hc' => hcopies c' (mem_cons_of_mem _ hc')
    swap
    · intro i hi
      by_cases hown : i = inum c.entry
      · rw [hown, update_self, hfile, ← hinum, hpost.content]
      · rw [update_of_ne hown, hfiles i ((hpost.alloc i).mp hi)]
        have hother := hpost.other i ((hpost.alloc i).mp hi) fun heq =>
          absurd (heq.symm.trans (hinum _)) hown
        unfold Vol.content Vol.size
        rw [hother.1]
        exact map_congr_left fun o _ => (hother.2.2 o).symm
    rw [wp_bind]
    refine hrest.mono (fun rs s' hrs => .cons (hinum _).symm hfile hpost hrs) ?_
    rintro e ⟨rfl, hfew⟩
    have := hpost.nfree
    exact ⟨rfl, by omega⟩

/-- **Files are lists of bytes.** A run of calls on locked inodes whose copies succeed returns,
and leaves in the files, what `FileCall.specs` computes from the lists of their bytes. An inode
that is not written, or on which every `writei` was refused, keeps its size, its blocks and all that
is in them. A byte that is not stored keeps its value: a block just allocated holds zeros elsewhere.
A run can only fail for want of free blocks. -/
theorem file_refines_bytes (hl : sb.Layout) {s : Fs} (h : s.Good sb) (calls : List FileCall)
    (hlock : ∀ c ∈ calls, (s.itable c.entry).lock = true) (hcopies : ∀ c ∈ calls, c.Copies) :
    wp (fun e => e = .outOfBlocks ∧ (s.vol sb).nfree sb < (calls.map FileCall.needs).sum)
      (calls.mapM (FileCall.run sb))
      (fun rs s' =>
        rs = (FileCall.specs (fun k => (s.itable k).inum) calls (s.vol sb).content).1 ∧
        (∀ i, (s.vol sb).Alloc sb i → (s'.vol sb).content i
          = (FileCall.specs (fun k => (s.itable k).inum) calls (s.vol sb).content).2 i) ∧
        (∀ i, (s.vol sb).Alloc sb i →
          (∀ x ∈ calls.zip rs, (s.itable x.1.entry).inum = i → x.1.Idle x.2) →
          (s'.vol sb).ino i = (s.vol sb).ino i ∧
            (∀ q, (s'.vol sb).addr i q = (s.vol sb).addr i q) ∧
            ∀ o, (s'.vol sb).fileByte i o = (s.vol sb).fileByte i o) ∧
        (∀ i o, (s.vol sb).Alloc sb i →
          (∀ c ∈ calls, (s.itable c.entry).inum = i → ¬ c.Stores o) →
          (s'.vol sb).fileByte i o = (s.vol sb).fileByte i o) ∧
        s'.Good sb) s :=
  (runs_spec hl _ calls _ h (fun _ => rfl) (fun _ _ => rfl) hlock hcopies).call
    fun _ _ hpost => ⟨hpost.results, hpost.content, hpost.other, hpost.bytes, hpost.good⟩

/-- A write over the end of the only block of the root directory, then a read of it. -/
def overEnd : List FileCall :=
  [.writei Mkfs.entry0 (fun j => some (UInt8.ofNat j)) 1020 8,
    .readi Mkfs.entry0 (fun _ => true) 1016 16]

theorem overEnd_specs :
    (FileCall.specs (fun k => (Mkfs.rootHeld.itable k).inum) overEnd
      (Mkfs.rootHeld.vol Mkfs.sb).content).1
      = [(8, []), (12, [0, 0, 0, 0, 0, 1, 2, 3, 4, 5, 6, 7])] := by
  decide +kernel

theorem file_refines_bytes_overEnd : ∃ s',
    (overEnd.mapM (FileCall.run Mkfs.sb)).run Mkfs.rootHeld
      = .ok ([(8, []), (12, [0, 0, 0, 0, 0, 1, 2, 3, 4, 5, 6, 7])], s') ∧ s'.Good Mkfs.sb := by
  have hcopies : ∀ c ∈ overEnd, c.Copies := by
    intro c hc
    rcases mem_pair.mp hc with rfl | rfl
    · intro j _
      exact Option.some_ne_none _
    · intro j _
      rfl
  have hlock : ∀ c ∈ overEnd, (Mkfs.rootHeld.itable c.entry).lock = true := by
    intro c hc
    rcases mem_pair.mp hc with rfl | rfl
    · rfl
    · rfl
  have hneeds : (overEnd.map FileCall.needs).sum ≤ (Mkfs.rootHeld.vol Mkfs.sb).nfree Mkfs.sb := by
    refine le_of_le_of_eq ?_ Mkfs.vol_nfree.symm
    decide
  have hspecs := overEnd_specs
  -- from here on the calls are only known by these facts
  generalize overEnd = calls at hcopies hlock hneeds hspecs ⊢
  have h := file_refines_bytes Mkfs.layout Mkfs.rootHeld_good calls hlock hcopies
  rw [wp_iff] at h
  cases hrun : (calls.mapM (FileCall.run Mkfs.sb)).run Mkfs.rootHeld with
  | error e => exact absurd (h.2 e hrun).2 (Nat.not_lt.mpr hneeds)
  | ok r =>
    obtain ⟨hrs, -, -, -, hgood⟩ := h.1 r.1 r.2 hrun
    exact ⟨r.2, by rw [← hspecs, ← hrs], hgood⟩

end Run

end Xv6
