import Xv6.File.Append

/-!
# Shared offsets lose no update

The chunks that processes write through one `struct file` land in the file one after the other, in
the order in which they got the lock. Beside the calls and their chunks (`ChunksOk`) the invariant
has the inode and its lock (`InodeHeld`) and the file (`Landed`).

The offset has to lie within the file at the start. It may not, when the file was truncated through
another `struct file`: then `writei` refuses, and nothing is written (`filewrite_past_end`).
-/

namespace Xv6

open Machines Prog Function List

variable {P : Type} {sb : Superblock}

/-! ## The inode and its lock -/

structure InodeHeld (sb : Superblock) (s₀ s : WriteSys P) : Prop where
  good : s.fs.Good sb
  ip : s.f.ip = s₀.f.ip
  writable : s.f.writable = true
  ref : 0 < (s.fs.itable s.f.ip).ref
  inum : (s.fs.itable s.f.ip).inum = (s₀.fs.itable s₀.f.ip).inum
  alloc : (s.fs.vol sb).Alloc sb (s.fs.itable s.f.ip).inum
  held : ∀ p, (s.proc p).Holds → (s.fs.itable s.f.ip).lock = true
  sole : ∀ p q, (s.proc p).Holds → (s.proc q).Holds → p = q
  others : ∀ j, (s₀.fs.vol sb).Alloc sb j → j ≠ (s₀.fs.itable s₀.f.ip).inum →
    (s.fs.vol sb).Alloc sb j ∧ (s.fs.vol sb).content j = (s₀.fs.vol sb).content j

namespace InodeHeld

variable {s₀ s s' : WriteSys P} {p : P} [DecidableEq P]

theorem holds_update {pc : WritePc} (hpc : pc.Holds → (s.proc p).Holds)
    {q : P} (hq : (update s.proc p pc q).Holds) : (s.proc q).Holds := by
  by_cases hqp : q = p
  · subst hqp
    rw [update_self] at hq
    exact hpc hq
  · rwa [update_of_ne hqp] at hq

theorem move (h : InodeHeld sb s₀ s) {pc : WritePc} (hpc : pc.Holds → (s.proc p).Holds)
    (hproc : s'.proc = update s.proc p pc) (hfs : s'.fs = s.fs)
    (hip : s'.f.ip = s.f.ip) (hw : s'.f.writable = s.f.writable) : InodeHeld sb s₀ s' where
  good := hfs ▸ h.good
  ip := hip.trans h.ip
  writable := hw.trans h.writable
  ref := by rw [hfs, hip]; exact h.ref
  inum := by rw [hfs, hip]; exact h.inum
  alloc := by rw [hfs, hip]; exact h.alloc
  held q hq := by
    rw [hproc] at hq
    rw [hfs, hip]
    exact h.held q (holds_update hpc hq)
  sole q r hq hr := by
    rw [hproc] at hq hr
    exact h.sole q r (holds_update hpc hq) (holds_update hpc hr)
  others := hfs ▸ h.others

end InodeHeld

/-! ## The file -/

namespace WritePc

/-- Between taking the lock and the addition to `f->off`. -/
def Midway : WritePc → Prop
  | locked _ _ => True
  | wrote _ _ _ => True
  | _ => False

/-- The chunk of a process midway is the last that got the lock. `done` are the chunks written,
`passed` those that `f->off` is past. -/
def Sync (passed done order : List (Nat × List UInt8)) : WritePc → Prop
  | locked c i => passed = done ∧ order = done ++ [(c.id, c.chunk i)]
  | wrote c i _ => done = passed ++ [(c.id, c.chunk i)] ∧ order = done
  | _ => True

theorem sync_of_not_midway {pc : WritePc} (h : ¬ pc.Midway)
    (passed done order : List (Nat × List UInt8)) : pc.Sync passed done order := by
  cases pc with
  | locked | wrote => exact absurd trivial h
  | _ => trivial

theorem Midway.holds {pc : WritePc} (h : pc.Midway) : pc.Holds := by
  cases pc with
  | locked | wrote => trivial
  | _ => exact h.elim

end WritePc

structure Landed (sb : Superblock) (s₀ s : WriteSys P) (passed done : List (Nat × List UInt8)) :
    Prop where
  content : s.content sb = overwrite (s₀.content sb) s₀.f.off.toNat (chunkBytes done)
  off : s.f.off.toNat = s₀.f.off.toNat + (chunkBytes passed).length
  sync : ∀ p, (s.proc p).Sync passed done s.order
  quiet : (∀ p, ¬ (s.proc p).Midway) → passed = done ∧ done = s.order

namespace Landed

variable {s₀ s s' : WriteSys P} {passed done : List (Nat × List UInt8)} {p : P} [DecidableEq P]

theorem move (h : Landed sb s₀ s passed done) {pc : WritePc} (hpc : ¬ pc.Midway)
    (hp : ¬ (s.proc p).Midway) (hproc : s'.proc = update s.proc p pc)
    (hcontent : s'.content sb = s.content sb) (hoff : s'.f.off = s.f.off)
    (horder : s'.order = s.order) : Landed sb s₀ s' passed done where
  content := hcontent.trans h.content
  off := by rw [hoff]; exact h.off
  sync q := by
    rw [hproc, horder]
    by_cases hq : q = p
    · subst hq
      rw [update_self]
      exact WritePc.sync_of_not_midway hpc ..
    · rw [update_of_ne hq]
      exact h.sync q
  quiet hall := by
    rw [horder]
    refine h.quiet fun q => ?_
    by_cases hq : q = p
    · subst hq
      exact hp
    · have := hall q
      rwa [hproc, update_of_ne hq] at this

omit [DecidableEq P] in
theorem all (h : Landed sb s₀ s passed done) (hall : ∀ p, ¬ (s.proc p).Holds) :
    passed = done ∧ done = s.order :=
  h.quiet fun p hm => hall p hm.holds

omit [DecidableEq P] in
theorem done_cases (h : Landed sb s₀ s passed done) :
    done = s.order ∨ ∃ x, s.order = done ++ [x] := by
  by_cases hmid : ∃ p, (s.proc p).Midway
  · obtain ⟨p, hp⟩ := hmid
    have hsync := h.sync p
    cases hpc : s.proc p with
    | locked c i =>
      rw [hpc] at hsync
      exact .inr ⟨_, hsync.2⟩
    | wrote c i r =>
      rw [hpc] at hsync
      exact .inl hsync.2.symm
    | _ =>
      rw [hpc] at hp
      exact hp.elim
  · exact .inl (h.quiet (not_exists.1 hmid)).2

end Landed

structure WriteInv (sb : Superblock) (s₀ s : WriteSys P) : Prop where
  inode : InodeHeld sb s₀ s
  chunks : ChunksOk s
  landed : ∃ passed done, Landed sb s₀ s passed done
  panic : s.panic = none ∨ s.panic = some .outOfBlocks

namespace WriteInv

variable {s₀ s s' : WriteSys P} {p : P} {c : WriteCall} {i : Nat} {r : Int} {fs : Fs}

theorem fresh (h : s.Fresh sb) : WriteInv sb s s := by
  have hnot : ∀ p, ¬ (s.proc p).Holds := fun p => by rw [h.proc]; exact id
  refine ⟨⟨h.good, rfl, h.writable, h.ref, rfl, h.alloc, fun p hp => absurd hp (hnot p),
    fun p _ hp => absurd hp (hnot p), fun j hj _ => ⟨hj, rfl⟩⟩, .fresh h.proc h.order h.returned, ⟨[], [], ?_, rfl,
    fun p => ?_, fun _ => ⟨rfl, h.order.symm⟩⟩, .inl h.panic⟩
  · simp [overwrite, chunkBytes]
  · exact WritePc.sync_of_not_midway (fun hm => hnot p hm.holds) ..

variable [DecidableEq P]

theorem lock (h : WriteInv sb s₀ s) (hp : s.proc p = .enter c i)
    (hr : (ilock sb s.f.ip).run s.fs = .ok ((), fs)) :
    WriteInv sb s₀ { s.setPc p (.locked c i) with
      fs := fs, order := s.order ++ [(c.id, c.chunk i)] } := by
  obtain ⟨-, hfree, htype, rfl⟩ := (wp_iff.1 (ilock_spec (h.inode.good.table.entry _))).1 _ _ hr
  have hnone : ∀ q, ¬ (s.proc q).Holds := fun q hq => by
    rw [h.inode.held q hq] at hfree
    cases hfree
  obtain ⟨passed, done, hl⟩ := h.landed
  obtain ⟨rfl, rfl⟩ := hl.all hnone
  have honly : ∀ q, (update s.proc p (.locked c i) q).Holds → q = p := by
    intro q hq
    by_contra hqp
    rw [update_of_ne hqp] at hq
    exact hnone q hq
  refine ⟨⟨ilock_good h.inode.good h.inode.ref htype, h.inode.ip, h.inode.writable, ?_, ?_, ?_, ?_,
    fun q r hq hr => (honly q hq).trans (honly r hr).symm, h.inode.others⟩, h.chunks.lock hp rfl rfl rfl rfl,
    ⟨s.order, s.order, ?_, hl.off, fun q => ?_, fun hall => ?_⟩, h.panic⟩
  · show 0 < ((s.fs.setEntry s.f.ip _).itable s.f.ip).ref
    rw [Fs.itable_setEntry]
    exact h.inode.ref
  · show ((s.fs.setEntry s.f.ip _).itable s.f.ip).inum = _
    rw [Fs.itable_setEntry]
    exact h.inode.inum
  · show ((s.fs.setEntry s.f.ip _).vol sb).Alloc sb ((s.fs.setEntry s.f.ip _).itable s.f.ip).inum
    rw [Fs.itable_setEntry, Fs.vol_setEntry]
    exact h.inode.alloc
  · intro q _
    show ((s.fs.setEntry s.f.ip _).itable s.f.ip).lock = true
    rw [Fs.itable_setEntry]
  · refine Eq.trans ?_ hl.content
    show ((s.fs.setEntry s.f.ip _).vol sb).content ((s.fs.setEntry s.f.ip _).itable s.f.ip).inum = _
    rw [Fs.itable_setEntry, Fs.vol_setEntry]
    rfl
  · show (update s.proc p (.locked c i) q).Sync _ _ _
    by_cases hq : q = p
    · subst hq
      rw [update_self]
      exact ⟨rfl, rfl⟩
    · rw [update_of_ne hq]
      exact WritePc.sync_of_not_midway (fun hm => hnone q hm.holds) ..
  · refine absurd ?_ (hall p)
    show (update s.proc p (.locked c i) p).Midway
    rw [update_self]
    trivial

section Write

variable (hl : sb.Layout)

include hl

omit [DecidableEq P] in
/-- `writei` for a chunk: it panics for want of blocks, or writes the whole chunk at `f->off`. -/
theorem writei_chunk (h : WriteInv sb s₀ s) (hp : s.proc p = .locked c i)
    (hoff : s₀.f.off.toNat ≤ (s₀.content sb).length)
    (hfits : s.f.off.toNat + c.n1 i ≤ MAXFILE * BSIZE) :
    wp (fun e => e = .outOfBlocks)
      (writei sb s.f.ip (fun j => c.src (i + j)) s.f.off (UInt32.ofNat (c.n1 i)))
      (fun r fs => r = c.n1 i ∧ fs.Good sb ∧ Only s.fs fs s.f.ip ∧
        (∀ j, (fs.vol sb).Alloc sb j ↔ (s.fs.vol sb).Alloc sb j) ∧
        (∀ j, (s.fs.vol sb).Alloc sb j → j ≠ (s.fs.itable s.f.ip).inum →
          (fs.vol sb).content j = (s.fs.vol sb).content j) ∧
        (fs.vol sb).content (s.fs.itable s.f.ip).inum
          = overwrite (s.content sb) s.f.off.toNat (c.chunk i)) s.fs := by
  obtain ⟨passed, done, hland⟩ := h.landed
  have hi : i < c.n.toNat := h.chunks.ok_at hp
  -- the offset lies within the file
  have hwithin : s.f.off.toNat ≤ (s.content sb).length := by
    rw [hland.off, hland.content, (show passed = done from (hp ▸ hland.sync p).1)]
    exact length_overwrite hoff _
  refine (writei_fits hl h.inode.good (h.inode.held p (by rw [hp]; trivial)) (fun j hj => ?_)
    hwithin hfits).mono (fun _ _ hpost => hpost) fun e he => he.1
  have := WriteCall.add_n1_le hi.le
  exact h.chunks.mapped (c := c) (by rw [hp]; rfl) _ (by omega)

theorem write (h : WriteInv sb s₀ s) (hp : s.proc p = .locked c i)
    (hoff : s₀.f.off.toNat ≤ (s₀.content sb).length)
    (hfits : s.f.off.toNat + c.n1 i ≤ MAXFILE * BSIZE)
    (hr : (writei sb s.f.ip (fun j => c.src (i + j)) s.f.off (UInt32.ofNat (c.n1 i))).run s.fs
      = .ok (r, fs)) : WriteInv sb s₀ { s.setPc p (.wrote c i r) with fs := fs } := by
  obtain ⟨rfl, hgood, honly, halloc, hother, hcont⟩ :=
    (wp_iff.1 (h.writei_chunk hl hp hoff hfits)).1 _ _ hr
  obtain ⟨passed, done, hland⟩ := h.landed
  have hsync := hland.sync p
  rw [hp] at hsync
  obtain ⟨rfl, horder⟩ := hsync
  have hself := honly.self
  have hpc : ∀ q, (update s.proc p (.wrote c i (c.n1 i)) q).Holds → (s.proc q).Holds :=
    fun q => InodeHeld.holds_update fun _ => by rw [hp]; trivial
  have hholds : (s.proc p).Holds := by rw [hp]; trivial
  refine ⟨⟨hgood, h.inode.ip, h.inode.writable, ?_, ?_, ?_, fun q _ => ?_,
    fun q q' hq hq' => h.inode.sole q q' (hpc q hq) (hpc q' hq'), fun j hj hne => ?_⟩,
    h.chunks.move rfl (by rw [hp]; rfl) (by rw [hp]; rfl) ⟨h.chunks.ok_at hp, rfl⟩ rfl rfl rfl,
    ⟨passed, s.order, ?_, hland.off, fun q => ?_, fun hall => ?_⟩, h.panic⟩
  · show 0 < (fs.itable s.f.ip).ref
    rw [hself]
    exact h.inode.ref
  · show (fs.itable s.f.ip).inum = _
    rw [hself]
    exact h.inode.inum
  · show (fs.vol sb).Alloc sb (fs.itable s.f.ip).inum
    rw [hself]
    exact (halloc _).2 h.inode.alloc
  · show (fs.itable s.f.ip).lock = true
    rw [hself]
    exact h.inode.held p hholds
  · obtain ⟨hj, heq⟩ := h.inode.others j hj hne
    exact ⟨(halloc j).2 hj, (hother j hj (h.inode.inum ▸ hne)).trans heq⟩
  · show (fs.vol sb).content (fs.itable s.f.ip).inum = _
    rw [honly.inum, hcont, hland.content, hland.off, overwrite_overwrite hoff, horder,
      chunkBytes_snoc]
  · show (update s.proc p (.wrote c i (c.n1 i)) q).Sync _ _ _
    by_cases hq : q = p
    · subst hq
      rw [update_self]
      exact ⟨horder, rfl⟩
    · rw [update_of_ne hq]
      exact WritePc.sync_of_not_midway (fun hm => hq (h.inode.sole q p hm.holds hholds)) ..
  · refine absurd ?_ (hall p)
    show (update s.proc p (.wrote c i (c.n1 i)) p).Midway
    rw [update_self]
    trivial

end Write

theorem move (h : WriteInv sb s₀ s) (hp : s.proc p = .wrote c i r)
    (hsize : (s.content sb).length ≤ MAXFILE * BSIZE)
    (hoff : s₀.f.off.toNat ≤ (s₀.content sb).length) :
    WriteInv sb s₀ { s.setPc p (.moved c i r) with
      f := { s.f with off := if 0 < r then s.f.off + UInt32.ofNat r.toNat else s.f.off } } := by
  obtain ⟨passed, done, hland⟩ := h.landed
  have hsync := hland.sync p
  rw [hp] at hsync
  obtain ⟨rfl, horder⟩ := hsync
  obtain ⟨hi, rfl⟩ := h.chunks.ok_at hp
  have hpos := WriteCall.n1_pos hi
  have hholds : (s.proc p).Holds := by rw [hp]; trivial
  -- the addition does not wrap: the chunk is in the file
  have hlen : (chunkBytes (passed ++ [(c.id, c.chunk i)])).length
      = (chunkBytes passed).length + c.n1 i := by
    rw [chunkBytes_snoc, length_append, WriteCall.length_chunk]
  have hadd : (s.f.off + UInt32.ofNat (c.n1 i)).toNat = s.f.off.toNat + c.n1 i := by
    have hend := length_overwrite hoff (chunkBytes (passed ++ [(c.id, c.chunk i)]))
    rw [← hland.content, hlen] at hend
    rw [show MAXFILE * BSIZE = 274432 from rfl] at hsize
    have := hland.off
    rw [UInt32.toNat_add, UInt32.toNat_ofNat']
    omega
  refine ⟨h.inode.move (fun _ => hholds) rfl rfl rfl rfl,
    h.chunks.move rfl (by rw [hp]; rfl) (by rw [hp]; rfl) ⟨hi, rfl⟩ rfl rfl rfl,
    ⟨s.order, s.order, ?_, ?_, fun q => ?_, fun _ => ⟨rfl, rfl⟩⟩, h.panic⟩
  · rw [horder]
    exact hland.content
  · show (if (0 : Int) < (c.n1 i : Int) then s.f.off + UInt32.ofNat (c.n1 i : Int).toNat
      else s.f.off).toNat = _
    rw [if_pos (by omega), Int.toNat_natCast, hadd, hland.off, horder, hlen, Nat.add_assoc]
  · show (update s.proc p (.moved c i (c.n1 i)) q).Sync _ _ _
    by_cases hq : q = p
    · subst hq
      rw [update_self]
      trivial
    · rw [update_of_ne hq]
      exact WritePc.sync_of_not_midway (fun hm => hq (h.inode.sole q p hm.holds hholds)) ..

theorem unlock (h : WriteInv sb s₀ s) (hp : s.proc p = .moved c i r)
    (hr : (iunlock s.f.ip).run s.fs = .ok ((), fs)) :
    WriteInv sb s₀ { s.setPc p (.unlocked c i r) with fs := fs } := by
  obtain ⟨-, -, rfl⟩ := (wp_iff.1 iunlock_spec).1 _ _ hr
  obtain ⟨passed, done, hland⟩ := h.landed
  have hholds : (s.proc p).Holds := by rw [hp]; trivial
  have hok : (WritePc.moved c i r).Ok := h.chunks.ok_at hp
  have hnone : ∀ q, ¬ (update s.proc p (.unlocked c i r) q).Holds := by
    intro q hq
    by_cases hqp : q = p
    · subst hqp
      rw [update_self] at hq
      exact hq
    · rw [update_of_ne hqp] at hq
      exact hqp (h.inode.sole q p hq hholds)
  refine ⟨⟨iunlock_good h.inode.good h.inode.ref, h.inode.ip, h.inode.writable, ?_, ?_, ?_,
    fun q hq => absurd hq (hnone q), fun q _ hq => absurd hq (hnone q), h.inode.others⟩,
    h.chunks.move rfl (by rw [hp]; rfl) (by rw [hp]; rfl) hok rfl rfl rfl,
    ⟨passed, done, hland.move id (by rw [hp]; exact id) rfl ?_ rfl rfl⟩, h.panic⟩
  · show 0 < ((s.fs.setEntry s.f.ip _).itable s.f.ip).ref
    rw [Fs.itable_setEntry]
    exact h.inode.ref
  · show ((s.fs.setEntry s.f.ip _).itable s.f.ip).inum = _
    rw [Fs.itable_setEntry]
    exact h.inode.inum
  · show ((s.fs.setEntry s.f.ip _).vol sb).Alloc sb ((s.fs.setEntry s.f.ip _).itable s.f.ip).inum
    rw [Fs.itable_setEntry, Fs.vol_setEntry]
    exact h.inode.alloc
  · show ((s.fs.setEntry s.f.ip _).vol sb).content ((s.fs.setEntry s.f.ip _).itable s.f.ip).inum = _
    rw [Fs.itable_setEntry, Fs.vol_setEntry]
    rfl

theorem outside (h : WriteInv sb s₀ s) {pc : WritePc} (hpc : ¬ pc.Holds)
    (hp : ¬ (s.proc p).Holds) (hchunks : ChunksOk s')
    (hproc : s'.proc = update s.proc p pc) (hfs : s'.fs = s.fs) (hf : s'.f = s.f)
    (horder : s'.order = s.order) (hpanic : s'.panic = s.panic) : WriteInv sb s₀ s' := by
  obtain ⟨passed, done, hland⟩ := h.landed
  refine ⟨h.inode.move (fun hh => absurd hh hpc) hproc hfs (by rw [hf]) (by rw [hf]), hchunks,
    ⟨passed, done, hland.move (fun hm => hpc hm.holds) (fun hm => hp hm.holds) hproc ?_
      (by rw [hf]) horder⟩, hpanic ▸ h.panic⟩
  unfold WriteSys.content
  rw [hfs, hf]

omit [DecidableEq P] in
theorem halt (h : WriteInv sb s₀ s) : WriteInv sb s₀ { s with panic := some .outOfBlocks } where
  inode := ⟨h.inode.good, h.inode.ip, h.inode.writable, h.inode.ref, h.inode.inum, h.inode.alloc,
    h.inode.held, h.inode.sole, h.inode.others⟩
  chunks := h.chunks.congr (fun _ => rfl) (fun _ => rfl) h.chunks.ok rfl rfl rfl
  landed := by
    obtain ⟨passed, done, hland⟩ := h.landed
    exact ⟨passed, done, hland.content, hland.off, hland.sync, hland.quiet⟩
  panic := .inr rfl

theorem step (hl : sb.Layout) (h : WriteInv sb s₀ s)
    (hoff : s₀.f.off.toNat ≤ (s₀.content sb).length) {l : WriteLabel P} (hfits : s.Fits l)
    (hs : WriteStep sb s l s') : WriteInv sb s₀ s' := by
  cases hs with
  | @call p src n hok hp hn hw =>
    exact h.outside id (by rw [hp]; exact id) (h.chunks.call hp hfits) rfl rfl rfl rfl rfl
  | callReadOnly hok hp hn hw =>
    rw [h.inode.writable] at hw
    cases hw
  | @enter p c i hok hp hi =>
    refine h.outside id (by rw [hp]; exact id) (h.chunks.move rfl (by rw [hp]; rfl) (by rw [hp]; rfl)
      ?_ rfl rfl rfl) rfl rfl rfl rfl rfl
    show i < c.n.toNat
    omega
  | done hok hp hi =>
    exact h.outside id (by rw [hp]; exact id) (h.chunks.leave hp hi) rfl rfl rfl rfl rfl
  | lock hok hp hr => exact h.lock hp hr
  | lockPanic hok hp hr he =>
    rcases (wp_iff.1 (ilock_spec (h.inode.good.table.entry _))).2 _ hr with ⟨-, hzero⟩ | ⟨hsleep, -⟩ | ⟨-, htype⟩
    · exact absurd hzero h.inode.ref.ne'
    · exact absurd hsleep he
    · exact absurd htype h.inode.alloc.2
  | write hok hp hr => exact h.write hl hp hoff (hfits _ _ hp) hr
  | writePanic hok hp hr =>
    obtain rfl := (wp_iff.1 (h.writei_chunk hl hp hoff (hfits _ _ hp))).2 _ hr
    exact h.halt
  | move hok hp =>
    refine h.move hp ?_ hoff
    obtain ⟨hmax, -⟩ := h.inode.good.wf.covered _ h.inode.alloc
    rw [WriteSys.content, length_content]
    exact hmax
  | unlock hok hp hr => exact h.unlock hp hr
  | @unlockPanic p c i r e hok hp hr =>
    obtain ⟨-, hfree | hzero⟩ := (wp_iff.1 iunlock_spec).2 _ hr
    · rw [h.inode.held p (by rw [hp]; trivial)] at hfree
      cases hfree
    · exact absurd hzero h.inode.ref.ne'
  | @next p c i r hok hp hr =>
    exact h.outside id (by rw [hp]; exact id) (h.chunks.move rfl (by rw [hp]; rfl) (by rw [hp]; rfl)
      (WriteCall.add_n1_le (h.chunks.ok_at hp).1.le) rfl rfl rfl) rfl rfl rfl rfl rfl
  | fail hok hp hr => exact absurd (h.chunks.ok_at hp).2 hr

end WriteInv

/-! ## Work under the lock of an inode -/

section Unlocked

variable {α : Type} {s : Fs} {k : Fin NINODE}

structure Unlocked (sb : Superblock) (s : Fs) (k : Fin NINODE) : Prop where
  good : s.Good sb
  ref : 0 < (s.itable k).ref
  lock : (s.itable k).lock = false
  alloc : (s.vol sb).Alloc sb (s.itable k).inum

def withLock (sb : Superblock) (k : Fin NINODE) (body : FsM α) : FsM α := do
  ilock sb k
  let a ← body
  iunlock k
  return a

theorem Unlocked.ilock (h : Unlocked sb s k) {E : FsPanic → Prop} :
    wp E (ilock sb k) (fun _ s1 => s1.Good sb ∧ (s1.itable k).lock = true ∧ s1.vol sb = s.vol sb ∧
      (s1.itable k).inum = (s.itable k).inum) s := by
  refine (ilock_spec (h.good.table.entry _)).mono (fun _ s1 hpost => ?_) fun e he => ?_
  · obtain ⟨-, -, htype, rfl⟩ := hpost
    refine ⟨ilock_good h.good h.ref htype, ?_, Fs.vol_setEntry _, ?_⟩
    · rw [Fs.itable_setEntry]
    · rw [Fs.itable_setEntry]
  · rcases he with ⟨-, hzero⟩ | ⟨-, hlock⟩ | ⟨-, htype⟩
    · exact absurd hzero h.ref.ne'
    · exact absurd (h.lock.symm.trans hlock) nofun
    · exact absurd htype h.alloc.2

theorem withLock_spec (h : Unlocked sb s k) {body : FsM α} {E : FsPanic → Prop} {R : α → Vol → Prop}
    (hbody : ∀ s1 : Fs, s1.Good sb → (s1.itable k).lock = true → s1.vol sb = s.vol sb →
      (s1.itable k).inum = (s.itable k).inum →
      wp E body (fun a s2 => s2.Good sb ∧ (s2.itable k).lock = true ∧
        (s2.vol sb).Alloc sb (s2.itable k).inum ∧ R a (s2.vol sb)) s1) :
    wp E (withLock sb k body) (fun a s' => Unlocked sb s' k ∧ R a (s'.vol sb)) s := by
  unfold withLock
  rw [wp_bind]
  refine h.ilock.call fun _ s1 ⟨hgood1, hlock1, hvol1, hinum1⟩ => ?_
  rw [wp_bind]
  refine (hbody _ hgood1 hlock1 hvol1 hinum1).call fun a s2 ⟨hgood, hlock, halloc, hR⟩ => ?_
  have href := ((hgood.table.entry k).held hlock).1
  rw [wp_bind]
  refine iunlock_spec.mono (fun _ s3 hun => ?_) fun e he => ?_
  · obtain ⟨-, -, rfl⟩ := hun
    rw [wp_pure]
    refine ⟨⟨iunlock_good hgood href, ?_, ?_, ?_⟩, hR⟩
    · rwa [Fs.itable_setEntry]
    · rw [Fs.itable_setEntry]
    · rwa [Fs.itable_setEntry, Fs.vol_setEntry]
  · obtain ⟨-, hfree | hzero⟩ := he
    · exact absurd (hlock.symm.trans hfree) nofun
    · exact absurd hzero href.ne'

theorem withLock_ok {body : FsM α} {a : α} {s' : Fs}
    (h : (withLock sb k body).run s = .ok (a, s')) :
    ∃ s1 s2, (ilock sb k).run s = .ok ((), s1) ∧ body.run s1 = .ok (a, s2) ∧
      (iunlock k).run s2 = .ok ((), s') := by
  unfold withLock at h
  simp only [StateT.run_bind, StateT.run_pure, bind_ok] at h
  obtain ⟨⟨_, s1⟩, h1, ⟨b, s2⟩, h2, ⟨_, s3⟩, h3, heq⟩ := h
  cases heq
  exact ⟨s1, s2, h1, h2, h3⟩

end Unlocked

/-! ## Runs -/

section Run

variable [DecidableEq P] {s₀ s : WriteSys P}

theorem writeInv_of_reachable (hl : sb.Layout) (h0 : s₀.Fresh sb)
    (hoff : s₀.f.off.toNat ≤ (s₀.content sb).length)
    (h : Reachable ((writeMachine sb s₀).restrict WriteSys.Fits) s) : WriteInv sb s₀ s := by
  refine Reachable.invariant (I := WriteInv sb s₀) (fun s hs => ?_) (fun s l s' _ hinv hs => ?_) h
  · obtain rfl : s = s₀ := hs
    exact .fresh h0
  · exact hinv.step hl hoff hs.1 hs.2

theorem length_chunkBytes {ids : List Nat} (hnodup : ids.Nodup) (l : List (Nat × List UInt8))
    (h : ∀ x ∈ l, x.1 ∈ ids) :
    (chunkBytes l).length = (ids.map fun i => (ownBytes l i).length).sum := by
  induction l with
  | nil => simp [chunkBytes, ownBytes]
  | cons x l ih =>
    have hown : ∀ i, (ownBytes (x :: l) i).length
        = (if x.1 = i then x.2.length else 0) + (ownBytes l i).length := by
      intro i
      unfold ownBytes chunkBytes
      rw [filter_cons]
      split
      case isTrue heq => simp [of_decide_eq_true heq]
      case isFalse hne => simp [of_decide_eq_false (Bool.eq_false_of_not_eq_true hne)]
    have hx : (ids.map fun i => if x.1 = i then x.2.length else 0).sum = x.2.length := by
      rw [sum_map_eq_nsmul_single x.1 _ fun i hi _ => if_neg hi.symm, if_pos rfl,
        count_eq_one_of_mem hnodup (h x mem_cons_self), one_smul]
    simp only [hown, sum_map_add, hx]
    rw [← ih fun y hy => h y (mem_cons_of_mem _ hy), chunkBytes, flatMap_cons,
      length_append]
    rfl

def writeWhole (sb : Superblock) (f : InodeFile) (c : WriteCall) : FsM Int :=
  withLock sb f.ip (writei sb f.ip c.src f.off (UInt32.ofNat c.n.toNat))

omit [DecidableEq P] in
theorem writeWhole_spec (hl : sb.Layout) (h : s.Fresh sb) {c : WriteCall}
    (hoff : s.f.off.toNat ≤ (s.content sb).length) (hmap : ∀ j, j < c.n.toNat → c.src j ≠ none)
    (hfits : s.f.off.toNat + c.n.toNat ≤ MAXFILE * BSIZE) :
    wp (fun e => e = .outOfBlocks ∧
        (s.fs.vol sb).nfree sb < 2 * spans s.f.off.toNat c.n.toNat)
      (writeWhole sb s.f c)
      (fun r fs => r = c.n.toNat ∧
        (fs.vol sb).content (s.fs.itable s.f.ip).inum
          = overwrite (s.content sb) s.f.off.toNat (c.bytes 0 c.n.toNat) ∧
        ∀ j, (s.fs.vol sb).Alloc sb j → j ≠ (s.fs.itable s.f.ip).inum →
          (fs.vol sb).content j = (s.fs.vol sb).content j) s.fs := by
  have hopen : Unlocked sb s.fs s.f.ip := ⟨h.good, h.ref, h.lock, h.alloc⟩
  refine (withLock_spec hopen (R := fun (r : Int) v => r = c.n.toNat ∧
    v.content (s.fs.itable s.f.ip).inum
      = overwrite (s.content sb) s.f.off.toNat (c.bytes 0 c.n.toNat) ∧
    ∀ j, (s.fs.vol sb).Alloc sb j → j ≠ (s.fs.itable s.f.ip).inum →
      v.content j = (s.fs.vol sb).content j) fun s1 hgood hlock hvol hinum => ?_).call
    fun r s' hpost => hpost.2
  have hcontent : (s1.vol sb).content (s1.itable s.f.ip).inum = s.content sb := by
    rw [hvol, hinum]
    rfl
  refine (writei_fits hl hgood hlock hmap (hcontent ▸ hoff) hfits).mono (fun r s2 hpost => ?_)
    fun e he => hvol ▸ he
  obtain ⟨rfl, hgood', honly, halloc, hother, hnew⟩ := hpost
  have hself := honly.self
  refine ⟨hgood', by rw [hself]; exact hlock, ?_, rfl, ?_, fun j hj hne => ?_⟩
  · rw [honly.inum, halloc, hvol, hinum]
    exact h.alloc
  · rw [← hinum, hnew, hcontent]
    simp [WriteCall.bytes]
  · rw [hother j (hvol ▸ hj) (hinum ▸ hne), hvol]

/-- **Shared offsets lose no update.** From a file open for writing at an offset within it, in every
run of `filewrite` calls through the one `struct file`, with mapped buffers and within the largest
size of a file:

* the file is the old one with the chunks written at the old offset, one after the other, in the
  order in which they got the lock (all of them, or all but the one whose process has the lock), and
  while the lock is free `f->off` is past all of them;
* no chunk is longer than `maxChunk`, and the chunks of a call are, in order, the bytes of its
  buffer: up to where it has come, and all of them once it has returned;
* when no call is in progress, `f->off` has moved by the number of bytes of all calls;
* a call that was alone has left in the files, and returned, what one `writei` of its buffer leaves
  and returns;
* the only panic is for want of blocks. -/
theorem filewrite_loses_nothing (hl : sb.Layout) (h₀ : s₀.Fresh sb)
    (hoff : s₀.f.off.toNat ≤ (s₀.content sb).length)
    (h : Reachable ((writeMachine sb s₀).restrict WriteSys.Fits) s) :
    (∃ done, (done = s.order ∨ ∃ x, s.order = done ++ [x]) ∧
      s.content sb = overwrite (s₀.content sb) s₀.f.off.toNat (chunkBytes done)) ∧
    ((s.fs.itable s.f.ip).lock = false →
      s.content sb = overwrite (s₀.content sb) s₀.f.off.toNat (chunkBytes s.order) ∧
        s.f.off.toNat = s₀.f.off.toNat + (chunkBytes s.order).length) ∧
    (∀ x ∈ s.order, 0 < x.2.length ∧ x.2.length ≤ maxChunk) ∧
    (∀ p c, (s.proc p).call = some c →
      ownBytes s.order c.id = c.bytes 0 (s.proc p).progress) ∧
    (∀ c r, (c, r) ∈ s.returned →
      r = (if 0 ≤ c.n then c.n else -1) ∧ ownBytes s.order c.id = c.bytes 0 c.n.toNat) ∧
    ((∀ p, s.proc p = .idle) →
      s.f.off.toNat = s₀.f.off.toNat + (s.returned.map (·.1.n.toNat)).sum) ∧
    (∀ c r, (∀ p, s.proc p = .idle) → s.returned = [(c, r)] → 0 ≤ c.n →
      wp (fun e => e = .outOfBlocks ∧
          (s₀.fs.vol sb).nfree sb < 2 * spans s₀.f.off.toNat c.n.toNat)
        (writeWhole sb s₀.f c)
        (fun r' fs => r' = r ∧ ∀ j, (s₀.fs.vol sb).Alloc sb j →
          (fs.vol sb).content j = (s.fs.vol sb).content j) s₀.fs) ∧
    (s.panic = none ∨ s.panic = some .outOfBlocks) := by
  have hinv := writeInv_of_reachable hl h₀ hoff h
  obtain ⟨passed, done, hland⟩ := hinv.landed
  have hfree : (∀ p, ¬ (s.proc p).Holds) →
      s.content sb = overwrite (s₀.content sb) s₀.f.off.toNat (chunkBytes s.order) ∧
        s.f.off.toNat = s₀.f.off.toNat + (chunkBytes s.order).length := by
    intro hnone
    obtain ⟨rfl, rfl⟩ := hland.all hnone
    exact ⟨hland.content, hland.off⟩
  have hidle : (∀ p, s.proc p = .idle) → ∀ p, ¬ (s.proc p).Holds := by
    intro hall p hp
    rw [hall p] at hp
    exact hp
  have hids : (∀ p, s.proc p = .idle) → ∀ x ∈ s.order, x.1 ∈ s.returned.map (·.1.id) := by
    intro hall x hx
    rcases (hinv.chunks.known x hx).2 with ⟨p, c, hc, -⟩ | ⟨c, r, hc, heq⟩
    · rw [hall p] at hc
      cases hc
    · exact mem_map.2 ⟨(c, r), hc, heq⟩
  refine ⟨⟨done, hland.done_cases, hland.content⟩, fun hlock => ?_, hinv.chunks.sizes,
    fun p c hc => hinv.chunks.own hc,
    fun c r hc => ⟨(hinv.chunks.returned c r hc).1, (hinv.chunks.returned c r hc).2.1⟩,
    fun hall => ?_, fun c r hall hret hn => ?_, hinv.panic⟩
  · refine hfree fun p hp => ?_
    rw [hinv.inode.held p hp] at hlock
    cases hlock
  · rw [(hfree (hidle hall)).2, length_chunkBytes hinv.chunks.once s.order (hids hall),
      map_map]
    refine congrArg (_ + List.sum ·) (map_congr_left fun x hx => ?_)
    show (ownBytes s.order x.1.id).length = _
    rw [(hinv.chunks.returned x.1 x.2 hx).2.1, WriteCall.length_bytes]
  · have hx : (c, r) ∈ s.returned := by rw [hret]; exact mem_cons_self
    obtain ⟨hr, hown, -, -, hmap⟩ := hinv.chunks.returned c r hx
    -- all chunks are chunks of this call
    have hbytes : chunkBytes s.order = c.bytes 0 c.n.toNat := by
      rw [← hown, ownBytes, filter_eq_self.2 fun x hx => ?_]
      have := hids hall x hx
      rw [hret] at this
      simpa using this
    have hcontent := (hfree (hidle hall)).1
    rw [hbytes] at hcontent
    have hfits : s₀.f.off.toNat + c.n.toNat ≤ MAXFILE * BSIZE := by
      have hend := length_overwrite hoff (c.bytes 0 c.n.toNat)
      rw [← hcontent, WriteCall.length_bytes, WriteSys.content, length_content] at hend
      exact hend.trans (hinv.inode.good.wf.covered _ hinv.inode.alloc).1
    refine (writeWhole_spec hl h₀ hoff hmap hfits).call ?_
    rintro r' fs ⟨hr', hnew, hother⟩
    refine ⟨?_, fun j hj => ?_⟩
    · rw [hr', hr, if_pos hn]
      exact Int.toNat_of_nonneg hn
    · by_cases hj' : j = (s₀.fs.itable s₀.f.ip).inum
      · rw [hj', hnew, ← hcontent, ← hinv.inode.inum]
        rfl
      · rw [hother j hj hj', (hinv.inode.others j hj hj').2]

/-! ### Runs of one call -/

theorem reachable_oneChunk {p : P} {src : Nat → Option UInt8} {n : Nat} {r : Int} {fs1 fs2 fs3 : Fs}
    (h0 : s₀.Fresh sb) (hn : 0 < n) (hmax : n ≤ maxChunk) (hmap : ∀ j, j < n → src j ≠ none)
    (hfits : s₀.f.off.toNat + n ≤ MAXFILE * BSIZE)
    (hlock : (ilock sb s₀.f.ip).run s₀.fs = .ok ((), fs1))
    (hwrite : (writei sb s₀.f.ip src s₀.f.off (UInt32.ofNat n)).run fs1 = .ok (r, fs2))
    (hunlock : (iunlock s₀.f.ip).run fs2 = .ok ((), fs3)) :
    ∃ s, Reachable ((writeMachine sb s₀).restrict WriteSys.Fits) s ∧ (∀ q, s.proc q = .idle) ∧
      s.fs = fs3 ∧ s.f.ip = s₀.f.ip ∧
      s.f.off = (if 0 < r then s₀.f.off + UInt32.ofNat r.toNat else s₀.f.off) ∧
      s.order = [(s₀.count, (List.range n).map fun j => (src j).getD 0)] ∧
      s.returned = [((⟨src, n, s₀.count⟩ : WriteCall), if r = n then (n : Int) else -1)] := by
  have hn1 : WriteCall.n1 ⟨src, n, s₀.count⟩ 0 = n := by
    show min ((n : Int).toNat - 0) maxChunk = n
    rw [Int.toNat_natCast, Nat.sub_zero, min_eq_left hmax]
  have hsmall : (n : Int) < 2 ^ 31 := by
    rw [show maxChunk = 3072 from rfl] at hmax
    omega
  have hread : (fun j => src (0 + j)) = src := funext fun j => by rw [Nat.zero_add]
  have hwrite' : (writei sb s₀.f.ip (fun j => src (0 + j)) s₀.f.off
      (UInt32.ofNat (WriteCall.n1 ⟨src, n, s₀.count⟩ 0))).run fs1 = .ok (r, fs2) := by
    rw [hn1, hread, hwrite]
  have hchunk : WriteCall.chunk ⟨src, n, s₀.count⟩ 0 = (List.range n).map fun j => (src j).getD 0 := by
    rw [WriteCall.chunk, hn1]
    simp [WriteCall.bytes]
  have hfits' : ∀ {s : WriteSys P} {c : WriteCall} {i : Nat}, s.proc p = .locked c i →
      s.f.off = s₀.f.off → c.n1 i = n → s.Fits (.run p) := by
    intro s c i hp hoff hn c' i' hp'
    rw [hp] at hp'
    cases hp'
    rw [hoff, hn]
    exact hfits
  have hrun : ∀ {s : WriteSys P}, (∀ c i, s.proc p ≠ .locked c i) → s.Fits (.run p) :=
    fun hp c i hc => absurd hc (hp c i)
  have h1 := (Reachable.start (m := (writeMachine sb s₀).restrict WriteSys.Fits) rfl).go
    (.call p src n) hmap (.call h0.panic (h0.proc p) ⟨by omega, hsmall⟩ h0.writable)
  have h2 := h1.go (.run p) (hrun fun _ _ => by simp [WriteSys.setPc])
    (.enter h0.panic (update_self ..) (by simpa using hn))
  have h3 := h2.go (.run p) (hrun fun _ _ => by simp [WriteSys.setPc])
    (.lock h0.panic (update_self ..) hlock)
  have h4 := h3.go (.run p) (hfits' (update_self ..) rfl hn1)
    (.write h0.panic (update_self ..) hwrite')
  have h5 := h4.go (.run p) (hrun fun _ _ => by simp [WriteSys.setPc])
    (.move h0.panic (update_self ..))
  have h6 := h5.go (.run p) (hrun fun _ _ => by simp [WriteSys.setPc])
    (.unlock h0.panic (update_self ..) hunlock)
  have horder : s₀.order ++ [(s₀.count, WriteCall.chunk ⟨src, n, s₀.count⟩ 0)]
      = [(s₀.count, (List.range n).map fun j => (src j).getD 0)] := by
    rw [h0.order, hchunk]
    rfl
  by_cases hr : r = n
  · have h7 := h6.go (.run p) (hrun fun _ _ => by simp [WriteSys.setPc])
      (.next h0.panic (update_self ..) (by rw [hr, hn1]))
    have h8 := h7.go (.run p) (hrun fun _ _ => by simp [WriteSys.setPc])
      (.done h0.panic (update_self ..) (by rw [hn1]; simp))
    refine ⟨_, h8, fun q => ?_, rfl, rfl, rfl, horder, ?_⟩
    · by_cases hq : q = p
      · simp [WriteSys.leave, WriteSys.setPc, hq]
      · simp [WriteSys.leave, WriteSys.setPc, hq, h0.proc]
    · show (_, _) :: s₀.returned = _
      rw [h0.returned, if_pos hr, hn1]
      simp [WriteCall.ret]
  · have h7 := h6.go (.run p) (hrun fun _ _ => by simp [WriteSys.setPc])
      (.fail h0.panic (update_self ..) (by rw [hn1]; exact hr))
    refine ⟨_, h7, fun q => ?_, rfl, rfl, rfl, horder, ?_⟩
    · by_cases hq : q = p
      · simp [WriteSys.leave, WriteSys.setPc, hq]
      · simp [WriteSys.leave, WriteSys.setPc, hq, h0.proc]
    · have hne : ¬ ((0 : Nat) : Int) = (n : Int) := by omega
      show (_, WriteCall.ret _ 0) :: s₀.returned = _
      rw [h0.returned, if_neg hr, WriteCall.ret, if_neg hne]

end Run

/-! ### Two files -/

section Files

variable {s : Fs}

/-- What `create` does for a file, but for the directory. -/
def newFile (sb : Superblock) : FsM (Fin NINODE) := do
  let k ← ialloc sb ROOTDEV T_FILE
  withLock sb k do
    modifyInode k fun ip => { ip with din := { ip.din with nlink := 1 } }
    iupdate sb k
  return k

def truncatedFile (sb : Superblock) : FsM (Fin NINODE) := do
  let k ← newFile sb
  let _ ← withLock sb k (writei sb k (fun _ => some 1) 0 5)
  withLock sb k (itrunc sb k)
  return k

theorem newFile_spec (hl : sb.Layout) (h : s.Good sb)
    (hfree : ∀ j, 0 < (s.itable j).ref → (s.vol sb).Alloc sb (s.itable j).inum) :
    wp (fun _ => True) (newFile sb) (fun k s' => Unlocked sb s' k) s := by
  unfold newFile
  rw [wp_bind]
  refine (ialloc_spec hl h T_FILE).mono (fun k s1 ⟨i, hpost⟩ => ?_) fun _ _ => trivial
  obtain ⟨href, hinum, hlock⟩ := hpost.get.self h
  have hino : (s1.vol sb).ino i = { Dinode.zero with type := T_FILE } := by
    rw [hpost.vol]
    exact update_self ..
  -- nobody else has the inode, so the entry is new and nobody has locked it
  have hnew : (s1.itable k).ref = 1 := by
    have hget := hpost.get
    generalize s1.itable = t at hget
    cases hget with
    | found hr hk =>
      have := hfree k hr
      rw [hk] at this
      exact absurd hpost.free this.2
    | new => rw [update_self]
  have hopen : Unlocked sb s1 k := by
    refine ⟨hpost.good, href, ?_, ?_⟩
    · by_contra hheld
      exact absurd (hlock (by simpa using hheld)) (by omega)
    · rw [hinum]
      refine ⟨hpost.lt, ?_⟩
      rw [hino]
      exact show T_FILE ≠ 0 by decide
  rw [wp_bind]
  refine (withLock_spec (R := fun _ _ => True) hopen fun s2 hgood hheld hvol hinum2 => ?_).call
    fun _ s' hpost => hpost.1
  obtain ⟨hr, hv⟩ := (hgood.table.entry k).held hheld
  rw [wp_bind, wp_modifyInode]
  refine (iupdate_changed hl hgood hr hv _).call fun _ s3 ⟨hvol3, htable, hloose, _⟩ => ?_
  have hgood3 : s3.Good sb :=
    iupdate_good hl hgood hr hv (d := { (s2.itable k).din with nlink := 1 }) rfl rfl rfl hvol3 htable
      hloose
  have hentry : s3.itable k = { s2.itable k with din := { (s2.itable k).din with nlink := 1 } } := by
    rw [htable, update_self]
  have hlock3 : (s3.itable k).lock = true := by rw [hentry]; exact hheld
  obtain ⟨hr3, hv3⟩ := (hgood3.table.entry k).held hlock3
  exact ⟨hgood3, hlock3, hgood3.alloc hr3 hv3, trivial⟩

variable {k : Fin NINODE}

theorem Unlocked.write (hl : sb.Layout) (h : Unlocked sb s k) (src : Nat → Option UInt8)
    (off n : UInt32) (hsrc : ∀ j, j < n.toNat → src j ≠ none) :
    wp (fun _ => True) (withLock sb k (writei sb k src off n)) (fun _ s' => Unlocked sb s' k) s := by
  refine (withLock_spec (R := fun _ _ => True) h fun s1 hgood hheld _ _ => ?_).call
    fun _ s' hpost => hpost.1
  have hcopies : (FileCall.writei k src off n).Copies := hsrc
  have hpost := writei_post hl hgood hheld hcopies
  unfold FileCall.run at hpost
  rw [wp_bind] at hpost
  refine hpost.mono (fun r s2 hr => ?_) fun _ _ => trivial
  rw [wp_pure] at hr
  have hlock2 : (s2.itable k).lock = true := by
    rw [show s2.itable k = _ from hr.only.self]
    exact hheld
  obtain ⟨hr2, hv2⟩ := (hr.good.table.entry k).held hlock2
  exact ⟨hr.good, hlock2, hr.good.alloc hr2 hv2, trivial⟩

theorem truncatedFile_spec (hl : sb.Layout) (h : s.Good sb)
    (hfree : ∀ j, 0 < (s.itable j).ref → (s.vol sb).Alloc sb (s.itable j).inum) :
    wp (fun _ => True) (truncatedFile sb) (fun k s' => Unlocked sb s' k) s := by
  unfold truncatedFile
  rw [wp_bind]
  refine (newFile_spec hl h hfree).call fun k s1 hopen => ?_
  rw [wp_bind]
  refine (hopen.write hl (fun _ => some 1) 0 5 fun _ _ => nofun).call fun _ s2 hopen2 => ?_
  rw [wp_bind]
  refine (withLock_spec (R := fun _ _ => True) hopen2 fun s3 hgood hheld _ _ => ?_).call
    fun _ s' hpost => hpost.1
  obtain ⟨hr, hv⟩ := (hgood.table.entry k).held hheld
  refine (itrunc_good hl hgood hr hv).call ?_
  rintro _ s4 ⟨hgood4, honly, -, -⟩
  have hlock4 : (s4.itable k).lock = true := by
    rw [honly.self]
    exact hheld
  obtain ⟨hr4, hv4⟩ := (hgood4.table.entry k).held hlock4
  exact ⟨hgood4, hlock4, hgood4.alloc hr4 hv4, trivial⟩

theorem newFile_unlocked (hl : sb.Layout) (h : s.Good sb)
    (hfree : ∀ j, 0 < (s.itable j).ref → (s.vol sb).Alloc sb (s.itable j).inum) {s' : Fs}
    (hrun : (newFile sb).run s = .ok (k, s')) : Unlocked sb s' k :=
  (wp_iff.1 (newFile_spec hl h hfree)).1 k s' hrun

theorem truncatedFile_unlocked (hl : sb.Layout) (h : s.Good sb)
    (hfree : ∀ j, 0 < (s.itable j).ref → (s.vol sb).Alloc sb (s.itable j).inum) {s' : Fs}
    (hrun : (truncatedFile sb).run s = .ok (k, s')) : Unlocked sb s' k :=
  (wp_iff.1 (truncatedFile_spec hl h hfree)).1 k s' hrun

/-- The file in entry `k`, open for writing at `off`. -/
def openAt (s : Fs) (k : Fin NINODE) (off : UInt32) : WriteSys Unit :=
  ⟨s, ⟨true, k, off⟩, fun _ => .idle, none, 0, [], []⟩

theorem Unlocked.openAt (h : Unlocked sb s k) (off : UInt32) : (openAt s k off).Fresh sb :=
  ⟨h.good, h.ref, h.alloc, h.lock, rfl, fun _ => rfl, rfl, rfl, rfl⟩

def counting (j : Nat) : Option UInt8 := some (UInt8.ofNat j)

def writeNew : FsM Int := do
  let k ← newFile Mkfs.sb
  withLock Mkfs.sb k (writei Mkfs.sb k counting 0 (UInt32.ofNat 3))

theorem writeNew_run : (writeNew.run Mkfs.fs).map Prod.fst = .ok 3 := by decide +kernel

theorem fs_unused (j : Fin NINODE) (hr : 0 < (Mkfs.fs.itable j).ref) :
    (Mkfs.fs.vol Mkfs.sb).Alloc Mkfs.sb (Mkfs.fs.itable j).inum :=
  absurd hr (Nat.lt_irrefl 0)

theorem filewrite_loses_nothing_new : ∃ s₀ s : WriteSys Unit, s₀.Fresh Mkfs.sb ∧ s₀.f.off = 0 ∧
    (∃ done, (done = [(0, [0, 1, 2])] ∨ ∃ x, [(0, [0, 1, 2])] = done ++ [x]) ∧
      s.content Mkfs.sb = overwrite (s₀.content Mkfs.sb) 0 (chunkBytes done)) ∧
    s.f.off.toNat = 3 := by
  obtain ⟨s', hrun⟩ := ok_of_map_fst writeNew_run
  unfold writeNew at hrun
  rw [StateT.run_bind, bind_ok] at hrun
  obtain ⟨⟨k, s⟩, hnew, hrun⟩ := hrun
  obtain ⟨s1, s2, h1, h2, h3⟩ := withLock_ok hrun
  have hfresh := (newFile_unlocked Mkfs.layout Mkfs.good fs_unused hnew).openAt 0
  have hmap : ∀ j, j < 3 → counting j ≠ none := fun _ _ => nofun
  obtain ⟨t, hreach, hidle, -, -, -, horder, hret⟩ := reachable_oneChunk (p := ()) hfresh
    (by decide) (by decide) hmap (show 3 ≤ MAXFILE * BSIZE by decide) h1 h2 h3
  obtain ⟨hdone, -, -, -, -, hoff, -⟩ :=
    filewrite_loses_nothing Mkfs.layout hfresh (Nat.zero_le _) hreach
  rw [horder] at hdone
  have hoff := hoff hidle
  rw [hret] at hoff
  exact ⟨_, t, hfresh, rfl, hdone, hoff⟩

/-- A byte at offset 5 of the truncated file: what `writei` returns, and the size afterwards. -/
def writePast : FsM (Int × Nat) := do
  let k ← truncatedFile Mkfs.sb
  let r ← withLock Mkfs.sb k (writei Mkfs.sb k counting 5 (UInt32.ofNat 1))
  let s ← get
  return (r, (s.vol Mkfs.sb).size (s.itable k).inum)

theorem writePast_run : (writePast.run Mkfs.fs).map Prod.fst = .ok (-1, 0) := by decide +kernel

/-- A `struct file` at offset 5 of a file that was truncated after five bytes were written: a call
for one byte gets the lock, and nothing is written. -/
theorem filewrite_past_end : ∃ k s, (truncatedFile Mkfs.sb).run Mkfs.fs = .ok (k, s) ∧
    (openAt s k 5).Fresh Mkfs.sb ∧ ∃ t, Reachable
      ((writeMachine Mkfs.sb (openAt s k 5)).restrict WriteSys.Fits) t ∧ t.proc () = .idle ∧
      t.order = [(0, [0])] ∧ t.returned = [(⟨counting, 1, 0⟩, -1)] ∧ t.content Mkfs.sb = [] ∧
      t.f.off = 5 := by
  obtain ⟨s', hrun⟩ := ok_of_map_fst writePast_run
  unfold writePast at hrun
  simp only [StateT.run_bind, bind_ok] at hrun
  obtain ⟨⟨k, s⟩, hnew, ⟨r, s3⟩, hlock, ⟨s3', s3''⟩, hget, hret⟩ := hrun
  cases hget
  obtain ⟨hr, hs'⟩ := Prod.mk.inj (Except.ok.inj hret)
  obtain ⟨rfl, hsize⟩ := Prod.mk.inj hr
  obtain ⟨s1, s2, h1, h2, h3⟩ := withLock_ok hlock
  have hfresh := (truncatedFile_unlocked Mkfs.layout Mkfs.good fs_unused hnew).openAt 5
  have hmap : ∀ j, j < 1 → counting j ≠ none := fun _ _ => nofun
  obtain ⟨t, hreach, hidle, hfs, hip, hoff, horder, hret⟩ := reachable_oneChunk (p := ()) hfresh
    (by decide) (by decide) hmap (show (5 : UInt32).toNat + 1 ≤ MAXFILE * BSIZE by decide) h1 h2 h3
  refine ⟨k, s, hnew, hfresh, t, hreach, hidle (), horder, hret, ?_, hoff⟩
  apply eq_nil_of_length_eq_zero
  rw [WriteSys.content, length_content, hfs, hip]
  exact hsize

end Files

end Xv6
