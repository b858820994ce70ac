import Xv6.Bio.Cache

/-!
# `commit()` through the buffer cache

The loop bodies of `write_log` and `install_trans`, and `write_head`, as sequences of cache
calls. Each is one write to the block store: to a log slot, to a home block, to the header.
`install_trans` writes what the store already holds there, so it changes the disk only.
-/

namespace Xv6

open Function

namespace Bcache

variable {P : Type} [DecidableEq P]

/-- The body of the loop of `write_log`. Returns the contents it copies as well. -/
def writeLog (m : Bcache P) (p : P) (dev : Nat) (L : LogArea) (lh : List Nat) (tail : Nat) :
    Except BioStop (Block × Bcache P) := do
  let (dst, m) ← m.bread p dev (L.slot tail)
  let (src, m) ← m.bread p dev (lh.getD tail 0)
  let data := (m.buf src).data
  let m := m.modify dst data
  let m ← m.bwrite p dst
  let m ← m.brelse p src
  let m ← m.brelse p dst
  return (data, m)

/-- `write_head`. Returns the new contents of the header block as well. -/
def writeHead (m : Bcache P) (p : P) (dev : Nat) (L : LogArea) (lh : List Nat) :
    Except BioStop (Block × Bcache P) := do
  let (b, m) ← m.bread p dev L.start
  let data := putHeader (m.buf b).data lh
  let m := m.modify b data
  let m ← m.bwrite p b
  let m ← m.brelse p b
  return (data, m)

/-- The body of the loop of `install_trans(0)`. -/
def installTrans (m : Bcache P) (p : P) (dev : Nat) (L : LogArea) (lh : List Nat) (tail : Nat) :
    Except BioStop (Bcache P) := do
  let (lbuf, m) ← m.bread p dev (L.slot tail)
  let (dbuf, m) ← m.bread p dev (lh.getD tail 0)
  let m := m.modify dbuf (m.buf lbuf).data
  let m ← m.bwrite p dbuf
  let m := m.bunpin dbuf
  let m ← m.brelse p lbuf
  m.brelse p dbuf

end Bcache

section Specs

variable {P : Type} {dev : Nat} {m m' : Bcache P} {store : Disk}
  {waiters : Fin NBUF → Nat} {pinned : Finset Nat} {dirty : Fin NBUF → Bool} {p : P}
  {L : LogArea} {lh : List Nat} {tail : Nat} {data : Block}

variable {i : Fin NBUF}

theorem CacheInv.not_dirty (h : CacheInv dev m store waiters pinned dirty)
    (hfree : (m.buf i).holder = none) : dirty i = false := by
  by_contra hd
  have := (h.bufs i).dirtyHeld (by simpa using hd)
  rw [hfree] at this
  exact absurd this (by simp)

/-- Buffers that are awaited go on caching their block. -/
def KeepsAwaited (dev : Nat) (waiters : Fin NBUF → Nat) (m m' : Bcache P) : Prop :=
  ∀ i c, 0 < waiters i → (m.buf i).Caches dev c → (m'.buf i).Caches dev c

theorem Bcache.modify_caches (j : Fin NBUF) (b : Nat) :
    ((m.modify i data).buf j).Caches dev b ↔ (m.buf j).Caches dev b := by
  apply Bcache.setBuf_caches <;> rfl

theorem Bcache.bpin_caches (j : Fin NBUF) (b : Nat) :
    ((m.bpin i).buf j).Caches dev b ↔ (m.buf j).Caches dev b := by
  apply Bcache.setBuf_caches <;> rfl

theorem Bcache.bunpin_caches (j : Fin NBUF) (b : Nat) :
    ((m.bunpin i).buf j).Caches dev b ↔ (m.buf j).Caches dev b := by
  apply Bcache.setBuf_caches <;> rfl

variable [DecidableEq P]

/-- Copying into a locked buffer and writing it out, as all three bodies do: the block changes
in the store and on disk, and no buffer stays dirty. -/
theorem CacheInv.modify_bwrite (h : CacheInv dev m store waiters pinned dirty)
    (hheld : (m.buf i).holder = some p) (hclean : dirty i = false)
    (hwrite : (m.modify i data).bwrite p i = .ok m') :
    CacheInv dev m' (update store (m.buf i).blockno data) waiters pinned dirty ∧
      m'.buf = (m.modify i data).buf ∧ m'.disk (m.buf i).blockno = data := by
  have hmod := h.modify (i := i) (by rw [hheld]; rfl) data
  obtain ⟨hinv, -, hbuf, hdisk⟩ := hmod.bwrite hwrite
  rw [update_idem, ← hclean, update_eq_self] at hinv
  refine ⟨hinv, hbuf, ?_⟩
  rw [hdisk]
  simp [Bcache.modify, Bcache.setBuf_self]

theorem Bcache.brelse_caches (hrel : m.brelse p i = .ok m') (j : Fin NBUF) (b : Nat) :
    (m'.buf j).Caches dev b ↔ (m.buf j).Caches dev b := by
  rw [(Bcache.brelse_ok hrel).2.1]
  apply Bcache.setBuf_caches <;> rfl

variable (h : CacheInv dev m store waiters pinned dirty)

include h

theorem CacheInv.writeLog (hrun : m.writeLog p dev L lh tail = .ok (data, m')) :
    CacheInv dev m' (update store (L.slot tail) data) waiters pinned dirty ∧
      data = store (lh.getD tail 0) ∧ KeepsAwaited dev waiters m m' := by
  obtain ⟨⟨dst, m1⟩, hdst, hrun⟩ := Prog.bind_ok.mp hrun
  obtain ⟨⟨src, m2⟩, hsrc, hrun⟩ := Prog.bind_ok.mp hrun
  obtain ⟨m3, hwrite, hrun⟩ := Prog.bind_ok.mp hrun
  obtain ⟨m4, hrel1, hrun⟩ := Prog.bind_ok.mp hrun
  obtain ⟨m5, hrel2, hret⟩ := Prog.bind_ok.mp hrun
  cases hret
  obtain ⟨h1, post1⟩ := h.bread hdst
  obtain ⟨h2, post2⟩ := h1.bread hsrc
  -- two different buffers: the second was unlocked when the first was held
  have hne : dst ≠ src := by
    intro heq
    have := post2.free
    rw [← heq, post1.holder] at this
    cases this
  have hdstHeld : (m2.buf dst).holder = some p := by rw [post2.others dst hne, post1.holder]
  have hdstBlock : (m2.buf dst).blockno = L.slot tail := by
    rw [post2.others dst hne, post1.caches.2]
  have hdstClean := h.not_dirty post1.free
  obtain ⟨h3, hbuf3, -⟩ := h2.modify_bwrite hdstHeld hdstClean hwrite
  rw [hdstBlock, post2.data] at h3
  obtain ⟨h4, -, -, -⟩ := h3.brelse (h1.not_dirty post2.free) hrel1
  obtain ⟨h5, -, -, -⟩ := h4.brelse hdstClean hrel2
  refine ⟨by rw [post2.data]; exact h5, post2.data, fun i c hw hc => ?_⟩
  rw [Bcache.brelse_caches hrel2, Bcache.brelse_caches hrel1, hbuf3, Bcache.modify_caches]
  exact post2.keeps i c hw (post1.keeps i c hw hc)

theorem CacheInv.writeHead (hrun : m.writeHead p dev L lh = .ok (data, m')) :
    CacheInv dev m' (update store L.start data) waiters pinned dirty ∧
      data = putHeader (store L.start) lh ∧ KeepsAwaited dev waiters m m' := by
  obtain ⟨⟨b, m1⟩, hread, hrun⟩ := Prog.bind_ok.mp hrun
  obtain ⟨m2, hwrite, hrun⟩ := Prog.bind_ok.mp hrun
  obtain ⟨m3, hrel, hret⟩ := Prog.bind_ok.mp hrun
  cases hret
  obtain ⟨h1, post⟩ := h.bread hread
  have hclean := h.not_dirty post.free
  obtain ⟨h2, hbuf2, -⟩ := h1.modify_bwrite post.holder hclean hwrite
  rw [post.caches.2] at h2
  obtain ⟨h3, -, -, -⟩ := h2.brelse hclean hrel
  refine ⟨h3, by rw [post.data], fun i c hw hc => ?_⟩
  rw [Bcache.brelse_caches hrel, hbuf2, Bcache.modify_caches]
  exact post.keeps i c hw hc

/-- The loop body of `install_trans`, when the slot holds what the store has at the home block:
the home block is current on disk and loses its pin. -/
theorem CacheInv.installTrans (hslot : store (L.slot tail) = store (lh.getD tail 0))
    (hpin : lh.getD tail 0 ∈ pinned) (hrun : m.installTrans p dev L lh tail = .ok m') :
    CacheInv dev m' store waiters (pinned.erase (lh.getD tail 0)) dirty ∧
      KeepsAwaited dev waiters m m' := by
  obtain ⟨⟨lbuf, m1⟩, hlbuf, hrun⟩ := Prog.bind_ok.mp hrun
  obtain ⟨⟨dbuf, m2⟩, hdbuf, hrun⟩ := Prog.bind_ok.mp hrun
  obtain ⟨m3, hwrite, hrun⟩ := Prog.bind_ok.mp hrun
  obtain ⟨m4, hrel1, hrel2⟩ := Prog.bind_ok.mp hrun
  obtain ⟨h1, post1⟩ := h.bread hlbuf
  obtain ⟨h2, post2⟩ := h1.bread hdbuf
  have hne : lbuf ≠ dbuf := by
    intro heq
    have := post2.free
    rw [← heq, post1.holder] at this
    cases this
  have hdata : (m2.buf lbuf).data = store (lh.getD tail 0) := by
    rw [post2.others lbuf hne, post1.data, hslot]
  have hblock : (m2.buf dbuf).blockno = lh.getD tail 0 := post2.caches.2
  have hclean := h1.not_dirty post2.free
  obtain ⟨h3, hbuf3, hdisk3⟩ := h2.modify_bwrite post2.holder hclean hwrite
  -- the copy changes nothing in the store
  rw [hblock, hdata, update_eq_self] at h3
  rw [hblock, hdata] at hdisk3
  have hself : (m3.buf dbuf).Caches dev (lh.getD tail 0) := by
    rw [hbuf3, Bcache.modify_caches]
    exact post2.caches
  have h3' := h3.bunpin (i := dbuf) hself.1 (by rw [hself.2]; exact hpin)
    (by rw [hself.2]; exact hdisk3)
  rw [hself.2] at h3'
  obtain ⟨h4, -, -, -⟩ := h3'.brelse (h.not_dirty post1.free) hrel1
  obtain ⟨h5, -, -, -⟩ := h4.brelse hclean hrel2
  refine ⟨h5, fun i c hw hc => ?_⟩
  rw [Bcache.brelse_caches hrel2, Bcache.brelse_caches hrel1, Bcache.bunpin_caches, hbuf3,
    Bcache.modify_caches]
  exact post2.keeps i c hw (post1.keeps i c hw hc)

end Specs

end Xv6
