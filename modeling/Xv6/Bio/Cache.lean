import Mathlib.Tactic
import Mathlib.Data.Finset.Basic
import Xv6.Lib.Prog
import Xv6.Log.Header

/-!
# The buffer cache

`kernel/bio.c` over a disk that reads and writes whole blocks. A call stops when it panics, or when
`acquiresleep` finds the lock taken. There is one lemma per function about `CacheInv`; they say how
its ghost arguments move.
-/

namespace Xv6

open Function Finset

/-- `struct buf`. The flag `disk` is private to the disk driver. -/
structure Buf (P : Type) where
  valid : Bool
  dev : Nat
  blockno : Nat
  -- `lock`: the process holding the sleep lock.
  holder : Option P
  refcnt : Nat
  data : Block

/-- The `NBUF` buffers, the list through `prev`/`next`, and the disk. `lru` runs from `head.next` to
`head.prev`. A buffer's sleep lock is the process that holds it. -/
structure Bcache (P : Type) where
  buf : Fin NBUF → Buf P
  lru : List (Fin NBUF)
  disk : Disk

inductive BioPanic where
  | noBuffers
  | bwrite
  | brelse
  deriving DecidableEq, Repr

/-- Why a call does not return: it waits for a sleep lock, or it panics. -/
inductive BioStop where
  | blocked
  | panic (e : BioPanic)
  deriving DecidableEq, Repr

instance : NeZero NBUF := ⟨by decide⟩

variable {P : Type}

/-- The test of both loops' callers: this buffer caches `blockno` of `dev`. -/
def Buf.Caches (b : Buf P) (dev blockno : Nat) : Prop := b.dev = dev ∧ b.blockno = blockno

instance (b : Buf P) (dev blockno : Nat) : Decidable (b.Caches dev blockno) :=
  inferInstanceAs (Decidable (_ ∧ _))

namespace Bcache

/-- Static storage after `binit`: every buffer zeroed, each inserted at the head of the list. -/
def binit (disk : Disk) : Bcache P where
  buf _ := { valid := false, dev := 0, blockno := 0, holder := none, refcnt := 0, data := .zero }
  lru := (List.finRange NBUF).foldl (fun lru b => b :: lru) []
  disk := disk

def setBuf (m : Bcache P) (i : Fin NBUF) (b : Buf P) : Bcache P :=
  { m with buf := update m.buf i b }

/-- `bget` up to its `acquiresleep`. -/
def bget (m : Bcache P) (dev blockno : Nat) : Except BioStop (Fin NBUF × Bcache P) :=
  -- is the block already cached?
  match m.lru.find? fun i => (m.buf i).Caches dev blockno with
  | some i => .ok (i, m.setBuf i { m.buf i with refcnt := (m.buf i).refcnt + 1 })
  | none =>
    -- recycle the least recently used unused buffer
    match m.lru.reverse.find? fun i => (m.buf i).refcnt = 0 with
    | some i => .ok (i, m.setBuf i
        { m.buf i with dev := dev, blockno := blockno, valid := false, refcnt := 1 })
    | none => .error (.panic .noBuffers)

def acquiresleep (m : Bcache P) (p : P) (i : Fin NBUF) : Except BioStop (Bcache P) :=
  if (m.buf i).holder.isSome then .error .blocked
  else .ok (m.setBuf i { m.buf i with holder := some p })

/-- `bread` after `bget`: read the block from disk unless the buffer is valid. -/
def fill (m : Bcache P) (i : Fin NBUF) : Bcache P :=
  if (m.buf i).valid then m
  else m.setBuf i { m.buf i with data := m.disk (m.buf i).blockno, valid := true }

def bread (m : Bcache P) (p : P) (dev blockno : Nat) : Except BioStop (Fin NBUF × Bcache P) := do
  let (i, m) ← m.bget dev blockno
  let m ← m.acquiresleep p i
  return (i, m.fill i)

def modify (m : Bcache P) (i : Fin NBUF) (data : Block) : Bcache P :=
  m.setBuf i { m.buf i with data := data }

def bpin (m : Bcache P) (i : Fin NBUF) : Bcache P :=
  m.setBuf i { m.buf i with refcnt := (m.buf i).refcnt + 1 }

def bunpin (m : Bcache P) (i : Fin NBUF) : Bcache P :=
  m.setBuf i { m.buf i with refcnt := (m.buf i).refcnt - 1 }

variable [DecidableEq P]

def bwrite (m : Bcache P) (p : P) (i : Fin NBUF) : Except BioStop (Bcache P) :=
  if (m.buf i).holder ≠ some p then .error (.panic .bwrite)
  else .ok { m with disk := update m.disk (m.buf i).blockno (m.buf i).data }

def brelse (m : Bcache P) (p : P) (i : Fin NBUF) : Except BioStop (Bcache P) :=
  if (m.buf i).holder ≠ some p then .error (.panic .brelse)
  else
    let refcnt := (m.buf i).refcnt - 1
    let m := m.setBuf i { m.buf i with holder := none, refcnt := refcnt }
    -- no one is waiting for it: to the head of the list
    .ok (if refcnt = 0 then { m with lru := i :: m.lru.erase i } else m)

end Bcache

/-! ## The cache as a view of a block store -/

/-- One buffer, awaited by `waiters` processes, against the contents of the store. -/
structure BufOk (dev : Nat) (store : Disk) (pinned : Finset Nat) (b : Buf P) (waiters : Nat)
    (dirty : Bool) : Prop where
  refs : b.refcnt = waiters + (if b.holder.isSome then 1 else 0)
    + (if b.dev = dev ∧ b.blockno ∈ pinned then 1 else 0)
  waited : 0 < waiters → b.dev = dev
  held : b.holder.isSome → b.dev = dev ∧ b.valid = true
  data : b.dev = dev → b.valid = true → b.data = store b.blockno
  dirtyHeld : dirty = true → b.holder.isSome

/-- The cache as a view of a plain block store `store`: a valid buffer holds its block's contents, a
block without a dirty or pinned buffer has them on disk, and `refcnt` accounts for every process
that holds or awaits the buffer and for the pin of the log. Ghost arguments: the number of processes
awaiting each buffer, the blocks the log has pinned, and the buffers that were modified and neither
logged nor written yet. -/
structure CacheInv (dev : Nat) (m : Bcache P) (store : Disk) (waiters : Fin NBUF → Nat)
    (pinned : Finset Nat) (dirty : Fin NBUF → Bool) : Prop where
  listed : ∀ i, i ∈ m.lru
  unique : ∀ i j b, (m.buf i).Caches dev b → (m.buf j).Caches dev b → i = j
  bufs : ∀ i, BufOk dev store pinned (m.buf i) (waiters i) (dirty i)
  -- A pinned block stays cached.
  pins : ∀ b ∈ pinned, ∃ i, (m.buf i).Caches dev b ∧ (m.buf i).valid = true
  -- Everything else can be recovered from disk.
  clean : ∀ b, b ∉ pinned → (∀ i, dirty i = true → ¬ (m.buf i).Caches dev b) → m.disk b = store b

theorem Bcache.setBuf_self (m : Bcache P) (i : Fin NBUF) (b : Buf P) : (m.setBuf i b).buf i = b :=
  update_self ..

theorem Bcache.setBuf_of_ne (m : Bcache P) {i j : Fin NBUF} (hne : j ≠ i) (b : Buf P) :
    (m.setBuf i b).buf j = m.buf j :=
  update_of_ne hne ..

theorem Bcache.setBuf_caches {m : Bcache P} {i : Fin NBUF} {b' : Buf P} {dev : Nat}
    (hdev : b'.dev = (m.buf i).dev) (hblock : b'.blockno = (m.buf i).blockno) (j : Fin NBUF)
    (b : Nat) : ((m.setBuf i b').buf j).Caches dev b ↔ (m.buf j).Caches dev b := by
  by_cases hj : j = i
  · rw [hj, Bcache.setBuf_self, Buf.Caches, hdev, hblock, Buf.Caches]
  · rw [Bcache.setBuf_of_ne m hj]

section Calls

variable {dev : Nat} {m m' : Bcache P} {store : Disk} {waiters : Fin NBUF → Nat}
  {pinned : Finset Nat} {dirty : Fin NBUF → Bool} {i : Fin NBUF} {p : P}

variable {d : Bool} {n : Nat}

/-- One buffer changes, but not the block it caches; what is left to show is about that buffer,
and about what the change of the ghost arguments means to the others. -/
theorem CacheInv.setBuf (h : CacheInv dev m store waiters pinned dirty) (store' : Disk)
    (pinned' : Finset Nat) (b' : Buf P) (htag : ∀ b, b'.Caches dev b ↔ (m.buf i).Caches dev b)
    (hvalid : (m.buf i).valid = true → b'.valid = true) (hok : BufOk dev store' pinned' b' n d)
    (hothers : ∀ j, j ≠ i → BufOk dev store' pinned' (m.buf j) (waiters j) (dirty j))
    (hpins : ∀ b ∈ pinned', b ∈ pinned ∨ b'.Caches dev b ∧ b'.valid = true)
    (hclean : ∀ b, b ∉ pinned' → (∀ j, j ≠ i → dirty j = true → ¬ (m.buf j).Caches dev b) →
      (d = true → ¬ b'.Caches dev b) → m.disk b = store' b) :
    CacheInv dev (m.setBuf i b') store' (update waiters i n) pinned'
      (update dirty i d) := by
  -- the blocks cached are the same, buffer by buffer
  have hsame : ∀ j b, ((m.setBuf i b').buf j).Caches dev b ↔ (m.buf j).Caches dev b := by
    intro j b
    by_cases hj : j = i
    · rw [hj, Bcache.setBuf_self]
      exact htag b
    · rw [Bcache.setBuf_of_ne m hj]
  constructor
  case listed => exact h.listed
  case unique =>
    intro j k b hj hk
    exact h.unique j k b ((hsame j b).mp hj) ((hsame k b).mp hk)
  case bufs =>
    intro j
    by_cases hj : j = i
    · subst hj
      simpa only [Bcache.setBuf_self, update_self] using hok
    · rw [Bcache.setBuf_of_ne m hj, update_of_ne hj, update_of_ne hj]
      exact hothers j hj
  case pins =>
    intro b hb
    rcases hpins b hb with hold | hnew
    · obtain ⟨j, hj, hjv⟩ := h.pins b hold
      refine ⟨j, (hsame j b).mpr hj, ?_⟩
      by_cases hji : j = i
      · rw [hji, Bcache.setBuf_self]
        exact hvalid (by rw [← hji]; exact hjv)
      · rw [Bcache.setBuf_of_ne m hji]
        exact hjv
    · exact ⟨i, by rw [Bcache.setBuf_self]; exact hnew⟩
  case clean =>
    intro b hb hdirty
    refine hclean b hb (fun j hj hd => ?_) (fun hd => ?_)
    · have := hdirty j (by rw [update_of_ne hj]; exact hd)
      rwa [Bcache.setBuf_of_ne m hj] at this
    · have := hdirty i (by rw [update_self]; exact hd)
      rwa [Bcache.setBuf_self] at this

theorem CacheInv.setBuf_local (h : CacheInv dev m store waiters pinned dirty) (b' : Buf P)
    (htag : ∀ b, b'.Caches dev b ↔ (m.buf i).Caches dev b)
    (hvalid : (m.buf i).valid = true → b'.valid = true) (hok : BufOk dev store pinned b' n d)
    (hdirty : dirty i = true → d = true) :
    CacheInv dev (m.setBuf i b') store (update waiters i n) pinned
      (update dirty i d) := by
  refine h.setBuf store pinned b' htag hvalid hok (fun j _ => h.bufs j) (fun b hb => .inl hb) ?_
  intro b hb hothers hi
  refine h.clean b hb fun j hj => ?_
  by_cases hji : j = i
  · subst hji
    exact fun hc => hi (hdirty hj) ((htag b).mpr hc)
  · exact hothers j hji hj

/-! ### `bget` -/

variable {b : Nat}

theorem Bcache.bget_cases (hget : m.bget dev b = .ok (i, m')) :
    ((m.buf i).Caches dev b ∧ m' = m.setBuf i { m.buf i with refcnt := (m.buf i).refcnt + 1 }) ∨
    ((∀ j ∈ m.lru, ¬ (m.buf j).Caches dev b) ∧ (m.buf i).refcnt = 0 ∧
      m' = m.setBuf i { m.buf i with dev := dev, blockno := b, valid := false, refcnt := 1 }) := by
  unfold Bcache.bget at hget
  split at hget
  · rename_i j hj
    cases hget
    exact .inl ⟨by simpa using List.find?_some hj, rfl⟩
  · rename_i hnone
    split at hget
    · rename_i j hj
      cases hget
      exact .inr ⟨by simpa using hnone, by simpa using List.find?_some hj, rfl⟩
    · cases hget

theorem BufOk.unused {b : Buf P} (h : BufOk dev store pinned b n d) (hzero : b.refcnt = 0) :
    n = 0 ∧ b.holder = none ∧ ¬ (b.dev = dev ∧ b.blockno ∈ pinned) ∧ d = false := by
  have hrefs := h.refs
  rw [hzero] at hrefs
  have hholder : b.holder = none := by
    by_contra hne
    rw [if_pos (by simpa [Option.isSome_iff_ne_none] using hne)] at hrefs
    omega
  refine ⟨by omega, hholder, fun hpin => ?_, ?_⟩
  · rw [if_pos hpin] at hrefs
    omega
  · by_contra hd
    have := h.dirtyHeld (by simpa using hd)
    rw [hholder] at this
    exact absurd this (by simp)

variable (h : CacheInv dev m store waiters pinned dirty)

include h

theorem CacheInv.pinned_used (hb : b ∈ pinned) (hcaches : (m.buf i).Caches dev b) :
    (m.buf i).refcnt ≠ 0 := fun hzero =>
  ((h.bufs i).unused hzero).2.2.1 ⟨hcaches.1, by rw [hcaches.2]; exact hb⟩

/-- Recycling a buffer nobody references loses nothing. -/
theorem CacheInv.recycle (hnew : ∀ j ∈ m.lru, ¬ (m.buf j).Caches dev b)
    (hzero : (m.buf i).refcnt = 0) :
    CacheInv dev
      (m.setBuf i { m.buf i with dev := dev, blockno := b, valid := false, refcnt := 1 })
      store (update waiters i (waiters i + 1)) pinned dirty := by
  obtain ⟨hw, hholder, hpin, hclean⟩ := (h.bufs i).unused hzero
  -- the new block is not pinned, or it would be cached
  have hbpin : b ∉ pinned := fun hb => by
    obtain ⟨j, hj, -⟩ := h.pins b hb
    exact hnew j (h.listed j) hj
  constructor
  case listed => exact h.listed
  case unique =>
    intro j k c hj hk
    by_cases hji : j = i <;> by_cases hki : k = i
    · rw [hji, hki]
    · subst hji
      rw [Bcache.setBuf_self] at hj
      rw [Bcache.setBuf_of_ne m hki] at hk
      exact absurd (by rw [show b = c from hj.2]; exact hk) (hnew k (h.listed k))
    · subst hki
      rw [Bcache.setBuf_self] at hk
      rw [Bcache.setBuf_of_ne m hji] at hj
      exact absurd (by rw [show b = c from hk.2]; exact hj) (hnew j (h.listed j))
    · rw [Bcache.setBuf_of_ne m hji] at hj
      rw [Bcache.setBuf_of_ne m hki] at hk
      exact h.unique j k c hj hk
  case bufs =>
    intro j
    by_cases hji : j = i
    · subst hji
      rw [Bcache.setBuf_self, update_self]
      exact
        { refs := by simp [hw, hholder, hbpin]
          waited := fun _ => rfl
          held := by simp [hholder]
          data := by simp
          dirtyHeld := by simp [hclean] }
    · rw [Bcache.setBuf_of_ne m hji, update_of_ne hji]
      exact h.bufs j
  case pins =>
    intro c hc
    obtain ⟨j, hj, hjv⟩ := h.pins c hc
    have hji : j ≠ i := fun heq => by
      subst heq
      exact hpin ⟨hj.1, by rw [hj.2]; exact hc⟩
    exact ⟨j, by rw [Bcache.setBuf_of_ne m hji]; exact ⟨hj, hjv⟩⟩
  case clean =>
    intro c hc hdirty
    refine h.clean c hc fun j hj => ?_
    have hji : j ≠ i := fun heq => by
      rw [heq, hclean] at hj
      exact absurd hj (by simp)
    have := hdirty j hj
    rwa [Bcache.setBuf_of_ne m hji] at this

/-- `bget` returns a buffer for the block, which the caller now awaits. No buffer that
somebody references changes hands. -/
theorem CacheInv.bget (hget : m.bget dev b = .ok (i, m')) :
    CacheInv dev m' store (update waiters i (waiters i + 1)) pinned dirty ∧
      (m'.buf i).Caches dev b ∧ (m'.buf i).holder = (m.buf i).holder ∧
      (∀ j, j ≠ i → m'.buf j = m.buf j) ∧ m'.disk = m.disk ∧
      ((m.buf i).refcnt ≠ 0 → (m.buf i).Caches dev b) := by
  rcases Bcache.bget_cases hget with ⟨hcached, rfl⟩ | ⟨hnew, hzero, rfl⟩
  · have hok := h.bufs i
    refine ⟨?_, ?_, ?_, fun j hj => Bcache.setBuf_of_ne m hj _, rfl, fun _ => hcached⟩
    · have := h.setBuf_local (i := i) (n := waiters i + 1) (d := dirty i)
        { m.buf i with refcnt := (m.buf i).refcnt + 1 } (fun _ => Iff.rfl) id
        { hok with
          refs := by simp only [hok.refs]; omega
          waited := fun _ => hcached.1 } id
      rwa [update_eq_self] at this
    · rw [Bcache.setBuf_self]
      exact hcached
    · rw [Bcache.setBuf_self]
  · refine ⟨h.recycle hnew hzero, ?_, ?_, fun j hj => Bcache.setBuf_of_ne m hj _, rfl,
      fun hne => absurd hzero hne⟩
    · rw [Bcache.setBuf_self]
      exact ⟨rfl, rfl⟩
    · rw [Bcache.setBuf_self]

/-! ### `acquiresleep` and the rest of `bread` -/

omit h

theorem Bcache.acquiresleep_ok (hacq : m.acquiresleep p i = .ok m') :
    (m.buf i).holder = none ∧ m' = m.setBuf i { m.buf i with holder := some p } := by
  unfold Bcache.acquiresleep at hacq
  split at hacq
  · cases hacq
  · rename_i hnone
    cases hacq
    exact ⟨by simpa using hnone, rfl⟩

variable (h : CacheInv dev m store waiters pinned dirty)

include h

theorem CacheInv.disk_of_invalid (hdev : (m.buf i).dev = dev) (hvalid : (m.buf i).valid = false) :
    m.disk (m.buf i).blockno = store (m.buf i).blockno := by
  refine h.clean _ (fun hpin => ?_) (fun j hj hcaches => ?_)
  · obtain ⟨j, hj, hjv⟩ := h.pins _ hpin
    have heq := h.unique j i _ hj ⟨hdev, rfl⟩
    rw [heq, hvalid] at hjv
    exact absurd hjv (by simp)
  · have heq := h.unique j i _ hcaches ⟨hdev, rfl⟩
    have := ((h.bufs j).held ((h.bufs j).dirtyHeld hj)).2
    rw [heq, hvalid] at this
    exact absurd this (by simp)

theorem CacheInv.fill_eq (hdev : (m.buf i).dev = dev) :
    (m.setBuf i { m.buf i with holder := some p }).fill i = m.setBuf i
      { m.buf i with holder := some p, valid := true, data := store (m.buf i).blockno } := by
  unfold Bcache.fill
  rw [Bcache.setBuf_self]
  cases hvalid : (m.buf i).valid with
  | true =>
    have hdata := (h.bufs i).data hdev hvalid
    simp only [if_true, ← hdata, hvalid]
  | false =>
    have hdisk := h.disk_of_invalid hdev hvalid
    simp only [Bool.false_eq_true, if_false, Bcache.setBuf, update_idem, hdisk]

theorem CacheInv.lock (hw : 0 < waiters i) (hacq : m.acquiresleep p i = .ok m') :
    CacheInv dev (m'.fill i) store (update waiters i (waiters i - 1)) pinned dirty ∧
      m'.fill i = m.setBuf i
        { m.buf i with holder := some p, valid := true, data := store (m.buf i).blockno } := by
  obtain ⟨hfree, rfl⟩ := Bcache.acquiresleep_ok hacq
  have hok := h.bufs i
  have hdev := hok.waited hw
  rw [h.fill_eq hdev]
  refine ⟨?_, rfl⟩
  have := h.setBuf_local (i := i) (n := waiters i - 1) (d := dirty i)
    { m.buf i with holder := some p, valid := true, data := store (m.buf i).blockno }
    (fun _ => Iff.rfl) (fun _ => rfl)
    { refs := by
        have hrefs := hok.refs
        simp only [hfree, Option.isSome_none, Option.isSome_some, Bool.false_eq_true, if_false,
          if_true] at hrefs ⊢
        omega
      waited := fun _ => hdev
      held := fun _ => ⟨hdev, rfl⟩
      data := fun _ _ => rfl
      dirtyHeld := fun _ => rfl } id
  rwa [update_eq_self] at this

omit h

/-- What `bread` has done when it returns buffer `i` for block `b`. -/
structure BreadPost (dev : Nat) (store : Disk) (waiters : Fin NBUF → Nat) (p : P) (b : Nat)
    (m : Bcache P) (i : Fin NBUF) (m' : Bcache P) : Prop where
  free : (m.buf i).holder = none
  holder : (m'.buf i).holder = some p
  caches : (m'.buf i).Caches dev b
  data : (m'.buf i).data = store b
  others : ∀ j, j ≠ i → m'.buf j = m.buf j
  disk : m'.disk = m.disk
  -- A buffer that is awaited is not recycled.
  keeps : ∀ j c, 0 < waiters j → (m.buf j).Caches dev c → (m'.buf j).Caches dev c

variable (h : CacheInv dev m store waiters pinned dirty)

include h

/-- `bread` returns the block's contents in a buffer that was unlocked and is now locked by the
caller. -/
theorem CacheInv.bread (hread : m.bread p dev b = .ok (i, m')) :
    CacheInv dev m' store waiters pinned dirty ∧ BreadPost dev store waiters p b m i m' := by
  obtain ⟨⟨k, m1⟩, hget, hrest⟩ := Prog.bind_ok.mp hread
  obtain ⟨m2, hacq, hret⟩ := Prog.bind_ok.mp hrest
  cases hret
  obtain ⟨h1, hcaches, hholder, hothers, hdisk, hused⟩ := h.bget hget
  obtain ⟨h2, heq⟩ := h1.lock (by simp) hacq
  rw [update_self, Nat.add_sub_cancel, update_idem, update_eq_self]
    at h2
  refine ⟨h2, ?_, ?_, ?_, ?_, ?_, ?_, ?_⟩
  · rw [← hholder]
    exact (Bcache.acquiresleep_ok hacq).1
  · rw [heq, Bcache.setBuf_self]
  · rw [heq, Bcache.setBuf_self]
    exact hcaches
  · rw [heq, Bcache.setBuf_self, ← hcaches.2]
  · intro j hj
    rw [heq, Bcache.setBuf_of_ne _ hj, hothers j hj]
  · rw [heq]
    exact hdisk
  · intro j c hw hc
    by_cases hj : j = i
    · subst hj
      have hne : (m.buf j).refcnt ≠ 0 := by
        have := (h.bufs j).refs
        omega
      have hcb : b = c := (hused hne).2.symm.trans hc.2
      rw [heq, Bcache.setBuf_self, ← hcb]
      exact hcaches
    · rw [heq, Bcache.setBuf_of_ne _ hj, hothers j hj]
      exact hc

/-! ### Modifying, logging and releasing a locked buffer -/

theorem CacheInv.blockno_ne (hdev : (m.buf i).dev = dev) {j : Fin NBUF} (hj : j ≠ i)
    (hjdev : (m.buf j).dev = dev) :
    (m.buf j).blockno ≠ (m.buf i).blockno :=
  fun heq => hj (h.unique j i _ ⟨hjdev, heq⟩ ⟨hdev, rfl⟩)

theorem CacheInv.modify (hheld : (m.buf i).holder.isSome) (data : Block) :
    CacheInv dev (m.modify i data) (update store (m.buf i).blockno data) waiters pinned
      (update dirty i true) := by
  have hok := h.bufs i
  obtain ⟨hdev, hvalid⟩ := hok.held hheld
  have := h.setBuf (i := i) (n := waiters i) (d := true)
    (update store (m.buf i).blockno data) pinned { m.buf i with data := data } (fun _ => Iff.rfl) id
    { hok with
      data := fun _ _ => by simp
      dirtyHeld := fun _ => hheld }
    (fun j hj => { h.bufs j with
      data := fun hjdev hjv => by
        rw [update_of_ne (h.blockno_ne hdev hj hjdev)]
        exact (h.bufs j).data hjdev hjv })
    (fun b hb => .inl hb)
    (fun b hb hothers hi => by
      have hne : b ≠ (m.buf i).blockno := fun heq => hi rfl ⟨hdev, heq.symm⟩
      rw [update_of_ne hne]
      refine h.clean b hb fun j hj hc => ?_
      by_cases hji : j = i
      · subst hji
        exact hne hc.2.symm
      · exact hothers j hji hj hc)
  rwa [update_eq_self] at this

/-- A buffer whose block is pinned, or current on disk, need not count as dirty. -/
theorem CacheInv.undirty
    (hsafe : (m.buf i).blockno ∈ pinned ∨ m.disk (m.buf i).blockno = store (m.buf i).blockno) :
    CacheInv dev m store waiters pinned (update dirty i false) where
  __ := h
  bufs := by
    intro j
    by_cases hji : j = i
    · subst hji
      rw [update_self]
      exact { h.bufs j with dirtyHeld := by simp }
    · rw [update_of_ne hji]
      exact h.bufs j
  clean := by
    intro b hb hdirty
    by_cases hcase : (m.buf i).blockno = b
    · rw [hcase] at hsafe
      exact hsafe.resolve_left hb
    · refine h.clean b hb fun j hj hc => ?_
      by_cases hji : j = i
      · subst hji
        exact hcase hc.2
      · exact hdirty j (by rw [update_of_ne hji]; exact hj) hc

theorem CacheInv.bpin (hheld : (m.buf i).holder.isSome) (hnew : (m.buf i).blockno ∉ pinned) :
    CacheInv dev (m.bpin i) store waiters (insert (m.buf i).blockno pinned) dirty := by
  have hok := h.bufs i
  obtain ⟨hdev, hvalid⟩ := hok.held hheld
  have := h.setBuf (i := i) (n := waiters i) (d := dirty i) store
    (insert (m.buf i).blockno pinned) { m.buf i with refcnt := (m.buf i).refcnt + 1 } (fun _ => Iff.rfl) id
    { hok with
      refs := by
        have hrefs := hok.refs
        have hout : ¬ ((m.buf i).dev = dev ∧ (m.buf i).blockno ∈ pinned) := fun hc => hnew hc.2
        rw [if_neg hout] at hrefs
        simp only [mem_insert_self, and_true, hdev, if_true]
        omega }
    (fun j hj => { h.bufs j with
      refs := by
        have hne : (m.buf j).dev = dev → (m.buf j).blockno ≠ (m.buf i).blockno :=
          h.blockno_ne hdev hj
        have hiff : ((m.buf j).dev = dev ∧ (m.buf j).blockno ∈ insert (m.buf i).blockno pinned)
            ↔ ((m.buf j).dev = dev ∧ (m.buf j).blockno ∈ pinned) := by
          refine and_congr_right fun hjdev => ?_
          simp [mem_insert, hne hjdev]
        simp only [hiff]
        exact (h.bufs j).refs })
    (fun b hb => by
      rcases mem_insert.mp hb with rfl | hb
      · exact .inr ⟨⟨hdev, rfl⟩, hvalid⟩
      · exact .inl hb)
    (fun b hb hothers hi => by
      refine h.clean b (fun hmem => hb (mem_insert_of_mem hmem)) fun j hj hc => ?_
      by_cases hji : j = i
      · subst hji
        exact hb (by rw [← hc.2]; exact mem_insert_self ..)
      · exact hothers j hji hj hc)
  rwa [update_eq_self, update_eq_self] at this

theorem CacheInv.bunpin (hdev : (m.buf i).dev = dev) (hpin : (m.buf i).blockno ∈ pinned)
    (hdisk : m.disk (m.buf i).blockno = store (m.buf i).blockno) :
    CacheInv dev (m.bunpin i) store waiters (pinned.erase (m.buf i).blockno) dirty := by
  have hok := h.bufs i
  have := h.setBuf (i := i) (n := waiters i) (d := dirty i) store
    (pinned.erase (m.buf i).blockno) { m.buf i with refcnt := (m.buf i).refcnt - 1 } (fun _ => Iff.rfl) id
    { hok with
      refs := by
        have hrefs := hok.refs
        have hin : (m.buf i).dev = dev ∧ (m.buf i).blockno ∈ pinned := ⟨hdev, hpin⟩
        rw [if_pos hin] at hrefs
        simp only [notMem_erase, and_false, if_false]
        omega }
    (fun j hj => { h.bufs j with
      refs := by
        have hne : (m.buf j).dev = dev → (m.buf j).blockno ≠ (m.buf i).blockno :=
          h.blockno_ne hdev hj
        have hiff : ((m.buf j).dev = dev ∧ (m.buf j).blockno ∈ pinned.erase (m.buf i).blockno)
            ↔ ((m.buf j).dev = dev ∧ (m.buf j).blockno ∈ pinned) := by
          refine and_congr_right fun hjdev => ?_
          simp [mem_erase, hne hjdev]
        simp only [hiff]
        exact (h.bufs j).refs })
    (fun b hb => .inl (mem_of_mem_erase hb))
    (fun b hb hothers hi => by
      by_cases hcase : b = (m.buf i).blockno
      · rw [hcase]
        exact hdisk
      · refine h.clean b (fun hmem => hb (mem_erase.mpr ⟨hcase, hmem⟩)) fun j hj hc => ?_
        by_cases hji : j = i
        · subst hji
          exact hcase hc.2.symm
        · exact hothers j hji hj hc)
  rwa [update_eq_self, update_eq_self] at this

omit h

variable [DecidableEq P]

theorem Bcache.bwrite_ok (hwrite : m.bwrite p i = .ok m') :
    (m.buf i).holder = some p ∧
      m' = { m with disk := update m.disk (m.buf i).blockno (m.buf i).data } := by
  unfold Bcache.bwrite at hwrite
  split at hwrite
  · cases hwrite
  · rename_i hheld
    cases hwrite
    exact ⟨by simpa using hheld, rfl⟩

theorem CacheInv.bwrite (h : CacheInv dev m store waiters pinned dirty)
    (hwrite : m.bwrite p i = .ok m') :
    CacheInv dev m' store waiters pinned (update dirty i false) ∧
      (m.buf i).holder = some p ∧ m'.buf = m.buf ∧
      m'.disk = update m.disk (m.buf i).blockno (store (m.buf i).blockno) := by
  obtain ⟨hheld, rfl⟩ := Bcache.bwrite_ok hwrite
  obtain ⟨hdev, hvalid⟩ := (h.bufs i).held (by rw [hheld]; rfl)
  have hdata := (h.bufs i).data hdev hvalid
  refine ⟨?_, hheld, rfl, by rw [hdata]⟩
  refine CacheInv.undirty ⟨h.listed, h.unique, h.bufs, h.pins, ?_⟩ (.inr ?_)
  · intro b hb hdirty
    by_cases hcase : b = (m.buf i).blockno
    · rw [hcase]
      simpa using hdata
    · show update m.disk (m.buf i).blockno (m.buf i).data b = store b
      rw [update_of_ne hcase]
      exact h.clean b hb hdirty
  · simpa using hdata

theorem Bcache.brelse_ok (hrel : m.brelse p i = .ok m') :
    (m.buf i).holder = some p ∧
      m'.buf = (m.setBuf i
        { m.buf i with holder := none, refcnt := (m.buf i).refcnt - 1 }).buf ∧
      m'.disk = m.disk ∧ ∀ j, j ∈ m.lru → j ∈ m'.lru := by
  unfold Bcache.brelse at hrel
  split at hrel
  · cases hrel
  · rename_i hheld
    cases hrel
    refine ⟨by simpa using hheld, ?_⟩
    split
    · refine ⟨rfl, rfl, fun j hj => ?_⟩
      by_cases hji : j = i
      · simp [hji]
      · exact List.mem_cons_of_mem _ ((List.mem_erase_of_ne hji).mpr hj)
    · exact ⟨rfl, rfl, fun j hj => hj⟩

theorem CacheInv.brelse (h : CacheInv dev m store waiters pinned dirty)
    (hclean : dirty i = false) (hrel : m.brelse p i = .ok m') :
    CacheInv dev m' store waiters pinned dirty ∧ (m.buf i).holder = some p ∧
      m'.buf = (m.setBuf i
        { m.buf i with holder := none, refcnt := (m.buf i).refcnt - 1 }).buf ∧
      m'.disk = m.disk := by
  obtain ⟨hheld, hbuf, hdisk, hlru⟩ := Bcache.brelse_ok hrel
  have hok := h.bufs i
  have hset := h.setBuf_local (i := i) (n := waiters i) (d := dirty i)
    { m.buf i with holder := none, refcnt := (m.buf i).refcnt - 1 }
    (fun _ => Iff.rfl) id
    { refs := by
        have hrefs := hok.refs
        simp only [hheld, Option.isSome_some, if_true, Option.isSome_none, Bool.false_eq_true,
          if_false] at hrefs ⊢
        omega
      waited := hok.waited
      held := by simp
      data := hok.data
      dirtyHeld := by simp [hclean] } id
  rw [update_eq_self, update_eq_self] at hset
  refine ⟨⟨fun j => hlru j (h.listed j), ?_, ?_, ?_, ?_⟩, hheld, hbuf, hdisk⟩
  · rw [hbuf]
    exact hset.unique
  · rw [hbuf]
    exact hset.bufs
  · rw [hbuf]
    exact hset.pins
  · rw [hbuf, hdisk]
    exact hset.clean

end Calls

end Xv6
