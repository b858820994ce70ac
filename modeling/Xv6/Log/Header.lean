import Mathlib.Tactic
import Xv6.Block
import Xv6.Lib.Writes

/-!
# The on-disk log

`kernel/log.c` keeps a redo log in blocks `start .. start + size` of the disk: a header block with the
home block numbers of the logged blocks, then the logged contents in the same order. A header that is
written is read back (`getHeader_putHeader`), whatever stale entries lie behind it.
-/

namespace Xv6

open Function List

abbrev Disk : Type := Nat → Block

/-! ## `struct logheader` in a block

`struct logheader { int n; int block[LOGSIZE]; }` lies at the start of the header block:
word `0` is `n`, word `i + 1` is `block[i]`. The entries at and behind `n` are never read,
so the in-memory header is the list `block[0..n)`. -/

/-- The entries of the header in block `b`, as `read_head` copies them. -/
def getHeader (b : Block) : List Nat :=
  (List.range (b.word 0)).map fun i => b.word (i + 1)

/-- The loop of `write_head`: store the entries from index `i` on. -/
def putEntries (b : Block) (i : Nat) : List Nat → Block
  | [] => b
  | x :: xs => putEntries (b.setWord (i + 1) x) (i + 1) xs

/-- The header block after `write_head` has stored `n` and `block[0..n)` over `b`. -/
def putHeader (b : Block) (lh : List Nat) : Block :=
  putEntries (b.setWord 0 lh.length) 0 lh

variable {lh : List Nat} {b : Block}

theorem word_putEntries_of_le {i j : Nat} (hlen : 4 * (i + lh.length) + 4 ≤ BSIZE) (hj : j ≤ i) :
    (putEntries b i lh).word j = b.word j := by
  induction lh generalizing b i with
  | nil => rfl
  | cons x xs ih =>
    simp only [length_cons] at hlen
    rw [putEntries, ih (by omega) (by omega), Block.word_setWord_ne (by omega) (by omega)]

theorem word_putEntries {i k : Nat} (hlen : 4 * (i + lh.length) + 4 ≤ BSIZE)
    (huint : ∀ x ∈ lh, x < 2 ^ 32) (hk : k < lh.length) :
    (putEntries b i lh).word (i + k + 1) = lh[k] := by
  induction lh generalizing b i k with
  | nil => simp at hk
  | cons x xs ih =>
    simp only [length_cons] at hlen hk
    cases k with
    | zero =>
      rw [putEntries, word_putEntries_of_le (by omega) (by omega),
        Block.word_setWord (by omega) (huint x (by simp))]
      rfl
    | succ k =>
      have h := ih (b := b.setWord (i + 1) x) (i := i + 1) (k := k) (by omega)
        (fun y hy => huint y (by simp [hy])) (by omega)
      rw [putEntries, show i + (k + 1) + 1 = i + 1 + k + 1 from by omega, h]
      rfl

theorem getHeader_putHeader (hlen : lh.length ≤ LOGSIZE) (huint : ∀ x ∈ lh, x < 2 ^ 32) :
    getHeader (putHeader b lh) = lh := by
  have hfit : 4 * (0 + lh.length) + 4 ≤ BSIZE := by
    simp only [LOGSIZE, MAXOPBLOCKS, BSIZE] at hlen ⊢
    omega
  have hcount : (putHeader b lh).word 0 = lh.length := by
    rw [putHeader, word_putEntries_of_le hfit le_rfl, Block.word_setWord (by omega)]
    simp only [LOGSIZE, MAXOPBLOCKS] at hlen
    omega
  refine ext_getElem (by simp [getHeader, hcount]) fun k hk hk' => ?_
  have hentry := word_putEntries (b := b.setWord 0 lh.length) hfit huint hk'
  rw [Nat.zero_add] at hentry
  simpa [getHeader, putHeader] using hentry

/-! ## The log area -/

/-- Where the log lies on the disk (`log.start`, `log.size`). The size counts the header, so
it is not zero. -/
structure LogArea where
  start : Nat
  size : Nat
  pos : 0 < size

/-- A block outside the log area: the home location of some file system block. -/
def LogArea.Home (L : LogArea) (b : Nat) : Prop := b < L.start ∨ L.start + L.size ≤ b

instance (L : LogArea) (b : Nat) : Decidable (L.Home b) :=
  inferInstanceAs (Decidable (_ ∨ _))

def LogArea.HomeEq (L : LogArea) (d d' : Disk) : Prop := ∀ b, L.Home b → d b = d' b

/-- The block that holds the contents of log entry `i` (`log.start + tail + 1`). -/
def LogArea.slot (L : LogArea) (i : Nat) : Nat := L.start + i + 1

def LogArea.header (L : LogArea) (d : Disk) : List Nat := getHeader (d L.start)

/-- The writes the log on disk stands for: entry `i` of the header with slot `i`. -/
def LogArea.logged (L : LogArea) (d : Disk) : List (Nat × Block) :=
  (L.header d).zipIdx.map fun e => (e.1, d (L.slot e.2))

/-- The disk with the logged writes performed: what recovery makes of it. It does not move while the
log is written under an empty header (`recovered_slot`) and while logged contents are copied home
(`recovered_install`), and moves by exactly the logged group when the header is written. -/
def LogArea.recovered (L : LogArea) (d : Disk) : Disk := Writes.perform (L.logged d) d

/-- The header names home blocks and has a slot in the log area for each. -/
structure LogArea.HeaderOk (L : LogArea) (d : Disk) : Prop where
  home : ∀ b ∈ L.header d, L.Home b
  fits : (L.header d).length < L.size
  nodup : (L.header d).Nodup

theorem LogArea.slot_ne_home {L : LogArea} {b i : Nat} (hb : L.Home b) (hi : i + 1 < L.size) : L.slot i ≠ b := by
  simp only [LogArea.slot]
  rcases hb with hb | hb <;> omega

namespace LogArea

variable {L : LogArea} {d : Disk}

theorem length_logged : (L.logged d).length = (L.header d).length := by
  simp [logged]

theorem addrs_logged : Writes.addrs (L.logged d) = L.header d := by
  rw [Writes.addrs, logged, map_map]
  exact zipIdx_map_fst 0 _

theorem recovered_of_header_nil (h : L.header d = []) : L.recovered d = d := by
  simp [recovered, logged, h]

theorem logged_congr {d' : Disk} (hhead : d' L.start = d L.start)
    (hslot : ∀ i, i < (L.header d).length → d' (L.slot i) = d (L.slot i)) :
    L.logged d' = L.logged d := by
  have hheader : L.header d' = L.header d := by rw [header, hhead]; rfl
  rw [logged, logged, hheader]
  refine map_congr_left fun e he => ?_
  have hlt : e.2 < (L.header d).length := by
    have := snd_lt_of_mem_zipIdx he
    simpa using this
  rw [hslot e.2 hlt]

theorem logged_update_home (hok : L.HeaderOk d) {b : Nat} (hb : L.Home b) (v : Block) :
    L.logged (update d b v) = L.logged d := by
  have hfits := hok.fits
  refine logged_congr (update_of_ne ?_ _ _) fun i hi => update_of_ne ?_ _ _
  · rcases hb with hb | hb <;> omega
  · simp only [slot]
    rcases hb with hb | hb <;> omega

theorem header_update_of_ne {b : Nat} (hb : b ≠ L.start) (v : Block) :
    L.header (update d b v) = L.header d := by
  rw [header, update_of_ne (Ne.symm hb)]
  rfl

/-- Writing a slot under an empty header does not change what the disk recovers to. -/
theorem recovered_slot (hnil : L.header d = []) {i : Nat} (hi : i + 1 < L.size) (v : Block) :
    L.HomeEq (L.recovered (update d (L.slot i) v)) (L.recovered d) := by
  intro b hb
  have hne : L.slot i ≠ L.start := by simp only [slot]; omega
  rw [recovered_of_header_nil hnil,
    recovered_of_header_nil (by rw [header_update_of_ne hne, hnil])]
  refine update_of_ne ?_ _ _
  simp only [slot]
  rcases hb with hb | hb <;> omega

/-- Copying the contents of log entry `i` home does not change what the disk recovers to. -/
theorem recovered_install (hok : L.HeaderOk d) {i : Nat} (hi : i < (L.header d).length) :
    L.recovered (update d (L.header d)[i] (d (L.slot i))) = L.recovered d := by
  have hmem : (L.header d)[i] ∈ L.header d := getElem_mem hi
  rw [recovered, logged_update_home hok (hok.home _ hmem), recovered,
    Writes.perform_update_of_mem (by rw [addrs_logged]; exact hmem)]

/-- A disk on which every log entry has been copied home is what it recovers to. -/
theorem recovered_of_installed (hok : L.HeaderOk d)
    (h : ∀ i (hi : i < (L.header d).length), d (L.header d)[i] = d (L.slot i)) :
    L.recovered d = d := by
  have hget : ∀ i (hi : i < (L.logged d).length), d ((L.logged d)[i]).1 = ((L.logged d)[i]).2 := by
    intro i hi
    rw [length_logged] at hi
    simpa [logged] using h i hi
  have hnodup : (Writes.addrs (L.logged d)).Nodup := by rw [addrs_logged]; exact hok.nodup
  funext b
  by_cases hb : b ∈ Writes.addrs (L.logged d)
  · obtain ⟨w, hw, rfl⟩ := mem_map.mp hb
    obtain ⟨i, hi, rfl⟩ := getElem_of_mem hw
    rw [recovered, Writes.perform_getElem hnodup, hget i hi]
  · rw [recovered, Writes.perform_of_notMem hb]

/-- **The commit point.** Once the slots hold the contents of `ws`, writing a header with the
home blocks of `ws` makes the log stand for exactly `ws`. -/
theorem logged_putHeader {ws : List (Nat × Block)} (hlen : ws.length ≤ LOGSIZE)
    (huint : ∀ b ∈ Writes.addrs ws, b < 2 ^ 32)
    (hslot : ∀ i (hi : i < ws.length), d (L.slot i) = (ws[i]).2) (b : Block) :
    L.logged (update d L.start (putHeader b (Writes.addrs ws))) = ws := by
  have hheader : L.header (update d L.start (putHeader b (Writes.addrs ws)))
      = Writes.addrs ws := by
    rw [header, update_self]
    exact getHeader_putHeader (by simpa [Writes.addrs] using hlen) huint
  have hlength : (L.logged (update d L.start (putHeader b (Writes.addrs ws)))).length
      = ws.length := by
    rw [length_logged, hheader]
    simp [Writes.addrs]
  refine ext_getElem hlength fun i hi hi' => ?_
  have hne : L.slot i ≠ L.start := by simp only [slot]; omega
  have hentry : (L.header (update d L.start (putHeader b (Writes.addrs ws))))[i]?
      = some (ws[i]).1 := by
    rw [hheader]
    simp [Writes.addrs, hi']
  obtain ⟨hlt, hentry⟩ := List.getElem?_eq_some_iff.mp hentry
  simp [logged, hentry, update_of_ne hne, hslot i hi']

theorem homeEq_update_start (v : Block) : L.HomeEq (update d L.start v) d := by
  intro b hb
  have hpos := L.pos
  refine update_of_ne ?_ _ _
  rcases hb with hb | hb <;> omega

end LogArea

end Xv6
