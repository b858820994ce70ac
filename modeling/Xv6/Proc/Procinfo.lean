import Xv6.Lib.Bytes
import Xv6.Proc.Table

/-!
# `procinfo`

The system call `getprocs`: `procinfo` fills a `struct pstat` on the kernel stack for every entry of
the process table that is in use, and copies it to the user. The fields `priority`, `readytime` and
`cputime` are never assigned, so the user sees what the stack held there.
-/

namespace Xv6

open Function List

/-- What `procinfo` reads of a `struct proc`. -/
structure PsProc extends Proc where
  sz : UInt64
  name : Fin 16 → UInt8

abbrev PsTable : Type := Fin NPROC → PsProc

def ProcState.code : ProcState → Nat
  | .UNUSED => 0
  | .USED => 1
  | .SLEEPING => 2
  | .RUNNABLE => 3
  | .RUNNING => 4
  | .ZOMBIE => 5

inductive PstatField where
  | priority
  | pid
  | state
  | size
  | ppid
  | name
  | readytime
  | cputime
  deriving DecidableEq

namespace PstatField

/-- Where the field is; `size` is aligned to 8 bytes. -/
def off : PstatField → Nat
  | priority => 0
  | pid => 4
  | state => 8
  | size => 16
  | ppid => 24
  | name => 28
  | readytime => 44
  | cputime => 48

def width : PstatField → Nat
  | size => 8
  | name => 16
  | _ => 4

def nameByte (p : PsProc) (j : Nat) : UInt8 := if h : j < 16 then p.name ⟨j, h⟩ else 0

/-- What the field is to be for the process in entry `i`; an array is read as a number, too. -/
def value (table : PsTable) (i : Fin NPROC) : PstatField → Nat
  | priority => (table i).priority.toUInt32.toNat
  | pid => (table i).pid.toUInt32.toNat
  | state => (table i).state.code
  | size => (table i).sz.toNat
  | ppid =>
    match (table i).parent with
    | some q => (table q).pid.toUInt32.toNat
    | none => 0
  | name => Bytes.getLE (nameByte (table i)) 0 16
  | readytime => (table i).readytime.toUInt32.toNat
  | cputime => (table i).cputime.toUInt32.toNat

def Assigned : PstatField → Prop
  | priority | readytime | cputime => False
  | _ => True

instance : DecidablePred Assigned := fun f => by
  cases f <;> unfold Assigned <;> infer_instance

def word (f : PstatField) (bytes : Nat → UInt8) : Nat := Bytes.getLE bytes f.off f.width

end PstatField

def PSTATSIZE : Nat := 56

/-- The assignments of one round of the loop, on the bytes of the structure. -/
def fill (table : PsTable) (i : Fin NPROC) (bytes : Nat → UInt8) : Nat → UInt8 :=
  let put (f : PstatField) (bytes : Nat → UInt8) := Bytes.putLE bytes f.off f.width (f.value table i)
  let bytes := put .pid bytes
  let bytes := put .state bytes
  let bytes := put .size bytes
  let bytes := put .ppid bytes
  Bytes.blit bytes PstatField.name.off 16 (PstatField.nameByte (table i))

/-- `copyout` of `n` bytes from `src` on: whether all could be stored, and the user's memory. -/
def copyoutBytes (mapped : UInt64 → Bool) (addr : UInt64) (src : Nat → UInt8) :
    Nat → Nat → (UInt64 → UInt8) → Bool × (UInt64 → UInt8)
  | 0, _, m => (true, m)
  | n + 1, j, m =>
    if mapped (addr + UInt64.ofNat j) then
      copyoutBytes mapped addr src n (j + 1)
        (update m (addr + UInt64.ofNat j) (src j))
    else
      (false, m)

/-- The loop of `procinfo` over the rest of the table; `bytes` is the structure on the kernel stack. -/
def procinfoLoop (mapped : UInt64 → Bool) (table : PsTable) :
    List (Fin NPROC) → (Nat → UInt8) → UInt64 → Int → (UInt64 → UInt8) → Int × (UInt64 → UInt8)
  | [], _, _, nprocs, m => (nprocs, m)
  | i :: rest, bytes, addr, nprocs, m =>
    if (table i).state = .UNUSED then
      procinfoLoop mapped table rest bytes addr nprocs m
    else
      let bytes := fill table i bytes
      match copyoutBytes mapped addr bytes PSTATSIZE 0 m with
      | (false, m) => (-1, m)
      | (true, m) =>
        procinfoLoop mapped table rest bytes (addr + UInt64.ofNat PSTATSIZE) (nprocs + 1) m

/-- `procinfo(addr)`, when the kernel stack holds `stack` where the structure is and the user's memory
is `m`: what is returned, and the user's memory. -/
def procinfo (mapped : UInt64 → Bool) (table : PsTable) (addr : UInt64) (stack : Nat → UInt8)
    (m : UInt64 → UInt8) : Int × (UInt64 → UInt8) :=
  procinfoLoop mapped table (List.finRange NPROC) stack addr 0 m

/-! ## What the user sees -/

def inUse (table : PsTable) : List (Fin NPROC) :=
  (List.finRange NPROC).filter fun i => (table i).state ≠ .UNUSED

/-- Field `f` of the structure at `addr` in the user's memory. -/
def seen (m : UInt64 → UInt8) (addr : UInt64) (f : PstatField) : Nat :=
  f.word fun j => m (addr + UInt64.ofNat j)

/-- The address of structure `k` of the array. -/
def pstatAddr (addr : UInt64) (k : Nat) : UInt64 := addr + UInt64.ofNat (PSTATSIZE * k)

/-- The count of the processes is returned, and the array holds their fields. -/
structure Reports (table : PsTable) (addr : UInt64) (res : Int × (UInt64 → UInt8)) : Prop where
  count : res.1 = (inUse table).length
  fields : ∀ k i, (inUse table)[k]? = some i → ∀ f : PstatField,
    seen res.2 (pstatAddr addr k) f = f.value table i

def Agree (table : PsTable) (addr : UInt64) (m₁ m₂ : UInt64 → UInt8) : Prop :=
  ∀ k, k < (inUse table).length → ∀ f : PstatField,
    seen m₁ (pstatAddr addr k) f = seen m₂ (pstatAddr addr k) f

/-! ## One record -/

section Record

variable {table : PsTable} {i : Fin NPROC}

theorem PstatField.value_lt (f : PstatField) : f.value table i < 256 ^ f.width := by
  cases f with
  | size => exact (table i).sz.toNat_lt
  | state => cases h : (table i).state <;> simp [value, h, ProcState.code, width]
  | ppid =>
    unfold value
    dsimp only
    split
    · exact UInt32.toNat_lt _
    · decide
  | name => exact Bytes.getLE_lt ..
  | _ => exact UInt32.toNat_lt _

theorem PstatField.disjoint {f g : PstatField} (h : f ≠ g) :
    f.off + f.width ≤ g.off ∨ g.off + g.width ≤ f.off := by
  revert h
  cases f <;> cases g <;> decide

theorem word_put (f g : PstatField) (bytes : Nat → UInt8) :
    f.word (Bytes.putLE bytes g.off g.width (g.value table i))
      = if f = g then g.value table i else f.word bytes := by
  unfold PstatField.word
  split
  · rename_i heq
    rw [heq, Bytes.getLE_putLE, Nat.mod_eq_of_lt g.value_lt]
  · rename_i hne
    exact Bytes.getLE_putLE_disjoint (PstatField.disjoint hne)

theorem word_name (f : PstatField) (bytes : Nat → UInt8) :
    f.word (Bytes.blit bytes PstatField.name.off 16 (PstatField.nameByte (table i)))
      = if f = .name then PstatField.name.value table i else f.word bytes := by
  unfold PstatField.word
  split
  · rename_i heq
    rw [heq]
    exact Bytes.getLE_blit ..
  · rename_i hne
    exact Bytes.getLE_blit_disjoint (PstatField.disjoint hne)

theorem word_fill (f : PstatField) (bytes : Nat → UInt8) :
    f.word (fill table i bytes) = if f.Assigned then f.value table i else f.word bytes := by
  unfold fill
  dsimp only
  rw [word_name, word_put, word_put, word_put, word_put]
  cases f <;> rfl

theorem PSTATSIZE_fields (f : PstatField) : f.off + f.width ≤ PSTATSIZE := by
  cases f <;> decide

end Record

/-! ## One copy -/

section Copy

variable {mapped : UInt64 → Bool} {addr : UInt64} {src : Nat → UInt8}

def dist (addr a : UInt64) : Nat := (a - addr).toNat

theorem dist_add {j : Nat} (hj : j < 2 ^ 64) : dist addr (addr + UInt64.ofNat j) = j :=
  Bytes.toNat_add_ofNat_sub addr hj

theorem eq_add_dist (addr a : UInt64) : a = addr + UInt64.ofNat (dist addr a) := by
  have h1 := addr.toNat_lt
  have h2 := a.toNat_lt
  apply UInt64.toNat_inj.mp
  unfold dist
  rw [UInt64.toNat_add, UInt64.toNat_ofNat', UInt64.toNat_sub]
  omega

theorem copyoutBytes_ok (n j : Nat) (m : UInt64 → UInt8) (hn : j + n < 2 ^ 64)
    (hmapped : ∀ q, j ≤ q → q < j + n → mapped (addr + UInt64.ofNat q) = true) :
    copyoutBytes mapped addr src n j m
      = (true, fun a => if j ≤ dist addr a ∧ dist addr a < j + n then src (dist addr a) else m a) := by
  induction n generalizing j m with
  | zero =>
    unfold copyoutBytes
    congr 1
    funext a
    rw [if_neg (by omega)]
  | succ n ih =>
    unfold copyoutBytes
    rw [if_pos (hmapped j le_rfl (by omega)), ih (j + 1) _ (by omega) fun q hq hlt =>
      hmapped q (by omega) (by omega)]
    congr 1
    funext a
    by_cases hj : dist addr a = j
    · rw [if_neg (by omega), if_pos (by omega), hj]
      rw [eq_add_dist addr a, hj, update_self]
    · have hne : a ≠ addr + UInt64.ofNat j := by
        rintro rfl
        exact hj (dist_add (by omega))
      rw [update_of_ne hne]
      by_cases hin : j + 1 ≤ dist addr a ∧ dist addr a < j + 1 + n
      · rw [if_pos hin, if_pos (by omega)]
      · rw [if_neg hin, if_neg (by omega)]

end Copy

/-! ## The loop -/

section Loop

variable {mapped : UInt64 → Bool} {table : PsTable}

/-- What a user sees of a record that was filled when the structure held `stack`. -/
def shown (table : PsTable) (stack : Nat → UInt8) (i : Fin NPROC) (f : PstatField) : Nat :=
  if f.Assigned then f.value table i else f.word stack

structure LoopDone (table : PsTable) (l : List (Fin NPROC)) (stack : Nat → UInt8) (addr : UInt64)
    (nprocs : Int) (m : UInt64 → UInt8) (res : Int × (UInt64 → UInt8)) : Prop where
  count : res.1 = nprocs + (l.filter fun i => (table i).state ≠ .UNUSED).length
  fields : ∀ k i, (l.filter fun i => (table i).state ≠ .UNUSED)[k]? = some i → ∀ f : PstatField,
    seen res.2 (pstatAddr addr k) f = shown table stack i f
  rest : ∀ a, PSTATSIZE * (l.filter fun i => (table i).state ≠ .UNUSED).length ≤ dist addr a →
    res.2 a = m a

theorem shown_fill (stack : Nat → UInt8) (i j : Fin NPROC) (f : PstatField) :
    shown table (fill table i stack) j f = shown table stack j f := by
  unfold shown
  rw [word_fill]
  split <;> rfl

theorem pstatAddr_succ (addr : UInt64) (k : Nat) :
    pstatAddr (addr + UInt64.ofNat PSTATSIZE) k = pstatAddr addr (k + 1) := by
  unfold pstatAddr
  rw [Nat.mul_succ, UInt64.ofNat_add, UInt64.add_assoc, UInt64.add_comm (UInt64.ofNat PSTATSIZE)]

theorem dist_next (addr a : UInt64) : dist (addr + UInt64.ofNat PSTATSIZE) a
    = if PSTATSIZE ≤ dist addr a then dist addr a - PSTATSIZE
      else dist addr a + (2 ^ 64 - PSTATSIZE) := by
  have h1 := addr.toNat_lt
  have h2 := a.toNat_lt
  unfold dist PSTATSIZE
  simp only [UInt64.toNat_sub, UInt64.toNat_add, UInt64.toNat_ofNat']
  split <;> omega

theorem LoopDone.cons {l : List (Fin NPROC)} {stack : Nat → UInt8} {addr : UInt64} {nprocs : Int}
    {m m1 : UInt64 → UInt8} {res : Int × (UInt64 → UInt8)} {i : Fin NPROC}
    (hused : (table i).state ≠ .UNUSED) (hsmall : PSTATSIZE * (l.length + 1) < 2 ^ 64)
    (hm1 : m1 = fun a => if 0 ≤ dist addr a ∧ dist addr a < 0 + PSTATSIZE then
      fill table i stack (dist addr a) else m a)
    (h : LoopDone table l (fill table i stack) (addr + UInt64.ofNat PSTATSIZE) (nprocs + 1) m1 res) :
    LoopDone table (i :: l) stack addr nprocs m res := by
  rw [Nat.mul_succ] at hsmall
  have hfilter : (i :: l).filter (fun i => (table i).state ≠ .UNUSED)
      = i :: l.filter fun i => (table i).state ≠ .UNUSED :=
    filter_cons_of_pos (by simpa using hused)
  have hlen := length_filter_le (fun i => decide ((table i).state ≠ .UNUSED)) l
  have hsize : PSTATSIZE * (l.filter fun i => (table i).state ≠ .UNUSED).length
      ≤ PSTATSIZE * l.length := Nat.mul_le_mul_left _ hlen
  refine ⟨?_, fun k j hk f => ?_, fun a ha => ?_⟩
  · rw [hfilter, h.count, length_cons]
    push_cast
    omega
  · rw [hfilter] at hk
    cases k with
    | zero =>
      obtain rfl : i = j := by simpa using hk
      -- the records after it leave it alone
      have hrec : seen res.2 (pstatAddr addr 0) f = f.word (fill table i stack) := by
        refine Bytes.getLE_congr fun q _ hq => ?_
        have hlt := hq.trans_le (PSTATSIZE_fields f)
        have haddr : pstatAddr addr 0 = addr := UInt64.add_zero addr
        have hdist : dist addr (addr + UInt64.ofNat q) = q := dist_add (hlt.trans (by decide))
        have hfar := dist_next addr (addr + UInt64.ofNat q)
        rw [hdist, if_neg (by omega)] at hfar
        rw [haddr, h.rest _ (by rw [hfar]; omega), hm1]
        dsimp only
        rw [hdist, if_pos (by omega)]
      rw [hrec, word_fill]
      rfl
    | succ k =>
      rw [List.getElem?_cons_succ] at hk
      rw [← pstatAddr_succ, h.fields k j hk f, shown_fill]
  · rw [hfilter, length_cons, Nat.mul_succ] at ha
    have hnext := dist_next addr a
    rw [if_pos (by omega)] at hnext
    rw [h.rest a (by omega), hm1]
    exact if_neg (by omega)

theorem procinfoLoop_done (l : List (Fin NPROC)) (stack : Nat → UInt8) (addr : UInt64)
    (nprocs : Int) (m : UInt64 → UInt8) (hsmall : PSTATSIZE * l.length < 2 ^ 64)
    (hmapped : ∀ q, q < PSTATSIZE * (l.filter fun i => (table i).state ≠ .UNUSED).length →
      mapped (addr + UInt64.ofNat q) = true) :
    LoopDone table l stack addr nprocs m (procinfoLoop mapped table l stack addr nprocs m) := by
  induction l generalizing stack addr nprocs m with
  | nil => exact ⟨by simp [procinfoLoop], fun k i hk => by simp at hk, fun _ _ => rfl⟩
  | cons i l ih =>
    rw [length_cons, Nat.mul_succ] at hsmall
    unfold procinfoLoop
    by_cases hunused : (table i).state = .UNUSED
    · have hfilter : (i :: l).filter (fun i => (table i).state ≠ .UNUSED)
          = l.filter fun i => (table i).state ≠ .UNUSED :=
        filter_cons_of_neg (by simpa using hunused)
      rw [if_pos hunused]
      rw [hfilter] at hmapped
      have hrest := ih stack addr nprocs m (by omega) hmapped
      exact ⟨hfilter ▸ hrest.count, hfilter ▸ hrest.fields, hfilter ▸ hrest.rest⟩
    · have hfilter : (i :: l).filter (fun i => (table i).state ≠ .UNUSED)
          = i :: l.filter fun i => (table i).state ≠ .UNUSED :=
        filter_cons_of_pos (by simpa using hunused)
      rw [hfilter, length_cons, Nat.mul_succ] at hmapped
      rw [if_neg hunused]
      dsimp only
      rw [copyoutBytes_ok PSTATSIZE 0 m (by decide) fun q _ hq => hmapped q (by omega)]
      refine .cons hunused (by rwa [Nat.mul_succ]) rfl (ih _ _ _ _ (by omega) fun q hq => ?_)
      have haddr : addr + UInt64.ofNat PSTATSIZE + UInt64.ofNat q
          = addr + UInt64.ofNat (q + PSTATSIZE) := by
        rw [UInt64.ofNat_add, UInt64.add_assoc, UInt64.add_comm (UInt64.ofNat q)]
      rw [haddr]
      exact hmapped _ (by omega)

end Loop

/-! ## The call -/

theorem procinfo_done {mapped : UInt64 → Bool} {table : PsTable} {addr : UInt64}
    (hroom : ∀ q, q < PSTATSIZE * (inUse table).length → mapped (addr + UInt64.ofNat q) = true)
    (stack : Nat → UInt8) (m : UInt64 → UInt8) :
    LoopDone table (List.finRange NPROC) stack addr 0 m (procinfo mapped table addr stack m) :=
  procinfoLoop_done _ stack addr 0 m (by rw [length_finRange]; decide) hroom

/-- **What `getprocs` reports.** For a buffer that has room for all records, the user sees the process
table, and sees the same whatever the kernel stack held, exactly when the stack happens to hold the
values of the fields that are not assigned. -/
theorem procinfo_reports_iff {mapped : UInt64 → Bool} {table : PsTable} {addr : UInt64}
    (hroom : ∀ q, q < PSTATSIZE * (inUse table).length → mapped (addr + UInt64.ofNat q) = true)
    (stack₁ stack₂ : Nat → UInt8) (m : UInt64 → UInt8) :
    (Reports table addr (procinfo mapped table addr stack₁ m) ∧
      Agree table addr (procinfo mapped table addr stack₁ m).2
        (procinfo mapped table addr stack₂ m).2) ↔
    ∀ i, (table i).state ≠ .UNUSED → ∀ f : PstatField, ¬ f.Assigned →
      f.word stack₁ = f.value table i ∧ f.word stack₂ = f.word stack₁ := by
  have h1 := procinfo_done hroom stack₁ m
  have h2 := procinfo_done hroom stack₂ m
  constructor
  · -- a field that is not assigned shows the stack, in both calls
    rintro ⟨hreports, hagree⟩ i hused f hf
    have hmem : i ∈ inUse table := mem_filter.mpr ⟨mem_finRange i, by simpa using hused⟩
    obtain ⟨k, hk⟩ := mem_iff_getElem?.mp hmem
    obtain ⟨hlt, -⟩ := List.getElem?_eq_some_iff.mp hk
    have hseen := hreports.fields k i hk f
    have hsame := hagree k hlt f
    rw [h1.fields k i hk f, shown, if_neg hf] at hseen
    rw [h1.fields k i hk f, h2.fields k i hk f, shown, shown, if_neg hf, if_neg hf] at hsame
    exact ⟨hseen, hsame.symm⟩
  · intro hstack
    -- assigned fields show the table in any case, the others by what the stack holds
    have hshown : ∀ (k : Nat) i, (inUse table)[k]? = some i → ∀ f : PstatField,
        shown table stack₁ i f = f.value table i ∧ shown table stack₂ i f = shown table stack₁ i f := by
      intro k i hk f
      have hused := (mem_filter.mp (mem_of_getElem? hk)).2
      unfold shown
      by_cases hf : f.Assigned
      · rw [if_pos hf, if_pos hf]
        exact ⟨rfl, rfl⟩
      · rw [if_neg hf, if_neg hf]
        exact hstack i (by simpa using hused) f hf
    refine ⟨⟨?_, fun k i hk f => ?_⟩, fun k hk f => ?_⟩
    · rw [h1.count, zero_add]
      rfl
    · rw [h1.fields k i hk f]
      exact (hshown k i hk f).1
    · have hget : (inUse table)[k]? = some (inUse table)[k] := List.getElem?_eq_getElem hk
      rw [h1.fields k _ hget f, h2.fields k _ hget f]
      exact (hshown k _ hget f).2.symm

def onePs : PsTable := fun i =>
  { state := if i = 0 then .RUNNING else .UNUSED
    chan := .null, killed := false, xstate := 0
    pid := if i = 0 then 1 else 0
    cputime := 0, priority := 3, readytime := 0, parent := none, sz := 4096, name := fun _ => 0 }

theorem procinfo_reports_iff_one :
    (Reports onePs 0 (procinfo (fun _ => true) onePs 0 (fun _ => 0) fun _ => 0) ∧
      Agree onePs 0 (procinfo (fun _ => true) onePs 0 (fun _ => 0) fun _ => 0).2
        (procinfo (fun _ => true) onePs 0 (fun _ => 7) fun _ => 0).2) ↔
    ∀ i, (onePs i).state ≠ .UNUSED → ∀ f : PstatField, ¬ f.Assigned →
      f.word (fun _ => 0) = f.value onePs i ∧ f.word (fun _ => 7) = f.word fun _ => 0 :=
  procinfo_reports_iff (fun _ _ => rfl) (fun _ => 0) (fun _ => 7) fun _ => 0

/-- The user sees priority 0 for a process with priority 3, or another number if the kernel stack held
something else. -/
theorem procinfo_shows_stack :
    PstatField.priority.value onePs 0 = 3 ∧
    seen (procinfo (fun _ => true) onePs 0 (fun _ => 0) fun _ => 0).2 0 .priority = 0 ∧
    seen (procinfo (fun _ => true) onePs 0 (fun _ => 7) fun _ => 0).2 0 .priority = 0x07070707 ∧
    ¬ Reports onePs 0 (procinfo (fun _ => true) onePs 0 (fun _ => 0) fun _ => 0) ∧
    ¬ Agree onePs 0 (procinfo (fun _ => true) onePs 0 (fun _ => 0) fun _ => 0).2
      (procinfo (fun _ => true) onePs 0 (fun _ => 7) fun _ => 0).2 := by
  have hone : (inUse onePs)[0]? = some 0 := by decide
  have hseen : ∀ b : UInt8, seen (procinfo (fun _ => true) onePs 0 (fun _ => b) fun _ => 0).2 0
      .priority = PstatField.priority.word fun _ => b := by
    intro b
    exact (procinfo_done (fun _ _ => rfl) (fun _ => b) _).fields 0 0 hone .priority
  have h0 := (hseen 0).trans (show _ = 0 by decide)
  have h7 := (hseen 7).trans (show _ = 0x07070707 by decide)
  refine ⟨by decide, h0, h7, fun hreports => ?_, fun hagree => ?_⟩
  · have := hreports.fields 0 0 hone .priority
    exact absurd (h0.symm.trans this) (by decide)
  · have := hagree 0 (by decide) .priority
    exact absurd (h0.symm.trans (this.trans h7)) (by decide)

end Xv6
