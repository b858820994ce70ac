import Xv6.Exec.Load

/-!
# The stack of a new program

`exec` pushes the strings of the arguments and then the array of pointers to them. `places` says
where the strings go, computed as the source computes it; as long as every place lies in the stack
page no subtraction wraps around, so the strings lie below one another.
-/

namespace Xv6

open Prog Radix ExecM List

/-! ## Strings -/

structure IsString (pg : Page) (str : List UInt8) : Prop where
  short : str.length < PGSIZE
  bytes : ∀ j, j < str.length → pg j = str.getD j 0
  nul : pg str.length = 0
  text : (0 : UInt8) ∉ str

theorem getD_ne_zero {str : List UInt8} (h : (0 : UInt8) ∉ str) {j : Nat} (hj : j < str.length) :
    str.getD j 0 ≠ 0 := by
  rw [getD_eq_getElem?_getD, List.getElem?_eq_getElem hj, Option.getD_some]
  exact fun heq => h (heq ▸ getElem_mem hj)

namespace IsString

variable {pg : Page} {str : List UInt8}

theorem byte (h : IsString pg str) {j : Nat} (hj : j ≤ str.length) : pg j = str.getD j 0 := by
  rcases hj.lt_or_eq with hlt | rfl
  · exact h.bytes j hlt
  · rw [h.nul, getD_eq_getElem?_getD, List.getElem?_eq_none le_rfl, Option.getD_none]

theorem strlenFrom_eq (h : IsString pg str) {n i : Nat} (hi : i ≤ str.length) (hn : str.length < i + n) :
    strlenFrom pg n i = some str.length := by
  induction n generalizing i with
  | zero => omega
  | succ n ih =>
    unfold strlenFrom
    rcases hi.lt_or_eq with hlt | rfl
    · rw [if_neg (h.bytes i hlt ▸ getD_ne_zero h.text hlt)]
      exact ih hlt (by omega)
    · rw [if_pos h.nul]

end IsString

theorem wp_strlen {E : ExecPanic → Prop} {s : ExecSys} {p : Nat} {str : List UInt8}
    {Q : Nat → ExecSys → Prop} (h : IsString (s.vm.mem p) str) (hQ : Q str.length s) :
    wp E (strlen p) Q s := by
  unfold strlen
  rw [wp_bind, wp_vm, wp_loadPage, h.strlenFrom_eq (Nat.zero_le _) (by have := h.short; omega)]
  exact hQ

/-! ## Places -/

theorem pushSp_eq {sp n : Nat} (hn : n ≤ sp) (hsp : sp < 2 ^ 64) :
    pushSp sp n = (sp - n) - (sp - n) % 16 := by
  have hmod : (sp + 2 ^ 64 - n) % 2 ^ 64 = sp - n := by omega
  unfold pushSp
  rw [hmod]

theorem pushSp_le {sp n : Nat} (hn : n ≤ sp) (hsp : sp < 2 ^ 64) : pushSp sp n + n ≤ sp := by
  rw [pushSp_eq hn hsp]
  omega

theorem pushSp_mod (sp n : Nat) : pushSp sp n % 16 = 0 := by
  unfold pushSp
  dsimp only
  omega

/-- Where the strings are pushed, and how long they are with their NULs. -/
def places : Nat → List (List UInt8) → List (Nat × Nat)
  | _, [] => []
  | sp, str :: strs =>
    (pushSp sp (str.length + 1), str.length + 1) :: places (pushSp sp (str.length + 1)) strs

def spAfter : Nat → List (List UInt8) → Nat
  | sp, [] => sp
  | sp, str :: strs => spAfter (pushSp sp (str.length + 1)) strs

theorem length_places (sp : Nat) (strs : List (List UInt8)) : (places sp strs).length = strs.length := by
  induction strs generalizing sp with
  | nil => rfl
  | cons str strs ih => rw [places, length_cons, length_cons, ih]

section Places

variable {stackbase sp : Nat} {strs : List (List UInt8)}

theorem spAfter_le (hbase : PGSIZE ≤ stackbase) (hsp : sp < 2 ^ 64) (hle : stackbase ≤ sp)
    (hshort : ∀ str ∈ strs, str.length < PGSIZE) (hplaces : ∀ g ∈ places sp strs, stackbase ≤ g.1) :
    stackbase ≤ spAfter sp strs ∧ spAfter sp strs ≤ sp ∧
      (∀ g ∈ places sp strs, spAfter sp strs ≤ g.1 ∧ g.1 + g.2 ≤ sp) ∧
      (places sp strs).Pairwise fun g g' => g'.1 + g'.2 ≤ g.1 := by
  induction strs generalizing sp with
  | nil =>
    refine ⟨hle, le_rfl, fun g hg => ?_, .nil⟩
    cases hg
  | cons str strs ih =>
    have hlen := hshort str (mem_cons_self ..)
    have hpush := pushSp_le (n := str.length + 1) (by omega) hsp
    have hlow : stackbase ≤ pushSp sp (str.length + 1) := hplaces _ (mem_cons_self ..)
    obtain ⟨h1, h2, h3, h4⟩ := ih (by omega) hlow
      (fun q hq => hshort q (mem_cons_of_mem _ hq)) fun g hg => hplaces g (mem_cons_of_mem _ hg)
    have hafter : spAfter sp (str :: strs) = spAfter (pushSp sp (str.length + 1)) strs := rfl
    rw [hafter, places]
    refine ⟨h1, by omega, forall_mem_cons.mpr ⟨⟨h2, hpush⟩, fun g hg => ?_⟩,
      pairwise_cons.mpr ⟨fun g hg => (h3 g hg).2, h4⟩⟩
    have := h3 g hg
    omega

end Places

/-! ## Pushing the strings -/

section Push

variable {F : Set Nat} {s₀ s : ExecSys} {root n : Nat} {t : Shape Pte} {E : ExecPanic → Prop}
  {stackbase sp : Nat} {strs : List (List UInt8)} {argv : List Nat}

theorem Built.copyout (h : Built F s₀ s root n t) (dstva : Nat) (src : Nat → UInt8) (len : Nat) :
    wp E (ExecM.vm (copyout root dstva src len)) (fun r s' => Built F s₀ s' root n t ∧
      ∃ m, m ≤ len ∧ Stored t n s.vm s'.vm dstva src m ∧ (r = 0 ∧ m = len ∨ r = -1)) s := by
  rw [wp_vm]
  refine (copyout_spec h.space dstva src len).call ?_
  rintro r v ⟨m, hspace, hst, -, hres⟩
  refine ⟨h.stored hspace hst, m, ?_, hst, hres.imp_right fun hno => hno.1⟩
  rcases hres with ⟨-, rfl⟩ | ⟨-, hlt, -⟩
  · exact le_rfl
  · exact hlt.le

def HoldsString (byte : Nat → UInt8) (g : Nat × Nat) (str : List UInt8) : Prop :=
  g.2 = str.length + 1 ∧ ∀ j, j < g.2 → byte (g.1 + j) = str.getD j 0

structure PushArgs (F : Set Nat) (s₀ : ExecSys) (root n : Nat) (t : Shape Pte) (s : ExecSys)
    (stackbase sp : Nat) (strs : List (List UInt8)) (ustack : List Nat)
    (r : Option (Nat × List Nat)) (s' : ExecSys) : Prop where
  built : Built F s₀ s' root n t
  outside : ∀ a, a / PGSIZE < n → a < stackbase ∨ sp ≤ a →
    userByte t s'.vm.mem a = userByte t s.vm.mem a
  pushed : ∀ q ∈ r, q = (spAfter sp strs, ustack ++ (places sp strs).map Prod.fst) ∧
    (∀ g ∈ places sp strs, stackbase ≤ g.1) ∧
    List.Forall₂ (HoldsString (userByte t s'.vm.mem)) (places sp strs) strs

def ArgPages (F : Set Nat) (s : Vm) (argv : List Nat) (strs : List (List UInt8)) : Prop :=
  List.Forall₂ (fun p str => p ∉ F ∧ IsString (s.mem p) str) argv strs

theorem ArgPages.short {v : Vm} (h : ArgPages F v argv strs) :
    ∀ str ∈ strs, str.length < PGSIZE := by
  unfold ArgPages at h
  induction h with
  | nil =>
    intro str hstr
    cases hstr
  | cons hhead _ ih => exact forall_mem_cons.mpr ⟨hhead.2.short, ih⟩

theorem pushArgs_spec (h : Built F s₀ s root n t) (hargs : ArgPages F s₀.vm argv strs)
    (hbase : PGSIZE ≤ stackbase) (hle : stackbase ≤ sp) (hsp : sp ≤ n * PGSIZE) {ustack : List Nat} :
    wp E (pushArgs root stackbase argv sp ustack)
      (PushArgs F s₀ root n t s stackbase sp strs ustack) s := by
  have hsmall : n * PGSIZE < 2 ^ 64 := by
    have hn := h.space.lt
    unfold PGSIZE
    omega
  unfold ArgPages at hargs
  induction hargs generalizing s sp ustack with
  | nil =>
    refine ⟨h, fun _ _ _ => rfl, fun q hq => ?_⟩
    obtain rfl := Option.mem_some_iff.mp hq
    refine ⟨?_, fun g hg => absurd hg not_mem_nil, .nil⟩
    rw [places, map_nil, append_nil, spAfter]
  | @cons arg str argv strs harg hrest ih =>
    have hstr : IsString (s.vm.mem arg) str := by
      rw [h.rest arg harg.1]
      exact harg.2
    have hlen := hstr.short
    have hfail {s' : ExecSys} (h' : Built F s₀ s' root n t) (hout : ∀ a, a / PGSIZE < n →
        a < stackbase ∨ sp ≤ a → userByte t s'.vm.mem a = userByte t s.vm.mem a) :
        PushArgs F s₀ root n t s stackbase sp (str :: strs) ustack none s' :=
      ⟨h', hout, fun q hq => by cases hq⟩
    unfold pushArgs
    rw [wp_ite]
    refine ⟨fun _ => hfail h fun _ _ _ => rfl, fun _ => ?_⟩
    rw [wp_bind]
    refine wp_strlen hstr ?_
    have hpush := pushSp_le (n := str.length + 1) (by omega) (hsp.trans_lt hsmall)
    obtain ⟨sp', hsp'⟩ : ∃ sp', sp' = pushSp sp (str.length + 1) := ⟨_, rfl⟩
    rw [← hsp'] at hpush ⊢
    dsimp only
    rw [wp_ite]
    refine ⟨fun _ => hfail h fun _ _ _ => rfl, fun hlow => ?_⟩
    rw [wp_bind, wp_vm, wp_loadPage, wp_bind]
    refine (h.copyout sp' (s.vm.mem arg) (str.length + 1)).call ?_
    rintro r s1 ⟨h1, m, hm, hst, hres⟩
    have hout (a : Nat) (ha : a / PGSIZE < n) (haway : a < sp' ∨ sp ≤ a) :
        userByte t s1.vm.mem a = userByte t s.vm.mem a := by
      rw [hst.byte a ha, if_neg (by omega)]
    rw [wp_ite]
    refine ⟨fun _ => hfail h1 fun a ha haway => hout a ha (by omega), fun hok => ?_⟩
    obtain ⟨-, rfl⟩ := hres.resolve_right fun hno => by omega
    refine (ih h1 (by omega) (by omega)).call fun r2 s2 h2 => ⟨h2.built, fun a ha haway => ?_, fun q hq => ?_⟩
    · rw [h2.outside a ha (by omega), hout a ha (by omega)]
    · obtain ⟨hq, hplaces, hstrs⟩ := h2.pushed q hq
      rw [places, ← hsp', spAfter, ← hsp']
      refine ⟨?_, forall_mem_cons.mpr ⟨by omega, hplaces⟩, .cons ⟨rfl, fun j hj => ?_⟩ hstrs⟩
      · rw [hq, map_cons, append_assoc, singleton_append]
      · have hin : (sp' + j) / PGSIZE < n := by
          rw [Nat.div_lt_iff_lt_mul PGSIZE_pos]
          have hj' : j < str.length + 1 := hj
          omega
        have hj' : j < str.length + 1 := hj
        rw [h2.outside _ hin (by omega), hst.byte _ hin, if_pos (by omega), Nat.add_sub_cancel_left]
        exact hstr.byte (by omega)

/-! ## The array of pointers -/

theorem wordBytes_word (words : List Nat) (i : Nat) {k : Nat} (hk : k < 8) :
    wordBytes words (8 * i + k) = UInt8.ofNat (words.getD i 0 / 256 ^ k) := by
  unfold wordBytes
  rw [show (8 * i + k) / 8 = i by omega, show (8 * i + k) % 8 = k by omega]

/-- What `exec` leaves on the stack, with `sp` at the array of pointers. -/
structure ArgLayout (byte : Nat → UInt8) (sz : Nat) (strs : List (List UInt8)) (sp : Nat)
    (strings : List (Nat × Nat)) : Prop where
  aligned : sp % 16 = 0
  pointers : ∀ i, i < strs.length →
    Bytes.getLE byte (sp + 8 * i) 8 = (strings.map Prod.fst).getD i 0
  null : Bytes.getLE byte (sp + 8 * strs.length) 8 = 0
  copies : List.Forall₂ (HoldsString byte) strings strs
  stack : ∀ g ∈ (sp, (strs.length + 1) * 8) :: strings, sz - PGSIZE ≤ g.1 ∧ g.1 + g.2 ≤ sz
  disjoint : ((sp, (strs.length + 1) * 8) :: strings).Pairwise fun g g' =>
    g.1 + g.2 ≤ g'.1 ∨ g'.1 + g'.2 ≤ g.1

theorem ArgLayout.congr {byte byte' : Nat → UInt8} {sz : Nat} {strs : List (List UInt8)} {sp : Nat}
    {strings : List (Nat × Nat)} (h : ArgLayout byte sz strs sp strings)
    (hbyte : ∀ a, a < sz → byte' a = byte a) : ArgLayout byte' sz strs sp strings := by
  have harray := (h.stack _ (mem_cons_self ..)).2
  have hstrings := fun g hg => (h.stack g (mem_cons_of_mem _ hg)).2
  have hword (i : Nat) (hi : i < strs.length + 1) :
      Bytes.getLE byte' (sp + 8 * i) 8 = Bytes.getLE byte (sp + 8 * i) 8 :=
    Bytes.getLE_congr fun a _ ha => hbyte a (by dsimp only at harray; omega)
  refine ⟨h.aligned, fun i hi => ?_, ?_, ?_, h.stack, h.disjoint⟩
  · rw [hword i (by omega)]
    exact h.pointers i hi
  · rw [hword _ (Nat.lt_succ_self _)]
    exact h.null
  · refine ((forall₂_and_left ..).mpr ⟨hstrings, h.copies⟩).imp fun g str hg =>
      ⟨hg.2.1, fun j hj => ?_⟩
    rw [hbyte _ (by have := hg.1; omega)]
    exact hg.2.2 j hj

/-- What `exec` does from the loop over the arguments on. -/
structure PushArgv (F : Set Nat) (s₀ : ExecSys) (root n : Nat) (t : Shape Pte) (s : ExecSys)
    (sz : Nat) (strs : List (List UInt8)) (r : Option (Nat × Nat)) (s' : ExecSys) : Prop where
  built : Built F s₀ s' root n t
  below : ∀ a, a / PGSIZE < n → a < sz - PGSIZE → userByte t s'.vm.mem a = userByte t s.vm.mem a
  pushed : ∀ q ∈ r, q.1 = strs.length ∧
    ∃ strings, ArgLayout (userByte t s'.vm.mem) sz strs q.2 strings

theorem pushArgv_spec (h : Built F s₀ s root n t) (hargs : ArgPages F s₀.vm argv strs)
    (hargc : argv.length < MAXARG) {sz : Nat} (hbase : 2 * PGSIZE ≤ sz) (hsz : sz = n * PGSIZE) :
    wp E (pushArgv root (sz - PGSIZE) sz argv) (PushArgv F s₀ root n t s sz strs) s := by
  have hpg := PGSIZE_pos
  have hsmall : sz < 2 ^ 64 := by
    have hn := h.space.lt
    rw [hsz]
    unfold PGSIZE
    omega
  have hcount : argv.length = strs.length := List.Forall₂.length_eq hargs
  unfold pushArgv
  rw [wp_bind]
  refine (pushArgs_spec h hargs (by omega) (Nat.sub_le sz PGSIZE) hsz.le).call fun r s1 h1 => ?_
  cases r with
  | none => exact ⟨h1.built, fun a ha hlow => h1.outside a ha (.inl hlow), fun q hq => by cases hq⟩
  | some q =>
    obtain ⟨hq, hlow, hstrs⟩ := h1.pushed q rfl
    obtain ⟨hbot, htop, hin, hpair⟩ := spAfter_le (by omega) hsmall (Nat.sub_le sz PGSIZE)
      hargs.short hlow
    obtain ⟨sp, hsp⟩ : ∃ sp, sp = spAfter sz strs := ⟨_, rfl⟩
    obtain ⟨ptrs, hptrs⟩ : ∃ ptrs, ptrs = (places sz strs).map Prod.fst := ⟨_, rfl⟩
    have hlen : ptrs.length = strs.length := by rw [hptrs, length_map, length_places]
    rw [hq, nil_append, ← hsp, ← hptrs]
    dsimp only
    rw [hlen, if_neg (by omega)]
    have hfit : (strs.length + 1) * 8 ≤ sp := by
      have hroom : MAXARG * 8 ≤ PGSIZE := by decide
      omega
    have hpush := pushSp_le hfit (by omega)
    have halign := pushSp_mod sp ((strs.length + 1) * 8)
    generalize pushSp sp ((strs.length + 1) * 8) = sp' at hpush halign ⊢
    rw [wp_ite]
    refine ⟨fun _ => ⟨h1.built, fun a ha hlow => h1.outside a ha (.inl hlow), fun q hq => by cases hq⟩,
      fun hlow' => ?_⟩
    rw [wp_bind]
    refine (h1.built.copyout sp' (wordBytes (ptrs ++ [0])) ((strs.length + 1) * 8)).call ?_
    rintro r2 s2 ⟨h2, m, hm, hst, hres⟩
    have hout (a : Nat) (ha : a / PGSIZE < n) (haway : a < sp' ∨ sp ≤ a) :
        userByte t s2.vm.mem a = userByte t s1.vm.mem a := by
      rw [hst.byte a ha, if_neg (by omega)]
    have hbelow (a : Nat) (ha : a / PGSIZE < n) (hlow : a < sz - PGSIZE) :
        userByte t s2.vm.mem a = userByte t s.vm.mem a := by
      rw [hout a ha (by omega), h1.outside a ha (.inl hlow)]
    rw [wp_ite]
    refine ⟨fun _ => ⟨h2, hbelow, fun q hq => by cases hq⟩, fun hok => ⟨h2, hbelow, fun q hq => ?_⟩⟩
    obtain ⟨-, rfl⟩ := hres.resolve_right fun hno => by omega
    obtain rfl := Option.mem_some_iff.mp hq
    -- a word of the array
    have hword (i : Nat) (hi : i < strs.length + 1) :
        Bytes.getLE (userByte t s2.vm.mem) (sp' + 8 * i) 8 = (ptrs ++ [0]).getD i 0 % 256 ^ 8 := by
      refine Bytes.getLE_eq fun k hk => ?_
      have hpos : (sp' + 8 * i + k) / PGSIZE < n := by
        rw [Nat.div_lt_iff_lt_mul PGSIZE_pos]
        omega
      rw [hst.byte _ hpos, if_pos (by omega), ← wordBytes_word _ i hk]
      congr 1
      omega
    have hptrlt : ∀ q ∈ ptrs, q < 256 ^ 8 := by
      intro q hq
      rw [hptrs] at hq
      obtain ⟨g, hg, rfl⟩ := mem_map.mp hq
      have := hin g hg
      exact lt_of_le_of_lt (by omega) hsmall
    refine ⟨rfl, places sz strs, halign, fun i hi => ?_, ?_, ?_, ?_, ?_⟩
    · have hi' : i < ptrs.length := by omega
      rw [hword i (by omega), ← hptrs, getD_eq_getElem?_getD, getD_eq_getElem?_getD,
        List.getElem?_append_left hi', List.getElem?_eq_getElem hi', Option.getD_some]
      exact Nat.mod_eq_of_lt (hptrlt _ (getElem_mem hi'))
    · rw [hword _ (Nat.lt_succ_self _), ← hlen, getD_eq_getElem?_getD, List.getElem?_concat_length]
      rfl
    · have hboth := (forall₂_and_left ..).mpr ⟨hin, hstrs⟩
      refine hboth.imp fun g str hg => ⟨hg.2.1, fun j hj => ?_⟩
      have hpos : (g.1 + j) / PGSIZE < n := by
        rw [Nat.div_lt_iff_lt_mul PGSIZE_pos]
        have := hg.1.2
        omega
      rw [hout _ hpos (by have := hg.1.1; omega)]
      exact hg.2.2 j hj
    · refine forall_mem_cons.mpr ⟨⟨by omega, ?_⟩, fun g hg => ?_⟩
      · show sp' + (strs.length + 1) * 8 ≤ sz
        omega
      · exact ⟨hlow g hg, (hin g hg).2⟩
    · refine pairwise_cons.mpr ⟨fun g hg => .inl ?_, hpair.imp .inr⟩
      have := (hin g hg).1
      show sp' + (strs.length + 1) * 8 ≤ g.1
      omega

end Push

end Xv6
