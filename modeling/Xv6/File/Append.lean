import Xv6.File.Filewrite

/-!
# The chunks of concurrent writes

Writing at the place where the last write ended (`overwrite_overwrite`), and what is kept of the
calls in progress and of those that have returned: their chunks, in the order in which they got the
lock, are the bytes of their buffers (`ChunksOk`).
-/

namespace Xv6

open Machines Prog Function List

variable {P : Type} {sb : Superblock}

/-! ## Lists of bytes -/

theorem overwrite_overwrite {l : List UInt8} {off : Nat} (hoff : off ≤ l.length) (a b : List UInt8) :
    overwrite (overwrite l off a) (off + a.length) b = overwrite l off (a ++ b) := by
  have htake : (l.take off).length = off := length_take_of_le hoff
  have hlen : off + a.length = (l.take off ++ a).length := by rw [length_append, htake]
  have hdrop : (l.take off ++ a ++ l.drop (off + a.length)).drop (off + a.length + b.length)
      = l.drop (off + (a ++ b).length) := by
    have hnil : (l.take off ++ a).drop ((l.take off ++ a).length + b.length) = [] :=
      drop_of_length_le (Nat.le_add_right ..)
    rw [hlen, drop_append, hnil, nil_append, drop_drop, Nat.add_sub_cancel_left,
      ← hlen, length_append, Nat.add_assoc]
  unfold overwrite
  rw [hdrop]
  nth_rewrite 1 [hlen]
  rw [take_left]
  simp

theorem length_overwrite {l : List UInt8} {off : Nat} (hoff : off ≤ l.length) (a : List UInt8) :
    off + a.length ≤ (overwrite l off a).length := by
  simp only [overwrite, length_append, length_take, length_drop]
  omega

theorem FileCall.Post.content_other {s s' : Fs} {c : FileCall} {r : Int × List UInt8}
    (h : c.Post sb s r s') {j : Nat} (hj : (s.vol sb).Alloc sb j)
    (hne : (s.itable c.entry).inum ≠ j) : (s'.vol sb).content j = (s.vol sb).content j := by
  obtain ⟨hino, -, hbyte⟩ := h.other j hj fun heq => absurd heq hne
  unfold Vol.content Vol.size
  rw [hino]
  exact map_congr_left fun o _ => hbyte o

/-- `writei` of `m` mapped bytes within the file and the largest size: it panics for want of blocks,
or writes them all. -/
theorem writei_fits (hl : sb.Layout) {s : Fs} (h : s.Good sb) {k : Fin NINODE}
    (hlock : (s.itable k).lock = true) {src : Nat → Option UInt8} {off : UInt32} {m : Nat}
    (hmap : ∀ j, j < m → src j ≠ none)
    (hoff : off.toNat ≤ ((s.vol sb).content (s.itable k).inum).length)
    (hfits : off.toNat + m ≤ MAXFILE * BSIZE) :
    wp (fun e => e = .outOfBlocks ∧ (s.vol sb).nfree sb < 2 * spans off.toNat m)
      (writei sb k src off (UInt32.ofNat m))
      (fun r s' => r = m ∧ s'.Good sb ∧ Only s s' k ∧
        (∀ j, (s'.vol sb).Alloc sb j ↔ (s.vol sb).Alloc sb j) ∧
        (∀ j, (s.vol sb).Alloc sb j → j ≠ (s.itable k).inum →
          (s'.vol sb).content j = (s.vol sb).content j) ∧
        (s'.vol sb).content (s.itable k).inum = overwrite ((s.vol sb).content (s.itable k).inum)
          off.toNat ((List.range m).map fun j => (src j).getD 0)) s := by
  have hsmall : off.toNat + m < 2 ^ 32 := hfits.trans_lt (by decide)
  have hm : (UInt32.ofNat m).toNat = m := by
    rw [UInt32.toNat_ofNat']
    omega
  have hspec : FileCall.spec ((s.vol sb).content (s.itable k).inum) (.writei k src off (UInt32.ofNat m))
      = (((m : Int), []), overwrite ((s.vol sb).content (s.itable k).inum) off.toNat
          ((List.range m).map fun j => (src j).getD 0)) := by
    unfold FileCall.spec
    dsimp only
    rw [hm]
    exact if_pos ⟨hoff, hsmall, hfits⟩
  have hcopies : (FileCall.writei k src off (UInt32.ofNat m)).Copies := fun j hj => hmap j (hm ▸ hj)
  have hpost := writei_post hl h hlock hcopies
  unfold FileCall.run at hpost
  rw [wp_bind] at hpost
  refine hpost.mono (fun r s' hr => ?_) fun e he => ⟨he.1, ?_⟩
  · rw [wp_pure] at hr
    have hres := hr.result.trans (congrArg Prod.fst hspec)
    exact ⟨(Prod.mk.inj hres).1, hr.good, hr.only, hr.alloc,
      fun j hj hne => hr.content_other hj hne.symm, hr.content.trans (congrArg Prod.snd hspec)⟩
  · have : (s.vol sb).nfree sb < 2 * spans off.toNat (UInt32.ofNat m).toNat := he.2
    rwa [hm] at this

namespace WriteCall

variable (c : WriteCall) (i m k : Nat)

@[simp] theorem length_bytes : (c.bytes i m).length = m := by simp [bytes]

@[simp] theorem length_chunk : (c.chunk i).length = c.n1 i := length_bytes ..

theorem bytes_add : c.bytes i (m + k) = c.bytes i m ++ c.bytes (i + m) k := by
  unfold bytes
  rw [range_add, map_append, map_map]
  refine congrArg (_ ++ ·) (map_congr_left fun j _ => ?_)
  rw [comp_apply, Nat.add_assoc]

theorem n1_le : c.n1 i ≤ maxChunk := Nat.min_le_right ..

variable {c i}

theorem n1_pos (h : i < c.n.toNat) : 0 < c.n1 i := by
  unfold n1
  rw [show maxChunk = 3072 from rfl]
  omega

theorem add_n1_le (h : i ≤ c.n.toNat) : i + c.n1 i ≤ c.n.toNat := by
  unfold n1
  omega

end WriteCall

/-! ## The parts of a call -/

namespace WritePc

def call : WritePc → Option WriteCall
  | idle => none
  | test c _ => some c
  | enter c _ => some c
  | locked c _ => some c
  | wrote c _ _ => some c
  | moved c _ _ => some c
  | unlocked c _ _ => some c

def progress : WritePc → Nat
  | idle => 0
  | test _ i => i
  | enter _ i => i
  | locked c i => i + c.n1 i
  | wrote c i _ => i + c.n1 i
  | moved c i _ => i + c.n1 i
  | unlocked c i _ => i + c.n1 i

def Holds : WritePc → Prop
  | locked _ _ => True
  | wrote _ _ _ => True
  | moved _ _ _ => True
  | _ => False

def Ok : WritePc → Prop
  | idle => True
  | test c i => i ≤ c.n.toNat
  | enter c i => i < c.n.toNat
  | locked c i => i < c.n.toNat
  | wrote c i r => i < c.n.toNat ∧ r = c.n1 i
  | moved c i r => i < c.n.toNat ∧ r = c.n1 i
  | unlocked c i r => i < c.n.toNat ∧ r = c.n1 i

end WritePc

def chunkBytes (l : List (Nat × List UInt8)) : List UInt8 := l.flatMap Prod.snd

def ownBytes (l : List (Nat × List UInt8)) (id : Nat) : List UInt8 :=
  chunkBytes (l.filter (·.1 = id))

theorem chunkBytes_snoc (l : List (Nat × List UInt8)) (x : Nat × List UInt8) :
    chunkBytes (l ++ [x]) = chunkBytes l ++ x.2 := by
  simp [chunkBytes]

theorem ownBytes_snoc (l : List (Nat × List UInt8)) (x : Nat × List UInt8) (id : Nat) :
    ownBytes (l ++ [x]) id = if x.1 = id then ownBytes l id ++ x.2 else ownBytes l id := by
  unfold ownBytes
  rw [filter_append]
  split
  case isTrue h => rw [filter_cons_of_pos (by simpa using h), filter_nil, chunkBytes_snoc]
  case isFalse h => rw [filter_cons_of_neg (by simpa using h), filter_nil, append_nil]

structure ChunksOk (s : WriteSys P) : Prop where
  distinct : ∀ {p q c d}, (s.proc p).call = some c → (s.proc q).call = some d → c.id = d.id → p = q
  lt : ∀ {p c}, (s.proc p).call = some c → c.id < s.count
  mapped : ∀ {p c}, (s.proc p).call = some c → ∀ j, j < c.n.toNat → c.src j ≠ none
  ok : ∀ p, (s.proc p).Ok
  own : ∀ {p c}, (s.proc p).call = some c → ownBytes s.order c.id = c.bytes 0 (s.proc p).progress
  returned : ∀ c r, (c, r) ∈ s.returned →
    r = (if 0 ≤ c.n then c.n else -1) ∧ ownBytes s.order c.id = c.bytes 0 c.n.toNat ∧
      c.id < s.count ∧ (∀ p d, (s.proc p).call = some d → d.id ≠ c.id) ∧
      ∀ j, j < c.n.toNat → c.src j ≠ none
  once : (s.returned.map (·.1.id)).Nodup
  sizes : ∀ x ∈ s.order, 0 < x.2.length ∧ x.2.length ≤ maxChunk
  known : ∀ x ∈ s.order, x.1 < s.count ∧
    ((∃ p c, (s.proc p).call = some c ∧ c.id = x.1) ∨ ∃ c r, (c, r) ∈ s.returned ∧ c.id = x.1)

namespace ChunksOk

variable {s s' : WriteSys P} {p : P} {c : WriteCall} {i : Nat}

theorem fresh (hproc : ∀ p, s.proc p = .idle) (horder : s.order = []) (hret : s.returned = []) :
    ChunksOk s := by
  have hcall : ∀ p, (s.proc p).call = none := fun p => by rw [hproc]; rfl
  refine ⟨fun {p _ _ _} hc => ?_, fun {p _} hc => ?_, fun {p _} hc => ?_, fun p => ?_,
    fun {p _} hc => ?_, ?_, ?_, ?_, ?_⟩
  · rw [hcall p] at hc
    cases hc
  · rw [hcall p] at hc
    cases hc
  · rw [hcall p] at hc
    cases hc
  · rw [hproc]
    trivial
  · rw [hcall p] at hc
    cases hc
  all_goals simp [horder, hret]

theorem ok_at (h : ChunksOk s) {pc : WritePc} (hp : s.proc p = pc) : pc.Ok := hp ▸ h.ok p

theorem own_at (h : ChunksOk s) {pc : WritePc} (hp : s.proc p = pc) (hc : pc.call = some c) :
    ownBytes s.order c.id = c.bytes 0 pc.progress := by
  subst hp
  exact h.own hc

theorem congr (h : ChunksOk s) (hcall : ∀ p, (s'.proc p).call = (s.proc p).call)
    (hprog : ∀ p, (s'.proc p).progress = (s.proc p).progress) (hok : ∀ p, (s'.proc p).Ok)
    (hcount : s'.count = s.count) (horder : s'.order = s.order)
    (hret : s'.returned = s.returned) : ChunksOk s' := by
  refine ⟨?_, ?_, ?_, hok, ?_, ?_, ?_, ?_, ?_⟩
  all_goals simp only [hcall, hprog, hcount, horder, hret]
  · exact h.distinct
  · exact h.lt
  · exact h.mapped
  · exact h.own
  · exact h.returned
  · exact h.once
  · exact h.sizes
  · exact h.known

variable [DecidableEq P]

theorem move (h : ChunksOk s) {pc : WritePc} (hproc : s'.proc = update s.proc p pc)
    (hcall : pc.call = (s.proc p).call) (hprog : pc.progress = (s.proc p).progress) (hok : pc.Ok)
    (hcount : s'.count = s.count) (horder : s'.order = s.order)
    (hret : s'.returned = s.returned) : ChunksOk s' := by
  have hpc : ∀ q, s'.proc q = s.proc q ∨ q = p ∧ s'.proc q = pc := by
    intro q
    rw [hproc]
    by_cases hq : q = p
    · subst hq
      exact .inr ⟨rfl, update_self ..⟩
    · exact .inl (update_of_ne hq ..)
  refine h.congr (fun q => ?_) (fun q => ?_) (fun q => ?_) hcount horder hret
  · rcases hpc q with hq | ⟨rfl, hq⟩
    · rw [hq]
    · rw [hq, hcall]
  · rcases hpc q with hq | ⟨rfl, hq⟩
    · rw [hq]
    · rw [hq, hprog]
  · rcases hpc q with hq | ⟨rfl, hq⟩
    · rw [hq]
      exact h.ok q
    · rw [hq]
      exact hok

theorem call (h : ChunksOk s) (hp : s.proc p = .idle) {src : Nat → Option UInt8} {n : Int}
    (hmap : ∀ j, j < n.toNat → src j ≠ none) :
    ChunksOk { s.setPc p (.test ⟨src, n, s.count⟩ 0) with count := s.count + 1 } := by
  generalize hs' : ({ s.setPc p (.test ⟨src, n, s.count⟩ 0) with count := s.count + 1 } :
    WriteSys P) = s'
  have hself : s'.proc p = .test ⟨src, n, s.count⟩ 0 := by
    rw [← hs']
    exact update_self ..
  have hother : ∀ q, q ≠ p → s'.proc q = s.proc q := by
    intro q hq
    rw [← hs']
    exact update_of_ne hq ..
  have hcount : s'.count = s.count + 1 := by rw [← hs']
  have horder : s'.order = s.order := by rw [← hs']; rfl
  have hret : s'.returned = s.returned := by rw [← hs']; rfl
  have hpc : ∀ {q d}, (s'.proc q).call = some d →
      q = p ∧ d = ⟨src, n, s.count⟩ ∨ q ≠ p ∧ (s.proc q).call = some d := by
    intro q d hd
    by_cases hq : q = p
    · subst hq
      rw [hself] at hd
      cases hd
      exact .inl ⟨rfl, rfl⟩
    · rw [hother q hq] at hd
      exact .inr ⟨hq, hd⟩
  refine ⟨fun {q q' d d'} hd hd' heq => ?_, fun {q d} hd => ?_, fun {q d} hd => ?_, fun q => ?_,
    fun {q d} hd => ?_, fun d r hd => ?_, hret ▸ h.once, horder ▸ h.sizes, fun x hx => ?_⟩
  · rcases hpc hd with ⟨rfl, rfl⟩ | ⟨-, hd⟩
    · rcases hpc hd' with ⟨rfl, -⟩ | ⟨-, hd'⟩
      · rfl
      · exact absurd heq (h.lt hd').ne'
    · rcases hpc hd' with ⟨rfl, rfl⟩ | ⟨-, hd'⟩
      · exact absurd heq (h.lt hd).ne
      · exact h.distinct hd hd' heq
  · rw [hcount]
    rcases hpc hd with ⟨-, rfl⟩ | ⟨-, hd⟩
    · exact Nat.lt_succ_self _
    · exact Nat.lt_succ_of_lt (h.lt hd)
  · rcases hpc hd with ⟨-, rfl⟩ | ⟨-, hd⟩
    · exact hmap
    · exact h.mapped hd
  · by_cases hq : q = p
    · subst hq
      rw [hself]
      exact Nat.zero_le _
    · rw [hother q hq]
      exact h.ok q
  · rw [horder]
    rcases hpc hd with ⟨rfl, rfl⟩ | ⟨hq, hd⟩
    · -- the number is new, so there is no chunk with it
      rw [hself]
      have hnone : s.order.filter (·.1 = s.count) = [] := by
        refine filter_eq_nil_iff.2 fun x hx => ?_
        simpa using ((h.known x hx).1).ne
      show ownBytes s.order s.count = _
      rw [ownBytes, hnone]
      rfl
    · rw [hother q hq]
      exact h.own hd
  · rw [hret] at hd
    obtain ⟨hr, hown, hlt, hne, hmap'⟩ := h.returned d r hd
    refine ⟨hr, horder ▸ hown, hcount ▸ Nat.lt_succ_of_lt hlt, fun q d' hd' => ?_, hmap'⟩
    rcases hpc hd' with ⟨-, rfl⟩ | ⟨-, hd'⟩
    · exact hlt.ne'
    · exact hne q d' hd'
  · rw [horder] at hx
    obtain ⟨hlt, hfrom⟩ := h.known x hx
    refine ⟨hcount ▸ Nat.lt_succ_of_lt hlt, hfrom.imp (fun ⟨q, d, hd, heq⟩ => ?_) fun h => hret ▸ h⟩
    refine ⟨q, d, ?_, heq⟩
    rw [hother q, hd]
    rintro rfl
    rw [hp] at hd
    cases hd

theorem lock (h : ChunksOk s) (hp : s.proc p = .enter c i)
    (hproc : s'.proc = update s.proc p (.locked c i)) (hcount : s'.count = s.count)
    (horder : s'.order = s.order ++ [(c.id, c.chunk i)]) (hret : s'.returned = s.returned) :
    ChunksOk s' := by
  have hpcall : (s.proc p).call = some c := by rw [hp]; rfl
  have hi : i < c.n.toNat := h.ok_at hp
  have hcall : ∀ q, (s'.proc q).call = (s.proc q).call := by
    intro q
    rw [hproc]
    by_cases hq : q = p
    · subst hq
      rw [update_self, hp]
      rfl
    · rw [update_of_ne hq]
  have hown : ∀ {q d}, (s.proc q).call = some d → q ≠ p →
      ownBytes s'.order d.id = ownBytes s.order d.id := by
    intro q d hd hq
    rw [horder, ownBytes_snoc]
    exact if_neg fun heq => hq (h.distinct hd hpcall heq.symm)
  refine ⟨?_, ?_, ?_, fun q => ?_, fun {q d} hd => ?_, fun d r hd => ?_, hret ▸ h.once,
    fun x hx => ?_, fun x hx => ?_⟩
  · simp only [hcall]
    exact h.distinct
  · simp only [hcall, hcount]
    exact h.lt
  · simp only [hcall]
    exact h.mapped
  · rw [hproc]
    by_cases hq : q = p
    · subst hq
      rw [update_self]
      exact hi
    · rw [update_of_ne hq]
      exact h.ok q
  · rw [hcall] at hd
    by_cases hq : q = p
    · subst hq
      rw [hpcall] at hd
      cases hd
      have hbefore : ownBytes s.order c.id = c.bytes 0 i := h.own_at hp rfl
      rw [horder, ownBytes_snoc, if_pos rfl, hbefore, hproc, update_self]
      show _ = c.bytes 0 (i + c.n1 i)
      rw [WriteCall.bytes_add, Nat.zero_add]
      rfl
    · rw [hown hd hq, hproc, update_of_ne hq]
      exact h.own hd
  · rw [hret] at hd
    obtain ⟨hr, hwhole, hlt, hne, hmap⟩ := h.returned d r hd
    refine ⟨hr, ?_, hcount ▸ hlt, fun q d' hd' => hne q d' (hcall q ▸ hd'), hmap⟩
    rw [horder, ownBytes_snoc, if_neg (hne p c hpcall), hwhole]
  · rw [horder] at hx
    rcases mem_append.1 hx with hx | hx
    · exact h.sizes x hx
    · obtain rfl := mem_singleton.1 hx
      exact ⟨by simpa using WriteCall.n1_pos hi, by simpa using c.n1_le i⟩
  · rw [horder] at hx
    rw [hcount]
    simp only [hcall, hret]
    rcases mem_append.1 hx with hx | hx
    · exact h.known x hx
    · obtain rfl := mem_singleton.1 hx
      exact ⟨h.lt hpcall, .inl ⟨p, c, hpcall, rfl⟩⟩

theorem leave (h : ChunksOk s) (hp : s.proc p = .test c i) (hi : ¬ (i : Int) < c.n) :
    ChunksOk (s.leave p c (c.ret i)) := by
  have hpcall : (s.proc p).call = some c := by rw [hp]; rfl
  have hle : i ≤ c.n.toNat := h.ok_at hp
  have hall : i = c.n.toNat := by omega
  have hret : c.ret i = if 0 ≤ c.n then c.n else -1 := by
    unfold WriteCall.ret
    exact if_congr (by omega) rfl rfl
  have hpc : ∀ {q d}, ((s.leave p c (c.ret i)).proc q).call = some d →
      q ≠ p ∧ (s.leave p c (c.ret i)).proc q = s.proc q ∧ (s.proc q).call = some d := by
    intro q d hd
    by_cases hq : q = p
    · subst hq
      have hself : (s.leave q c (c.ret i)).proc q = .idle := update_self ..
      rw [hself] at hd
      cases hd
    · have hother : (s.leave p c (c.ret i)).proc q = s.proc q := update_of_ne hq ..
      exact ⟨hq, hother, hother ▸ hd⟩
  refine ⟨fun hd hd' => h.distinct (hpc hd).2.2 (hpc hd').2.2, fun hd => h.lt (hpc hd).2.2,
    fun hd => h.mapped (hpc hd).2.2, fun q => ?_, fun {q d} hd => ?_, fun d r hd => ?_, ?_, h.sizes,
    fun x hx => ?_⟩
  · show (update s.proc p .idle q).Ok
    by_cases hq : q = p
    · subst hq
      rw [update_self]
      trivial
    · rw [update_of_ne hq]
      exact h.ok q
  · rw [(hpc hd).2.1]
    exact h.own (hpc hd).2.2
  · rcases mem_cons.1 hd with heq | hd
    · cases heq
      refine ⟨hret, ?_, h.lt hpcall, fun q d' hd' heq => ?_, h.mapped hpcall⟩
      · rw [← hall]
        exact h.own_at hp rfl
      · exact (hpc hd').1 (h.distinct (hpc hd').2.2 hpcall heq)
    · obtain ⟨hr, hwhole, hlt, hne, hmap⟩ := h.returned d r hd
      exact ⟨hr, hwhole, hlt, fun q d' hd' => hne q d' (hpc hd').2.2, hmap⟩
  · refine nodup_cons.2 ⟨fun hin => ?_, h.once⟩
    obtain ⟨⟨d, r⟩, hd, heq⟩ := mem_map.1 hin
    exact (h.returned d r hd).2.2.2.1 p c hpcall heq.symm
  · obtain ⟨hlt, hfrom⟩ := h.known x hx
    refine ⟨hlt, ?_⟩
    rcases hfrom with ⟨q, d, hd, heq⟩ | ⟨d, r, hd, heq⟩
    · by_cases hq : q = p
      · subst hq
        rw [hpcall] at hd
        cases hd
        exact .inr ⟨_, _, mem_cons_self, heq⟩
      · have hother : (s.leave p c (c.ret i)).proc q = s.proc q := update_of_ne hq ..
        exact .inl ⟨q, d, hother.symm ▸ hd, heq⟩
    · exact .inr ⟨d, r, mem_cons_of_mem _ hd, heq⟩

end ChunksOk

end Xv6
