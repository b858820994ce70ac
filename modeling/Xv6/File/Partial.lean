import Xv6.File.Shared

/-!
# Writes from a buffer that is not all there

`writei` copies the user's bytes into the cached block and calls `log_write` only when the whole
piece has been copied. When the buffer ends in the middle of a piece, the bytes before that are in
the cache already: `TornLoop` and `Torn` say which, and `writei_reports_iff` when this can be seen.
-/

namespace Xv6

open Prog Vol Function List

/-- The blocks of the file are as they were last passed to `log_write`. -/
def Fs.FileLogged (sb : Superblock) (s : Fs) (k : Fin NINODE) : Prop :=
  ∀ p, (s.volAt sb k).addr (s.itable k).inum p ≠ 0 →
    ¬ s.Loose ((s.volAt sb k).addr (s.itable k).inum p)

/-- A block of the file that was not free before was in the file before, since no block is in two
places; so it was as last logged. -/
theorem Work.not_loose {sb : Superblock} {s s1 : Fs} {k : Fin NINODE} {p : Nat} (h : Work sb s k)
    (hblocks : (s1.volAt sb k).Blocks sb ∅)
    (htype : ∀ j, ((s1.volAt sb k).ino j).type = ((s.volAt sb k).ino j).type)
    (haddr : ∀ j q, (s.volAt sb k).Alloc sb j → j ≠ (s.itable k).inum ∨ (s.volAt sb k).addr j q ≠ 0 →
      (s1.volAt sb k).addr j q = (s.volAt sb k).addr j q) (hlogged : s.FileLogged sb k)
    (hp : (s1.volAt sb k).addr (s.itable k).inum p ≠ 0)
    (hused : (s.vol sb).used ((s1.volAt sb k).addr (s.itable k).inum p) = false →
      (s1.vol sb).used ((s1.volAt sb k).addr (s.itable k).inum p) = false) :
    ¬ s.Loose ((s1.volAt sb k).addr (s.itable k).inum p) := by
  have halloc := (Vol.alloc_congr htype).mpr h.alloc
  obtain ⟨hge, hlt⟩ := hblocks.data _ p halloc hp
  have hnow : (s1.vol sb).used ((s1.volAt sb k).addr (s.itable k).inum p) = true :=
    (hblocks.used _ hlt).mpr (.inr ⟨Set.notMem_empty _, _, p, halloc, rfl⟩)
  have hthen : (s.vol sb).used ((s1.volAt sb k).addr (s.itable k).inum p) = true := by
    by_contra hfree
    rw [hused (by simpa using hfree)] at hnow
    cases hnow
  obtain hmeta | ⟨-, j, q, hj, hjq⟩ := (h.blocks.used _ hlt).mp hthen
  · omega
  · have hne : (s.volAt sb k).addr j q ≠ 0 := hjq ▸ hp
    have hkept := haddr j q hj (.inr hne)
    obtain ⟨rfl, rfl⟩ := hblocks.once j q _ p ((Vol.alloc_congr htype).mpr hj) halloc (hkept ▸ hne)
      (hkept.trans hjq)
    rw [← hjq]
    exact hlogged q hne

/-! ## The loop of `writei` -/

/-- `w` bytes are written and logged, and `got` more have been copied when the source ends. -/
structure Cut (off n : Nat) (src : Nat → Option UInt8) (w got : Nat) : Prop where
  le : w + got ≤ n
  ok : ∀ j, j < w + got → src j ≠ none
  full : w + got = n → got = 0
  stop : w + got < n → src (w + got) = none
  -- The bytes not logged are those of the block in which the source ends.
  block : w + got < n → ∀ q, q < w + got → (w ≤ q ↔ (off + q) / BSIZE = (off + (w + got)) / BSIZE)

theorem Cut.nothing (off : Nat) (src : Nat → Option UInt8) : Cut off 0 src 0 0 where
  le := le_rfl
  ok := fun _ hj => absurd hj (Nat.not_lt_zero _)
  full := fun _ => rfl
  stop := fun h => absurd h (Nat.lt_irrefl _)
  block := fun h => absurd h (Nat.lt_irrefl _)

variable {src : Nat → Option UInt8} {off n : Nat}

variable {got m : Nat}

theorem Cut.first (hn : m ≤ n) (hm : m ≤ BSIZE - off % BSIZE) (hgot : got < m)
    (hok : ∀ j, j < got → src j ≠ none) (hstop : src got = none) : Cut off n src 0 got where
  le := by omega
  ok := fun j hj => hok j (by omega)
  full := fun h => by omega
  stop := fun _ => by rwa [Nat.zero_add]
  block := fun _ q hq => by
    have h1 := (div_add_of_lt (o := off) (j := q) (by omega)).1
    have h2 := (div_add_of_lt (o := off) (j := 0 + got) (by omega)).1
    rw [h1, h2]
    exact iff_of_true (Nat.zero_le _) rfl

variable {w : Nat}

theorem Cut.append (hm : m = BSIZE - off % BSIZE) (hok : ∀ j, j < m → src j ≠ none)
    (h : Cut (off + m) n (fun j => src (m + j)) w got) : Cut off (m + n) src (m + w) got where
  le := by
    have := h.le
    omega
  ok := fun j hj => by
    by_cases hjm : j < m
    · exact hok j hjm
    · have := h.ok (j - m) (by omega)
      rwa [Nat.add_sub_cancel' (by omega)] at this
  full := fun heq => h.full (by omega)
  stop := fun hlt => by
    have := h.stop (by omega)
    rwa [← Nat.add_assoc] at this
  block := fun hlt q hq => by
    by_cases hqm : q < m
    · -- the first piece is in a block of its own
      have hmod := Nat.mod_lt off (show 0 < BSIZE by decide)
      have h1 := (div_add_of_lt (o := off) (j := q) (by omega)).1
      rw [h1]
      refine iff_of_false (by omega) ?_
      simp only [BSIZE] at hm ⊢
      omega
    · have := h.block (by omega) (q - m) (by omega)
      rw [show off + m + (q - m) = off + q by omega,
        show off + m + (w + got) = off + (m + w + got) by omega] at this
      rw [← this]
      omega

/-- What the loop of `writei` has done when it stops after `w` bytes, with `got` bytes of the next
piece in the cache. -/
structure TornLoop (sb : Superblock) (s : Fs) (k : Fin NINODE) (off n : Nat)
    (src : Nat → Option UInt8) (w got : Nat) (s' : Fs) : Prop where
  cut : Cut off n src w got
  only : Only s s' k
  wrote : Wrote sb (s.volAt sb k) (s'.volAt sb k) (s.itable k).inum off (w + got) (w + got)
    fun j => (src j).getD 0
  blocks : (s'.volAt sb k).Blocks sb ∅
  clean : (∀ q, w ≤ q → q < w + got →
    src q = some ((s.volAt sb k).fileByte (s.itable k).inum (off + q))) → s.LogsAll sb s'
  loose : s.FileLogged sb k → ∀ q, w ≤ q → q < w + got →
    src q ≠ some ((s.volAt sb k).fileByte (s.itable k).inum (off + q)) →
    ∃ p, (s'.volAt sb k).addr (s.itable k).inum p ≠ 0 ∧
      s'.Loose ((s'.volAt sb k).addr (s.itable k).inum p)

section Loop

variable {sb : Superblock} {s : Fs} {k : Fin NINODE}

theorem TornLoop.nothing (h : Work sb s k) (off : Nat) (src : Nat → Option UInt8) :
    TornLoop sb s k off 0 src 0 0 s where
  cut := .nothing off src
  only := .refl s k
  wrote := Wrote.nothing ..
  blocks := h.blocks
  clean := fun _ => .refl sb s
  loose := fun _ _ _ hq => absurd hq (Nat.not_lt_zero _)

theorem TornLoop.logged {s' : Fs} (hpost : WriteiPost sb s k off n src n s')
    (hok : ∀ j, j < n → src j ≠ none) (hlogs : s.LogsAll sb s') :
    TornLoop sb s k off n src n 0 s' where
  __ := hpost
  cut := ⟨le_rfl, hok, fun _ => rfl, fun h => absurd h (Nat.lt_irrefl _),
    fun h => absurd h (Nat.lt_irrefl _)⟩
  blocks := hpost.work.blocks
  clean := fun _ => hlogs
  loose := fun _ _ hq hlt => absurd hlt (by omega)

theorem TornLoop.append {s1 s' : Fs} (hwork : Work sb s k) (hm : m = BSIZE - off % BSIZE)
    (hok : ∀ j, j < m → src j ≠ none) (hpost : WriteiPost sb s k off m src m s1)
    (hlogs : s.LogsAll sb s1)
    (h : TornLoop sb s1 k (off + m) n (fun j => src (m + j)) w got s') :
    TornLoop sb s k off (m + n) src (m + w) got s' := by
  have hlogged : s.FileLogged sb k → s1.FileLogged sb k := by
    intro hs p hp hloose
    rw [hpost.only.inum] at hp hloose
    obtain ⟨hold, -, hused⟩ := hlogs _ hloose
    exact hwork.not_loose hpost.work.blocks hpost.wrote.type hpost.wrote.addr hs hp hused hold
  have hold : ∀ q, m ≤ q → (s1.volAt sb k).fileByte (s1.itable k).inum (off + m + (q - m))
      = (s.volAt sb k).fileByte (s.itable k).inum (off + q) := by
    intro q hq
    rw [hpost.only.inum, show off + m + (q - m) = off + q by omega]
    exact hpost.wrote.rest _ (.inr (by omega))
  have hwrote := h.wrote
  rw [hpost.only.inum] at hwrote
  have happ := hpost.wrote.append hwrote fun _ => rfl
  refine ⟨h.cut.append hm hok, hpost.only.trans h.only, ?_, h.blocks, fun hall => ?_,
    fun hs q hq hlt hne => ?_⟩
  · rwa [Nat.add_assoc]
  · refine hlogs.trans (h.clean fun q hq hlt => ?_)
    have := hall (m + q) (by omega) (by omega)
    rw [← hold (m + q) (by omega), Nat.add_sub_cancel_left] at this
    exact this
  · rw [← hpost.only.inum]
    refine h.loose (hlogged hs) (q - m) (by omega) (by omega) ?_
    rw [hold q (by omega), Nat.add_sub_cancel' (by omega)]
    exact hne

/-- Copying the bytes that are there changes nothing. -/
theorem Block.blit_same {d : Block} {o : Nat}
    (hsame : ∀ q, q < got → src q = some (d.byte (o + q))) :
    Block.ofFn (Bytes.blit d.byte o got fun j => (src j).getD 0) = d := by
  refine Block.ext_byte fun i hi => ?_
  rw [Block.byte_ofFn hi]
  by_cases hin : o ≤ i ∧ i < o + got
  · rw [Bytes.blit_of_mem hin, hsame (i - o) (by omega), Nat.add_sub_cancel' hin.1]
    rfl
  · rw [Bytes.blit_of_notMem (by omega)]

variable (hl : sb.Layout)

include hl

/-- The source ends in the first piece: `got` bytes of it are in the block from `bmap`. -/
theorem TornLoop.first {s1 s' : Fs} (h : Work sb s k) (hwork : Work sb s1 k) (honly : Only s s1 k)
    (hgrows : Grows sb (s.volAt sb k) (s1.volAt sb k) (s.itable k).inum)
    (hne : (s1.volAt sb k).addr (s.itable k).inum (place (off / BSIZE)) ≠ 0)
    (hlogs : s.LogsAll sb s1) (hm : m ≤ BSIZE - off % BSIZE)
    (hcut : Cut off n src 0 got) (hgot : got < m) (hs' : s' = { s1 with
      data := update s1.data ((s1.volAt sb k).addr (s.itable k).inum (place (off / BSIZE)))
        (Block.ofFn (Bytes.blit (s1.data ((s1.volAt sb k).addr (s.itable k).inum
          (place (off / BSIZE)))).byte (off % BSIZE) got fun j => (src j).getD 0)) }) :
    TornLoop sb s k off n src 0 got s' := by
  have hinum : (s1.itable k).inum = (s.itable k).inum := honly.inum
  have hdata := hwork.data_eq_blk (n := off / BSIZE) (by rwa [hinum])
  have hisData := hwork.blocks.data _ (place (off / BSIZE)) hwork.alloc (by rwa [hinum])
  rw [hinum] at hdata hisData
  set b := (s1.volAt sb k).addr (s.itable k).inum (place (off / BSIZE)) with hb
  -- the bytes that were in the block
  have hbyte : ∀ q, q < got → (s1.data b).byte (off % BSIZE + q)
      = (s.volAt sb k).fileByte (s.itable k).inum (off + q) := by
    intro q hq
    obtain ⟨hdiv, hmod⟩ := div_add_of_lt (o := off) (j := q) (by omega)
    rw [hdata, hgrows.blk _ _ h.alloc, Vol.fileByte, hdiv, hmod]
  have hsome : ∀ q, q < got → ∃ x, src q = some x := fun q hq =>
    Option.ne_none_iff_exists'.mp (hcut.ok q (by omega))
  have hv : s'.volAt sb k = (s1.volAt sb k).setData b (Block.ofFn (Bytes.blit
      ((s1.volAt sb k).blk (s.itable k).inum (off / BSIZE)).byte (off % BSIZE) got
        fun j => (src j).getD 0)) := by
    rw [← hdata, hs']
    unfold Fs.volAt Fs.vol
    rw [volOf_setData hl hisData.1]
    rfl
  have halloc1 := (Vol.alloc_congr hgrows.type).mpr h.alloc
  refine ⟨hcut, honly.trans (.of_eq (by rw [hs'])), ?_, ?_, fun hall => ?_,
    fun hs q _ hq hdiff => ⟨place (off / BSIZE), ?_⟩⟩
  · rw [hv, Nat.zero_add]
    exact Wrote.piece hgrows hwork.blocks h.alloc hne (by omega) _
  · rw [hv]
    exact hwork.blocks.setData halloc1 hne
  · -- the bytes copied are those that were there
    have hsame := Block.blit_same fun q hq =>
      (hall q (Nat.zero_le _) (by omega)).trans (congrArg some (hbyte q hq).symm)
    rw [hsame, update_eq_self] at hs'
    rw [hs']
    exact hlogs
  · rw [hv, hwork.blocks.addr_setData halloc1 hne halloc1]
    refine ⟨hne, fun heq => hdiff ?_⟩
    have hkept : s1.data b = s1.logged b := by
      by_contra hloose
      obtain ⟨hold, -, hused⟩ := hlogs b hloose
      exact h.not_loose hwork.blocks hgrows.type hgrows.addr hs hne hused hold
    have hlog : s'.logged b = s1.data b := by rw [hkept, hs']
    obtain ⟨x, hx⟩ := hsome q (by omega)
    have hnew : (s'.data b).byte (off % BSIZE + q) = x := by
      rw [hs']
      dsimp only
      rw [update_self, Block.byte_ofFn (by omega), Bytes.blit_of_mem (by omega),
        Nat.add_sub_cancel_left, hx]
      rfl
    rw [hx, ← hbyte q (by omega), ← hlog, ← hnew]
    exact congrArg (fun d => some (d.byte (off % BSIZE + q))) heq

theorem writeiLoop_torn (src : Nat → Option UInt8) (n off fuel tot : Nat) (h : Work sb s k)
    (hmax : off + (n - tot) ≤ MAXFILE * BSIZE) (htot : tot ≤ n) (hfuel : n - tot ≤ fuel) :
    wp (fun _ => True) (writeiLoop sb k src n fuel tot off)
      (fun r s' => ∃ w got, r = (tot + w, off + w) ∧
        TornLoop sb s k off (n - tot) (fun j => src (tot + j)) w got s') s := by
  induction fuel generalizing tot off s with
  | zero =>
    obtain rfl : tot = n := by omega
    rw [Nat.sub_self]
    exact ⟨0, 0, rfl, .nothing h off _⟩
  | succ fuel ih =>
    by_cases hlt : tot < n
    swap
    · obtain rfl : tot = n := by omega
      rw [Nat.sub_self]
      exact writeiLoop_end ⟨0, 0, rfl, .nothing h off _⟩
    unfold writeiLoop
    rw [if_pos hlt, wp_bind]
    have hbn : off / BSIZE < MAXFILE := by
      rw [Nat.div_lt_iff_lt_mul (by decide)]
      omega
    have hmod := Nat.mod_lt off (show 0 < BSIZE by decide)
    refine (bmap_spec hl h hbn).mono (fun b s1 hpost => ?_) fun _ _ => trivial
    obtain ⟨hwork1, honly1, hgrows, rfl, hne, hnfree, -, hlogs1, hlogs⟩ := hpost
    dsimp only
    set m := min (n - tot) (BSIZE - off % BSIZE) with hm
    have hle := mapped_le (fun j => (src j).isSome) tot m
    have hsome : ∀ j, j < mapped (fun j => (src j).isSome) tot m → src (tot + j) ≠ none := by
      intro j hj
      have hok : (src (tot + j)).isSome = true := ok_of_lt_mapped hj
      exact Option.isSome_iff_ne_none.mp hok
    rw [wp_bind, wp_modifyBuf, wp_ite]
    refine ⟨fun hshort => ?_, fun hfull => ?_⟩
    · -- the source ends in this piece
      have hstop : src (tot + mapped (fun j => (src j).isSome) tot m) = none := by
        simpa using mapped_stop hshort
      have hcut : Cut off (n - tot) (fun j => src (tot + j)) 0 _ :=
        .first (by omega) (show m ≤ BSIZE - off % BSIZE by omega) hshort hsome hstop
      exact ⟨0, _, rfl, .first hl h hwork1 honly1 hgrows hne hlogs1
        (show m ≤ BSIZE - off % BSIZE by omega) hcut hshort rfl⟩
    · have hgm : mapped (fun j => (src j).isSome) tot m = m := by omega
      rw [hgm] at hsome
      -- the rest of the loop, when the piece has been written and logged
      have hrest : ∀ s2, WriteiPost sb s k off m (fun j => src (tot + j)) m s2 →
          s.LogsAll sb s2 →
          wp (fun _ => True) (writeiLoop sb k src n fuel (tot + m) (off + m))
            (fun r s' => ∃ w got, r = (tot + w, off + w) ∧
              TornLoop sb s k off (n - tot) (fun j => src (tot + j)) w got s') s2 := by
        intro s2 hpiece hlogs2
        by_cases hend : tot + m = n
        · rw [hend]
          refine writeiLoop_end ⟨m, 0, by rw [hend], ?_⟩
          rw [show n - tot = m by omega]
          exact .logged hpiece hsome hlogs2
        refine (ih (off + m) (tot + m) hpiece.work (by omega) (by omega) (by omega)).call
          fun r s' hpost => ?_
        obtain ⟨w, got, rfl, hpost⟩ := hpost
        refine ⟨m + w, got, by simp only [Nat.add_assoc], ?_⟩
        rw [show n - tot = m + (n - (tot + m)) by omega]
        simp only [Nat.add_assoc] at hpost
        exact .append h (by omega) hsome hpiece hlogs2 (by simpa only [Nat.add_assoc] using hpost)
      rw [wp_bind, wp_logWrite, hgm]
      have hisData := hwork1.blocks.data _ _ ((Vol.alloc_congr hgrows.type).mpr h.alloc) hne
      refine hrest _ ?_ (hlogs1.trans (.write hl hisData.1))
      exact writei_piece hl (fun j => src (tot + j)) h hwork1 honly1 hgrows hne hnfree (by omega)
        (by omega) le_rfl le_rfl (.inl rfl) _ rfl rfl (fun c hc => .inl (loose_write hc).1) hlogs
        fun c hc => mem_logged hc

end Loop

/-! ## `writei` -/

/-- What `writei` has done when it returns `w`: the `w` bytes are written, and `got` more are in the
cache. -/
structure Torn (sb : Superblock) (s : Fs) (k : Fin NINODE) (off n : Nat)
    (src : Nat → Option UInt8) (w got : Nat) (s' : Fs) : Prop where
  cut : Cut off n src w got
  size : (s'.vol sb).size (s.itable k).inum = max ((s.volAt sb k).size (s.itable k).inum) (off + w)
  done : ∀ o, off ≤ o → o < off + (w + got) →
    (s'.vol sb).fileByte (s.itable k).inum o = (src (o - off)).getD 0
  rest : ∀ o, o < off ∨ off + (w + got) ≤ o →
    (s'.vol sb).fileByte (s.itable k).inum o = (s.volAt sb k).fileByte (s.itable k).inum o
  clean : (∀ q, w ≤ q → q < w + got →
    src q = some ((s.volAt sb k).fileByte (s.itable k).inum (off + q))) → s.LogsAll sb s'
  loose : s.FileLogged sb k → s.LogsAll sb s' → ∀ q, w ≤ q → q < w + got →
    src q = some ((s.volAt sb k).fileByte (s.itable k).inum (off + q))

section Writei

variable {sb : Superblock} {s : Fs} {k : Fin NINODE}

theorem TornLoop.torn {s1 s2 s' : Fs} {d : Dinode} (hwork : Work sb s k)
    (h : TornLoop sb s k off n src w got s1)
    (hfit : max ((s.volAt sb k).size (s.itable k).inum) (off + w) < 2 ^ 32)
    (hd : d = { (s1.itable k).din with
      size := UInt32.ofNat (max ((s.volAt sb k).size (s.itable k).inum) (off + w)) })
    (hs2 : s2 = { s1 with itable := update s1.itable k { s1.itable k with din := d } })
    (hvol : s'.vol sb = s2.volAt sb k) (hmore : ∀ c, s'.Loose c → s2.Loose c)
    (hdata : ∀ b, sb.datastart ≤ b → s2.Loose b → s'.Loose b) : Torn sb s k off n src w got s' := by
  have hself : s2.itable k = { s1.itable k with din := d } := by
    rw [hs2]
    exact update_self ..
  have hv : s2.volAt sb k = (s1.volAt sb k).setIno (s1.itable k).inum d :=
    volAt_modify hself (by rw [hs2]; rfl)
  rw [h.only.inum] at hv
  have haddrs : d.addrs = ((s1.volAt sb k).ino (s.itable k).inum).addrs := by
    rw [hd, ← h.only.inum, Fs.volAt_ino]
  have hbyte : ∀ o, (s'.vol sb).fileByte (s.itable k).inum o
      = (s1.volAt sb k).fileByte (s.itable k).inum o := by
    intro o
    unfold Vol.fileByte
    rw [hvol, hv, blk_setIno haddrs]
  have hloose : ∀ c, s2.Loose c ↔ s1.Loose c := fun c => by rw [hs2]; rfl
  have hused : (s'.vol sb).used = (s1.vol sb).used := by rw [hvol, hs2]; rfl
  refine ⟨h.cut, ?_, fun o hlo hhi => (hbyte o).trans (h.wrote.done o hlo hhi),
    fun o ho => (hbyte o).trans (h.wrote.rest o ho), fun hall c hc => ?_, fun hs hlogs q hq hlt => ?_⟩
  · have hino : (s'.vol sb).ino (s.itable k).inum = d := by
      rw [hvol, hv]
      exact update_self ..
    rw [Vol.size, hino, hd]
    exact UInt32.toNat_ofNat_of_lt' hfit
  · obtain ⟨hold, heq, hfree⟩ := h.clean hall c ((hloose c).mp (hmore c hc))
    have hge : sb.datastart ≤ c := (hwork.tidy c hold).1.1
    have hsame : (s'.vol sb).data c = (s1.vol sb).data c := by rw [hvol, hs2]; rfl
    refine ⟨hold, .trans ?_ heq, fun hc' => by rw [hused]; exact hfree hc'⟩
    exact (if_pos hge).symm.trans (hsame.trans (if_pos hge))
  · by_contra hne
    obtain ⟨p, hp, hp'⟩ := h.loose hs q hq hlt hne
    have halloc := (Vol.alloc_congr h.wrote.type).mpr hwork.alloc
    have hge := (h.blocks.data _ p halloc hp).1
    obtain ⟨hold, -, hfree⟩ := hlogs _ (hdata _ hge ((hloose _).mpr hp'))
    rw [hused] at hfree
    exact hwork.not_loose h.blocks h.wrote.type h.wrote.addr hs hp hfree hold

variable (hl : sb.Layout)

include hl

theorem writei_torn (h : Work sb s k) (src : Nat → Option UInt8) (off n : UInt32) :
    wp (fun _ => True) (writei sb k src off n)
      (fun r s' =>
        ¬ WriteFits ((s.volAt sb k).size (s.itable k).inum) off.toNat n.toNat ∧ r = -1 ∧ s' = s ∨
        WriteFits ((s.volAt sb k).size (s.itable k).inum) off.toNat n.toNat ∧
          ∃ w got : Nat, r = w ∧ Torn sb s k off.toNat n.toNat src w got s') s := by
  refine writei_cases hl h.inum (fun hbad => .inl ⟨hbad, rfl, rfl⟩) fun hfits => ?_
  have hloop := writeiLoop_torn hl src n.toNat off.toNat n.toNat 0 h hfits.2.2 (Nat.zero_le _) le_rfl
  simp only [Nat.zero_add, Nat.sub_zero] at hloop
  refine hloop.call fun r s1 hpost => ?_
  obtain ⟨w, got, rfl, hpost⟩ := hpost
  have hle := hpost.cut.le
  refine ⟨hpost.only, hpost.wrote.din_size hpost.only, rfl, by omega, ?_⟩
  intro d s2 s' hd hs2 hvol _ hloose hdata _
  refine .inr ⟨hfits, w, got, rfl, hpost.torn h ?_ hd hs2 hvol hloose hdata⟩
  have hfit := hfits.2.1
  have hsize := ((s.volAt sb k).ino (s.itable k).inum).size.toNat_lt
  exact max_lt hsize (by omega)

end Writei

/-! ## What `writei` reports -/

/-- `writei` has done what it returns. If that is −1, nothing has changed. Otherwise it has replaced
as many bytes of the file as it says by the first bytes of the source, and every block that it has
changed or taken is as it was last passed to `log_write`. -/
def Reported (sb : Superblock) (s : Fs) (k : Fin NINODE) (src : Nat → Option UInt8) (off : Nat)
    (r : Int) (s' : Fs) : Prop :=
  r = -1 ∧ s' = s ∨ ∃ bytes : List UInt8, r = bytes.length ∧
    bytes.map some = (List.range bytes.length).map src ∧
    (s'.vol sb).content (s.itable k).inum
      = overwrite ((s.vol sb).content (s.itable k).inum) off bytes ∧ s.LogsAll sb s'

/-- Where the source ends, the bytes before it that go to the same block, in the file or past its end,
are what the block holds already. -/
def Harmless (sb : Superblock) (s : Fs) (k : Fin NINODE) (src : Nat → Option UInt8)
    (off n : Nat) : Prop :=
  WriteFits ((s.vol sb).size (s.itable k).inum) off n →
    ∀ j, j < n → src j = none → (∀ q, q < j → src q ≠ none) →
      ∀ q, q < j → (off + q) / BSIZE = (off + j) / BSIZE →
        src q = some ((s.vol sb).fileByte (s.itable k).inum (off + q))

section Reports

variable {sb : Superblock} {s s' : Fs} {k : Fin NINODE} {src : Nat → Option UInt8}

theorem Cut.unique {j : Nat} (h : Cut off n src w got) (hj : j < n) (hnone : src j = none)
    (hok : ∀ q, q < j → src q ≠ none) : w + got = j := by
  have hle : w + got ≤ j := by
    by_contra hlt
    exact h.ok j (by omega) hnone
  rcases Nat.lt_or_eq_of_le hle with hlt | heq
  · exact absurd (h.stop (by omega)) (hok _ hlt)
  · exact heq

theorem map_getD_eq (hok : ∀ j, j < n → src j ≠ none) :
    ((List.range n).map fun j => (src j).getD 0).map some = (List.range n).map src := by
  rw [map_map]
  refine map_congr_left fun j hj => ?_
  obtain ⟨x, hx⟩ := Option.ne_none_iff_exists'.mp (hok j (mem_range.mp hj))
  simp [hx]

/-- A write has done what it reports if the bytes that it copied before the source ended were there
already, and, in a file whose blocks are as last logged, only then. -/
theorem Torn.reported_iff (hvol : s.volAt sb k = s.vol sb)
    (hfits : WriteFits ((s.vol sb).size (s.itable k).inum) off n)
    (h : Torn sb s k off n src w got s') :
    (Harmless sb s k src off n → Reported sb s k src off w s') ∧
      (s.FileLogged sb k → Reported sb s k src off w s' → Harmless sb s k src off n) := by
  obtain ⟨hcut, hsize, hdone, hrest, hclean, hloose⟩ := h
  rw [hvol] at hsize hrest hclean hloose
  have hle := hcut.le
  constructor
  · intro hharm
    -- the bytes of the piece that failed
    have hpiece : ∀ q, w ≤ q → q < w + got →
        src q = some ((s.vol sb).fileByte (s.itable k).inum (off + q)) := by
      intro q hq hlt
      have hshort : w + got < n := by
        rcases Nat.lt_or_eq_of_le hle with hshort | heq
        · exact hshort
        · have := hcut.full heq
          omega
      exact hharm hfits (w + got) hshort (hcut.stop hshort) (fun q hq => hcut.ok q hq) q hlt
        ((hcut.block hshort q hlt).mp hq)
    refine .inr ⟨(List.range w).map fun j => (src j).getD 0, by simp, ?_, ?_, hclean hpiece⟩
    · rw [length_map, length_range]
      exact map_getD_eq fun j hj => hcut.ok j (by omega)
    · refine content_overwrite (g := fun j => (src j).getD 0) hfits.1 hsize
        (fun o hlo hhi => hdone o hlo (by omega)) fun o ho hout => ?_
      by_cases hin : off + w ≤ o ∧ o < off + (w + got)
      · have hsrc := hpiece (o - off) (by omega) (by omega)
        rw [hdone o (by omega) hin.2, hsrc, Nat.add_sub_cancel' (by omega)]
        rfl
      · exact hrest o (by omega)
  · rintro hs (⟨hneg, -⟩ | ⟨bytes, -, -, -, hlogs⟩) - j hj hnone hok q hq hblock
    · omega
    obtain rfl := hcut.unique hj hnone hok
    exact hloose hs hlogs q ((hcut.block hj q hq).mpr hblock) hq

/-- **What a write reports.** When `writei` returns, it has done what it reports if the bytes that it
copied before the source ended, to the block in which it ended, were there already.

The condition is also necessary if the blocks of the file were as last logged, which they are unless
an earlier write was cut short in this way. (In a block that is ahead of the log already, bytes that
are copied and not logged may happen to bring back what was logged.) -/
theorem writei_reports_iff (hl : sb.Layout) (h : s.Good sb) (hlock : (s.itable k).lock = true)
    {off n : UInt32} {r : Int} (hrun : (writei sb k src off n).run s = .ok (r, s')) :
    (Harmless sb s k src off.toNat n.toNat → Reported sb s k src off.toNat r s') ∧
      (s.FileLogged sb k → Reported sb s k src off.toNat r s' →
        Harmless sb s k src off.toNat n.toNat) := by
  obtain ⟨hr, hv⟩ := (h.table.entry k).held hlock
  have hvol := h.volAt hr hv
  have hpost := (wp_iff.1 (writei_torn hl (h.work hr hv) src off n)).1 r s' hrun
  rw [hvol] at hpost
  rcases hpost with ⟨hbad, rfl, rfl⟩ | ⟨hfits, w, got, rfl, htorn⟩
  · exact ⟨fun _ => .inl ⟨rfl, rfl⟩, fun _ _ hfits => absurd hfits hbad⟩
  · exact htorn.reported_iff hvol hfits

/-! ## A buffer that ends -/

def fourBytes (sb : Superblock) : FsM (Fin NINODE) := do
  let k ← newFile sb
  let _ ← withLock sb k (writei sb k (fun j => some (UInt8.ofNat (j + 1))) 0 4)
  return k

def fourBytesHeld (sb : Superblock) : FsM (Fin NINODE) := do
  let k ← fourBytes sb
  ilock sb k
  return k

def halfBuffer (j : Nat) : Option UInt8 := if j < 2 then some 9 else none

/-- The same, with the bytes that the file begins with. -/
def sameBuffer (j : Nat) : Option UInt8 := if j < 2 then some (UInt8.ofNat (j + 1)) else none

/-- Four bytes from a buffer: what is returned, the content before and after, and the first byte of
the block in the cache and in the log. -/
def halfWrite (src : Nat → Option UInt8) : FsM (Int × List UInt8 × List UInt8 × UInt8 × UInt8) := do
  let k ← fourBytesHeld Mkfs.sb
  let s ← get
  let r ← writei Mkfs.sb k src 0 4
  let s' ← get
  let i := (s.itable k).inum
  let b := (s.vol Mkfs.sb).addr i 0
  return (r, (s.vol Mkfs.sb).content i, (s'.vol Mkfs.sb).content i, (s'.data b).byte 0,
    (s'.logged b).byte 0)

theorem fourBytes_spec (hl : sb.Layout) (h : s.Good sb)
    (hfree : ∀ j, 0 < (s.itable j).ref → (s.vol sb).Alloc sb (s.itable j).inum) :
    wp (fun _ => True) (fourBytes sb) (fun k s' => Unlocked sb s' k) s := by
  unfold fourBytes
  rw [wp_bind]
  refine (newFile_spec hl h hfree).call fun k s1 hopen => ?_
  rw [wp_bind]
  exact (hopen.write hl (fun j => some (UInt8.ofNat (j + 1))) 0 4 fun _ _ => nofun).call
    fun _ s2 hopen2 => hopen2

theorem fourBytes_unlocked (hl : sb.Layout) (h : s.Good sb)
    (hfree : ∀ j, 0 < (s.itable j).ref → (s.vol sb).Alloc sb (s.itable j).inum)
    (hrun : (fourBytes sb).run s = .ok (k, s')) : Unlocked sb s' k :=
  (wp_iff.1 (fourBytes_spec hl h hfree)).1 k s' hrun

theorem fourBytesHeld_good (hl : sb.Layout) (h : s.Good sb)
    (hfree : ∀ j, 0 < (s.itable j).ref → (s.vol sb).Alloc sb (s.itable j).inum)
    (hrun : (fourBytesHeld sb).run s = .ok (k, s')) : s'.Good sb ∧ (s'.itable k).lock = true := by
  have hspec : wp (fun _ => True) (fourBytesHeld sb)
      (fun k s' => s'.Good sb ∧ (s'.itable k).lock = true) s := by
    unfold fourBytesHeld
    rw [wp_bind]
    refine (fourBytes_spec hl h hfree).call fun k s1 hopen => ?_
    rw [wp_bind]
    exact hopen.ilock.call fun _ s2 h2 => ⟨h2.1, h2.2.1⟩
  exact (wp_iff.1 hspec).1 k s' hrun

theorem halfWrite_ok (src : Nat → Option UInt8) {l : List UInt8} {x y : UInt8}
    (h : ((halfWrite src).run Mkfs.fs).map Prod.fst = .ok (0, [1, 2, 3, 4], l, x, y)) :
    ∃ k s s', s.Good Mkfs.sb ∧ (s.itable k).lock = true ∧
      (writei Mkfs.sb k src 0 4).run s = .ok (0, s') ∧
      (s.vol Mkfs.sb).content (s.itable k).inum = [1, 2, 3, 4] ∧
      (s'.vol Mkfs.sb).content (s.itable k).inum = l ∧ (x ≠ y → ∃ b, s'.Loose b) := by
  obtain ⟨t, hrun⟩ := ok_of_map_fst h
  unfold halfWrite at hrun
  simp only [StateT.run_bind, bind_ok] at hrun
  obtain ⟨⟨k, s⟩, hfour, ⟨s1, s1'⟩, hget, ⟨r, s2⟩, hwrite, ⟨s3, s3'⟩, hget', hret⟩ := hrun
  cases hget
  cases hget'
  obtain ⟨hr, -⟩ := Prod.mk.inj (Except.ok.inj hret)
  simp only [Prod.mk.injEq] at hr
  obtain ⟨rfl, hbefore, hafter, hcache, hlog⟩ := hr
  obtain ⟨hgood, hlock⟩ := fourBytesHeld_good Mkfs.layout Mkfs.good fs_unused hfour
  refine ⟨k, s, s2, hgood, hlock, hwrite, hbefore, hafter, fun hne =>
    ⟨(s.vol Mkfs.sb).addr (s.itable k).inum 0, fun heq => hne ?_⟩⟩
  rw [← hcache, ← hlog, heq]

/-- A write that is cut short in the middle of bytes that the file has already. -/
theorem writei_reports_iff_same : ∃ k s s', s.Good Mkfs.sb ∧ (s.itable k).lock = true ∧
    (writei Mkfs.sb k sameBuffer 0 4).run s = .ok (0, s') ∧
    Reported Mkfs.sb s k sameBuffer 0 0 s' := by
  obtain ⟨k, s, s', hgood, hlock, hrun, hbefore, -⟩ := halfWrite_ok sameBuffer
    (l := [1, 2, 3, 4]) (x := 1) (y := 1) (by decide +kernel)
  refine ⟨k, s, s', hgood, hlock, hrun, (writei_reports_iff Mkfs.layout hgood hlock hrun).1 ?_⟩
  intro _ j hj hnone hok q hq _
  obtain rfl : j = 2 := by
    have h2 : ¬ 2 < j := fun h => hok 2 h rfl
    have h0 : 2 ≤ j := by
      by_contra hlt
      simp [sameBuffer, show j < 2 by omega] at hnone
    omega
  have hsize := congrArg List.length hbefore
  rw [length_content] at hsize
  have hbyte : (q + 1).toUInt8 = (s.vol Mkfs.sb).fileByte (s.itable k).inum q := by
    have hat := congrArg (·[q]?) hbefore
    simp only [Vol.content, hsize] at hat
    interval_cases q <;> simpa using hat.symm
  rw [sameBuffer, if_pos (by omega)]
  simp [hbyte]

/-- Nothing is reported as written, and two bytes of the file have changed. -/
theorem writei_unreported : ∃ k s s', s.Good Mkfs.sb ∧ (s.itable k).lock = true ∧
    (writei Mkfs.sb k halfBuffer 0 4).run s = .ok (0, s') ∧
    (s.vol Mkfs.sb).content (s.itable k).inum = [1, 2, 3, 4] ∧
    (s'.vol Mkfs.sb).content (s.itable k).inum = [9, 9, 3, 4] ∧ (∃ b, s'.Loose b) ∧
    ¬ Reported Mkfs.sb s k halfBuffer 0 0 s' := by
  obtain ⟨k, s, s', hgood, hlock, hrun, hbefore, hafter, hloose⟩ := halfWrite_ok halfBuffer
    (l := [9, 9, 3, 4]) (x := 9) (y := 1) (by decide +kernel)
  refine ⟨k, s, s', hgood, hlock, hrun, hbefore, hafter, hloose (by decide), ?_⟩
  rintro (⟨hneg, -⟩ | ⟨bytes, hlen, -, hcontent, -⟩)
  · cases hneg
  · obtain rfl : bytes = [] := eq_nil_of_length_eq_zero (by omega)
    rw [hbefore, hafter] at hcontent
    exact absurd hcontent (by decide)

end Reports

end Xv6
