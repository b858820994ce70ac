import Xv6.Fs.Directory
import Xv6.Fs.Namei

/-!
# Path resolution

* **Components** — `skipelem`, called again and again, yields the parts of the path between
  slashes (`pathElems`).
* **Sound states** — what a walk along a path relies on (`Fs.Sound`, `Fs.Whole`). In them no walk
  drops the last reference to an inode that could then be freed, so a walk changes nothing but
  references (`Near`).
* **The walk** — `namei` and `nameiparent` go from inode to inode as `Vol.resolve` and
  `Vol.resolveParent` do.
-/

namespace Xv6

open Prog Vol Function List

/-! ## Components -/

/-- The parts of a path between slashes that are not empty. -/
def pathParts (path : List UInt8) : List (List UInt8) :=
  (path.splitOnP (· == slash)).filter (· ≠ [])

/-- The components of a path, as `skipelem` copies them. -/
def pathElems (path : List UInt8) : List (List UInt8) := (pathParts path).map (·.take DIRSIZ)

theorem pathParts_slash (path : List UInt8) : pathParts (slash :: path) = pathParts path := by
  have hsplit : ([] ++ slash :: path).splitOnP (· == slash) = [] :: path.splitOnP (· == slash) :=
    splitOnP_append_cons_of_forall_mem (fun _ hx => by cases hx) slash rfl path
  rw [nil_append] at hsplit
  rw [pathParts, hsplit]
  rfl

theorem pathParts_dropWhile (path : List UInt8) :
    pathParts (path.dropWhile (· = slash)) = pathParts path := by
  induction path with
  | nil => rfl
  | cons c path ih =>
    by_cases hc : c = slash
    · rw [hc, dropWhile_cons_of_pos (by decide), pathParts_slash, ih]
    · rw [dropWhile_cons_of_neg (by simpa using hc)]

theorem head?_dropWhile_slash (path : List UInt8) :
    (path.dropWhile (· = slash)).head? ≠ some slash := by
  intro h
  have hnot := List.head?_dropWhile_not (fun c => decide (c = slash)) path
  rw [h] at hnot
  cases hnot

variable {path : List UInt8}

theorem pathParts_elem (hne : path ≠ []) (hhead : path.head? ≠ some slash) :
    pathParts path
      = path.takeWhile (· ≠ slash) :: pathParts (path.dropWhile (· ≠ slash)) := by
  obtain ⟨c, cs, rfl⟩ := exists_cons_of_ne_nil hne
  have hc : c ≠ slash := fun h => hhead (congrArg some h)
  set elem := (c :: cs).takeWhile (· ≠ slash) with helem
  have hpos : elem ≠ [] := by
    rw [helem, takeWhile_cons_of_pos (by simpa using hc)]
    exact cons_ne_nil _ _
  have hall : ∀ x ∈ elem, (x == slash) = false := fun x hx => by
    simpa using mem_takeWhile_imp hx
  have hsplit : c :: cs = elem ++ (c :: cs).dropWhile (· ≠ slash) :=
    takeWhile_append_dropWhile.symm
  cases hrest : (c :: cs).dropWhile (· ≠ slash) with
  | nil =>
    rw [hrest, append_nil] at hsplit
    rw [hsplit, pathParts, splitOnP_eq_singleton hall,
      filter_cons_of_pos (by simpa using hpos)]
    rfl
  | cons b after =>
    obtain rfl : b = slash := by
      have hnot := List.head?_dropWhile_not (fun c => decide (c ≠ slash)) (c :: cs)
      rw [hrest] at hnot
      simpa using hnot
    rw [hrest] at hsplit
    rw [hsplit, pathParts_slash, pathParts,
      splitOnP_append_cons_of_forall_mem hall slash (by decide) after,
      filter_cons_of_pos (by simpa using hpos)]
    rfl

theorem skipelem_lt {name rest : List UInt8} (h : skipelem path = some (name, rest)) :
    rest.length < path.length := by
  unfold skipelem at h
  dsimp only at h
  set p := path.dropWhile (· = slash) with hp
  set elem := p.takeWhile (fun c => decide (c ≠ slash ∧ c ≠ 0)) with helem
  obtain ⟨hhead, heq⟩ := Option.ite_none_left_eq_some.mp h
  obtain ⟨-, rfl⟩ := Prod.mk.inj (Option.some.inj heq)
  have hpos : 0 < elem.length := by
    cases hcs : p with
    | nil =>
      rw [hcs] at hhead
      exact absurd rfl hhead
    | cons c cs =>
      have hc : c ≠ slash := fun h => head?_dropWhile_slash path (by rw [← hp, hcs, h]; rfl)
      rw [hcs] at hhead
      rw [helem, hcs, takeWhile_cons_of_pos (by simpa using ⟨hc, hhead⟩)]
      exact Nat.succ_pos _
  have h1 := (dropWhile_sublist (l := p.drop elem.length) (· = slash)).length_le
  have h2 : p.length ≤ path.length := (dropWhile_sublist _).length_le
  have h3 : elem.length ≤ p.length := (takeWhile_sublist _).length_le
  rw [length_drop] at h1
  omega

theorem takeWhile_elem (hpath : (0 : UInt8) ∉ path) :
    path.takeWhile (fun c => decide (c ≠ slash ∧ c ≠ 0)) = path.takeWhile (· ≠ slash) := by
  induction path with
  | nil => rfl
  | cons c cs ih =>
    have hc : c ≠ 0 := fun h => hpath (h ▸ mem_cons_self ..)
    rw [takeWhile_cons, takeWhile_cons, ih fun h => hpath (mem_cons_of_mem _ h)]
    simp only [ne_eq, hc, not_false_eq_true, and_true]

theorem skipelem_cases (hpath : (0 : UInt8) ∉ path) :
    skipelem path = none ∧ pathElems path = [] ∨
      ∃ name rest, skipelem path = some (name, rest) ∧ pathElems path = name :: pathElems rest ∧
        (0 : UInt8) ∉ rest ∧ (rest.headD 0 = 0 ↔ pathElems rest = []) := by
  set p := path.dropWhile (· = slash) with hp
  have hsub : p.Sublist path := dropWhile_sublist _
  have hzero : (0 : UInt8) ∉ p := fun h => hpath (hsub.subset h)
  -- the first byte of a path without NULs tells whether it is empty
  have hend {q : List UInt8} (hq : (0 : UInt8) ∉ q) : q.headD 0 = 0 ↔ q = [] := by
    cases q with
    | nil => simp
    | cons c cs =>
      refine iff_of_false (fun h => hq ?_) (cons_ne_nil _ _)
      rw [← h]
      exact mem_cons_self ..
  unfold skipelem
  dsimp only
  rw [← hp]
  by_cases hne : p = []
  · refine .inl ⟨if_pos ((hend hzero).mpr hne), ?_⟩
    rw [pathElems, ← pathParts_dropWhile, ← hp, hne]
    rfl
  right
  have hparts := pathParts_elem hne (head?_dropWhile_slash path)
  set elem := p.takeWhile (· ≠ slash) with helem
  set rest := (p.dropWhile (· ≠ slash)).dropWhile (· = slash) with hrest
  have hdrop : p.drop elem.length = p.dropWhile (· ≠ slash) := by
    nth_rewrite 1 [← takeWhile_append_dropWhile (p := fun c => decide (c ≠ slash)) (l := p)]
    exact drop_left
  have hrestsub : rest.Sublist (p.dropWhile (· ≠ slash)) := dropWhile_sublist _
  have hrestzero : (0 : UInt8) ∉ rest := fun h =>
    hzero (((dropWhile_sublist _).subset (hrestsub.subset h)))
  refine ⟨elem.take DIRSIZ, rest, ?_, ?_, hrestzero, ?_⟩
  · rw [if_neg fun h => hne ((hend hzero).mp h), takeWhile_elem hzero, hdrop]
  · rw [pathElems, ← pathParts_dropWhile, ← hp, hparts, map_cons, hrest, pathElems,
      pathParts_dropWhile]
  · rw [hend hrestzero]
    refine ⟨fun h => by rw [h]; rfl, fun hnil => ?_⟩
    by_contra hne'
    rw [pathElems, pathParts_elem hne' (head?_dropWhile_slash _)] at hnil
    cases hnil

/-- What `skipelem` yields when it is called until there is nothing left. -/
def skipelems (path : List UInt8) : List (List UInt8) :=
  match _h : skipelem path with
  | none => []
  | some (name, rest) => name :: skipelems rest
termination_by path.length
decreasing_by exact skipelem_lt _h

theorem skipelems_eq (hpath : (0 : UInt8) ∉ path) : skipelems path = pathElems path := by
  induction hn : path.length using Nat.strong_induction_on generalizing path with
  | _ n ih =>
    rcases skipelem_cases hpath with ⟨hskip, helems⟩ | ⟨name, rest, hskip, helems, hrest, -⟩
    · rw [skipelems, helems]
      split
      · rfl
      · rename_i hskip'
        rw [hskip] at hskip'
        cases hskip'
    · rw [skipelems, helems]
      split
      · rename_i hskip'
        rw [hskip] at hskip'
        cases hskip'
      · rename_i hskip'
        rw [hskip] at hskip'
        cases hskip'
        rw [ih rest.length (hn ▸ skipelem_lt hskip) hrest rfl]

/-! ## Resolution -/

section Resolve

variable (v : Vol)

/-- The inode that `path` leads to from inode `i`. -/
def Vol.resolve : Nat → List (List UInt8) → Option Nat
  | i, [] => some i
  | i, name :: path =>
    if (v.ino i).type = T_DIR then
      (Slots.get (nameKey name) (v.slots i)).bind fun j => Vol.resolve j path
    else none

/-- The directory that the last component of `path` is looked up in, and that component. -/
def Vol.resolveParent (i : Nat) (path : List (List UInt8)) : Option (Nat × List UInt8) :=
  path.getLast?.bind fun name => (v.resolve i path.dropLast).bind fun d =>
    if (v.ino d).type = T_DIR then some (d, name) else none

/-- The walk of `namex`: `resolve`, or with `parent` `resolveParent`. -/
def Vol.walk (parent : Bool) : Nat → List (List UInt8) → Option (Nat × List UInt8)
  | i, [] => if parent then none else some (i, [])
  | i, name :: path =>
    if (v.ino i).type = T_DIR then
      if parent = true ∧ path = [] then
        some (i, name)
      else
        (Slots.get (nameKey name) (v.slots i)).bind fun j => Vol.walk parent j path
    else none

theorem Vol.walk_false (i : Nat) (path : List (List UInt8)) :
    v.walk false i path = (v.resolve i path).map fun j => (j, []) := by
  induction path generalizing i with
  | nil => rfl
  | cons name path ih =>
    unfold Vol.walk Vol.resolve
    split
    · rw [if_neg (by simp), Option.map_bind]
      exact congrArg _ (funext fun j => ih j)
    · rfl

theorem Vol.walk_true (i : Nat) (path : List (List UInt8)) :
    v.walk true i path = v.resolveParent i path := by
  induction path generalizing i with
  | nil => rfl
  | cons name path ih =>
    unfold Vol.walk
    by_cases hnil : path = []
    · subst hnil
      simp [Vol.resolveParent, Vol.resolve]
    · obtain ⟨last, hlast⟩ := Option.ne_none_iff_exists'.mp
        (fun h => hnil (List.getLast?_eq_none_iff.mp h))
      have hcons : v.resolveParent i (name :: path) = if (v.ino i).type = T_DIR then
          (Slots.get (nameKey name) (v.slots i)).bind fun j => v.resolveParent j path else none := by
        unfold Vol.resolveParent
        rw [List.getLast?_cons, dropLast_cons_of_ne_nil hnil, hlast, Vol.resolve]
        split
        · rw [Option.bind_some, Option.bind_assoc]
          rfl
        · rfl
      rw [hcons, if_neg fun h : _ ∧ _ => hnil h.2]
      simp only [ih]

/-- Inode `i` can be come by: it is the root, or a directory has an entry for it. -/
def Vol.Named (sb : Superblock) (i : Nat) : Prop :=
  i = ROOTINO ∨ ∃ d key, ∃ e : Nat, v.Alloc sb d ∧ (v.ino d).type = T_DIR ∧
    (v.slots d)[e]? = some (some (key, i))

end Resolve

variable {sb : Superblock}

theorem Vol.Directory.inum_lt {v : Vol} {i e inum : Nat} {key : List UInt8} (h : v.Directory i)
    (hdirs : v.Dirs sb) (halloc : v.Alloc sb i) (he : (v.slots i)[e]? = some (some (key, inum))) :
    inum < sb.ninodes := by
  obtain ⟨hlt, -⟩ := List.getElem?_eq_some_iff.mp he
  rw [Vol.getElem?_slots hlt, Dirent.entry] at he
  obtain ⟨-, heq⟩ := Option.ite_none_left_eq_some.mp (Option.some.inj he)
  obtain ⟨-, rfl⟩ := Prod.mk.inj (Option.some.inj heq)
  refine hdirs i halloc h.type e ?_
  rw [← h.size]
  exact Nat.mul_le_mul_right _ hlt

/-- Between two calls: directories hold whole entries, and an inode without links that an entry
still names is in use. -/
structure Fs.Sound (sb : Superblock) (s : Fs) : Prop extends s.Quiet sb where
  whole : ∀ i, (s.vol sb).Alloc sb i → ((s.vol sb).ino i).type = T_DIR → DESIZE ∣ (s.vol sb).size i
  linked : ∀ i, (s.vol sb).Named sb i → (s.vol sb).Alloc sb i → ((s.vol sb).ino i).nlink = 0 →
    ∃ k, 0 < (s.itable k).ref ∧ (s.itable k).inum = i

/-- The same, and entries and references are to inodes that are allocated. -/
structure Fs.Whole (sb : Superblock) (s : Fs) : Prop extends s.Sound sb where
  named : ∀ i, (s.vol sb).Named sb i → (s.vol sb).Alloc sb i
  held : ∀ k, 0 < (s.itable k).ref → (s.vol sb).Alloc sb (s.itable k).inum

/-! ## References taken since -/

/-- Since `s₀`, the references `refs` have been taken, and the entries that were in use have kept
their inodes. -/
structure Taken (s₀ s : Fs) (refs : List (Fin NINODE)) : Prop where
  ref : ∀ j, (s.itable j).ref = (s₀.itable j).ref + refs.count j
  kept : ∀ j, 0 < (s₀.itable j).ref → (s.itable j).inum = (s₀.itable j).inum

/-- The disk holds what it held in `s₀`, and the references `refs` have been taken, to inodes that
can be come by. -/
structure Near (sb : Superblock) (s₀ s : Fs) (refs : List (Fin NINODE)) : Prop
    extends Taken s₀ s refs where
  vol : s.vol sb = s₀.vol sb
  named : ∀ j ∈ refs, 0 < (s₀.itable j).ref ∨ (s₀.vol sb).Named sb (s.itable j).inum

/-- The file system is good, directories name inodes of the disk, and the entries in `locks` are
locked. -/
structure Fs.Holding (sb : Superblock) (s : Fs) (locks : Finset (Fin NINODE)) : Prop where
  good : s.Good sb
  dirs : (s.vol sb).Dirs sb
  lock : ∀ j, (s.itable j).lock = decide (j ∈ locks)

/-- Every entry has kept its inode, and nothing was logged. -/
structure Fs.Still (s s' : Fs) : Prop where
  inum : ∀ j, (s'.itable j).inum = (s.itable j).inum
  lh : s'.lh = s.lh

section Taken

variable {sb : Superblock} {s₀ s s₁ s' : Fs} {refs refs' : List (Fin NINODE)} {k : Fin NINODE}
  {locks : Finset (Fin NINODE)}

theorem Taken.refl (s : Fs) : Taken s s [] where
  ref _ := rfl
  kept _ _ := rfl

variable (h : Taken s₀ s refs)

include h

theorem Taken.pos (hk : k ∈ refs) : 0 < (s.itable k).ref := by
  have := count_pos_iff.mpr hk
  have := h.ref k
  omega

theorem Taken.le (hk : 0 < (s₀.itable k).ref) : 0 < (s.itable k).ref := by
  rw [h.ref k]
  exact Nat.add_pos_left hk _

theorem Taken.trans (h' : Taken s s' refs') : Taken s₀ s' (refs ++ refs') where
  ref j := by rw [h'.ref j, h.ref j, count_append, Nat.add_assoc]
  kept j hj := by rw [h'.kept j (h.le hj), h.kept j hj]

theorem Taken.same (href : ∀ j, (s'.itable j).ref = (s.itable j).ref)
    (hinum : ∀ j, 0 < (s.itable j).ref → (s'.itable j).inum = (s.itable j).inum) :
    Taken s₀ s' refs where
  ref j := (href j).trans (h.ref j)
  kept j hj := (hinum j (h.le hj)).trans (h.kept j hj)

theorem Taken.setEntry {ip : Inode} (href : ip.ref = (s.itable k).ref)
    (hinum : ip.inum = (s.itable k).inum) : Taken s₀ (s.setEntry k ip) refs := by
  have hentry (j : Fin NINODE) : ((s.setEntry k ip).itable j).ref = (s.itable j).ref ∧
      ((s.setEntry k ip).itable j).inum = (s.itable j).inum := by
    by_cases hj : j = k
    · rw [hj, Fs.itable_setEntry]
      exact ⟨href, hinum⟩
    · rw [Fs.itable_setEntry_ne hj]
      exact ⟨rfl, rfl⟩
  exact h.same (fun j => (hentry j).1) fun j _ => (hentry j).2

omit h

theorem Near.refl (s : Fs) : Near sb s s [] where
  toTaken := .refl s
  vol := rfl
  named j hj := by cases hj

theorem Near.same (h : Near sb s₀ s refs) (hvol : s'.vol sb = s.vol sb)
    (href : ∀ j, (s'.itable j).ref = (s.itable j).ref)
    (hinum : ∀ j, 0 < (s.itable j).ref → (s'.itable j).inum = (s.itable j).inum) :
    Near sb s₀ s' refs where
  toTaken := h.toTaken.same href hinum
  vol := hvol.trans h.vol
  named j hj := by
    rw [hinum j (h.pos hj)]
    exact h.named j hj

theorem Fs.Still.trans (h : s₀.Still s) (h' : s.Still s') : s₀.Still s' :=
  ⟨fun j => (h'.inum j).trans (h.inum j), h'.lh.trans h.lh⟩

theorem Fs.Still.setEntry {ip : Inode} (hinum : ip.inum = (s.itable k).inum) :
    s.Still (s.setEntry k ip) := by
  refine ⟨fun j => ?_, rfl⟩
  by_cases hj : j = k
  · rw [hj, Fs.itable_setEntry, hinum]
  · rw [Fs.itable_setEntry_ne hj]

theorem Fs.Quiet.holding (h : s.Quiet sb) : s.Holding sb ∅ :=
  ⟨h.good, h.dirs, fun j => by rw [h.unlocked j, decide_eq_false (Finset.notMem_empty j)]⟩

theorem Fs.Holding.quiet (h : s.Holding sb ∅) : s.Quiet sb :=
  ⟨h.good, h.dirs, fun j => by rw [h.lock j, decide_eq_false (Finset.notMem_empty j)]⟩

theorem Fs.Holding.held (h : s.Holding sb locks) (hk : k ∈ locks) :
    0 < (s.itable k).ref ∧ (s.itable k).valid = true :=
  (h.good.table.entry k).held (by rw [h.lock k, decide_eq_true hk])

theorem Fs.Holding.din (h : s.Holding sb locks) (hk : k ∈ locks) :
    (s.itable k).din = (s.vol sb).ino (s.itable k).inum :=
  h.good.din (h.held hk).1 (h.held hk).2

theorem Fs.Holding.alloc (h : s.Holding sb locks) (hk : k ∈ locks) :
    (s.vol sb).Alloc sb (s.itable k).inum :=
  h.good.alloc (h.held hk).1 (h.held hk).2

end Taken

section Near

variable {sb : Superblock} {s₀ s : Fs} {refs : List (Fin NINODE)} {k : Fin NINODE}
  {locks : Finset (Fin NINODE)}

theorem Near.setEntry (h : Near sb s₀ s refs) {ip : Inode} (href : ip.ref = (s.itable k).ref)
    (hinum : ip.inum = (s.itable k).inum) : Near sb s₀ (s.setEntry k ip) refs := by
  have hstill := Fs.Still.setEntry (s := s) hinum
  refine ⟨h.toTaken.setEntry href hinum, h.vol, fun j hj => ?_⟩
  rw [hstill.inum]
  exact h.named j hj

theorem Near.iget (h : Near sb s₀ s refs) {inum : Nat} {t : Fin NINODE → Inode}
    (hget : Iget s.itable inum k t) (hnamed : 0 < (s₀.itable k).ref ∨ (s₀.vol sb).Named sb inum)
    (hgood : s.Good sb) : Near sb s₀ { s with itable := t } (k :: refs) := by
  have hkept {j : Fin NINODE} (hr : 0 < (s.itable j).ref) : (t j).inum = (s.itable j).inum :=
    (hget.kept hr).1
  refine ⟨⟨fun j => ?_, fun j hj => ?_⟩, h.vol, fun j hj => ?_⟩
  · show (t j).ref = _
    rw [(hget.ref j).1, h.ref j, count_cons]
    simp only [beq_iff_eq]
    omega
  · show (t j).inum = _
    rw [hkept (h.le hj), h.kept j hj]
  · show _ ∨ (s₀.vol sb).Named sb (t j).inum
    rcases mem_cons.mp hj with rfl | hj
    · rw [(hget.self hgood).2.1]
      exact hnamed
    · rw [hkept (h.pos hj)]
      exact h.named j hj

/-- A reference taken since is not the last one to an inode without links. -/
theorem Near.live (h : Near sb s₀ s refs) (h₀ : s₀.Sound sb) (hgood : s.Good sb) (hk : k ∈ refs) :
    ¬ (s.itable k).Dead := by
  rintro ⟨hone, hvalid, hlink⟩
  have hcount := count_pos_iff.mpr hk
  have href := h.ref k
  have hvol := h.vol
  have halloc := hgood.alloc (h.pos hk) hvalid
  have hdin := hgood.din (h.pos hk) hvalid
  rw [hvol] at halloc hdin
  rcases h.named k hk with hpos | hnamed
  · omega
  · -- somebody else has the inode open, in an entry that must be this one
    obtain ⟨j, hj, hinum⟩ := h₀.linked _ hnamed halloc (hdin ▸ hlink)
    have hjk : j = k := hgood.table.uniq j k (h.le hj) (h.pos hk) ((h.kept j hj).trans hinum)
    subst hjk
    omega

theorem dropRef_entry (t : Fin NINODE → Inode) (k j : Fin NINODE) :
    (dropRef t k j).inum = (t j).inum ∧ (dropRef t k j).lock = (t j).lock ∧
      (dropRef t k j).ref = (t j).ref - if k = j then 1 else 0 := by
  unfold dropRef
  by_cases hj : j = k
  · rw [hj, update_self, if_pos rfl]
    exact ⟨rfl, rfl, rfl⟩
  · rw [update_of_ne hj, if_neg (Ne.symm hj)]
    exact ⟨rfl, rfl, rfl⟩

theorem Taken.drop (h : Taken s₀ s refs) (hk : k ∈ refs) {s' : Fs}
    (href : ∀ j, (s'.itable j).ref = (s.itable j).ref - if k = j then 1 else 0)
    (hinum : ∀ j, (s'.itable j).inum = (s.itable j).inum) : Taken s₀ s' (refs.erase k) := by
  refine ⟨fun j => ?_, fun j hj => (hinum j).trans (h.kept j hj)⟩
  rw [href j, h.ref j, count_erase]
  simp only [beq_iff_eq]
  split
  · rename_i hkj
    subst hkj
    have := count_pos_iff.mpr hk
    omega
  · rfl

theorem Near.drop (h : Near sb s₀ s refs) (hk : k ∈ refs) :
    Near sb s₀ { s with itable := dropRef s.itable k } (refs.erase k) := by
  refine ⟨h.toTaken.drop hk (fun j => (dropRef_entry s.itable k j).2.2) fun j =>
    (dropRef_entry s.itable k j).1, h.vol, fun j hj => ?_⟩
  show _ ∨ (s₀.vol sb).Named sb (dropRef s.itable k j).inum
  rw [(dropRef_entry s.itable k j).1]
  exact h.named j (mem_of_mem_erase hj)

theorem Fs.Holding.lockEntry (h : s.Holding sb locks) (hr : 0 < (s.itable k).ref)
    (htype : ((s.vol sb).ino (s.itable k).inum).type ≠ 0) :
    Fs.Holding sb (s.setEntry k { s.itable k with
      lock := true
      valid := true
      din := (s.vol sb).ino (s.itable k).inum }) (insert k locks) := by
  refine ⟨ilock_good h.good hr htype, h.dirs, fun j => ?_⟩
  by_cases hj : j = k
  · rw [hj, Fs.itable_setEntry, decide_eq_true (Finset.mem_insert_self ..)]
  · rw [Fs.itable_setEntry_ne hj, h.lock j]
    simp only [Finset.mem_insert, hj, false_or]

theorem Fs.Holding.unlockEntry (h : s.Holding sb locks) (hr : 0 < (s.itable k).ref) :
    Fs.Holding sb (s.setEntry k { s.itable k with lock := false }) (locks.erase k) := by
  refine ⟨iunlock_good h.good hr, h.dirs, fun j => ?_⟩
  by_cases hj : j = k
  · rw [hj, Fs.itable_setEntry, decide_eq_false (Finset.notMem_erase k locks)]
  · rw [Fs.itable_setEntry_ne hj, h.lock j]
    simp only [Finset.mem_erase, ne_eq, hj, not_false_eq_true, true_and]

theorem ilock_near (h : s.Holding sb locks) (hn : Near sb s₀ s refs) (hk : k ∈ refs) :
    wp (fun e => e = .noType ∧ ¬ (s₀.vol sb).Alloc sb (s.itable k).inum ∨ e = .asleep ∧ k ∈ locks)
      (ilock sb k)
      (fun _ s' => s'.Holding sb (insert k locks) ∧ k ∉ locks ∧ Near sb s₀ s' refs ∧ s.Still s') s := by
  refine (ilock_spec (h.good.table.entry _)).mono (fun _ s' hpost => ?_) fun e he => ?_
  · obtain ⟨hr, hfree, htype, rfl⟩ := hpost
    rw [h.lock k, decide_eq_false_iff_not] at hfree
    exact ⟨h.lockEntry hr htype, hfree, hn.setEntry rfl rfl, .setEntry rfl⟩
  · have hr := hn.pos hk
    rcases he with ⟨-, hno⟩ | ⟨rfl, hno⟩ | ⟨rfl, hno⟩
    · omega
    · rw [h.lock k, decide_eq_true_iff] at hno
      exact .inr ⟨rfl, hno⟩
    · rw [hn.vol] at hno
      exact .inl ⟨rfl, fun halloc => halloc.2 hno⟩

variable {E : FsPanic → Prop}

theorem iunlock_near (h : s.Holding sb locks) (hk : k ∈ locks) (hn : Near sb s₀ s refs) :
    wp E (iunlock k) (fun _ s' => s'.Holding sb (locks.erase k) ∧ Near sb s₀ s' refs ∧ s.Still s') s := by
  refine iunlock_spec.mono (fun _ s' hpost => ?_) fun e he => ?_
  · obtain ⟨-, hr, rfl⟩ := hpost
    exact ⟨h.unlockEntry hr, hn.setEntry rfl rfl, .setEntry rfl⟩
  · have hlock := h.lock k
    have hr := (h.held hk).1
    rw [decide_eq_true hk] at hlock
    rcases he.2 with hno | hno
    · rw [hlock] at hno
      cases hno
    · omega

theorem iput_near (hl : sb.Layout) (h₀ : s₀.Sound sb) (h : s.Holding sb locks) (hfree : k ∉ locks)
    (hn : Near sb s₀ s refs) (hk : k ∈ refs) :
    wp E (iput sb k) (fun _ s' => s'.Holding sb locks ∧ Near sb s₀ s' (refs.erase k) ∧
      s.Still s') s := by
  have hspec := iput_spec hl h.good (hn.pos hk) (E := E) fun hlock => by
    rw [h.lock k, decide_eq_true_iff] at hlock
    exact absurd hlock hfree
  refine (hspec.and (iput_live (hn.live h₀ h.good hk) (E := E))).call ?_
  rintro _ s' ⟨hput, rfl⟩
  refine ⟨⟨hput.good, h.dirs, fun j => ?_⟩, hn.drop hk, fun j => (dropRef_entry s.itable k j).1, rfl⟩
  rw [(hput.ref j).2]
  exact h.lock j

theorem iunlockput_near (hl : sb.Layout) (h₀ : s₀.Sound sb) (h : s.Holding sb locks)
    (hlocked : k ∈ locks) (hn : Near sb s₀ s refs) (hk : k ∈ refs) :
    wp E (iunlockput sb k) (fun _ s' => s'.Holding sb (locks.erase k) ∧
      Near sb s₀ s' (refs.erase k) ∧ s.Still s') s := by
  unfold iunlockput
  rw [wp_bind]
  refine (iunlock_near h hlocked hn).call fun _ s₁ hpost => ?_
  obtain ⟨h1, hn1, hstill1⟩ := hpost
  refine (iput_near hl h₀ h1 (Finset.notMem_erase k locks) hn1 hk).call fun _ s' hpost => ?_
  exact ⟨hpost.1, hpost.2.1, hstill1.trans hpost.2.2⟩

theorem ilock_only (h : s.Holding sb ∅) (hn : Near sb s₀ s [k]) :
    wp (fun _ => True) (ilock sb k)
      (fun _ s' => s'.Holding sb {k} ∧ Near sb s₀ s' [k] ∧ s.Still s') s := by
  refine (ilock_near h hn (mem_singleton_self _)).mono (fun _ s' hpost => ?_) fun _ _ => trivial
  rw [insert_empty_eq] at hpost
  exact ⟨hpost.1, hpost.2.2⟩

theorem iunlockput_only (hl : sb.Layout) (h₀ : s₀.Sound sb) (h : s.Holding sb {k})
    (hn : Near sb s₀ s [k]) :
    wp E (iunlockput sb k) (fun _ s' => s'.Holding sb ∅ ∧ Near sb s₀ s' [] ∧ s.Still s') s := by
  refine (iunlockput_near hl h₀ h (Finset.mem_singleton_self _) hn (mem_singleton_self _)).call
    fun _ s' hpost => ?_
  rw [Finset.erase_singleton, erase_cons_head] at hpost
  exact hpost

theorem iunlockput_dir (hl : sb.Layout) (h₀ : s₀.Sound sb) {next : Fin NINODE}
    (h : s.Holding sb {k}) (hn : Near sb s₀ s [next, k]) :
    wp E (iunlockput sb k) (fun _ s' => s'.Holding sb ∅ ∧ Near sb s₀ s' [next] ∧ s.Still s') s := by
  refine (iunlockput_near hl h₀ h (Finset.mem_singleton_self _) hn (by simp)).call fun _ s' hpost => ?_
  have herase : [next, k].erase k = [next] := by
    by_cases hnext : next = k
    · rw [hnext, erase_cons_head]
    · rw [erase_cons_tail (by simpa using hnext), erase_cons_head]
  rw [Finset.erase_singleton, herase] at hpost
  exact hpost

/-- `dirlookup` in a directory that is locked, and the reference taken. -/
inductive LookupNear (sb : Superblock) (s₀ s : Fs) (refs : List (Fin NINODE))
    (locks : Finset (Fin NINODE)) (dp : Fin NINODE) (name : List UInt8) :
    Option (Fin NINODE × Nat) → Fs → Prop where
  | none (hget : Slots.get (nameKey name) ((s₀.vol sb).slots (s.itable dp).inum) = none) :
    LookupNear sb s₀ s refs locks dp name none s
  | found {next : Fin NINODE} {e inum : Nat} {s' : Fs}
    (hfind : Slots.find (nameKey name) ((s₀.vol sb).slots (s.itable dp).inum) = some (e, inum))
    (hold : s'.Holding sb locks) (hn : Near sb s₀ s' (next :: refs))
    (hinum : (s'.itable next).inum = inum)
    (hkept : ∀ j, 0 < (s.itable j).ref → (s'.itable j).inum = (s.itable j).inum)
    (hlh : s'.lh = s.lh) :
    LookupNear sb s₀ s refs locks dp name (some (next, e * DESIZE)) s'

theorem Fs.Holding.directory (h : s.Holding sb locks) (hk : k ∈ locks) (h₀ : s₀.Sound sb)
    (hvol : s.vol sb = s₀.vol sb) (htype : ((s₀.vol sb).ino (s.itable k).inum).type = T_DIR) :
    (s.vol sb).Directory (s.itable k).inum := by
  have halloc := h.alloc hk
  rw [hvol] at halloc ⊢
  exact ⟨htype, h₀.whole _ halloc htype⟩

theorem dirlookup_near (h₀ : s₀.Sound sb) (h : s.Holding sb locks) (hk : k ∈ locks)
    (hn : Near sb s₀ s refs) (htype : ((s₀.vol sb).ino (s.itable k).inum).type = T_DIR)
    (name : List UInt8) :
    wp (fun e => e = .tableFull ∧ ∀ j, (s.itable j).ref ≠ 0) (dirlookup sb k name)
      (LookupNear sb s₀ s refs locks k name) s := by
  have hvol := hn.vol
  have halloc := h.alloc hk
  have hdir := h.directory hk h₀ hvol htype
  refine (dirlookup_find h.good (h.held hk).1 (h.held hk).2 hdir name).call fun r s' hlook => ?_
  cases hlook with
  | none hfind =>
    rw [hvol] at hfind
    exact .none (Option.map_eq_none_iff.mpr hfind)
  | @found e inum next t hfind hget =>
    have hslot := (Slots.find_eq_some.mp hfind).1
    have hlt : inum < sb.ninodes := hdir.inum_lt h.dirs halloc hslot
    rw [hvol] at hfind hslot halloc
    have hnamed : (s₀.vol sb).Named sb inum := .inr ⟨_, _, e, halloc, htype, hslot⟩
    refine .found hfind ⟨hget.good h.good hlt, h.dirs, fun j => ?_⟩
      (hn.iget hget (.inr hnamed) h.good) (hget.self h.good).2.1 (fun j hj => (hget.kept hj).1) rfl
    show (t j).lock = _
    rw [(hget.ref j).2]
    exact h.lock j

end Near

/-! ## The walk -/

def Fs.TwoFree (s : Fs) : Prop := ∃ a b, a ≠ b ∧ (s.itable a).ref = 0 ∧ (s.itable b).ref = 0

/-- A walk panics when it needs an entry of the table and there is none, or when it comes by an
inode that is not allocated. -/
inductive WalkPanic (sb : Superblock) (s : Fs) : FsPanic → Prop where
  | tableFull (hfull : ¬ s.TwoFree) : WalkPanic sb s .tableFull
  | noType {i : Nat} (hfree : ¬ (s.vol sb).Alloc sb i)
    (hused : (s.vol sb).Named sb i ∨ ∃ k, 0 < (s.itable k).ref ∧ (s.itable k).inum = i) :
    WalkPanic sb s .noType

/-- What a walk leaves: a reference to the inode it returns. -/
inductive NamexPost (sb : Superblock) (s₀ : Fs) (res : Option (Nat × List UInt8)) :
    Option (Fin NINODE × List UInt8) → Fs → Prop where
  | none {s : Fs} (hq : s.Holding sb ∅) (hn : Near sb s₀ s []) (hlh : s.lh = s₀.lh)
    (hres : res = none) : NamexPost sb s₀ res none s
  | some {s : Fs} {k : Fin NINODE} {name : List UInt8} (hq : s.Holding sb ∅) (hn : Near sb s₀ s [k])
    (hlh : s.lh = s₀.lh) (hres : res = some ((s.itable k).inum, name)) :
    NamexPost sb s₀ res (some (k, name)) s

theorem Near.full {s₀ s : Fs} {k : Fin NINODE} (hn : Near sb s₀ s [k])
    (hfull : ∀ j, (s.itable j).ref ≠ 0) : ¬ s₀.TwoFree := by
  rintro ⟨a, b, hab, ha, hb⟩
  have hother {j : Fin NINODE} (hj : (s₀.itable j).ref = 0) (hne : j ≠ k) : False :=
    hfull j (by rw [hn.ref j, hj, count_singleton, if_neg (by simpa using Ne.symm hne)])
  by_cases hak : a = k
  · exact hother hb fun hbk => hab (hak.trans hbk.symm)
  · exact hother ha hak

def walkStart (s : Fs) (cwd : Fin NINODE) (path : List UInt8) : Nat :=
  if path.headD 0 = slash then ROOTINO else (s.itable cwd).inum

section Walk

variable {sb : Superblock} (hl : sb.Layout) {s₀ s : Fs} (h₀ : s₀.Sound sb)

include hl h₀

theorem namexEnd_walk (parent : Bool) {ip : Fin NINODE} (h : s.Holding sb ∅)
    (hn : Near sb s₀ s [ip]) (hlh : s.lh = s₀.lh) :
    wp (WalkPanic sb s₀)
      (if parent then do
          iput sb ip
          return none
        else return some (ip, []))
      (NamexPost sb s₀ ((s₀.vol sb).walk parent (s.itable ip).inum [])) s := by
  unfold Vol.walk
  cases parent with
  | false => exact .some h hn hlh rfl
  | true =>
    rw [if_pos rfl, if_pos rfl, wp_bind]
    refine (iput_near hl h₀ h (Finset.notMem_empty _) hn (mem_singleton_self _)).call
      fun _ s₁ hpost => ?_
    rw [erase_cons_head] at hpost
    exact .none hpost.1 hpost.2.1 (hpost.2.2.lh.trans hlh) rfl

theorem namexFrom_walk (parent : Bool) {fuel : Nat} {ip : Fin NINODE} (hpath : (0 : UInt8) ∉ path)
    (hfuel : path.length ≤ fuel) (h : s.Holding sb ∅) (hn : Near sb s₀ s [ip])
    (hlh : s.lh = s₀.lh) :
    wp (WalkPanic sb s₀) (namexFrom sb parent fuel ip path)
      (NamexPost sb s₀ ((s₀.vol sb).walk parent (s.itable ip).inum (pathElems path))) s := by
  induction fuel generalizing s ip path with
  | zero =>
    obtain rfl : path = [] := length_eq_zero_iff.mp (Nat.le_zero.mp hfuel)
    exact namexEnd_walk hl h₀ parent h hn hlh
  | succ fuel ih =>
    -- the way out, taken when there is no such file
    have hnone {s₁ : Fs} (h1 : s₁.Holding sb {ip}) (hn1 : Near sb s₀ s₁ [ip])
        (hlh1 : s₁.lh = s₀.lh) {res : Option (Nat × List UInt8)} (hres : res = none) :
        wp (WalkPanic sb s₀) (do iunlockput sb ip; return none) (NamexPost sb s₀ res) s₁ := by
      rw [wp_bind]
      exact (iunlockput_only hl h₀ h1 hn1).call fun _ s2 hpost =>
        .none hpost.1 hpost.2.1 (hpost.2.2.lh.trans hlh1) hres
    unfold namexFrom
    rcases skipelem_cases hpath with ⟨hskip, helems⟩ | ⟨name, rest, hskip, helems, hrest, hlast⟩
    · rw [hskip, helems]
      exact namexEnd_walk hl h₀ parent h hn hlh
    · rw [hskip, helems]
      dsimp only
      rw [wp_bind]
      refine (ilock_near h hn (mem_singleton_self _)).mono (fun _ s₁ hpost => ?_) ?_
      swap
      · rintro e (⟨rfl, hfree⟩ | ⟨-, hno⟩)
        · refine .noType hfree ?_
          rcases hn.named ip (mem_singleton_self _) with hpos | hnamed
          · exact .inr ⟨ip, hpos, (hn.kept ip hpos).symm⟩
          · exact .inl hnamed
        · exact absurd hno (Finset.notMem_empty _)
      obtain ⟨h1, -, hn1, hstill1⟩ := hpost
      rw [insert_empty_eq] at h1
      have hlh1 := hstill1.lh.trans hlh
      have hdin : (s₁.itable ip).din = (s₀.vol sb).ino (s.itable ip).inum := by
        rw [h1.din (Finset.mem_singleton_self _), hn1.vol, hstill1.inum]
      unfold Vol.walk
      rw [wp_bind, wp_getInode, hdin, wp_ite]
      refine ⟨fun htype => hnone h1 hn1 hlh1 (if_neg htype), fun htype => ?_⟩
      rw [not_not] at htype
      rw [if_pos htype, wp_ite]
      refine ⟨fun hstop => ?_, fun hgo => ?_⟩
      · rw [if_pos ⟨hstop.1, hlast.mp hstop.2⟩, wp_bind]
        refine (iunlock_near h1 (Finset.mem_singleton_self _) hn1).call ?_
        rintro _ s2 ⟨h2, hn2, hstill2⟩
        rw [Finset.erase_singleton] at h2
        refine .some h2 hn2 (hstill2.lh.trans hlh1) ?_
        rw [hstill2.inum, hstill1.inum]
      · rw [if_neg fun hstop => hgo ⟨hstop.1, hlast.mpr hstop.2⟩, wp_bind]
        refine (dirlookup_near h₀ h1 (Finset.mem_singleton_self _) hn1
          (by rw [hstill1.inum]; exact htype) name).mono (fun r s2 hlook => ?_) ?_
        · cases hlook with
          | none hget =>
            rw [hstill1.inum] at hget
            exact hnone h1 hn1 hlh1 (by rw [hget]; rfl)
          | @found next e inum s2 hfind h2 hn2 hinum2 _ hlh2 =>
            have hget : Slots.get (nameKey name) ((s₀.vol sb).slots (s.itable ip).inum)
                = some inum := by
              rw [Slots.get, ← hstill1.inum, hfind]
              rfl
            dsimp only
            rw [wp_bind]
            refine (iunlockput_dir hl h₀ h2 hn2).call ?_
            rintro _ s3 ⟨h3, hn3, hstill3⟩
            rw [hget, Option.bind_some, ← hinum2, ← hstill3.inum]
            exact ih hrest (by have := skipelem_lt hskip; omega) h3 hn3
              (hstill3.lh.trans (hlh2.trans hlh1))
        · rintro e ⟨rfl, hfull⟩
          exact .tableFull (hn1.full hfull)

theorem namex_walk {cwd : Fin NINODE} (hcwd : 0 < (s₀.itable cwd).ref) (hpath : (0 : UInt8) ∉ path)
    (parent : Bool) :
    wp (WalkPanic sb s₀) (namex sb cwd path parent)
      (NamexPost sb s₀ ((s₀.vol sb).walk parent (walkStart s₀ cwd path) (pathElems path))) s₀ := by
  have hquiet {inum : Nat} {k : Fin NINODE} {t : Fin NINODE → Inode}
      (hget : Iget s₀.itable inum k t) (hinum : inum < sb.ninodes) :
      Fs.Holding sb { s₀ with itable := t } ∅ :=
    ⟨hget.good h₀.good hinum, h₀.dirs, fun j => by
      show (t j).lock = _
      rw [(hget.ref j).2]
      exact h₀.holding.lock j⟩
  have hwalk {inum : Nat} {k : Fin NINODE} {t : Fin NINODE → Inode}
      (hget : Iget s₀.itable inum k t) (hinum : inum < sb.ninodes)
      (hnamed : 0 < (s₀.itable k).ref ∨ (s₀.vol sb).Named sb inum) :
      wp (WalkPanic sb s₀) (namexFrom sb parent path.length k path)
        (NamexPost sb s₀ ((s₀.vol sb).walk parent inum (pathElems path)))
        { s₀ with itable := t } := by
    have hspec := namexFrom_walk hl h₀ parent hpath le_rfl (hquiet hget hinum)
      ((Near.refl s₀).iget hget hnamed h₀.good) rfl
    rwa [show (Fs.itable { s₀ with itable := t } k).inum = inum from
      (hget.self h₀.good).2.1] at hspec
  unfold namex walkStart
  dsimp only
  by_cases hslash : path.headD 0 = slash
  · rw [if_pos hslash, if_pos hslash, wp_bind]
    refine (iget_entries (fun j hr => (h₀.good.table.entry j).dev hr) ROOTINO).mono
      (fun k s₁ hpost => ?_) ?_
    · obtain ⟨t, rfl, hget⟩ := hpost
      exact hwalk hget hl.root (.inr (.inl rfl))
    · rintro e ⟨rfl, hfull⟩
      refine .tableFull ?_
      rintro ⟨a, -, -, ha, -⟩
      exact hfull a ha
  · rw [if_neg hslash, if_neg hslash, wp_bind]
    exact hwalk (.found hcwd rfl) ((h₀.good.table.entry cwd).inum hcwd) (.inl hcwd)

end Walk

/-- The references have changed only by one more to the entry returned, no inode is locked, and
entries in use hold the inodes they held, on the same disk. -/
structure Balanced (sb : Superblock) (s s' : Fs) (r : Option (Fin NINODE)) : Prop where
  holds : s.Holds s' r
  unlocked : ∀ j, (s'.itable j).lock = false
  kept : ∀ j, 0 < (s.itable j).ref → (s'.itable j).inum = (s.itable j).inum
  disk : s'.vol sb = s.vol sb

theorem NamexPost.balanced {s s' : Fs} {res : Option (Nat × List UInt8)}
    {r : Option (Fin NINODE × List UInt8)} (h : NamexPost sb s res r s') :
    r.map (fun x => ((s'.itable x.1).inum, x.2)) = res ∧ Balanced sb s s' (r.map Prod.fst) := by
  cases h with
  | none hq hn _ hres =>
    refine ⟨hres.symm, fun j => ?_, hq.quiet.unlocked, hn.kept, hn.vol⟩
    rw [hn.ref j]
    rfl
  | some hq hn _ hres =>
    refine ⟨hres.symm, fun j => ?_, hq.quiet.unlocked, hn.kept, hn.vol⟩
    rw [hn.ref j, count_singleton]
    simp only [beq_iff_eq, Option.map_some, Option.some_inj]

theorem WalkPanic.of_whole {s : Fs} (h : s.Whole sb) {e : FsPanic} (he : WalkPanic sb s e) :
    e = .tableFull ∧ ¬ s.TwoFree := by
  cases he with
  | tableFull hfull => exact ⟨rfl, hfull⟩
  | noType hfree hused =>
    rcases hused with hnamed | ⟨k, hr, rfl⟩
    · exact absurd (h.named _ hnamed) hfree
    · exact absurd (h.held k hr) hfree

/-- `skipelem` yields the components of a path; `namei` and `nameiparent` look them up in turn, from
the root or the current directory, and keep a reference to the inode they return and to no other.
They panic only when the inode table has no room. -/
theorem path_resolution {sb : Superblock} (hl : sb.Layout) {s : Fs} (h : s.Whole sb)
    {cwd : Fin NINODE} (hcwd : 0 < (s.itable cwd).ref) {path : List UInt8}
    (hpath : (0 : UInt8) ∉ path) :
    skipelems path = pathElems path ∧
    wp (fun e => e = .tableFull ∧ ¬ s.TwoFree) (namei sb cwd path) (fun r s' =>
      r.map (fun k => (s'.itable k).inum)
          = (s.vol sb).resolve (walkStart s cwd path) (pathElems path) ∧
        Balanced sb s s' r) s ∧
    wp (fun e => e = .tableFull ∧ ¬ s.TwoFree) (nameiparent sb cwd path) (fun r s' =>
      r.map (fun x => ((s'.itable x.1).inum, x.2))
          = (s.vol sb).resolveParent (walkStart s cwd path) (pathElems path) ∧
        Balanced sb s s' (r.map Prod.fst)) s := by
  refine ⟨skipelems_eq hpath, ?_, ?_⟩
  · unfold namei
    rw [wp_bind]
    refine (namex_walk hl h.toSound hcwd hpath false).mono (fun r s' hpost => ?_)
      fun e he => he.of_whole h
    obtain ⟨hres, hbal⟩ := hpost.balanced
    rw [wp_pure]
    refine ⟨?_, hbal⟩
    rw [Vol.walk_false] at hres
    have hfst := congrArg (Option.map Prod.fst) hres
    rw [Option.map_map, Option.map_map] at hfst
    rw [Option.map_map]
    simpa [comp_def] using hfst
  · refine (namex_walk hl h.toSound hcwd hpath true).mono (fun r s' hpost => ?_)
      fun e he => he.of_whole h
    rw [← Vol.walk_true]
    exact hpost.balanced

theorem Mkfs.rootIdle_whole : Mkfs.rootIdle.Whole Mkfs.sb where
  toQuiet := Mkfs.rootIdle_quiet
  whole i hi _ := by
    obtain rfl := Mkfs.vol_alloc.mp hi
    show DESIZE ∣ (((Mkfs.fs.vol Mkfs.sb).ino ROOTINO).size).toNat
    rw [Mkfs.vol_ino, if_pos rfl]
    decide
  linked i _ hi hlink := by
    obtain rfl := Mkfs.vol_alloc.mp hi
    change ((Mkfs.fs.vol Mkfs.sb).ino ROOTINO).nlink = 0 at hlink
    rw [Mkfs.vol_ino, if_pos rfl] at hlink
    exact absurd hlink (by decide)
  named i hi := by
    refine Mkfs.vol_alloc.mpr ?_
    rcases hi with rfl | ⟨d, key, e, hd, -, he⟩
    · rfl
    · obtain rfl := Mkfs.vol_alloc.mp hd
      have hall : ∀ x ∈ (Mkfs.fs.vol Mkfs.sb).slots ROOTINO, ∀ y ∈ x, y.2 = ROOTINO := by
        decide +kernel
      exact hall _ (mem_of_getElem? he) _ rfl
  held k hk := by
    refine Mkfs.vol_alloc.mpr ?_
    change 0 < (update Mkfs.fs.itable Mkfs.entry0 _ k).ref at hk
    show (update Mkfs.fs.itable Mkfs.entry0 _ k).inum = ROOTINO
    rw [update_apply] at hk ⊢
    split
    · rfl
    · rename_i hne
      rw [if_neg hne] at hk
      exact absurd hk (Nat.lt_irrefl 0)

def rootPath : List UInt8 := [slash, slash, dot, slash, slash, dot, dot, slash, slash, slash]

/-- A path that leads to the root, as does the path of its parent. -/
theorem path_resolution_root :
    skipelems rootPath = [[dot], [dot, dot]] ∧
    (∃ s', (namei Mkfs.sb Mkfs.entry0 rootPath).run Mkfs.rootIdle = .ok (some Mkfs.entry0, s') ∧
      Balanced Mkfs.sb Mkfs.rootIdle s' (some Mkfs.entry0)) ∧
    ∃ s', (nameiparent Mkfs.sb Mkfs.entry0 rootPath).run Mkfs.rootIdle
        = .ok (some (Mkfs.entry0, [dot, dot]), s') ∧
      Balanced Mkfs.sb Mkfs.rootIdle s' (some Mkfs.entry0) := by
  have hpath : (0 : UInt8) ∉ rootPath := by decide
  -- with the state a variable, so that the runs are not unfolded
  have hres {s : Fs} (h : s.Whole Mkfs.sb) (hcwd : 0 < (s.itable Mkfs.entry0).ref) :=
    path_resolution Mkfs.layout h hcwd hpath
  obtain ⟨hskip, hnamei, hparent⟩ := hres Mkfs.rootIdle_whole (by decide)
  obtain ⟨s₁, hrun1⟩ : ∃ s', (namei Mkfs.sb Mkfs.entry0 rootPath).run Mkfs.rootIdle
      = .ok (some Mkfs.entry0, s') := ok_of_map_fst (by decide +kernel)
  obtain ⟨s2, hrun2⟩ : ∃ s', (nameiparent Mkfs.sb Mkfs.entry0 rootPath).run Mkfs.rootIdle
      = .ok (some (Mkfs.entry0, [dot, dot]), s') := ok_of_map_fst (by decide +kernel)
  refine ⟨hskip.trans (by decide +kernel), ⟨s₁, hrun1, ?_⟩, s2, hrun2, ?_⟩
  · exact ((wp_iff.mp hnamei).1 _ _ hrun1).2
  · exact ((wp_iff.mp hparent).1 _ _ hrun2).2

end Xv6
