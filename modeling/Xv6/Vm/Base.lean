import Xv6.Vm.Space

/-!
# The end of the kernel stays where it is

Nothing in `kernel/vm.c` and `kernel/kalloc.c` changes `end`.
-/

namespace Xv6

open Prog

theorem loadPage_base (p : Nat) : Fixes Vm.base (loadPage p) := ⟨fun _ => rfl⟩

theorem storePage_base (p : Nat) (pg : Page) : Fixes Vm.base (storePage p pg) := ⟨fun _ => rfl⟩

theorem loadPte_base (p i : Nat) : Fixes Vm.base (loadPte p i) := ⟨fun _ => rfl⟩

theorem storePte_base (p i : Nat) (pte : Pte) : Fixes Vm.base (storePte p i pte) := ⟨fun _ => rfl⟩

theorem memset_base (p : Nat) (c : UInt8) : Fixes Vm.base (memset p c) := ⟨fun _ => rfl⟩

theorem kfree_base (p : Nat) : Fixes Vm.base (kfree p) := by
  refine ⟨fun s => ?_⟩
  show wp _ (if p < s.base ∨ PHYSTOP ≤ p * PGSIZE then _ else _) _ s
  split
  · trivial
  · rfl

theorem kalloc_base : Fixes Vm.base kalloc := by
  refine ⟨fun s => ?_⟩
  rw [kalloc, wp_bind, wp_get]
  cases s.free with
  | nil | cons => rfl

theorem walkFrom_base (va : Nat) (alloc : Bool) (level pagetable : Nat) :
    Fixes Vm.base (walkFrom va alloc level pagetable) := by
  induction level generalizing pagetable with
  | zero => exact .pure _
  | succ level ih =>
    unfold walkFrom
    refine (loadPte_base ..).bind fun pte => .ite (ih _) (.ite (.pure _) ?_)
    refine kalloc_base.bind fun r => ?_
    cases r with
    | none => exact .pure _
    | some p => exact (memset_base ..).bind fun _ => (storePte_base ..).bind fun _ => ih p

theorem walk_base (pagetable va : Nat) (alloc : Bool) : Fixes Vm.base (walk pagetable va alloc) :=
  .ite (.throw _) (walkFrom_base ..)

theorem mappagesFrom_base (pagetable perm n a pa : Nat) :
    Fixes Vm.base (mappagesFrom pagetable perm n a pa) := by
  induction n generalizing a pa with
  | zero =>
    unfold mappagesFrom
    refine (walk_base ..).bind fun r => ?_
    cases r with
    | none => exact .pure _
    | some e =>
      exact (loadPte_base ..).bind fun _ => .ite (.throw _) ((storePte_base ..).bind fun _ => .pure _)
  | succ n ih =>
    unfold mappagesFrom
    refine (walk_base ..).bind fun r => ?_
    cases r with
    | none => exact .pure _
    | some e =>
      exact (loadPte_base ..).bind fun _ => .ite (.throw _) ((storePte_base ..).bind fun _ => ih ..)

theorem mappages_base (pagetable va size pa perm : Nat) :
    Fixes Vm.base (mappages pagetable va size pa perm) :=
  .ite (.throw _) (mappagesFrom_base ..)

theorem uvmunmapFrom_base (pagetable : Nat) (doFree : Bool) (n a : Nat) :
    Fixes Vm.base (uvmunmapFrom pagetable doFree n a) := by
  induction n generalizing a with
  | zero => exact .pure _
  | succ n ih =>
    unfold uvmunmapFrom
    refine (walk_base ..).bind fun r => ?_
    cases r with
    | none => exact .throw _
    | some e =>
      have hrest : Fixes Vm.base (do
          storePte e.1 e.2 0
          uvmunmapFrom pagetable doFree n (a + PGSIZE)) :=
        (storePte_base ..).bind fun _ => ih _
      exact (loadPte_base ..).bind fun _ => .ite (.throw _) (.ite (.throw _)
        (.ite ((kfree_base _).bind fun _ => hrest) hrest))

theorem uvmunmap_base (pagetable va npages : Nat) (doFree : Bool) :
    Fixes Vm.base (uvmunmap pagetable va npages doFree) :=
  .ite (.throw _) (uvmunmapFrom_base ..)

theorem uvmcreate_base : Fixes Vm.base uvmcreate := by
  unfold uvmcreate
  refine kalloc_base.bind fun r => ?_
  cases r with
  | none => exact .pure _
  | some p => exact (memset_base ..).bind fun _ => .pure _

theorem uvmdealloc_base (pagetable oldsz newsz : Nat) :
    Fixes Vm.base (uvmdealloc pagetable oldsz newsz) :=
  .ite (.pure _) (.ite ((uvmunmap_base ..).bind fun _ => .pure _) (.pure _))

theorem uvmallocFrom_base (pagetable oldsz newsz n a : Nat) :
    Fixes Vm.base (uvmallocFrom pagetable oldsz newsz n a) := by
  induction n generalizing a with
  | zero => exact .pure _
  | succ n ih =>
    unfold uvmallocFrom
    refine kalloc_base.bind fun r => ?_
    cases r with
    | none => exact (uvmdealloc_base ..).bind fun _ => .pure _
    | some p =>
      exact (memset_base ..).bind fun _ => (mappages_base ..).bind fun _ =>
        .ite ((kfree_base _).bind fun _ => (uvmdealloc_base ..).bind fun _ => .pure _) (ih _)

theorem uvmalloc_base (pagetable oldsz newsz : Nat) :
    Fixes Vm.base (uvmalloc pagetable oldsz newsz) :=
  .ite (.pure _) (uvmallocFrom_base ..)

theorem freewalk_base (levels pagetable : Nat) : Fixes Vm.base (freewalk levels pagetable) := by
  induction levels generalizing pagetable with
  | zero => exact .throw _
  | succ levels ih =>
    unfold freewalk freewalkEntries
    refine Fixes.bind (.forM fun i => ?_) fun _ => kfree_base _
    exact (loadPte_base ..).bind fun _ => .ite ((ih _).bind fun _ => storePte_base ..)
      (.ite (.throw _) (.pure _))

theorem uvmfree_base (pagetable sz : Nat) : Fixes Vm.base (uvmfree pagetable sz) :=
  .ite ((uvmunmap_base ..).bind fun _ => freewalk_base ..) (freewalk_base ..)

theorem procFreepagetable_base (pagetable sz : Nat) :
    Fixes Vm.base (procFreepagetable pagetable sz) :=
  (uvmunmap_base ..).bind fun _ => (uvmunmap_base ..).bind fun _ => uvmfree_base ..

theorem procPagetable_base (trampoline trapframe : Nat) :
    Fixes Vm.base (procPagetable trampoline trapframe) := by
  unfold procPagetable
  refine uvmcreate_base.bind fun r => ?_
  cases r with
  | none => exact .pure _
  | some root =>
    exact (mappages_base ..).bind fun _ => .ite ((uvmfree_base ..).bind fun _ => .pure _)
      ((mappages_base ..).bind fun _ => .ite
        ((uvmunmap_base ..).bind fun _ => (uvmfree_base ..).bind fun _ => .pure _) (.pure _))

theorem uvmclear_base (pagetable va : Nat) : Fixes Vm.base (uvmclear pagetable va) := by
  unfold uvmclear
  refine (walk_base ..).bind fun r => ?_
  cases r with
  | none => exact .throw _
  | some e => exact (loadPte_base ..).bind fun _ => storePte_base ..

theorem uvmcopyFrom_base (old new n i : Nat) : Fixes Vm.base (uvmcopyFrom old new n i) := by
  induction n generalizing i with
  | zero => exact .pure _
  | succ n ih =>
    unfold uvmcopyFrom
    refine (walk_base ..).bind fun r => ?_
    cases r with
    | none => exact .throw _
    | some e =>
      refine (loadPte_base ..).bind fun pte => .ite (.throw _) (kalloc_base.bind fun r => ?_)
      cases r with
      | none => exact (uvmunmap_base ..).bind fun _ => .pure _
      | some p =>
        exact (loadPage_base _).bind fun _ => (storePage_base ..).bind fun _ =>
          (mappages_base ..).bind fun _ =>
            .ite ((kfree_base _).bind fun _ => (uvmunmap_base ..).bind fun _ => .pure _) (ih _)

theorem uvmcopy_base (old new sz : Nat) : Fixes Vm.base (uvmcopy old new sz) :=
  uvmcopyFrom_base ..

end Xv6
