import Xv6.Lib.Machine
import Xv6.Param

/-!
# The virtio disk driver (kernel/virtio_disk.c)

The driver and the device share the descriptors, the two rings, the request headers and the status
bytes. A call of `virtio_disk_rw` runs under `vdisk_lock` and gives the lock up where it sleeps; the
interrupt handler runs under the lock too; the device takes no lock.

A sleeping process may go on at any moment: `wakeup` wakes it, and so does `kill`, and both loops
look at their condition again.
-/

namespace Xv6

open Machines Function

def NUM : Nat := 8

def VRING_DESC_F_NEXT : UInt16 := 1
def VRING_DESC_F_WRITE : UInt16 := 2

def VIRTIO_BLK_T_IN : UInt32 := 0
def VIRTIO_BLK_T_OUT : UInt32 := 1

/-- What a descriptor points to: a request header, the data of a buffer, or a status byte. -/
inductive DmaAddr (B : Type) where
  | null
  | op (i : Nat)
  | data (b : B)
  | status (i : Nat)

structure VirtqDesc (B : Type) where
  addr : DmaAddr B
  len : Nat
  flags : UInt16
  next : Nat

/-- `struct virtio_blk_req`; `reserved` is always 0. -/
structure BlkReq where
  type : UInt32
  sector : UInt64

/-- `virtq_avail` and, as far as the driver uses it, `virtq_used`. -/
structure Virtq where
  idx : UInt16
  ring : Nat → Nat

structure DiskInfo (B : Type) where
  b : Option B
  status : UInt8

/-- `struct disk`, and of each buffer the flag `b->disk` and the data. -/
structure Vdisk (B D : Type) where
  desc : Nat → VirtqDesc B
  avail : Virtq
  used : Virtq
  free : Nat → Bool
  usedIdx : UInt16
  info : Nat → DiskInfo B
  ops : Nat → BlkReq
  busy : B → Bool
  data : B → D

/-- The driver's panics; `null` is the use of a null `info[id].b`, and `loop` a chain without an
end. -/
inductive VirtioPanic where
  | freeDesc1 | freeDesc2 | status | null | loop
  deriving DecidableEq

structure DescChain where
  head : Nat
  data : Nat
  status : Nat

/-- A call of `virtio_disk_rw`, numbered by the ghost `id`. -/
structure DiskCall (B : Type) where
  b : B
  write : Bool
  id : Nat

structure DiskRequest (B : Type) where
  b : B
  sector : UInt64
  write : Bool

section Driver

variable {B D : Type} [DecidableEq B]

namespace Vdisk

variable (m : Vdisk B D)

def markUsed (i : Nat) : Vdisk B D := { m with free := update m.free i false }

def markFree (i : Nat) : Vdisk B D :=
  { m with
    desc := update m.desc i ⟨.null, 0, 0, 0⟩
    free := update m.free i true }

/-- Find a free descriptor, mark it non-free, return its index. -/
def allocDesc : Option Nat × Vdisk B D :=
  match (List.range NUM).find? m.free with
  | some i => (some i, m.markUsed i)
  | none => (none, m)

def freeDesc (i : Nat) : Except VirtioPanic (Vdisk B D) :=
  if i ≥ NUM then .error .freeDesc1
  else if m.free i then .error .freeDesc2
  else .ok (m.markFree i)

def freeChain : Nat → Vdisk B D → Nat → Except VirtioPanic (Vdisk B D)
  | 0, _, _ => .error .loop
  | fuel + 1, m, i =>
    let flag := (m.desc i).flags
    let nxt := (m.desc i).next
    match m.freeDesc i with
    | .error e => .error e
    | .ok m => if flag &&& VRING_DESC_F_NEXT ≠ 0 then freeChain fuel m nxt else .ok m

def alloc3Desc : Except VirtioPanic (Option DescChain × Vdisk B D) :=
  match m.allocDesc with
  | (none, m) => .ok (none, m)
  | (some i, m) =>
    match m.allocDesc with
    | (none, m) => do
      let m ← m.freeDesc i
      return (none, m)
    | (some j, m) =>
      match m.allocDesc with
      | (none, m) => do
        let m ← m.freeDesc i
        let m ← m.freeDesc j
        return (none, m)
      | (some k, m) => .ok (some ⟨i, j, k⟩, m)

def sectorOf (blockno : UInt32) : UInt64 := (blockno * 2).toUInt64

/-- Format the three descriptors, record the buffer for the handler and enter the chain into the
next slot of the available ring. -/
def format (blockno : B → UInt32) (c : DiskCall B) (x : DescChain) : Vdisk B D :=
  { m with
    ops := update m.ops x.head
      ⟨if c.write then VIRTIO_BLK_T_OUT else VIRTIO_BLK_T_IN, sectorOf (blockno c.b)⟩
    desc := update (update (update m.desc
      x.head ⟨.op x.head, 16, VRING_DESC_F_NEXT, x.data⟩)
      x.data ⟨.data c.b, BSIZE,
        (if c.write then 0 else VRING_DESC_F_WRITE) ||| VRING_DESC_F_NEXT, x.status⟩)
      x.status ⟨.status x.head, 1, VRING_DESC_F_WRITE, 0⟩
    info := update m.info x.head ⟨some c.b, 0xff⟩
    busy := update m.busy c.b true
    avail := { m.avail with
      ring := update m.avail.ring (m.avail.idx.toNat % NUM) x.head } }

/-- `avail->idx += 1`. -/
def publish : Vdisk B D := { m with avail := { m.avail with idx := m.avail.idx + 1 } }

/-- `disk.info[i].b = 0`. -/
def forget (i : Nat) : Vdisk B D :=
  { m with info := update m.info i { m.info i with b := none } }

/-- After the wait: forget the buffer and free the chain. -/
def retire (x : DescChain) : Except VirtioPanic (Vdisk B D) :=
  freeChain (NUM + 1) (m.forget x.head) x.head

/-- One round of the loop of `virtio_disk_intr`. -/
def intr : Except VirtioPanic (Vdisk B D) :=
  let id := m.used.ring (m.usedIdx.toNat % NUM)
  if (m.info id).status ≠ 0 then .error .status
  else match (m.info id).b with
    | none => .error .null
    | some b => .ok { m with busy := update m.busy b false, usedIdx := m.usedIdx + 1 }

end Vdisk

/-! ## The device -/

/-- How the device reads a chain: a header, the data of a buffer and a status byte, with the
directions the type of the request asks for. Returns the request and the status byte's index. -/
def Vdisk.decode (m : Vdisk B D) (h : Nat) : Option (DiskRequest B × Nat) :=
  let d₀ := m.desc h
  let d₁ := m.desc d₀.next
  let d₂ := m.desc d₁.next
  match d₀.addr, d₁.addr, d₂.addr with
  | .op i, .data b, .status j =>
    let req := m.ops i
    if d₀.len = 16 ∧ d₀.flags = VRING_DESC_F_NEXT ∧
        d₁.len = BSIZE ∧ d₁.flags &&& VRING_DESC_F_NEXT ≠ 0 ∧
        (d₁.flags &&& VRING_DESC_F_WRITE ≠ 0 ↔ req.type = VIRTIO_BLK_T_IN) ∧
        d₂.len = 1 ∧ d₂.flags = VRING_DESC_F_WRITE then
      some (⟨b, req.sector, req.type == VIRTIO_BLK_T_OUT⟩, j)
    else none
  | _, _, _ => none

/-- The device: how far it has looked in the available ring, the chains it has taken, those whose
data it has transferred, and the disk, by the first sector of a block. -/
structure Vdev (D : Type) where
  seen : UInt16
  taken : List Nat
  served : List Nat
  disk : UInt64 → D

/-! ## The system -/

inductive VdiskLock (P : Type) where
  | none
  | proc (p : P)
  | intr

/-- How far a call has come once it has its descriptors: they are to be formatted, to be published,
`b->disk` is to be looked at, or the process sleeps on `b`. -/
inductive DiskStage where
  | format | publish | wait | asleep
  deriving DecidableEq

inductive DiskPc (B : Type) where
  | idle
  -- waiting for the lock, at first or after sleeping for a free descriptor
  | enter (c : DiskCall B)
  | alloc (c : DiskCall B)
  | own (stage : DiskStage) (c : DiskCall B) (x : DescChain)

def DiskPc.call : DiskPc B → Option (DiskCall B)
  | idle => none
  | enter c => some c
  | alloc c => some c
  | own _ c _ => some c

def DiskPc.chain : DiskPc B → Option DescChain
  | own _ _ x => some x
  | _ => none

structure VirtioSys (P B D : Type) where
  m : Vdisk B D
  dev : Vdev D
  lock : VdiskLock P
  proc : P → DiskPc B
  panic : Option VirtioPanic
  -- ghosts: the number of calls made, the call behind each head, the requests served by the
  -- device, and the calls that have returned
  count : Nat
  tag : Nat → Nat
  log : List (Nat × DiskRequest B)
  returned : List (DiskCall B)

variable {P : Type} [DecidableEq P]

def VirtioSys.setPc (s : VirtioSys P B D) (p : P) (pc : DiskPc B) : VirtioSys P B D :=
  { s with proc := update s.proc p pc }

variable (blockno : B → UInt32)

/-- The request a call is to make, for the two sectors of its block. This is said without the
driver's `sectorOf`, whose product wraps. -/
def DiskCall.request (c : DiskCall B) : DiskRequest B :=
  ⟨c.b, .ofNat (2 * (blockno c.b).toNat), c.write⟩

def VirtioSys.transfer (s : VirtioSys P B D) (r : DiskRequest B) (h j : Nat) : VirtioSys P B D :=
  { s with
    m := { s.m with
      data := if r.write then s.m.data else update s.m.data r.b (s.dev.disk r.sector)
      info := update s.m.info j { s.m.info j with status := 0 } }
    dev := { s.dev with
      disk := if r.write then update s.dev.disk r.sector (s.m.data r.b) else s.dev.disk
      taken := s.dev.taken.erase h
      served := h :: s.dev.served }
    log := (s.tag h, r) :: s.log }

inductive VirtioLabel (P B : Type) where
  | call (p : P) (b : B) (write : Bool)
  | run (p : P)
  | intr
  | device

/-- The steps are cut where the device can see a difference: a request is formatted, then published
by the increment of `avail->idx`; the device takes a chain, then serves it, then posts it to the
used ring; the handler treats one used entry at a time. -/
inductive VirtioStep : VirtioSys P B D → VirtioLabel P B → VirtioSys P B D → Prop
  -- the caller holds `b->lock`: no other call for the buffer is in progress
  | call {s : VirtioSys P B D} {p : P} {b : B} {write : Bool} (hp : s.proc p = .idle)
      (hb : ∀ q c, (s.proc q).call = some c → c.b ≠ b) :
      VirtioStep s (.call p b write)
        { s.setPc p (.enter ⟨b, write, s.count⟩) with count := s.count + 1 }
  | acquire {s : VirtioSys P B D} {p : P} {c : DiskCall B} (hp : s.proc p = .enter c)
      (hl : s.lock = .none) :
      VirtioStep s (.run p) { s.setPc p (.alloc c) with lock := .proc p }
  | alloc {s : VirtioSys P B D} {p : P} {c : DiskCall B} {x : DescChain} {m : Vdisk B D}
      (hp : s.proc p = .alloc c) (hx : s.m.alloc3Desc = .ok (some x, m)) :
      VirtioStep s (.run p) { s.setPc p (.own .format c x) with m := m }
  -- sleep(&disk.free[0], &disk.vdisk_lock)
  | sleepFree {s : VirtioSys P B D} {p : P} {c : DiskCall B} {m : Vdisk B D}
      (hp : s.proc p = .alloc c) (hx : s.m.alloc3Desc = .ok (none, m)) :
      VirtioStep s (.run p) { s.setPc p (.enter c) with m := m, lock := .none }
  | allocPanic {s : VirtioSys P B D} {p : P} {c : DiskCall B} {e : VirtioPanic}
      (hp : s.proc p = .alloc c) (hx : s.m.alloc3Desc = .error e) :
      VirtioStep s (.run p) { s with panic := some e }
  | format {s : VirtioSys P B D} {p : P} {c : DiskCall B} {x : DescChain}
      (hp : s.proc p = .own .format c x) :
      VirtioStep s (.run p) { s.setPc p (.own .publish c x) with
        m := s.m.format blockno c x, tag := update s.tag x.head c.id }
  | publish {s : VirtioSys P B D} {p : P} {c : DiskCall B} {x : DescChain}
      (hp : s.proc p = .own .publish c x) :
      VirtioStep s (.run p) { s.setPc p (.own .wait c x) with m := s.m.publish }
  -- sleep(b, &disk.vdisk_lock)
  | sleep {s : VirtioSys P B D} {p : P} {c : DiskCall B} {x : DescChain}
      (hp : s.proc p = .own .wait c x) (hb : s.m.busy c.b = true) :
      VirtioStep s (.run p) { s.setPc p (.own .asleep c x) with lock := .none }
  | wake {s : VirtioSys P B D} {p : P} {c : DiskCall B} {x : DescChain}
      (hp : s.proc p = .own .asleep c x) (hl : s.lock = .none) :
      VirtioStep s (.run p) { s.setPc p (.own .wait c x) with lock := .proc p }
  | finish {s : VirtioSys P B D} {p : P} {c : DiskCall B} {x : DescChain} {m : Vdisk B D}
      (hp : s.proc p = .own .wait c x) (hb : s.m.busy c.b = false) (hx : s.m.retire x = .ok m) :
      VirtioStep s (.run p)
        { s.setPc p .idle with m := m, lock := .none, returned := c :: s.returned }
  | finishPanic {s : VirtioSys P B D} {p : P} {c : DiskCall B} {x : DescChain} {e : VirtioPanic}
      (hp : s.proc p = .own .wait c x) (hb : s.m.busy c.b = false) (hx : s.m.retire x = .error e) :
      VirtioStep s (.run p) { s with panic := some e }
  | intrAcquire {s : VirtioSys P B D} (hl : s.lock = .none) :
      VirtioStep s .intr { s with lock := .intr }
  | intrOne {s : VirtioSys P B D} {m : Vdisk B D} (hl : s.lock = .intr)
      (hu : s.m.usedIdx ≠ s.m.used.idx) (hm : s.m.intr = .ok m) :
      VirtioStep s .intr { s with m := m }
  | intrPanic {s : VirtioSys P B D} {e : VirtioPanic} (hl : s.lock = .intr)
      (hu : s.m.usedIdx ≠ s.m.used.idx) (hm : s.m.intr = .error e) :
      VirtioStep s .intr { s with panic := some e }
  | intrRelease {s : VirtioSys P B D} (hl : s.lock = .intr) (hu : s.m.usedIdx = s.m.used.idx) :
      VirtioStep s .intr { s with lock := .none }
  | take {s : VirtioSys P B D} (ha : s.dev.seen ≠ s.m.avail.idx) :
      VirtioStep s .device { s with dev := { s.dev with
        seen := s.dev.seen + 1
        taken := s.m.avail.ring (s.dev.seen.toNat % NUM) :: s.dev.taken } }
  | serve {s : VirtioSys P B D} {h j : Nat} {r : DiskRequest B} (ht : h ∈ s.dev.taken)
      (hd : s.m.decode h = some (r, j)) : VirtioStep s .device (s.transfer r h j)
  | post {s : VirtioSys P B D} {h : Nat} (hs : h ∈ s.dev.served) :
      VirtioStep s .device { s with
        m := { s.m with used := {
          idx := s.m.used.idx + 1
          ring := update s.m.used.ring (s.m.used.idx.toNat % NUM) h } }
        dev := { s.dev with served := s.dev.served.erase h } }

/-- After `virtio_disk_init`, with any contents of the disk and of the buffers: all descriptors are
free, and the rings are empty. -/
structure VirtioSys.Fresh (s : VirtioSys P B D) : Prop where
  free : ∀ i < NUM, s.m.free i = true
  avail : s.m.avail.idx = 0
  used : s.m.used.idx = 0
  usedIdx : s.m.usedIdx = 0
  seen : s.dev.seen = 0
  taken : s.dev.taken = []
  served : s.dev.served = []
  lock : s.lock = .none
  proc : ∀ p, s.proc p = .idle
  panic : s.panic = none
  log : s.log = []
  returned : s.returned = []

def virtioMachine : Machine (VirtioSys P B D) (VirtioLabel P B) where
  init := VirtioSys.Fresh
  step := VirtioStep blockno

end Driver

end Xv6
