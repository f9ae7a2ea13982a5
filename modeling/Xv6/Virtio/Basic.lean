import Xv6.Lib.Ring
import Xv6.Lib.Runs

/-!
# The virtio disk

`virtio_disk_rw` and `virtio_disk_intr` of `virtio_disk.c`, with any number of processes,
and the device that they talk to.

What the driver does under `vdisk_lock` is split where the device can see it: the entry
of the available ring is written in one step, and `avail->idx` moves on in another. The
device takes the entries of that ring in order. It finishes the requests that it has
taken in any order: it writes the status, then the entry of the used ring, and then
`used->idx` moves on. `sleep` releases the lock, and the process takes it again at any
time after that; it then looks at its condition again.

The caller of `virtio_disk_rw` holds the sleep-lock of the buffer, so no two calls are
about one buffer at a time. The requests are numbered, and the log has what the device
has done for each number; no step reads them.
-/

namespace Xv6.Virtio

open Function

def NUM : Nat := 8

instance : NeZero NUM := ⟨by decide⟩

/-- The panics of the driver, and a completion without a buffer. -/
inductive Panic where
  | freeDesc1
  | freeDesc2
  | intrStatus
  | noBuffer
  deriving DecidableEq, Repr

/-- What a descriptor points to. -/
inductive Addr (β : Type) where
  | null
  | op (i : Fin NUM)
  | data (b : β)
  | status (i : Fin NUM)

/-- `struct virtq_desc`, with the flags `VRING_DESC_F_NEXT` and `VRING_DESC_F_WRITE`. -/
structure Desc (β : Type) where
  addr : Addr β
  len : Nat
  hasNext : Bool
  write : Bool
  next : Nat

/-- What `free_desc` leaves. -/
def Desc.zero {β : Type} : Desc β :=
  { addr := .null, len := 0, hasNext := false, write := false, next := 0 }

/-- `struct virtio_blk_req`: `VIRTIO_BLK_T_OUT` or `VIRTIO_BLK_T_IN`, and the sector. -/
structure Op where
  out : Bool
  sector : UInt64
  deriving DecidableEq

structure Info (β : Type) where
  b : Option β
  status : UInt8

/-- `disk`, with the two rings in memory, and `b->disk` of every buffer. The available ring
is read by the device, the used ring by the driver (`disk.used_idx`). -/
structure Disk (β : Type) where
  desc : Fin NUM → Desc β
  avail : Ring 16 NUM (Fin NUM)
  used : Ring 16 NUM (Fin NUM)
  free : Fin NUM → Bool
  info : Fin NUM → Info β
  ops : Fin NUM → Op
  busy : β → Bool

namespace Disk

variable {β : Type}

def allocDesc (disk : Disk β) : Option (Fin NUM) × Disk β :=
  match (List.finRange NUM).find? disk.free with
  | some i => (some i, { disk with free := update disk.free i false })
  | none => (none, disk)

def freeDesc (disk : Disk β) (i : Nat) : Except Panic (Disk β) :=
  if bound : i < NUM then
    if disk.free ⟨i, bound⟩ then .error .freeDesc2
    else .ok { disk with
      desc := update disk.desc ⟨i, bound⟩ .zero
      free := update disk.free ⟨i, bound⟩ true }
  else .error .freeDesc1

/-- Every round of the loop frees a descriptor, so `NUM + 1` rounds are more than it can
have. -/
def freeChain : Nat → Disk β → Nat → Except Panic (Disk β)
  | 0, _, _ => .error .freeDesc2
  | k + 1, disk, i =>
    if bound : i < NUM then do
      let old := disk.desc ⟨i, bound⟩
      let disk ← disk.freeDesc i
      if old.hasNext then freeChain k disk old.next else .ok disk
    else .error .freeDesc1

def alloc3Desc (disk : Disk β) : Except Panic (Option (Fin NUM × Fin NUM × Fin NUM) × Disk β) :=
  match disk.allocDesc with
  | (none, disk) => .ok (none, disk)
  | (some i, disk) =>
    match disk.allocDesc with
    | (none, disk) => do
        let disk ← disk.freeDesc i
        .ok (none, disk)
    | (some j, disk) =>
      match disk.allocDesc with
      | (none, disk) => do
          let disk ← disk.freeDesc i
          let disk ← disk.freeDesc j
          .ok (none, disk)
      | (some k, disk) => .ok (some (i, j, k), disk)

end Disk

/-- A request: the arguments of `virtio_disk_rw`, with `b->blockno`. -/
structure Request (β : Type) where
  b : β
  blockno : UInt32
  write : Bool
  deriving DecidableEq

/-- The header of a request, with `sector = b->blockno * (BSIZE / 512)`. -/
def Request.op {β : Type} (request : Request β) : Op :=
  { out := request.write, sector := (request.blockno * 2).toUInt64 }

/-- A request with its three descriptors. -/
structure Chain (β : Type) where
  request : Request β
  head : Fin NUM
  data : Fin NUM
  status : Fin NUM

/-- Where a process is in `virtio_disk_rw`. -/
inductive Place (β : Type) where
  | out
  | enter (request : Request β) -- at `acquire`, or in the `sleep` of the first loop
  | alloc (request : Request β)
  | format (chain : Chain β)
  | post (chain : Chain β)
  | publish (chain : Chain β)
  | wait (chain : Chain β)
  | sleep (chain : Chain β)

/-- Who holds `vdisk_lock`. -/
inductive Holder (m : Nat) where
  | proc (p : Fin m)
  | intr
  deriving DecidableEq

/-- What the device has read of a request: the operation, where the data is and whether to
write it, and where the status goes. -/
structure Fetched (β : Type) where
  op : Option Op
  data : Addr β
  write : Bool
  status : Addr β

structure State (β : Type) (m : Nat) where
  disk : Disk β
  lock : Option (Holder m)
  place : Fin m → Place β
  device : List (Fin NUM × Fetched β)
  done : List (Fin NUM) -- the requests that it has finished and not reported
  -- the entry of the used ring that it has written, before it moves `used->idx`
  posted : Option (Fin NUM)
  panic : Option Panic
  issued : Nat
  number : Fin NUM → Nat -- the number of the last request that began with a descriptor
  log : Nat → List (Fetched β) -- what the device has done for each request
  seen : Nat → Nat -- how often `virtio_disk_intr` has seen each request

inductive Event (β : Type) (m : Nat) where
  | call (p : Fin m) (request : Request β)
  | step (p : Fin m)
  | intr -- `virtio_disk_intr` takes the lock, or makes its next round
  | take
  | finish (head : Fin NUM)
  | append (head : Fin NUM)
  | report

variable {β : Type} {m : Nat}

def Place.buffer : Place β → Option β
  | .out => none
  | .enter request | .alloc request => some request.b
  | .format chain | .post chain | .publish chain | .wait chain | .sleep chain =>
    some chain.request.b

namespace Disk

/-- The writes of `virtio_disk_rw` before the request is posted. -/
def format [DecidableEq β] (disk : Disk β) (chain : Chain β) : Disk β :=
  { disk with
    ops := update disk.ops chain.head chain.request.op
    desc := update (update (update disk.desc
      chain.head { addr := .op chain.head, len := 16, hasNext := true, write := false
                   next := chain.data.val })
      chain.data { addr := .data chain.request.b, len := 1024, hasNext := true
                   write := !chain.request.write, next := chain.status.val })
      chain.status
        { addr := .status chain.head, len := 1, hasNext := false, write := true, next := 0 }
    info := update disk.info chain.head { b := some chain.request.b, status := 0xff }
    busy := update disk.busy chain.request.b true }

/-- The descriptor with a number, as the device reads it. -/
def descAt (disk : Disk β) (i : Nat) : Desc β :=
  if bound : i < NUM then disk.desc ⟨i, bound⟩ else .zero

/-- What the device reads when it follows a chain. -/
def fetch (disk : Disk β) (head : Fin NUM) : Fetched β :=
  let first := disk.desc head
  let second := disk.descAt first.next
  let third := disk.descAt second.next
  { op := match first.addr with
      | .op i => some (disk.ops i)
      | _ => none
    data := second.addr
    write := second.write
    status := third.addr }

/-- The device writes the status 0. -/
def writeStatus (disk : Disk β) : Addr β → Disk β
  | .status i => { disk with info := update disk.info i { disk.info i with status := 0 } }
  | _ => disk

end Disk

namespace State

def goto (s : State β m) (p : Fin m) (place : Place β) : State β m :=
  { s with place := update s.place p place }

def setDisk (s : State β m) (disk : Disk β) : State β m := { s with disk }

def setLock (s : State β m) (lock : Option (Holder m)) : State β m := { s with lock }

/-- `disk.avail->ring[disk.avail->idx % NUM] = idx[0]` -/
def post (s : State β m) (p : Fin m) (chain : Chain β) : State β m :=
  (s.setDisk { s.disk with avail := { s.disk.avail with
    data := update s.disk.avail.data (Ring.slot s.disk.avail.nwrite) chain.head } }).goto p
      (.publish chain)

/-- `disk.avail->idx += 1` -/
def publish (s : State β m) (p : Fin m) (chain : Chain β) : State β m :=
  { s with
    disk := { s.disk with avail := { s.disk.avail with nwrite := s.disk.avail.nwrite + 1 } }
    issued := s.issued + 1
    number := update s.number chain.head s.issued }.goto p (.wait chain)

/-- A round of `virtio_disk_intr`. -/
def see [DecidableEq β] (s : State β m) (id : Fin NUM) (b : β) : State β m :=
  { s with
    disk := { s.disk with
      busy := update s.disk.busy b false
      used := s.disk.used.pop }
    seen := update s.seen (s.number id) (s.seen (s.number id) + 1) }

/-- The device reads the next request. -/
def take (s : State β m) (head : Fin NUM) : State β m :=
  { s with
    disk := { s.disk with avail := s.disk.avail.pop }
    device := s.device ++ [(head, s.disk.fetch head)] }

/-- The device has done what a request asks for, and writes its status. -/
def finish (s : State β m) (head : Fin NUM) (fetched : Fetched β) : State β m :=
  { s with
    disk := s.disk.writeStatus fetched.status
    device := s.device.filter fun entry => entry.1 ≠ head
    done := head :: s.done
    log := update s.log (s.number head) (s.log (s.number head) ++ [fetched]) }

/-- The device writes an entry of the used ring. -/
def append (s : State β m) (head : Fin NUM) : State β m :=
  { s with
    disk := { s.disk with used := { s.disk.used with
      data := update s.disk.used.data (Ring.slot s.disk.used.nwrite) head } }
    done := s.done.erase head
    posted := some head }

/-- The device moves `used->idx` on. -/
def report (s : State β m) : State β m :=
  { s with
    disk := { s.disk with used := { s.disk.used with nwrite := s.disk.used.nwrite + 1 } }
    posted := none }

end State

/-- The next step of a process. -/
def advance [DecidableEq β] (s : State β m) (p : Fin m) : Option (State β m) :=
  match s.place p with
  | .out => none
  | .enter request =>
    if s.lock = none then some ((s.setLock (some (.proc p))).goto p (.alloc request)) else none
  | .alloc request =>
    match s.disk.alloc3Desc with
    | .error panic => some { s with panic := some panic }
    | .ok (none, disk) => some (((s.setDisk disk).setLock none).goto p (.enter request))
    | .ok (some (i, j, k), disk) =>
      some ((s.setDisk disk).goto p (.format ⟨request, i, j, k⟩))
  | .format chain => some ((s.setDisk (s.disk.format chain)).goto p (.post chain))
  | .post chain => some (s.post p chain)
  | .publish chain => some (s.publish p chain)
  | .wait chain =>
    if s.disk.busy chain.request.b then some ((s.setLock none).goto p (.sleep chain))
    else
      let info := s.disk.info chain.head
      let disk := { s.disk with info := update s.disk.info chain.head { info with b := none } }
      match disk.freeChain (NUM + 1) chain.head.val with
      | .error panic => some { s with panic := some panic }
      | .ok disk => some (((s.setDisk disk).setLock none).goto p .out)
  | .sleep chain =>
    if s.lock = none then some ((s.setLock (some (.proc p))).goto p (.wait chain)) else none

/-- The next round of `virtio_disk_intr`. -/
def intr [DecidableEq β] (s : State β m) : State β m :=
  if s.disk.used.nread = s.disk.used.nwrite then s.setLock none
  else
    let id := s.disk.used.front
    let info := s.disk.info id
    if info.status ≠ 0 then { s with panic := some .intrStatus }
    else
      match info.b with
      | none => { s with panic := some .noBuffer }
      | some b => s.see id b

/-- One step of the system. Nothing happens after a panic. -/
def next [DecidableEq β] (s : State β m) (event : Event β m) : Option (State β m) :=
  if s.panic ≠ none then none
  else
    match event with
    | .call p request =>
      match s.place p with
      | .out =>
        if ∀ q, (s.place q).buffer ≠ some request.b then some (s.goto p (.enter request))
        else none
      | _ => none
    | .step p => advance s p
    | .intr =>
      match s.lock with
      | none => some (s.setLock (some .intr))
      | some .intr => some (intr s)
      | some (.proc _) => none
    | .take =>
      if s.disk.avail.nread = s.disk.avail.nwrite then none
      else some (s.take s.disk.avail.front)
    | .finish head =>
      match s.device.find? fun entry => entry.1 = head with
      | none => none
      | some (_, fetched) => some (s.finish head fetched)
    | .append head => if head ∈ s.done ∧ s.posted = none then some (s.append head) else none
    | .report =>
      match s.posted with
      | none => none
      | some _ => some s.report

def Step [DecidableEq β] (s : State β m) (event : Event β m) (t : State β m) : Prop :=
  next s event = some t

/-- The disk after `virtio_disk_init`. -/
def initial (β : Type) (m : Nat) : State β m where
  disk := {
    desc := fun _ => .zero
    avail := { data := fun _ => 0, nread := 0, nwrite := 0 }
    used := { data := fun _ => 0, nread := 0, nwrite := 0 }
    free := fun _ => true
    info := fun _ => { b := none, status := 0 }
    ops := fun _ => { out := false, sector := 0 }
    busy := fun _ => false }
  lock := none
  place := fun _ => .out
  device := []
  done := []
  posted := none
  panic := none
  issued := 0
  number := fun _ => 0
  log := fun _ => []
  seen := fun _ => 0

end Xv6.Virtio
