import Xv6.Lib.Ring
import Xv6.Lib.Transition

/-!
# The virtio disk driver

`kernel/virtio_disk.c` after `virtio_disk_init`, with a device that takes chain heads from the avail ring in
order and completes them in any order.

* `Disk` — the driver's data and the memory it shares with the device.
* `alloc_desc`, `free_desc`, `free_chain`, `alloc3_desc` — the descriptor allocator, with its panics.
* `Sys` — any number of processes in `virtio_disk_rw`, the interrupt handler and the device.  Whoever holds
  `vdisk_lock` is in `Sys.crit`; the device runs at any time, also in the middle of a critical section.
  A process that sleeps may go on whenever the lock is free, since it tests its condition again.
* `Sys.published`, `Sys.accepted` and `Sys.completed` only count and record: nothing depends on them.
-/

namespace Xv6.Virtio

def NUM : Nat := 8

def VRING_DESC_F_NEXT : Nat := 1
def VRING_DESC_F_WRITE : Nat := 2

def VIRTIO_BLK_T_IN : Nat := 0
def VIRTIO_BLK_T_OUT : Nat := 1

/-- Physical addresses that the driver gives to the device. -/
inductive Addr (β : Type) where
  | null
  /-- `&disk.ops[i]`. -/
  | op (i : Nat)
  /-- `b->data`. -/
  | data (b : β)
  /-- `&disk.info[i].status`. -/
  | status (i : Nat)

structure Desc (β : Type) where
  addr : Addr β
  len : Nat
  flags : Nat
  next : Nat

/-- `struct virtio_blk_req`. -/
structure BlkReq where
  type : Nat
  reserved : Nat
  sector : Nat

structure Info (β : Type) where
  b : Option β
  status : Nat

structure Disk (β : Type) where
  desc : Nat → Desc β
  availRing : Nat → Nat
  availIdx : Nat
  usedRing : Nat → Nat
  usedIdx : Nat
  free : Nat → Bool
  /-- How far the driver has looked in the used ring. -/
  used_idx : Nat
  info : Nat → Info β
  ops : Nat → BlkReq

variable {β : Type}

/-! ## Descriptors -/

/-- The loop of `alloc_desc` from `i`, with `n` descriptors to go. -/
def Disk.allocLoop (d : Disk β) (i : Nat) : Nat → Option Nat × Disk β
  | 0 => (none, d)
  | n + 1 => if d.free i then (some i, { d with free := Function.update d.free i false }) else d.allocLoop (i + 1) n

def Disk.alloc_desc (d : Disk β) : Option Nat × Disk β := d.allocLoop 0 NUM

def Disk.free_desc (d : Disk β) (i : Nat) : Except String (Disk β) :=
  if NUM ≤ i then .error "free_desc 1"
  else if d.free i then .error "free_desc 2"
  else
    .ok { d with desc := Function.update d.desc i ⟨.null, 0, 0, 0⟩, free := Function.update d.free i true }

/-- The loop of `free_chain`.  Every round frees one descriptor more or panics, so it has at most `NUM + 1` rounds. -/
def Disk.freeLoop : Nat → Nat → Disk β → Except String (Disk β)
  | 0, _, _ => .error "free_chain"
  | n + 1, i, d =>
    let flag := (d.desc i).flags
    let nxt := (d.desc i).next
    match d.free_desc i with
    | .error e => .error e
    | .ok d => if flag &&& VRING_DESC_F_NEXT ≠ 0 then freeLoop n nxt d else .ok d

def Disk.free_chain (d : Disk β) (i : Nat) : Except String (Disk β) := Disk.freeLoop (NUM + 1) i d

/-- The three descriptors of a request. -/
structure Chain where
  head : Nat
  data : Nat
  status : Nat
  deriving DecidableEq

def Chain.slots (c : Chain) : List Nat := [c.head, c.data, c.status]

/-- `alloc3_desc`; `none` is the result `-1`, after what was allocated has been freed. -/
def Disk.alloc3_desc (d : Disk β) : Except String (Option Chain × Disk β) := do
  match d.alloc_desc with
  | (none, d) => return (none, d)
  | (some i, d) =>
    match d.alloc_desc with
    | (none, d) => return (none, ← d.free_desc i)
    | (some j, d) =>
      match d.alloc_desc with
      | (none, d) =>
        let d ← d.free_desc i
        return (none, ← d.free_desc j)
      | (some k, d) => return (some ⟨i, j, k⟩, d)

/-! ## Requests -/

/-- A call `virtio_disk_rw(b, write)`. -/
structure Req (β : Type) where
  b : β
  blockno : Nat
  write : Bool

/-- `b->blockno * (BSIZE / 512)`, a product of `uint`. -/
def Req.sector (r : Req β) : Nat := r.blockno * 2 % 2 ^ 32

/-- The three descriptors are formatted. -/
def Disk.format (d : Disk β) (r : Req β) (c : Chain) : Disk β :=
  let d :=
    { d with
      ops := Function.update d.ops c.head ⟨if r.write then VIRTIO_BLK_T_OUT else VIRTIO_BLK_T_IN, 0, r.sector⟩
      desc := Function.update d.desc c.head ⟨.op c.head, 16, VRING_DESC_F_NEXT, c.data⟩ }
  let d :=
    { d with
      desc := Function.update d.desc c.data
        ⟨.data r.b, 1024, (if r.write then 0 else VRING_DESC_F_WRITE) ||| VRING_DESC_F_NEXT, c.status⟩ }
  { d with
    info := Function.update d.info c.head ⟨some r.b, 0xff⟩
    desc := Function.update d.desc c.status ⟨.status c.head, 1, VRING_DESC_F_WRITE, 0⟩ }

/-- What the device finds in the chain that starts at a descriptor: the command, and where the status goes. -/
structure Command (β : Type) where
  b : β
  sector : Nat
  write : Bool

def Disk.fetch (d : Disk β) (h : Nat) : Option (Command β × Nat) :=
  let d₀ := d.desc h
  let d₁ := d.desc d₀.next
  let d₂ := d.desc d₁.next
  match d₀.addr, d₁.addr, d₂.addr with
  | .op i, .data b, .status j =>
    let write := (d.ops i).type = VIRTIO_BLK_T_OUT
    if d₀.flags = VRING_DESC_F_NEXT ∧ d₀.len = 16 ∧ d₁.len = 1024 ∧ d₂.len = 1 ∧ d₂.flags = VRING_DESC_F_WRITE ∧
        d₁.flags = (if write then 0 else VRING_DESC_F_WRITE) ||| VRING_DESC_F_NEXT then
      some (⟨b, (d.ops i).sector, write⟩, j)
    else none
  | _, _, _ => none

/-! ## The system -/

/-- Where a process is when it does not hold the lock. -/
inductive Phase (β : Type) where
  | idle
  /-- It has no descriptors yet. -/
  | want (r : Req β)
  /-- It waits for `b->disk == 0`.  Its request was the `n`-th one to be published. -/
  | wait (r : Req β) (c : Chain) (n : Nat)

/-- Who holds `vdisk_lock`, and where. -/
inductive Crit (ι β : Type) where
  | free
  /-- Descriptors are allocated, and not formatted. -/
  | format (p : ι) (r : Req β) (c : Chain)
  /-- The request is not in the avail ring. -/
  | ring (p : ι) (r : Req β) (c : Chain)
  /-- `avail->idx` has not been incremented. -/
  | publish (p : ι) (r : Req β) (c : Chain)
  /-- The loop of `virtio_disk_intr`. -/
  | intr

structure Sys (ι β : Type) where
  disk : Disk β
  /-- `b->disk`. -/
  busy : β → Bool
  phase : ι → Phase β
  crit : Crit ι β
  /-- The device's position in the avail ring. -/
  seen : Nat
  /-- The heads that the device has taken and not completed, with their numbers. -/
  taken : List (Nat × Nat)
  /-- How many requests have been published, and taken. -/
  published : Nat
  accepted : Nat
  /-- The completed requests by number, as the device found them. -/
  completed : List (Nat × Command β)

inductive Act (ι β : Type) where
  /-- A process calls `virtio_disk_rw`. -/
  | call (p : ι) (r : Req β)
  /-- It takes the lock, or comes back from `sleep(&disk.free[0], …)`. -/
  | alloc (p : ι)
  /-- The lock holder in `virtio_disk_rw` goes on. -/
  | format
  | ring
  | publish
  /-- A process comes back from `sleep(b, …)`. -/
  | resume (p : ι)
  | intr
  /-- One round of the loop of `virtio_disk_intr`, or its end. -/
  | round
  /-- The device takes the next head. -/
  | take
  /-- The device completes the `k`-th of the heads it has taken. -/
  | complete (k : Nat)

namespace Sys

variable {ι : Type} [DecidableEq ι] [DecidableEq β]

/-- What a process does from `acquire` or `sleep(&disk.free[0], …)` on. -/
def alloc (s : Sys ι β) (p : ι) (r : Req β) : Except String (Sys ι β) := do
  match ← s.disk.alloc3_desc with
  | (none, d) => return { s with disk := d }
  | (some c, d) => return { s with disk := d, crit := .format p r c }

/-- What a process does when `sleep(b, …)` returns. -/
def resume (s : Sys ι β) (p : ι) (r : Req β) (c : Chain) : Except String (Sys ι β) :=
  if s.busy r.b then .ok s
  else do
    let d := { s.disk with info := Function.update s.disk.info c.head { s.disk.info c.head with b := none } }
    return { s with disk := ← d.free_chain c.head, phase := Function.update s.phase p .idle }

/-- One round of the loop of `virtio_disk_intr`. -/
def round (s : Sys ι β) : Except String (Sys ι β) :=
  if s.disk.used_idx = s.disk.usedIdx then .ok { s with crit := .free }
  else
    let id := s.disk.usedRing (s.disk.used_idx % NUM)
    if (s.disk.info id).status ≠ 0 then .error "virtio_disk_intr status"
    else
      match (s.disk.info id).b with
      | none => .error "kerneltrap"
      | some b =>
        .ok { s with
          busy := Function.update s.busy b false
          disk := { s.disk with used_idx := (s.disk.used_idx + 1) % 2 ^ 16 } }

/-- The device completes a head: it fetches the chain, writes the status and appends to the used ring. -/
def complete (s : Sys ι β) (k n h : Nat) : Except String (Sys ι β) :=
  match s.disk.fetch h with
  | none => .error "device"
  | some (cmd, j) =>
    .ok { s with
      disk :=
        { s.disk with
          info := Function.update s.disk.info j { s.disk.info j with status := 0 }
          usedRing := Function.update s.disk.usedRing (s.disk.usedIdx % NUM) h
          usedIdx := (s.disk.usedIdx + 1) % 2 ^ 16 }
      taken := s.taken.eraseIdx k
      completed := s.completed ++ [(n, cmd)] }

/-- No process has a call for `b`. -/
def Unlocked (s : Sys ι β) (b : β) : Prop :=
  ∀ p, match s.phase p with
    | .idle => True
    | .want r => r.b ≠ b
    | .wait r _ _ => r.b ≠ b

def stepSys (s : Sys ι β) : Act ι β → Option (Except String (Sys ι β))
  | .call p r =>
    match s.phase p with
    | .idle => some (.ok { s with phase := Function.update s.phase p (.want r) })
    | _ => none
  | .alloc p =>
    match s.crit, s.phase p with
    | .free, .want r => some (s.alloc p r)
    | _, _ => none
  | .format =>
    match s.crit with
    | .format p r c =>
      some (.ok { s with disk := s.disk.format r c, busy := Function.update s.busy r.b true, crit := .ring p r c })
    | _ => none
  | .ring =>
    match s.crit with
    | .ring p r c =>
      some (.ok { s with
        disk := { s.disk with availRing := Function.update s.disk.availRing (s.disk.availIdx % NUM) c.head }
        crit := .publish p r c })
    | _ => none
  | .publish =>
    match s.crit with
    | .publish p r c =>
      some (.ok { s with
        disk := { s.disk with availIdx := (s.disk.availIdx + 1) % 2 ^ 16 }
        phase := Function.update s.phase p (.wait r c s.published)
        crit := .free
        published := s.published + 1 })
    | _ => none
  | .resume p =>
    match s.crit, s.phase p with
    | .free, .wait r c _ => some (s.resume p r c)
    | _, _ => none
  | .intr =>
    match s.crit with
    | .free => some (.ok { s with crit := .intr })
    | _ => none
  | .round =>
    match s.crit with
    | .intr => some s.round
    | _ => none
  | .take =>
    if s.seen = s.disk.availIdx then none
    else
      some (.ok { s with
        seen := (s.seen + 1) % 2 ^ 16
        taken := s.taken ++ [(s.accepted, s.disk.availRing (s.seen % NUM))]
        accepted := s.accepted + 1 })
  | .complete k =>
    match s.taken[k]? with
    | none => none
    | some (n, h) => some (s.complete k n h)

/-- A panic stops the system. -/
def step : Except String (Sys ι β) → Act ι β → Option (Except String (Sys ι β))
  | .error _, _ => none
  | .ok s, a => s.stepSys a

/-- Every caller holds the lock of its buffer. -/
def Locked : Except String (Sys ι β) → Act ι β → Prop
  | .ok s, .call _ r => s.Unlocked r.b
  | _, _ => True

/-- The state that `virtio_disk_init` leaves: zeroed rings, and every descriptor free. -/
structure Init (s : Sys ι β) : Prop where
  phase : ∀ p, s.phase p = .idle
  crit : s.crit = .free
  free : ∀ i, i < NUM → s.disk.free i = true
  rings : s.disk.availIdx = 0 ∧ s.disk.usedIdx = 0 ∧ s.disk.used_idx = 0 ∧ s.seen = 0
  counts : s.published = 0 ∧ s.accepted = 0 ∧ s.taken = []

def init : Sys ι β where
  disk :=
    { desc := fun _ => ⟨.null, 0, 0, 0⟩
      availRing := fun _ => 0
      availIdx := 0
      usedRing := fun _ => 0
      usedIdx := 0
      free := fun _ => true
      used_idx := 0
      info := fun _ => ⟨none, 0⟩
      ops := fun _ => ⟨0, 0, 0⟩ }
  busy _ := false
  phase _ := .idle
  crit := .free
  seen := 0
  taken := []
  published := 0
  accepted := 0
  completed := []

omit [DecidableEq ι] [DecidableEq β] in
theorem init_spec : (init : Sys ι β).Init :=
  ⟨fun _ => rfl, rfl, fun _ _ => rfl, ⟨rfl, rfl, rfl, rfl⟩, rfl, rfl, rfl⟩

end Sys

end Xv6.Virtio
