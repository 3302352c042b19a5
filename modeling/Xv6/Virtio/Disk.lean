import Xv6.Lib.Machine
import Xv6.Lib.Ring

/-!
# virtio ディスク

`kernel/virtio_disk.c` の `struct disk` と、`virtio_disk_rw`、`virtio_disk_intr` の各区間を定める。
装置とは、`avail` と `used` の二つの環を介してやり取りする。環の番号は 16 ビットで回る。
-/

namespace Xv6.Virtio

open Xv6.Lib

def num : Nat := 8

def vringDescFNext : Nat := 1

def vringDescFWrite : Nat := 2

inductive Addr
  | null
  | op (i : Nat)
  | data (b : Nat)
  | status (i : Nat)
  deriving DecidableEq, Repr

structure Desc where
  addr : Addr
  len : Nat
  flags : Nat
  next : Nat
  deriving DecidableEq, Repr

/-- `struct virtio_blk_req` -/
structure Req where
  type : Nat
  reserved : Nat
  sector : Nat
  deriving DecidableEq, Repr

structure Info where
  b : Option Nat
  status : Nat
  deriving DecidableEq, Repr

structure Avail where
  idx : Nat
  ring : Nat → Nat

structure Used where
  idx : Nat
  ring : Nat → Nat

structure Disk where
  desc : Nat → Desc
  avail : Avail
  used : Used
  free : Nat → Bool
  usedIdx : Nat
  info : Nat → Info
  ops : Nat → Req

def Desc.zero : Desc := { addr := .null, len := 0, flags := 0, next := 0 }

def Disk.init : Disk where
  desc _ := .zero
  avail := { idx := 0, ring := fun _ => 0 }
  used := { idx := 0, ring := fun _ => 0 }
  free i := i < num
  usedIdx := 0
  info _ := { b := none, status := 0 }
  ops _ := { type := 0, reserved := 0, sector := 0 }

def allocDesc (d : Disk) : Option (Nat × Disk) :=
  match (List.range num).find? d.free with
  | none => none
  | some i => some (i, { d with free := update d.free i false })

def freeDesc (d : Disk) (i : Nat) : Except String Disk :=
  if i ≥ num then .error "free_desc 1"
  else if d.free i then .error "free_desc 2"
  else .ok { d with desc := update d.desc i .zero, free := update d.free i true }

/-- `free_chain` のループ。どの記述子も二度は解放できないので、`num + 1` 回で足りる。 -/
def freeChainLoop : Nat → Disk → Nat → Except String Disk
  | 0, _, _ => .error "free_chain"
  | fuel + 1, d, i =>
    let flag := (d.desc i).flags
    let nxt := (d.desc i).next
    match freeDesc d i with
    | .error m => .error m
    | .ok d => if flag &&& vringDescFNext ≠ 0 then freeChainLoop fuel d nxt else .ok d

def freeChain (d : Disk) (i : Nat) : Except String Disk := freeChainLoop (num + 1) d i

/-- 三つの記述子を取る。途中で足りなければ、取ったものを戻す。 -/
def alloc3Desc (d : Disk) : Except String (Disk × Option (Nat × Nat × Nat)) :=
  match allocDesc d with
  | none => .ok (d, none)
  | some (i0, d) =>
    match allocDesc d with
    | none => do
      let d ← freeDesc d i0
      pure (d, none)
    | some (i1, d) =>
      match allocDesc d with
      | none => do
        let d ← freeDesc d i0
        let d ← freeDesc d i1
        pure (d, none)
      | some (i2, d) => .ok (d, some (i0, i1, i2))

/-- 一つの要求。`req` は要求ごとに異なる番号である。 -/
structure Chain where
  b : Nat
  i0 : Nat
  i1 : Nat
  i2 : Nat
  req : Nat
  deriving DecidableEq, Repr

def Chain.descs (c : Chain) : List Nat := [c.i0, c.i1, c.i2]

def format (d : Disk) (c : Chain) (blockno : Nat) (write : Bool) : Disk :=
  { d with
    ops := update d.ops c.i0
      { type := if write then 1 else 0, reserved := 0, sector := (blockno * 2) % 2 ^ 32 }
    desc := update (update (update d.desc
      c.i0 { addr := .op c.i0, len := 16, flags := vringDescFNext, next := c.i1 })
      c.i1 { addr := .data c.b, len := 1024,
             flags := (if write then 0 else vringDescFWrite) ||| vringDescFNext, next := c.i2 })
      c.i2 { addr := .status c.i0, len := 1, flags := vringDescFWrite, next := 0 }
    info := update d.info c.i0 { b := some c.b, status := 0xff }
    avail := { d.avail with ring := update d.avail.ring (d.avail.idx % num) c.i0 } }

def Disk.setB (d : Disk) (i : Nat) (b : Option Nat) : Disk :=
  { d with info := update d.info i { d.info i with b := b } }

def Disk.setStatus (d : Disk) (i : Nat) (st : Nat) : Disk :=
  { d with info := update d.info i { d.info i with status := st } }

def Disk.statusAddr (d : Disk) (h : Nat) : Addr := (d.desc (d.desc (d.desc h).next).next).addr

/-! ## 並行な進み方 -/

/-- `full` は `&disk.free[0]` で、`waiting` は `b` で眠っている。`filled` は `avail->idx` を進める前である。 -/
inductive Pos
  | idle
  | full (b blockno : Nat) (write : Bool)
  | filled (c : Chain)
  | waiting (c : Chain)
  deriving DecidableEq, Repr

inductive Holder
  | proc (p : Nat)
  | intr
  deriving DecidableEq, Repr

/-- `disk` は `b->disk`、`busy` は `b->lock` である。`seen`、`working`、`reported` は装置の取った数、終えていない先頭、
`used` に載せていない先頭を表す。`submitted` 以下は履歴である。 -/
structure Sys where
  d : Disk
  disk : Nat → Bool
  busy : Nat → Bool
  procs : Nat → Pos
  lock : Option Holder
  seen : Nat
  working : List Nat
  reported : List Nat
  submitted : List Nat
  taken : Nat
  completed : List Nat
  processed : Nat
  nextReq : Nat
  owner : Nat → Nat
  finished : List Nat

def Sys.init : Sys where
  d := .init
  disk _ := false
  busy _ := false
  procs _ := .idle
  lock := none
  seen := 0
  working := []
  reported := []
  submitted := []
  taken := 0
  completed := []
  processed := 0
  nextReq := 0
  owner _ := 0
  finished := []

/-- `retry` と `resume` は（余計にでも）起こされたこと、`publish` は `avail->idx` を進めて眠ること、`intrStep` は
`virtio_disk_intr` のループの一周である。 -/
inductive Event
  | rw (p b blockno : Nat) (write : Bool)
  | retry (p : Nat)
  | publish (p : Nat)
  | resume (p : Nat)
  | intrStart
  | intrStep
  | devTake
  | devStatus (h st : Nat)
  | devUsed (h : Nat)
  deriving DecidableEq, Repr

def Sys.go (s : Sys) (p : Nat) (pos : Pos) : Sys := { s with procs := update s.procs p pos }

def Sys.acquire (s : Sys) (p b blockno : Nat) (write : Bool) : Except String Sys :=
  match alloc3Desc s.d with
  | .error m => .error m
  | .ok (d, none) => .ok ({ s with d := d }.go p (.full b blockno write))
  | .ok (d, some (i0, i1, i2)) =>
    let c : Chain := ⟨b, i0, i1, i2, s.nextReq⟩
    .ok ({ s with
      d := format d c blockno write
      disk := update s.disk b true
      lock := some (.proc p)
      nextReq := s.nextReq + 1
      owner := update s.owner i0 s.nextReq }.go p (.filled c))

def Sys.reap (s : Sys) (p : Nat) (c : Chain) : Except String Sys :=
  if s.disk c.b then .ok s
  else
    match freeChain (s.d.setB c.i0 none) c.i0 with
    | .error m => .error m
    | .ok d => .ok ({ s with d := d, busy := update s.busy c.b false }.go p .idle)

def Sys.intr (s : Sys) : Except String Sys :=
  if s.d.usedIdx = s.d.used.idx then .ok { s with lock := none }
  else
    let id := s.d.used.ring (s.d.usedIdx % num)
    if (s.d.info id).status ≠ 0 then .error "virtio_disk_intr status"
    else
      match (s.d.info id).b with
      | none => .error "virtio_disk_intr b"
      | some b =>
        .ok { s with
          disk := update s.disk b false
          d := { s.d with usedIdx := (s.d.usedIdx + 1) % 2 ^ 16 }
          processed := s.processed + 1 }

/-- 一歩。`b->lock` により、同じ `b` の呼び出しは重ならない。装置は、載った鎖をどの順にでも、ちょうど一度だけ取って終える。 -/
def Sys.step : Machine Sys Event := fun s e =>
  match e with
  | .rw p b blockno write =>
    match s.procs p, s.lock, s.busy b with
    | .idle, none, false =>
      some ({ s with busy := update s.busy b true }.acquire p b blockno write)
    | _, _, _ => none
  | .retry p =>
    match s.procs p, s.lock with
    | .full b blockno write, none => some (s.acquire p b blockno write)
    | _, _ => none
  | .publish p =>
    match s.procs p with
    | .filled c =>
      some (.ok ({ s with
        d := { s.d with avail := { s.d.avail with idx := (s.d.avail.idx + 1) % 2 ^ 16 } }
        lock := none
        submitted := s.submitted ++ [c.i0] }.go p (.waiting c)))
    | _ => none
  | .resume p =>
    match s.procs p, s.lock with
    | .waiting c, none => some (s.reap p c)
    | _, _ => none
  | .intrStart =>
    match s.lock with
    | none => some (.ok { s with lock := some .intr })
    | some _ => none
  | .intrStep =>
    match s.lock with
    | some .intr => some s.intr
    | _ => none
  | .devTake =>
    if s.seen = s.d.avail.idx then none
    else
      some (.ok { s with
        seen := (s.seen + 1) % 2 ^ 16
        working := s.working ++ [s.d.avail.ring (s.seen % num)]
        taken := s.taken + 1 })
  | .devStatus h st =>
    if h ∈ s.working then
      match s.d.statusAddr h with
      | .status i =>
        some (.ok { s with
          d := s.d.setStatus i st
          working := s.working.erase h
          reported := s.reported ++ [h] })
      | _ => none
    else none
  | .devUsed h =>
    if h ∈ s.reported then
      some (.ok { s with
        d := { s.d with used :=
          { idx := (s.d.used.idx + 1) % 2 ^ 16, ring := update s.d.used.ring (s.d.used.idx % num) h } }
        reported := s.reported.erase h
        completed := s.completed ++ [h]
        finished := s.finished ++ [s.owner h] })
    else none

end Xv6.Virtio
