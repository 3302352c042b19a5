import Xv6.Lib.Machine
import Mathlib.Algebra.Group.Nat.Defs

/-!
# UART の送信

`kernel/uart.c` の `uartputc`、`uartputc_sync`、`uartstart`、`uartintr` を、呼び出した者ごとの歩として定める。装置のレジスタを読んだ
値は任意である。眠った書き手は、`wakeup` のほか、`kill` でも起きる。
-/

namespace Xv6.Uart

open Xv6.Lib

def uartTxBufSize : Nat := 32

def word : Nat := 2 ^ 64

def lsrRxReady : UInt8 := 1

def lsrTxIdle : UInt8 := 32

/-- 装置への読み書き。`lsr` と `thr` は `uartstart` の、`sync` は `uartputc_sync` のものである。 -/
inductive Access
  | lsr (p : Nat) (v : UInt8)
  | thr (p : Nat) (c : UInt8)
  | sync (p : Nat) (c : UInt8)
  deriving DecidableEq

/-- 送信の領域。`accepted` は `uartputc` が受け付けたバイト、`bus` は装置への読み書きの記録である。 -/
structure Tx where
  buf : Nat → UInt8
  w : Nat
  r : Nat
  accepted : List UInt8
  bus : List Access

/-- `sync` と続く二つは `uartputc_sync` の中で、`cs` は続けて送る文字、`intr` は `consoleintr` から呼んだことである。 -/
inductive Pc
  | out
  | putEnter (c : UInt32)
  | putPanic (c : UInt32)
  | putTest (c : UInt32)
  | asleep (c : UInt32)
  | putAgain (c : UInt32)
  | putStore (c : UInt32)
  | putCount (c : UInt32)
  | startTest
  | startLsr
  | startLoad
  | startTake (c : UInt8)
  | startWake (c : UInt8)
  | startSend (c : UInt8)
  | leave
  | getc
  | recv
  | sync (cs : List UInt32) (intr : Bool)
  | syncWait (c : UInt32) (cs : List UInt32) (intr : Bool)
  | syncSend (c : UInt32) (cs : List UInt32) (intr : Bool)
  | intrEnter
  | putSpin
  | syncSpin
  deriving DecidableEq

structure Sys where
  tx : Tx
  lock : Option Nat
  panicked : Bool
  pc : Nat → Pc

def Sys.goto (s : Sys) (p : Nat) (a : Pc) : Sys := { s with pc := update s.pc p a }

def Sys.acquire (s : Sys) (p : Nat) (a : Pc) : Option Sys :=
  if s.lock = none then some ({ s with lock := some p }.goto p a) else none

def Sys.release (s : Sys) (p : Nat) (a : Pc) : Sys := { s with lock := none }.goto p a

def Sys.put (s : Sys) (p : Nat) (x : Tx) (a : Pc) : Sys := { s with tx := x }.goto p a

def Pc.wakeup : Pc → Pc
  | .asleep c => .putAgain c
  | a => a

def Tx.full (x : Tx) : Bool := x.w == (x.r + uartTxBufSize) % word

def Tx.store (x : Tx) (c : UInt32) : Tx := { x with buf := update x.buf (x.w % uartTxBufSize) c.toUInt8 }

def Tx.count (x : Tx) (c : UInt32) : Tx := { x with w := (x.w + 1) % word, accepted := x.accepted ++ [c.toUInt8] }

def Tx.take (x : Tx) : Tx := { x with r := (x.r + 1) % word }

def Tx.access (x : Tx) (a : Access) : Tx := { x with bus := x.bus ++ [a] }

/-- `p` の次の一歩。`v` は読んだレジスタの値、`echo` は `consoleintr` の送る文字である。 -/
def run (s : Sys) (p : Nat) (v : UInt8) (echo : List UInt32) : Option Sys :=
  match s.pc p with
  | .out | .asleep _ | .putSpin | .syncSpin => none
  | .putEnter c => s.acquire p (.putPanic c)
  | .putPanic c => some (s.goto p (if s.panicked then .putSpin else .putTest c))
  | .putTest c => some (if s.tx.full then s.release p (.asleep c) else s.goto p (.putStore c))
  | .putAgain c => s.acquire p (.putTest c)
  | .putStore c => some (s.put p (s.tx.store c) (.putCount c))
  | .putCount c => some (s.put p (s.tx.count c) .startTest)
  | .startTest => some (s.goto p (if s.tx.w = s.tx.r then .leave else .startLsr))
  | .startLsr => some (s.put p (s.tx.access (.lsr p v)) (if v &&& lsrTxIdle = 0 then .leave else .startLoad))
  | .startLoad => some (s.goto p (.startTake (s.tx.buf (s.tx.r % uartTxBufSize))))
  | .startTake c => some (s.put p s.tx.take (.startWake c))
  | .startWake c => some ({ s with pc := fun q => (s.pc q).wakeup }.goto p (.startSend c))
  | .startSend c => some (s.put p (s.tx.access (.thr p c)) .startTest)
  | .leave => some (s.release p .out)
  | .getc => some (s.goto p (if v &&& lsrRxReady = 0 then .intrEnter else .recv))
  | .recv => some (s.goto p (.sync echo true))
  | .sync [] intr => some (s.goto p (if intr then .getc else .out))
  | .sync (c :: cs) intr => some (s.goto p (if s.panicked then .syncSpin else .syncWait c cs intr))
  | .syncWait c cs intr => some (s.goto p (if v &&& lsrTxIdle = 0 then .syncWait c cs intr else .syncSend c cs intr))
  | .syncSend c cs intr => some (s.put p (s.tx.access (.sync p c.toUInt8)) (.sync cs intr))
  | .intrEnter => s.acquire p .startTest

/-- `putc`、`putcSync`、`intr` は三つの関数を呼ぶこと、`wake` は眠った書き手が `kill` で起こされることである。 -/
inductive Event
  | putc (p : Nat) (c : UInt32)
  | putcSync (p : Nat) (c : UInt32)
  | intr (p : Nat)
  | run (p : Nat) (v : UInt8) (echo : List UInt32)
  | wake (p : Nat)
  | panic

def Sys.call (s : Sys) (p : Nat) (a : Pc) : Option Sys := if s.pc p = .out then some (s.goto p a) else none

def move (s : Sys) : Event → Option Sys
  | .putc p c => s.call p (.putEnter c)
  | .putcSync p c => s.call p (.sync [c] false)
  | .intr p => s.call p .getc
  | .run p v echo => run s p v echo
  | .wake p => some (s.goto p (s.pc p).wakeup)
  | .panic => some { s with panicked := true }

def step : Machine Sys Event := fun s e => (move s e).map .ok

def init (buf : Nat → UInt8) : Sys := ⟨⟨buf, 0, 0, [], []⟩, none, false, fun _ => .out⟩

/-! ## バイトの行方 -/

def Access.sent : Access → Option UInt8
  | .thr _ c => some c
  | _ => none

def Tx.sent (x : Tx) : List UInt8 := x.bus.filterMap Access.sent

def Tx.size (x : Tx) : Nat := (x.w + word - x.r) % word

def Tx.waiting (x : Tx) : List UInt8 := (List.range x.size).map fun k => x.buf ((x.r + k) % uartTxBufSize)

/-- `uart_tx_r` を進めてから THR に書くまでのバイト。 -/
def Pc.hand : Pc → List UInt8
  | .startWake c | .startSend c => [c]
  | _ => []

/-- `uart_tx_lock` の持ち主が手に持つバイト。 -/
def Sys.hand (s : Sys) : List UInt8 := s.lock.elim [] fun p => (s.pc p).hand

/-- `p` の `uartstart` が LSR を読んで空きを知り、その後の記録は `uartputc_sync` の書き込みだけである。 -/
def Polled (p : Nat) (bus : List Access) : Prop :=
  ∃ pre v mid, bus = pre ++ .lsr p v :: mid ∧ v &&& lsrTxIdle ≠ 0 ∧ ∀ a ∈ mid, ∃ q c, a = .sync q c

end Xv6.Uart
