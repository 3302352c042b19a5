import Xv6.Lib.Machine
import Xv6.Fs.Ops

/-!
# inode の表

`kernel/fs.c` の `itable` を、関数が交互に進む系として定める。`itable.lock` の下の区間、スリープロックの取得と解放、ディスクの inode の読み書きを、それぞれ
一歩とする。
-/

namespace Xv6.Itable

open Xv6.Lib
open Xv6.Fs (ninode)

abbrev EntryId := Fin ninode

abbrev Key := Nat × Nat

/-- `struct dinode` のうち、表の扱いに関わる欄。 -/
structure Dinode where
  type : Nat
  nlink : Nat
  size : Nat
  deriving DecidableEq

/-- `struct inode`。`lock` はスリープロックを持つスレッドである。 -/
structure Entry where
  key : Key
  ref : Nat
  valid : Bool
  lock : Option Nat
  d : Dinode
  deriving DecidableEq

inductive Pos
  | idle
  /-- `ialloc` で `k` に印を付け、`iget` の前。 -/
  | alloc (k : Key)
  /-- `ilock` の `acquiresleep` の前。 -/
  | await (e : EntryId)
  /-- `ilock` でロックを取り、ディスクから読む前。 -/
  | load (e : EntryId)
  /-- `iput` で `itable.lock` を放し、`itrunc` の前。 -/
  | trunc (e : EntryId)
  /-- `ip->type = 0` と `iupdate` の前。 -/
  | mark (e : EntryId)
  /-- `ip->valid = 0` の前。 -/
  | inval (e : EntryId)
  /-- `releasesleep` の前。 -/
  | unlock (e : EntryId)
  /-- 再び `itable.lock` を取り、`ip->ref--` の前。 -/
  | drop (e : EntryId)
  deriving DecidableEq

/-- 途中で `itable.lock` を放した `iput` が手放す項目。 -/
def Pos.freeing : Pos → Option EntryId
  | .trunc e | .mark e | .inval e | .unlock e | .drop e => some e
  | _ => none

/-- 以下は証明のための記録で、`refs` はまだ手放されていない参照、`dying` は途中の `iput` が手放す参照の持ち主である。 -/
structure Sys where
  entry : EntryId → Entry
  disk : Key → Dinode
  pos : Nat → Pos
  refs : List EntryId
  dying : EntryId → Option Nat

namespace Sys

def setEntry (s : Sys) (e : EntryId) (x : Entry) : Sys := { s with entry := update s.entry e x }

def setDisk (s : Sys) (k : Key) (d : Dinode) : Sys := { s with disk := update s.disk k d }

def go (s : Sys) (p : Nat) (x : Pos) : Sys := { s with pos := update s.pos p x }

def setDying (s : Sys) (e : EntryId) (o : Option Nat) : Sys := { s with dying := update s.dying e o }

def setRefs (s : Sys) (l : List EntryId) : Sys := { s with refs := l }

def find (s : Sys) (k : Key) : Option EntryId :=
  (List.finRange ninode).find? fun e => 0 < (s.entry e).ref ∧ (s.entry e).key = k

def empty (s : Sys) : Option EntryId := (List.finRange ninode).find? fun e => (s.entry e).ref = 0

def links (s : Sys) (k : Key) : Nat :=
  match s.find k with
  | some e => if (s.entry e).valid then (s.entry e).d.nlink else (s.disk k).nlink
  | none => (s.disk k).nlink

def share (s : Sys) (e : EntryId) : Sys :=
  (s.setEntry e { s.entry e with ref := (s.entry e).ref + 1 }).setRefs (e :: s.refs)

def recycle (s : Sys) (e : EntryId) (k : Key) : Sys :=
  (s.setEntry e { s.entry e with key := k, ref := 1, valid := false }).setRefs (e :: s.refs)

def iget (s : Sys) (k : Key) : Except String Sys :=
  match s.find k with
  | some e => .ok (s.share e)
  | none =>
    match s.empty with
    | some e => .ok (s.recycle e k)
    | none => .error "iget: no inodes"

/-- `iput` の最初の区間。リンクも、ほかの参照もなければ、ロックして消し始める。 -/
def iput (s : Sys) (p : Nat) (e : EntryId) : Option (Except String Sys) :=
  if (s.entry e).ref = 1 ∧ (s.entry e).valid ∧ (s.entry e).d.nlink = 0 then
    match (s.entry e).lock with
    | none =>
      some (.ok ((((s.setEntry e { s.entry e with lock := some p }).setRefs (s.refs.erase e)).setDying e (some p)).go p
        (.trunc e)))
    | some _ => some (.error "sched locks")
  else some (.ok ((s.setEntry e { s.entry e with ref := (s.entry e).ref - 1 }).setRefs (s.refs.erase e)))

end Sys

/-- 出来事。`touch` は、ロックの下での `nlink` と `size` の変更である。 -/
inductive Ev
  | iget (k : Key)
  | ialloc (p : Nat) (k : Key) (type : Nat)
  | idup (e : EntryId)
  | ilock (p : Nat) (e : EntryId)
  | iunlock (p : Nat) (e : EntryId)
  | touch (p : Nat) (e : EntryId) (nlink size : Nat)
  | iupdate (p : Nat) (e : EntryId)
  | iput (p : Nat) (e : EntryId)
  | go (p : Nat)
  deriving DecidableEq

namespace Sys

def next (s : Sys) (p : Nat) : Pos → Option (Except String Sys)
  | .idle => none
  | .alloc k =>
    match s.iget k with
    | .ok s' => some (.ok (s'.go p .idle))
    | .error msg => some (.error msg)
  | .await e =>
    match (s.entry e).lock with
    | some _ => none
    | none =>
      some (.ok ((s.setEntry e { s.entry e with lock := some p }).go p
        (if (s.entry e).valid then .idle else .load e)))
  | .load e =>
    if (s.disk (s.entry e).key).type = 0 then some (.error "ilock: no type")
    else some (.ok ((s.setEntry e { s.entry e with valid := true, d := s.disk (s.entry e).key }).go p .idle))
  | .trunc e =>
    let d := { (s.entry e).d with size := 0 }
    some (.ok (((s.setEntry e { s.entry e with d := d }).setDisk (s.entry e).key d).go p (.mark e)))
  | .mark e =>
    let d := { (s.entry e).d with type := 0 }
    some (.ok (((s.setEntry e { s.entry e with d := d }).setDisk (s.entry e).key d).go p (.inval e)))
  | .inval e => some (.ok ((s.setEntry e { s.entry e with valid := false }).go p (.unlock e)))
  | .unlock e => some (.ok ((s.setEntry e { s.entry e with lock := none }).go p (.drop e)))
  | .drop e =>
    some (.ok (((s.setEntry e { s.entry e with ref := (s.entry e).ref - 1 }).setDying e none).go p .idle))

end Sys

def step : Machine Sys Ev
  | s, .iget k => some (s.iget k)
  | s, .ialloc p k type =>
    if s.pos p = .idle ∧ (s.disk k).type = 0 then some (.ok ((s.setDisk k ⟨type, 0, 0⟩).go p (.alloc k))) else none
  | s, .idup e => some (.ok (s.share e))
  | s, .ilock p e =>
    if s.pos p = .idle then
      if (s.entry e).ref < 1 then some (.error "ilock") else some (.ok (s.go p (.await e)))
    else none
  | s, .iunlock p e =>
    if s.pos p = .idle then
      if (s.entry e).lock ≠ some p ∨ (s.entry e).ref < 1 then some (.error "iunlock")
      else some (.ok (s.setEntry e { s.entry e with lock := none }))
    else none
  | s, .touch p e nlink size =>
    if s.pos p = .idle ∧ (s.entry e).lock = some p then
      some (.ok (s.setEntry e { s.entry e with d := { (s.entry e).d with nlink := nlink, size := size } }))
    else none
  | s, .iupdate p e =>
    if s.pos p = .idle ∧ (s.entry e).lock = some p then some (.ok (s.setDisk (s.entry e).key (s.entry e).d)) else none
  | s, .iput p e => if s.pos p = .idle then s.iput p e else none
  | s, .go p => s.next p (s.pos p)

def Sys.Uses (s : Sys) (p : Nat) (e : EntryId) : Prop :=
  s.pos p = .await e ∨ (s.entry e).lock = some p ∧ (s.pos p).freeing ≠ some e

/-- 呼び出す側の条件。`iget` するのは、リンクがあるか参照を持つ inode だけである。ほかは得てある参照を使い、ロックを待つ
か持つ間は、ほかの参照を残す。 -/
def Disciplined (s : Sys) : Ev → Prop
  | .iget k => 0 < s.links k ∨ ∃ e ∈ s.refs, (s.entry e).key = k
  | .ialloc _ _ type => type ≠ 0
  | .idup e => e ∈ s.refs
  | .ilock _ e => e ∈ s.refs
  | .iput _ e => e ∈ s.refs ∧ ((∃ q, s.Uses q e) → e ∈ s.refs.erase e)
  | _ => True

/-- 起動したときの状態。使っていない inode にはリンクがない。 -/
structure Boot (s : Sys) : Prop where
  ref : ∀ e, (s.entry e).ref = 0
  lock : ∀ e, (s.entry e).lock = none
  pos : ∀ p, s.pos p = .idle
  refs : s.refs = []
  dying : ∀ e, s.dying e = none
  disk : ∀ k, (s.disk k).type = 0 → (s.disk k).nlink = 0

/-- 出ている参照の数。途中の `iput` が手放す参照は、`ref--` までは出ている。 -/
def Sys.outstanding (s : Sys) (e : EntryId) : Nat := s.refs.count e + if (s.dying e).isSome then 1 else 0

end Xv6.Itable
