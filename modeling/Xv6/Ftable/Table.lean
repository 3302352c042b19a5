import Xv6.Lib.Occ
import Xv6.Lib.Pool
import Xv6.Fs.Sysfile

/-!
# 開いたファイルの表

`kernel/file.c` の `ftable`、`kernel/pipe.c` のパイプの端、プロセスの `ofile` を、システムコールが交互に進む系として定める。ロックの下の区間を一歩とし、
inode の操作は結果だけを外から受け取る。
-/

namespace Xv6.Ftable

open Xv6.Lib
open Xv6.Fs (nfile nofile ndev tDir tDevice OMode)

def nproc : Nat := 64

abbrev FileId := Fin nfile
abbrev Fd := Fin nofile
abbrev ProcId := Fin nproc

/-! ## 状態 -/

inductive FileType
  | none
  | pipe
  | inode
  | device
  deriving DecidableEq, Repr

/-- `struct file`。`ref` は参照の総数を超えないので、`int` であふれない。 -/
structure File where
  type : FileType
  ref : Nat
  readable : Bool
  writable : Bool
  pipe : Nat
  ip : Nat
  off : Nat
  major : Nat
  deriving DecidableEq

/-- `struct pipe` の、端の開閉の欄。`frees` はページを `kfree` した回数の記録である。 -/
structure Pipe where
  readopen : Bool
  writeopen : Bool
  frees : Nat

inductive PState
  | unused
  | used
  | live
  | zombie
  deriving DecidableEq, Repr

/-- `struct proc` のうち、状態と `ofile`。`live` は実行できる状態のどれかである。 -/
structure Proc where
  state : PState
  ofile : Fd → Option FileId

/-- `raw` は何も書いていないか両端の閉じたページを、`side` は読む端（`false`）か書く端（`true`）を閉じる権利である。 -/
inductive Token
  | raw (pi : Nat)
  | side (pi : Nat) (writable : Bool)
  deriving DecidableEq

inductive Holder
  | thread (p : ProcId)
  | file (f : FileId)
  deriving DecidableEq

/-- パイプのページは割り当てた順の番号で表し、`pipes` は次の番号である。以下は証明のための記録で、`own` は持っている参照
の数、`blank` は種類を決めていない項目の持ち主、`kid` は `fork` が作っている子、`holder` は権利の持ち主である。 -/
structure Sys where
  file : FileId → File
  proc : ProcId → Proc
  pipe : Nat → Pipe
  pipes : Nat
  own : ProcId → FileId → Nat
  blank : FileId → Option ProcId
  kid : ProcId → Option ProcId
  holder : Token → Option Holder

namespace Sys

@[simps -fullyApplied]
def setFile (s : Sys) (f : FileId) (x : File) : Sys := { s with file := update s.file f x }

@[simps -fullyApplied]
def setProc (s : Sys) (p : ProcId) (x : Proc) : Sys := { s with proc := update s.proc p x }

@[simps -fullyApplied]
def setPipe (s : Sys) (pi : Nat) (x : Pipe) : Sys := { s with pipe := update s.pipe pi x }

@[simps -fullyApplied]
def setOwn (s : Sys) (p : ProcId) (g : FileId → Nat) : Sys := { s with own := update s.own p g }

@[simps -fullyApplied]
def setBlank (s : Sys) (f : FileId) (o : Option ProcId) : Sys := { s with blank := update s.blank f o }

@[simps -fullyApplied]
def setKid (s : Sys) (p : ProcId) (o : Option ProcId) : Sys := { s with kid := update s.kid p o }

@[simps -fullyApplied]
def setHolder (s : Sys) (t : Token) (o : Option Holder) : Sys := { s with holder := update s.holder t o }

def setState (s : Sys) (p : ProcId) (st : PState) : Sys := s.setProc p { s.proc p with state := st }

def setOfile (s : Sys) (p : ProcId) (fd : Fd) (o : Option FileId) : Sys :=
  s.setProc p { s.proc p with ofile := update (s.proc p).ofile fd o }

@[simps! -fullyApplied]
def gain (s : Sys) (p : ProcId) (f : FileId) : Sys := s.setOwn p (update (s.own p) f (s.own p f + 1))

@[simps! -fullyApplied]
def lose (s : Sys) (p : ProcId) (f : FileId) : Sys := s.setOwn p (update (s.own p) f (s.own p f - 1))

end Sys

/-! ## 命令 -/

structure Ip where
  inum : Nat
  type : Nat
  major : Nat
  deriving DecidableEq

/-- `last` は `fileclose` の `ftable.lock` の区間、`write` は種類などの欄の書き込み、`shut` は `pipeclose` の `pi->lock` の区間、`fs` は表に関わらない操作
である。 -/
inductive Op
  | filealloc
  | filedup (f : FileId)
  | last (f : FileId)
  | write (f : FileId) (g : File → File)
  | ofile (fd : Fd)
  | setOfile (fd : Fd) (o : Option FileId)
  | kalloc
  | initPipe (pi : Nat)
  | shut (pi : Nat) (writable : Bool)
  | kfree (pi : Nat)
  | copyout
  | lookup (m : OMode)
  | fs
  | allocproc
  | uvmcopy
  | freeproc (np : ProcId)
  | dupOfile (np : ProcId) (fd : Fd) (f : FileId)
  | runnable (np : ProcId)
  | zombie
  | reap
  | panic (msg : String)

def Op.Resp : Op → Type
  | .filealloc => Option FileId
  | .last _ => Option File
  | .ofile _ => Option FileId
  | .kalloc => Option Nat
  | .shut _ _ => Bool
  | .copyout => Bool
  | .lookup _ => Option Ip
  | .allocproc => Option ProcId
  | .uvmcopy => Bool
  | .panic _ => Empty
  | _ => Unit

abbrev Prog := Free Op Op.Resp

def filealloc : Prog (Option FileId) := Free.send Op.filealloc

def filedup (f : FileId) : Prog Unit := Free.send (Op.filedup f)

def last (f : FileId) : Prog (Option File) := Free.send (Op.last f)

def write (f : FileId) (g : File → File) : Prog Unit := Free.send (Op.write f g)

def ofile (fd : Fd) : Prog (Option FileId) := Free.send (Op.ofile fd)

def setOfile (fd : Fd) (o : Option FileId) : Prog Unit := Free.send (Op.setOfile fd o)

def kalloc : Prog (Option Nat) := Free.send Op.kalloc

def initPipe (pi : Nat) : Prog Unit := Free.send (Op.initPipe pi)

def shut (pi : Nat) (writable : Bool) : Prog Bool := Free.send (Op.shut pi writable)

def kfree (pi : Nat) : Prog Unit := Free.send (Op.kfree pi)

def copyout : Prog Bool := Free.send Op.copyout

def lookup (m : OMode) : Prog (Option Ip) := Free.send (Op.lookup m)

def fs : Prog Unit := Free.send Op.fs

def allocproc : Prog (Option ProcId) := Free.send Op.allocproc

def uvmcopy : Prog Bool := Free.send Op.uvmcopy

def freeproc (np : ProcId) : Prog Unit := Free.send (Op.freeproc np)

def dupOfile (np : ProcId) (fd : Fd) (f : FileId) : Prog Unit := Free.send (Op.dupOfile np fd f)

def runnable (np : ProcId) : Prog Unit := Free.send (Op.runnable np)

def zombie : Prog Unit := Free.send Op.zombie

def panic (msg : String) : Prog Unit := Free.op (Op.panic msg) fun e : Empty => e.elim

/-! ## `file.c` と `pipe.c` -/

def pipeclose (pi : Nat) (writable : Bool) : Prog Unit := do
  if ← shut pi writable then kfree pi
  else return ()

def closeLast (ff : File) : Prog Unit :=
  match ff.type with
  | .pipe => pipeclose ff.pipe ff.writable
  | .inode => fs
  | .device => fs
  | .none => return ()

def fileclose (f : FileId) : Prog Unit := do
  match ← last f with
  | none => return ()
  | some ff => closeLast ff

def pipeBad (pi : Option Nat) (f0 f1 : Option FileId) : Prog (Option (FileId × FileId)) := do
  (match pi with
    | some pi => kfree pi
    | none => return ())
  (match f0 with
    | some f => fileclose f
    | none => return ())
  (match f1 with
    | some f => fileclose f
    | none => return ())
  return none

def pipeEnd (pi : Nat) (writable : Bool) (x : File) : File :=
  { x with type := .pipe, readable := !writable, writable := writable, pipe := pi }

def pipeEnds (f0 f1 : FileId) (pi : Nat) : Prog (Option (FileId × FileId)) := do
  initPipe pi
  write f0 (pipeEnd pi false)
  write f1 (pipeEnd pi true)
  return some (f0, f1)

def pipealloc : Prog (Option (FileId × FileId)) := do
  match ← filealloc with
  | none => pipeBad none none none
  | some f0 =>
    match ← filealloc with
    | none => pipeBad none (some f0) none
    | some f1 =>
      match ← kalloc with
      | none => pipeBad none (some f0) (some f1)
      | some pi => pipeEnds f0 f1 pi

/-! ## `sysfile.c` -/

/-- `argfd`。範囲の外の記述子は `none` である。 -/
def argfd : Option Fd → Prog (Option (Fd × FileId))
  | none => return none
  | some fd => do
    match ← ofile fd with
    | none => return none
    | some f => return some (fd, f)

def fdallocLoop (f : FileId) : List Fd → Prog (Option Fd)
  | [] => return none
  | fd :: fds => do
    match ← ofile fd with
    | none =>
      setOfile fd (some f)
      return some fd
    | some _ => fdallocLoop f fds

def fdalloc (f : FileId) : Prog (Option Fd) := fdallocLoop f (List.finRange nofile)

def sysDup (fd : Option Fd) : Prog Unit := do
  match ← argfd fd with
  | none => return ()
  | some (_, f) =>
    match ← fdalloc f with
    | none => return ()
    | some _ => filedup f

def sysClose (fd : Option Fd) : Prog Unit := do
  match ← argfd fd with
  | none => return ()
  | some (fd, f) =>
    setOfile fd none
    fileclose f

def openFile (ip : Ip) (m : OMode) (x : File) : File :=
  { x with
    type := if ip.type = tDevice then .device else .inode
    major := if ip.type = tDevice then ip.major else x.major
    off := if ip.type = tDevice then x.off else 0
    ip := ip.inum
    readable := !m.wronly
    writable := m.wronly || m.rdwr }

def openAlloc (ip : Ip) (m : OMode) : Prog Unit := do
  match ← filealloc with
  | none => fs
  | some f =>
    match ← fdalloc f with
    | none =>
      fileclose f
      fs
    | some _ =>
      write f (openFile ip m)
      fs

def sysOpen (m : OMode) : Prog Unit := do
  match ← lookup m with
  | none => return ()
  | some ip =>
    if m.create = false ∧ ip.type = tDir ∧ m.rdonly = false then fs
    else if ip.type = tDevice ∧ ndev ≤ ip.major then fs
    else openAlloc ip m

def copyoutFds : Prog Bool := do
  if ← copyout then copyout else return false

def pipeFail (rf wf : FileId) : Prog Unit := do
  fileclose rf
  fileclose wf

def sysPipe : Prog Unit := do
  match ← pipealloc with
  | none => return ()
  | some (rf, wf) =>
    match ← fdalloc rf with
    | none => pipeFail rf wf
    | some fd0 =>
      match ← fdalloc wf with
      | none =>
        setOfile fd0 none
        pipeFail rf wf
      | some fd1 =>
        if ← copyoutFds then return ()
        else
          setOfile fd0 none
          setOfile fd1 none
          pipeFail rf wf

/-! ## `proc.c` -/

def forkFiles (np : ProcId) : List Fd → Prog Unit
  | [] => return ()
  | fd :: fds => do
    match ← ofile fd with
    | none => forkFiles np fds
    | some f =>
      filedup f
      dupOfile np fd f
      forkFiles np fds

def fork : Prog Unit := do
  match ← allocproc with
  | none => return ()
  | some np =>
    if ← uvmcopy then
      forkFiles np (List.finRange nofile)
      fs
      runnable np
    else freeproc np

def exitFiles : List Fd → Prog Unit
  | [] => return ()
  | fd :: fds => do
    match ← ofile fd with
    | none => exitFiles fds
    | some f =>
      fileclose f
      setOfile fd none
      exitFiles fds

def initproc : ProcId := ⟨0, by decide⟩

def exit (p : ProcId) : Prog Unit := do
  if p = initproc then panic "init exiting"
  else
    exitFiles (List.finRange nofile)
    fs
    zombie

def wait : Prog Unit := Free.send Op.reap

/-! ## 系 -/

inductive Call
  | open (m : OMode)
  | pipe
  | dup (fd : Option Fd)
  | close (fd : Option Fd)
  | fork
  | exit
  | wait

def Call.prog (p : ProcId) : Call → Prog Unit
  | .open m => sysOpen m
  | .pipe => sysPipe
  | .dup fd => sysDup fd
  | .close fd => sysClose fd
  | .fork => Ftable.fork
  | .exit => Ftable.exit p
  | .wait => Ftable.wait

/-- 外から決まるもの。割り当てや `copyout` の成否、見つかった inode、選ばれたプロセスである。 -/
structure Choice where
  ok : Bool
  ip : Option Ip
  proc : Option ProcId

def Sys.firstFree (s : Sys) : Option FileId := (List.finRange nfile).find? fun f => (s.file f).ref = 0

def Pipe.close (x : Pipe) (writable : Bool) : Pipe × Bool :=
  let x := if writable then { x with writeopen := false } else { x with readopen := false }
  (x, !x.readopen && !x.writeopen)

namespace Sys

/-- 最後の参照を放した項目。パイプの端なら、閉じる権利はプロセスに移る。 -/
def release (s : Sys) (p : ProcId) (f : FileId) : Sys :=
  let s' := ((s.lose p f).setBlank f none).setFile f { s.file f with ref := 0, type := .none }
  if (s.file f).type = .pipe then s'.setHolder (.side (s.file f).pipe (s.file f).writable) (some (.thread p)) else s'

/-- 種類などの欄を書く。パイプの端なら、閉じる権利は項目に移る。 -/
def write (s : Sys) (f : FileId) (x : File) : Sys :=
  let s' := (s.setBlank f none).setFile f { x with ref := (s.file f).ref }
  if x.type = .pipe then s'.setHolder (.side x.pipe x.writable) (some (.file f)) else s'

def initPipe (s : Sys) (p : ProcId) (pi : Nat) : Sys :=
  (((s.setPipe pi { s.pipe pi with readopen := true, writeopen := true }).setHolder (.raw pi) none).setHolder
    (.side pi false) (some (.thread p))).setHolder (.side pi true) (some (.thread p))

def shut (s : Sys) (p : ProcId) (pi : Nat) (writable : Bool) : Sys :=
  let s' := (s.setPipe pi ((s.pipe pi).close writable).1).setHolder (.side pi writable) none
  if ((s.pipe pi).close writable).2 then s'.setHolder (.raw pi) (some (.thread p)) else s'

def kfree (s : Sys) (pi : Nat) : Sys :=
  (s.setPipe pi { s.pipe pi with frees := (s.pipe pi).frees + 1 }).setHolder (.raw pi) none

/-- 子を実行できるようにする。子の `ofile` の参照は、子のものになる。 -/
def runnable (s : Sys) (p np : ProcId) : Sys :=
  (((s.setState np .live).setKid p none).setOwn p fun f => s.own p f - occ (s.proc np).ofile (some f)).setOwn np
    fun f => occ (s.proc np).ofile (some f)

end Sys

def exec (s : Sys) (p : ProcId) (ch : Choice) : (i : Op) → Option (Except String (i.Resp × Sys))
  | .filealloc =>
    match s.firstFree with
    | none => some (.ok (none, s))
    | some f => some (.ok (some f, ((s.gain p f).setBlank f (some p)).setFile f { s.file f with ref := 1 }))
  | .filedup f =>
    if (s.file f).ref < 1 then some (.error "filedup")
    else some (.ok ((), (s.gain p f).setFile f { s.file f with ref := (s.file f).ref + 1 }))
  | .last f =>
    if (s.file f).ref < 1 then some (.error "fileclose")
    else if (s.file f).ref - 1 > 0 then
      some (.ok (none, (s.lose p f).setFile f { s.file f with ref := (s.file f).ref - 1 }))
    else some (.ok (some (s.file f), s.release p f))
  | .write f g => some (.ok ((), s.write f (g (s.file f))))
  | .ofile fd => some (.ok ((s.proc p).ofile fd, s))
  | .setOfile fd o => some (.ok ((), s.setOfile p fd o))
  | .kalloc =>
    if ch.ok then some (.ok (some s.pipes, { s with pipes := s.pipes + 1 }.setHolder (.raw s.pipes) (some (.thread p))))
    else some (.ok (none, s))
  | .initPipe pi => some (.ok ((), s.initPipe p pi))
  | .shut pi w => some (.ok (((s.pipe pi).close w).2, s.shut p pi w))
  | .kfree pi => some (.ok ((), s.kfree pi))
  | .copyout => some (.ok (ch.ok, s))
  | .lookup _ => some (.ok (ch.ip, s))
  | .fs => some (.ok ((), s))
  | .allocproc =>
    match ch.proc with
    | none => some (.ok (none, s))
    | some np =>
      if (s.proc np).state = .unused then some (.ok (some np, (s.setState np .used).setKid p (some np))) else none
  | .uvmcopy => some (.ok (ch.ok, s))
  | .freeproc np => some (.ok ((), (s.setState np .unused).setKid p none))
  | .dupOfile np fd f => some (.ok ((), s.setOfile np fd (some f)))
  | .runnable np => some (.ok ((), s.runnable p np))
  | .zombie => some (.ok ((), s.setState p .zombie))
  | .reap =>
    match ch.proc with
    | none => some (.ok ((), s))
    | some np => if (s.proc np).state = .zombie then some (.ok ((), s.setState np .unused)) else none
  | .panic msg => some (.error msg)

def sem : Pool.Sem Sys ProcId Call Choice Op Op.Resp where
  call s p c := if (s.proc p).state = .live then some (c.prog p) else none
  exec := exec

def boot : Pool Sys ProcId Op Op.Resp where
  shared :=
    { file := fun _ => ⟨.none, 0, false, false, 0, 0, 0, 0⟩
      proc := fun p => ⟨if p = initproc then .live else .unused, fun _ => none⟩
      pipe := fun _ => ⟨false, false, 0⟩
      pipes := 0
      own := fun _ _ => 0
      blank := fun _ => none
      kid := fun _ => none
      holder := fun _ => none }
  code := fun _ => .ret ()

end Xv6.Ftable
