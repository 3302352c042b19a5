import Xv6.Fs.Sysfile

/-!
# トランザクションとバッファの規律

どのシステムコールも、どの経路でも、始めたトランザクションを終え、読んだバッファを放す。命令の応答は何でもよいので、ディスクの中身や、
ほかのプロセスとの順序によらない。
-/

namespace Xv6.Fs

open Xv6.Lib

/-- 一つの呼び出しが持つもの。`depth` は終えていない `begin_op` の数、`held` はロックしたバッファである。 -/
structure Hold where
  depth : Nat
  held : List Nat

/-- 命令を出してよい条件。`strict` なら、`log_write` はトランザクションの中でだけ呼ぶ。 -/
def FsOp.Allowed (strict : Bool) (i : FsOp) (s : Hold) : Prop :=
  match i with
  | .bread _ => s.held.length < 2
  | .put b _ | .copyin b _ _ _ | .brelse b => b ∈ s.held
  | .logWrite b => b ∈ s.held ∧ (strict → 0 < s.depth)
  | .endOp => 0 < s.depth
  | _ => True

def Hold.after (s : Hold) : FsOp → Hold
  | .bread b => { s with held := b :: s.held }
  | .brelse b => { s with held := s.held.erase b }
  | .beginOp => { s with depth := s.depth + 1 }
  | .endOp => { s with depth := s.depth - 1 }
  | _ => s

/-- `x` は、`d` 個のトランザクションとバッファ `l` を持って始まり、それらだけを手放す。新たに持つバッファは `n` 個までである。`logs` なら、
外側にもトランザクションがあり、`log_write` を呼んでよい。 -/
class Settles {α : Type} (strict logs : Bool) (n d : Nat) (l : List Nat) (x : FsM α) : Prop where
  spec : ∀ k h, (logs → strict → 0 < k) → n + l.length + h.length ≤ 2 →
    Free.spec (Free.guarded (FsOp.Allowed strict) Hold.after) x (fun _ t => t = ⟨k, h⟩) ⟨k + d, l ++ h⟩

/-! ## 命令 -/

section Rules

variable {α β : Type} {strict logs logs' : Bool} {n d b : Nat} {l : List Nat} {x y : FsM α} {f : α → FsM β} {g : Unit → FsM β}

instance {a : α} : Settles strict logs n 0 [] (pure a : FsM α) := ⟨fun _ _ _ _ => rfl⟩

instance {m : String} : Settles strict logs n d l (fail m : FsM α) := ⟨fun _ _ _ _ => ⟨trivial, fun r => r.elim⟩⟩

instance : Settles strict logs n 0 [] getK := ⟨fun _ _ _ _ => ⟨trivial, fun _ => rfl⟩⟩

instance {k : Kernel} : Settles strict logs n 0 [] (setK k) := ⟨fun _ _ _ _ => ⟨trivial, fun _ => rfl⟩⟩

instance {dst o m : Nat} {c : Bytes} : Settles strict logs n 0 [] (copyout dst c o m) :=
  ⟨fun _ _ _ _ => ⟨trivial, fun _ => rfl⟩⟩

instance {c : Prop} [Decidable c] [Settles strict logs n d l x] [Settles strict logs n d l y] :
    Settles strict logs n d l (if c then x else y) := by
  split <;> assumption

theorem Settles.bind (hx : Settles strict logs' n 0 [] x) (hd : logs' → logs ∨ 0 < d)
    (hf : ∀ a, Settles strict logs n d l (f a)) : Settles strict logs n d l (x >>= f) where
  spec k h hk hn := by
    refine Free.spec_bind.mpr (Free.spec_mono (hx.spec (k + d) (l ++ h) ?_ ?_) ?_)
    · intro hl hs
      rcases hd hl with hl | hd
      · have := hk hl hs
        omega
      · omega
    · simpa [← Nat.add_assoc] using hn
    · rintro a t rfl
      exact (hf a).spec k h hk hn

theorem Settles.seq (hx : Settles strict logs n 0 [] x) (hf : ∀ a, Settles strict logs n 0 l (f a)) :
    Settles strict logs n 0 l (x >>= f) := hx.bind .inl hf

/-- トランザクションの中で呼ぶ関数は、`log_write` を呼んでよい。 -/
theorem Settles.inside (hx : Settles strict true n 0 [] x) (hf : ∀ a, Settles strict logs n (d + 1) l (f a)) :
    Settles strict logs n (d + 1) l (x >>= f) := hx.bind (fun _ => .inr (Nat.succ_pos d)) hf

theorem Settles.begin (hg : Settles strict logs n (d + 1) l (g ())) : Settles strict logs n d l (beginOp >>= g) :=
  ⟨fun k h hk hn => ⟨trivial, fun _ => hg.spec k h hk hn⟩⟩

instance [hx : Settles strict logs n 0 [] x] [hf : ∀ a, Settles strict logs n 0 l (f a)] :
    Settles strict logs n 0 l (x >>= f) := hx.seq hf

instance [hx : Settles strict true n 0 [] x] [hf : ∀ a, Settles strict logs n (d + 1) l (f a)] :
    Settles strict logs n (d + 1) l (x >>= f) := hx.inside hf

instance [hg : Settles strict logs n (d + 1) l (g ())] : Settles strict logs n d l (beginOp >>= g) := .begin hg

instance {x : FsM (Option α)} {f : Option α → FsM β} [hx : Settles strict logs n 0 [] x] [hn : Settles strict logs n 0 l (f none)]
    [hs : ∀ a, Settles strict logs n 0 l (f (some a))] : Settles strict logs n 0 l (x >>= f) :=
  hx.seq fun r => by cases r; exacts [hn, hs _]

instance {x : FsM (Option α)} {f : Option α → FsM β} [hx : Settles strict true n 0 [] x]
    [hn : Settles strict logs n (d + 1) l (f none)] [hs : ∀ a, Settles strict logs n (d + 1) l (f (some a))] :
    Settles strict logs n (d + 1) l (x >>= f) :=
  hx.inside fun r => by cases r; exacts [hn, hs _]

/-- `x` が最後のバッファを放す。 -/
instance [hx : Settles strict logs n 0 [b] x] [hf : ∀ a, Settles strict logs (n + 1) 0 [] (f a)] :
    Settles strict logs n 0 [b] (x >>= f) where
  spec k h hk hn := by
    refine Free.spec_bind.mpr (Free.spec_mono (hx.spec k h hk hn) ?_)
    rintro a t rfl
    exact (hf a).spec k h hk (by rw [List.length_singleton] at hn; simpa using hn)

instance [hg : Settles strict logs n d l (g ())] : Settles strict logs n (d + 1) l (endOp >>= g) :=
  ⟨fun k h hk hn => ⟨Nat.succ_pos _, fun _ => hg.spec k h hk hn⟩⟩

instance : Settles strict logs n (0 + 1) [] endOp := ⟨fun _ _ _ _ => ⟨Nat.succ_pos _, fun _ => rfl⟩⟩

instance Settles.bread {f : Block → FsM β} [hf : ∀ c, Settles strict logs n d (b :: l) (f c)] :
    Settles strict logs (n + 1) d l (bread b >>= f) where
  spec k h hk hn := by
    refine ⟨?_, fun c => (hf c).spec k h hk ?_⟩
    · rw [FsOp.Allowed, List.length_append]
      omega
    · rw [List.length_cons]
      omega

instance {c : Block} [hg : Settles strict logs n d (b :: l) (g ())] :
    Settles strict logs n d (b :: l) (put b c >>= g) :=
  ⟨fun k h hk hn => ⟨List.mem_cons_self, fun _ => hg.spec k h hk hn⟩⟩

instance [hg : Settles strict true n d (b :: l) (g ())] : Settles strict true n d (b :: l) (logWrite b >>= g) :=
  ⟨fun k h hk hn => ⟨⟨List.mem_cons_self, fun hs => Nat.add_pos_left (hk rfl hs) d⟩, fun _ => hg.spec k h hk hn⟩⟩

instance {o src m : Nat} {f : Bool → FsM β} [hf : ∀ ok, Settles strict logs n d (b :: l) (f ok)] :
    Settles strict logs n d (b :: l) (copyin b o src m >>= f) :=
  ⟨fun k h hk hn => ⟨List.mem_cons_self, fun ok => (hf ok).spec k h hk hn⟩⟩

theorem erase_head (k : Nat) (h : List Nat) : (⟨k, (b :: l ++ h).erase b⟩ : Hold) = ⟨k, l ++ h⟩ := by
  rw [List.cons_append, List.erase_cons_head]

instance : Settles strict logs n 0 [b] (brelse b) := ⟨fun k h _ _ => ⟨List.mem_cons_self, fun _ => erase_head k h⟩⟩

end Rules

/-- トランザクションの中で呼ぶ関数。 -/
abbrev Inner {α : Type} (x : FsM α) : Prop := ∀ strict, Settles strict true 2 0 [] x

/-- どこで呼んでもよい関数。 -/
abbrev Outer {α : Type} (x : FsM α) : Prop := ∀ strict logs, Settles strict logs 2 0 [] x

/-- 呼ばれたときのトランザクションを終えて戻る関数。 -/
abbrev Closing {α : Type} (x : FsM α) : Prop := ∀ strict logs, Settles strict logs 2 (0 + 1) [] x

/-! ## ブロックと inode -/

section Calls

set_option synthInstance.maxSize 1024

variable {strict logs parent user : Bool} {n b i j k m o p q f fd dp ip bn bno off tot dst addr fuel type major minor : Nat}
variable {sb : Superblock} {path new : List UInt8} {arg arg' : Option (List UInt8)} {name : Name} {src : Src} {mode : OMode}
variable {rs : List (Nat × Nat)}

instance : Settles strict true (n + 1) 0 [] (bzero b) := by unfold bzero; infer_instance

instance : Settles strict true (n + 1) 0 [] (ballocLoop sb b m) := by
  induction m generalizing b with
  | zero => unfold ballocLoop; infer_instance
  | succ m ih =>
    unfold ballocLoop
    split
    · apply +allowSynthFailures Settles.bread
      intro bp
      split <;> infer_instance
    · infer_instance

instance : Settles strict true (n + 1) 0 [] (balloc sb) := by unfold balloc; infer_instance

instance : Settles strict true (n + 1) 0 [] (bfree sb b) := by unfold bfree; infer_instance

instance : Settles strict logs n 0 [] (iget sb i) := by unfold iget; infer_instance

instance : Settles strict logs n 0 [] (idup i) := by unfold idup; infer_instance

instance : Settles strict logs n 0 [] (inode i) := by unfold inode; infer_instance

instance {d : Dinode} : Settles strict logs n 0 [] (setInode i d) := by unfold setInode; infer_instance

instance : Settles strict true (n + 1) 0 [] (iallocLoop sb type i m) := by
  induction m generalizing i <;> unfold iallocLoop <;> infer_instance

instance : Settles strict true (n + 1) 0 [] (ialloc sb type) := by unfold ialloc; infer_instance

instance : Settles strict true (n + 1) 0 [] (iupdate sb i) := by unfold iupdate; infer_instance

instance : Settles strict logs (n + 1) 0 [] (ilock sb i) := by unfold ilock; infer_instance

instance : Settles strict logs n 0 [] (iunlock i) := by unfold iunlock; infer_instance

instance : Settles strict true (n + 1) 0 [] (bmapAddr sb i k) := by unfold bmapAddr; infer_instance

instance : Inner (bmapEntry sb b j) := by unfold bmapEntry; infer_instance

instance : Inner (bmap sb i bn) := by unfold bmap; infer_instance

instance : Settles strict true (n + 1) 0 [] (truncAddr sb i k) := by unfold truncAddr; infer_instance

instance : Settles strict true (n + 1) 0 [] (truncDirect sb i k m) := by
  induction m generalizing k <;> unfold truncDirect <;> infer_instance

instance {a : Block} : Settles strict true (n + 1) 0 [] (truncEntries sb a j m) := by
  induction m generalizing j <;> unfold truncEntries <;> infer_instance

instance : Inner (truncIndirect sb i) := by unfold truncIndirect; infer_instance

instance : Inner (itrunc sb i) := by unfold itrunc; infer_instance

instance : Inner (ifree sb i) := by unfold ifree; infer_instance

instance : Inner (iput sb i) := by unfold iput; infer_instance

instance : Inner (iunlockput sb i) := by unfold iunlockput; infer_instance

instance {acc : Bytes} : Inner (readiLoop sb i user dst off tot m acc fuel) := by
  induction fuel generalizing dst off tot acc <;> unfold readiLoop <;> infer_instance

instance : Inner (readi sb i user dst off m) := by unfold readi; infer_instance

instance {bp : Block} : Settles strict true n 0 [bno] (src.copy bno bp o tot m) := by
  unfold Src.copy
  split <;> infer_instance

instance : Inner (writeiLoop sb i src off tot m fuel) := by
  induction fuel generalizing off tot <;> unfold writeiLoop <;> infer_instance

instance : Inner (writei sb i src off m) := by unfold writei; infer_instance

/-! ## ディレクトリとパス -/

instance {msg : String} : Inner (readDirent sb i off msg) := by unfold readDirent; infer_instance

instance : Inner (dirlookupLoop sb i name off m) := by
  induction m generalizing off <;> unfold dirlookupLoop <;> infer_instance

instance : Inner (dirlookup sb i name) := by unfold dirlookup; infer_instance

instance : Inner (dirFindFree sb i off m) := by
  induction m generalizing off <;> unfold dirFindFree <;> infer_instance

instance : Inner (dirlink sb dp name i) := by unfold dirlink; infer_instance

instance {names : List Name} : Inner (namexLoop sb parent i names) := by
  induction names generalizing i with
  | nil => unfold namexLoop; infer_instance
  | cons name rest ih =>
    unfold namexLoop
    intro _
    refine .seq inferInstance fun _ => .seq inferInstance fun d => ?_
    split
    · infer_instance
    split
    · infer_instance
    refine .seq inferInstance fun r => ?_
    split <;> infer_instance

instance : Settles strict logs n 0 [] (proc p) := by unfold proc; infer_instance

instance {x : FProc} : Settles strict logs n 0 [] (setProc p x) := by unfold setProc; infer_instance

instance : Inner (namex sb p path parent) := by
  unfold namex
  intro _
  split
  · infer_instance
  refine .seq inferInstance fun x => ?_
  split <;> infer_instance

instance : Inner (namei sb p path) := by unfold namei; infer_instance

instance : Inner (nameiparent sb p path) := by unfold nameiparent; infer_instance

/-! ## ファイルとシステムコール -/

instance : Settles strict logs n 0 [] (file f) := by unfold file; infer_instance

instance {x : File} : Settles strict logs n 0 [] (setFile f x) := by unfold setFile; infer_instance

instance : Settles strict logs n 0 [] filealloc := by
  unfold filealloc
  refine .seq inferInstance fun k => ?_
  split <;> infer_instance

instance : Settles strict logs n 0 [] (filedup f) := by unfold filedup; infer_instance

instance : Outer (fileclose sb f) := by unfold fileclose; infer_instance

instance : Inner (fileread sb f addr m) := by
  unfold fileread
  intro _
  refine .seq inferInstance fun x => ?_
  split
  · infer_instance
  split
  · infer_instance
  · refine .seq inferInstance fun _ => .seq inferInstance fun r => ?_
    split
    split <;> infer_instance
  · infer_instance

instance : Outer (filewriteLoop sb f addr i m fuel) := by
  induction fuel generalizing i with
  | zero => unfold filewriteLoop; infer_instance
  | succ fuel ih =>
    unfold filewriteLoop
    intro _ _
    split
    · refine .begin (.inside inferInstance fun x => .inside inferInstance fun _ => .inside inferInstance fun r => ?_)
      split <;> infer_instance
    · infer_instance

instance : Outer (filewrite sb f addr m) := by
  unfold filewrite
  intro _ _
  refine .seq inferInstance fun x => ?_
  split
  · infer_instance
  split <;> infer_instance

instance : Settles strict logs n 0 [] (argfd p fd) := by unfold argfd; infer_instance

instance : Settles strict logs n 0 [] (fdalloc p f) := by
  unfold fdalloc
  refine .seq inferInstance fun x => ?_
  split <;> infer_instance

instance : Settles strict logs n 0 [] (sysDup p fd) := by unfold sysDup; infer_instance

instance : Inner (sysRead sb p fd addr m) := by unfold sysRead; infer_instance

instance : Outer (sysWrite sb p fd addr m) := by unfold sysWrite; infer_instance

instance : Outer (sysClose sb p fd) := by unfold sysClose; infer_instance

instance : Closing (linkBad sb ip) := by unfold linkBad; infer_instance

instance : Closing (linkInto sb p ip new) := by unfold linkInto; infer_instance

instance : Outer (sysLink sb p arg arg') := by
  unfold sysLink
  intro _ _
  split
  · refine .begin (.inside inferInstance fun r => ?_)
    split <;> infer_instance
  · infer_instance

instance : Inner (isdiremptyLoop sb i off m) := by
  induction m generalizing off <;> unfold isdiremptyLoop <;> infer_instance

instance : Inner (isdirempty sb i) := by unfold isdirempty; infer_instance

instance : Closing (unlinkBad sb dp) := by unfold unlinkBad; infer_instance

instance : Closing (unlinkDone sb dp ip type) := by unfold unlinkDone; infer_instance

instance : Closing (unlinkEntry sb dp ip off) := by unfold unlinkEntry; infer_instance

instance : Outer (sysUnlink sb p arg) := by
  unfold sysUnlink
  intro _ _
  split
  · infer_instance
  refine .begin (.inside inferInstance fun r => ?_)
  split
  · infer_instance
  refine .inside inferInstance fun _ => ?_
  split
  · infer_instance
  refine .inside inferInstance fun r => ?_
  split <;> infer_instance

instance : Inner (createFail sb dp ip) := by unfold createFail; infer_instance

instance : Inner (createDots sb dp ip type) := by unfold createDots; infer_instance

instance : Inner (createNode sb dp ip name type major minor) := by unfold createNode; infer_instance

instance : Inner (create sb p path type major minor) := by unfold create; infer_instance

instance : Closing (openInode sb p ip mode) := by unfold openInode; infer_instance

instance : Outer (sysOpen sb p arg mode) := by
  unfold sysOpen
  intro _ _
  split
  · infer_instance
  refine .begin ?_
  split <;> refine .inside inferInstance fun r => ?_ <;> split <;> infer_instance

instance : Outer (makeNode sb p arg type major minor) := by
  unfold makeNode
  intro _ _
  refine .begin ?_
  split
  · infer_instance
  refine .inside inferInstance fun r => ?_
  split <;> infer_instance

instance : Outer (sysMkdir sb p arg) := by unfold sysMkdir; infer_instance

instance : Outer (sysMknod sb p arg major minor) := by unfold sysMknod; infer_instance

instance : Inner (iputCwd sb p) := by
  unfold iputCwd
  intro _
  refine .seq inferInstance fun x => ?_
  split <;> infer_instance

instance : Outer (sysChdir sb p arg) := by
  unfold sysChdir
  intro _ _
  refine .begin ?_
  split
  · infer_instance
  refine .inside inferInstance fun r => ?_
  split <;> infer_instance

instance : Settles strict logs n 0 [] (forkFd p q fd) := by
  unfold forkFd
  refine .seq inferInstance fun x => ?_
  split <;> infer_instance

instance : Settles strict logs n 0 [] (forkFiles p q fd m) := by
  induction m generalizing fd <;> unfold forkFiles <;> infer_instance

instance : Settles strict logs n 0 [] (forkFs p q) := by
  unfold forkFs
  refine .seq inferInstance fun _ => .seq inferInstance fun x => ?_
  split <;> infer_instance

instance : Outer (exitFd sb p fd) := by
  unfold exitFd
  intro _ _
  refine .seq inferInstance fun x => ?_
  split <;> infer_instance

instance : Outer (exitFiles sb p fd m) := by
  induction m generalizing fd <;> unfold exitFiles <;> infer_instance

instance : Outer (exitFs sb p) := by unfold exitFs; infer_instance

instance : Inner (readAll sb ip rs) := by
  induction rs <;> unfold readAll <;> infer_instance

instance : Outer (execFs sb p arg rs) := by
  unfold execFs
  intro _ _
  split
  · infer_instance
  refine .begin (.inside inferInstance fun r => ?_)
  split <;> infer_instance

instance : Settles strict logs (n + 1) 0 [] (filestat sb f addr) := by unfold filestat; infer_instance

instance : Settles strict logs (n + 1) 0 [] (sysFstat sb p fd addr) := by unfold sysFstat; infer_instance

end Calls

/-- `read` だけは、トランザクションの外で `bmap` を呼ぶ。 -/
def Call.strict : Call → Bool
  | .read _ _ _ => false
  | _ => true

/-- どの呼び出しがどのような応答を受けても、どの命令も許された所で出る。持っているバッファだけを書き換え、記録し、放し、一度に持つのは
二つまでである。`read` のほかは、トランザクションの中でだけ記録する。戻るときは、トランザクションもバッファも残さない。 -/
theorem call_disciplined (sb : Superblock) (p : Nat) (c : Call) (is : List FsOp) (q : FsM Unit)
    (h : Free.Runs (c.prog sb p) is q) :
    (∀ pre i post, is = pre ++ i :: post → i.Allowed c.strict (pre.foldl Hold.after ⟨0, []⟩)) ∧
      (q = .ret () → is.foldl Hold.after ⟨0, []⟩ = ⟨0, []⟩) := by
  have hc : Settles c.strict (!c.strict) 2 0 [] (c.prog sb p) := by
    cases c with
    | read fd addr n => exact inferInstanceAs (Settles false true 2 0 [] (do let _ ← sysRead sb p fd addr n))
    | _ => unfold Call.prog; infer_instance
  have hl : (!c.strict) = true → c.strict = true → 0 < 0 := by cases c.strict <;> simp
  obtain ⟨hallowed, hrest⟩ := h.spec (hc.spec 0 [] hl le_rfl)
  refine ⟨hallowed, fun hq => ?_⟩
  subst hq
  exact hrest

def writeKernel : Kernel where
  itab _ := ⟨1, true, ⟨2, 0, 0, 1, 1, fun _ => 50⟩⟩
  files _ := ⟨.inode, 1, true, true, 1, 0, 0⟩
  procs _ := ⟨true, fun _ => some 0, some 1⟩

def writeReply : (i : FsOp) → Option i.Resp
  | .bread _ => some fun _ => 0
  | .copyin _ _ _ _ | .copyout _ _ _ _ => some true
  | .get => some writeKernel
  | .panic _ => none
  | .put _ _ | .logWrite _ | .brelse _ | .beginOp | .endOp | .set _ => some ()

def writeRun : List FsOp × FsM Unit :=
  Free.follow writeReply (Call.prog ⟨64, 32, 2, 5⟩ 0 (.write 0 0 1))

/-- `write` が、ファイルのブロックと inode のブロックを順に読み、書き換え、記録して放す。 -/
theorem call_disciplined_write :
    writeRun.1.foldl Hold.after ⟨0, []⟩ = ⟨0, []⟩ ∧
      [.bread 50, .copyin 50 0 0 1, .logWrite 50, .brelse 50] <:+: writeRun.1 ∧
      ∀ pre b post, writeRun.1 = pre ++ .logWrite b :: post →
        b ∈ (pre.foldl Hold.after ⟨0, []⟩).held ∧ 0 < (pre.foldl Hold.after ⟨0, []⟩).depth := by
  obtain ⟨hallowed, hrest⟩ :=
    call_disciplined ⟨64, 32, 2, 5⟩ 0 (.write 0 0 1) writeRun.1 writeRun.2 (Free.runs_follow _ _)
  refine ⟨hrest rfl, ⟨writeRun.1.take 7, writeRun.1.drop 11, rfl⟩, fun pre b post h => ?_⟩
  obtain ⟨hb, hd⟩ := hallowed pre _ post h
  exact ⟨hb, hd rfl⟩

end Xv6.Fs
