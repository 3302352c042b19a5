import Mathlib.Tactic.Common

/-!
# シェルの構文解析

`user/sh.c` の `gettoken` から `parseexec`、`nulterminate` までを定める。`char *` は、そこから終わりまでの文字の列で表す。
再帰とループは燃料を持ち、尽きれば `none` である。`malloc` は失敗しないとする。
-/

namespace Xv6.Sh

def maxargs : Nat := 10

def whitespace : List Char := [' ', '\t', '\r', '\n', '\x0b']

def symbols : List Char := ['<', '|', '>', '&', ';', '(', ')']

abbrev Ptr := List Char

/-- `bounds` は、`argv` と `eargv` の範囲の外を使うことである。 -/
inductive Err
  | panic (msg : String)
  | bounds
  deriving DecidableEq, Repr

abbrev P := ExceptT Err Option

def timeout {α : Type} : P α := ExceptT.mk none

def panic {α : Type} (msg : String) : P α := throw (.panic msg)

def deref (s : Ptr) : Char := s.headD '\x00'

def skip (s : Ptr) : Ptr := s.dropWhile fun c => whitespace.contains c

/-- `gettoken` の返す値、`*q`、`*eq`、`*ps`。 -/
structure Got where
  ret : Char
  q : Ptr
  eq : Ptr
  s : Ptr

def gettoken (ps : Ptr) : Got :=
  let s := skip ps
  match s with
  | [] => ⟨'\x00', s, s, skip s⟩
  | c :: r =>
    if c = '\x00' then ⟨'\x00', s, s, skip s⟩
    else if c = '|' ∨ c = '(' ∨ c = ')' ∨ c = ';' ∨ c = '&' ∨ c = '<' then ⟨c, s, r, skip r⟩
    else if c = '>' then
      if deref r = '>' then ⟨'+', s, r.tail, skip r.tail⟩ else ⟨'>', s, r, skip r⟩
    else
      let e := s.dropWhile fun c => !whitespace.contains c && !symbols.contains c
      ⟨'a', s, e, skip e⟩

def peek (ps : Ptr) (toks : List Char) : Bool × Ptr :=
  let s := skip ps
  (deref s != '\x00' && toks.contains (deref s), s)

/-! ## 構文木 -/

structure Word where
  q : Ptr
  eq : Ptr

structure Redir (W : Type) where
  file : W
  mode : Nat
  fd : Nat

inductive Cmd (W : Type)
  | exec (argv : List W)
  | redir (cmd : Cmd W) (r : Redir W)
  | pipe (left right : Cmd W)
  | list (left right : Cmd W)
  | back (cmd : Cmd W)

def O_RDONLY : Nat := 0x000

def O_WRONLY : Nat := 0x001

def O_CREATE : Nat := 0x200

def O_TRUNC : Nat := 0x400

/-! ## 構文解析 -/

def redirect {α : Type} (mk : α → Redir Word → α) (cmd : α) (tok : Char) (w : Word) : α :=
  if tok = '<' then mk cmd ⟨w, O_RDONLY, 0⟩
  else if tok = '>' then mk cmd ⟨w, O_WRONLY ||| O_CREATE ||| O_TRUNC, 1⟩
  else if tok = '+' then mk cmd ⟨w, O_WRONLY ||| O_CREATE, 1⟩
  else cmd

/-- `parseredirs`。`mk` は `redircmd` であり、`parseexec` では、後で引数の決まる木に使う。 -/
def parseredirs {α : Type} (mk : α → Redir Word → α) (cmd : α) (s : Ptr) : Nat → P (α × Ptr)
  | 0 => timeout
  | k + 1 =>
    let (b, s) := peek s ['<', '>']
    if b then
      let t := gettoken s
      let f := gettoken t.s
      if f.ret ≠ 'a' then panic "missing file for redirection"
      else parseredirs mk (redirect mk cmd t.ret ⟨f.q, f.eq⟩) f.s k
    else return (cmd, s)

/-- `parseexec` の終わり。`argv[argc]` と `eargv[argc]` に 0 を書く。 -/
def finish (ret : List Word → Cmd Word) (argv : List Word) (s : Ptr) : P (Cmd Word × Ptr) :=
  if argv.length < maxargs then return (ret argv, s) else throw .bounds

def execLoop (ret : List Word → Cmd Word) (argv : List Word) (s : Ptr) : Nat → P (Cmd Word × Ptr)
  | 0 => timeout
  | k + 1 =>
    let (b, s) := peek s ['|', ')', '&', ';']
    if b then finish ret argv s
    else
      let t := gettoken s
      if t.ret = '\x00' then finish ret argv t.s
      else if t.ret ≠ 'a' then panic "syntax"
      else if maxargs ≤ argv.length then throw .bounds
      else
        let argv := argv ++ [⟨t.q, t.eq⟩]
        if maxargs ≤ argv.length then panic "too many args"
        else do
          let (ret, s) ← parseredirs (fun ret r argv => .redir (ret argv) r) ret t.s k
          execLoop ret argv s k

def backLoop (cmd : Cmd Word) (s : Ptr) : Nat → P (Cmd Word × Ptr)
  | 0 => timeout
  | k + 1 =>
    let (b, s) := peek s ['&']
    if b then backLoop (.back cmd) (gettoken s).s k else return (cmd, s)

mutual

def parseline (s : Ptr) : Nat → P (Cmd Word × Ptr)
  | 0 => timeout
  | k + 1 => do
    let (cmd, s) ← parsepipe s k
    let (cmd, s) ← backLoop cmd s k
    let (b, s) := peek s [';']
    if b then
      let (right, s) ← parseline (gettoken s).s k
      return (.list cmd right, s)
    else return (cmd, s)

def parsepipe (s : Ptr) : Nat → P (Cmd Word × Ptr)
  | 0 => timeout
  | k + 1 => do
    let (cmd, s) ← parseexec s k
    let (b, s) := peek s ['|']
    if b then
      let (right, s) ← parsepipe (gettoken s).s k
      return (.pipe cmd right, s)
    else return (cmd, s)

def parseblock (s : Ptr) : Nat → P (Cmd Word × Ptr)
  | 0 => timeout
  | k + 1 => do
    let (b, s) := peek s ['(']
    if !b then panic "parseblock"
    else
      let (cmd, s) ← parseline (gettoken s).s k
      let (b, s) := peek s [')']
      if !b then panic "syntax - missing )"
      else parseredirs .redir cmd (gettoken s).s k

def parseexec (s : Ptr) : Nat → P (Cmd Word × Ptr)
  | 0 => timeout
  | k + 1 => do
    let (b, s) := peek s ['(']
    if b then parseblock s k
    else
      let (ret, s) ← parseredirs (fun ret r argv => .redir (ret argv) r) .exec s k
      execLoop ret [] s k

end

/-- `nulterminate` が NUL を書く位置。 -/
def nulterminate : Cmd Word → List Ptr
  | .exec argv => argv.map Word.eq
  | .redir cmd r => nulterminate cmd ++ [r.file.eq]
  | .pipe left right => nulterminate left ++ nulterminate right
  | .list left right => nulterminate left ++ nulterminate right
  | .back cmd => nulterminate cmd

/-- `nul` の位置に NUL を書いた後の、`s` から始まる文字列。 -/
def cstr (nul : List Ptr) : Ptr → List Char
  | [] => []
  | c :: r => if (c :: r) ∈ nul then [] else c :: cstr nul r

/-- `parsecmd`。木と、NUL を書いた位置を返す。 -/
def parsecmd (s : Ptr) (k : Nat) : P (Cmd Word × List Ptr) := do
  let (cmd, s) ← parseline s k
  let (_, s) := peek s []
  if s ≠ [] then panic "syntax" else return (cmd, nulterminate cmd)

end Xv6.Sh
