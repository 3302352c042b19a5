import Xv6.Sh.Parse

/-!
# シェルの文法

入力を語と記号の列に分け、その列の上に文法と構文木を定める。
-/

namespace Xv6.Sh

/-- 語と記号。`app` は `>>` である。 -/
inductive Token
  | word (w : List Char)
  | sym (c : Char)
  | app
  deriving DecidableEq, Repr

def wordChar (c : Char) : Bool := !whitespace.contains c && !symbols.contains c

def flush (w : List Char) : List Token := if w = [] then [] else [.word w]

/-- 語の途中 `w` からの字句の列。語は、語に使える文字の続く限り伸びる。 -/
def lex (w : List Char) : List Char → List Token
  | [] => flush w
  | '>' :: '>' :: s => flush w ++ .app :: lex [] s
  | c :: s =>
    if wordChar c then lex (w ++ [c]) s
    else if whitespace.contains c then flush w ++ lex [] s
    else flush w ++ .sym c :: lex [] s

def tokens (s : List Char) : List Token := lex [] s

/-! ## 文法 -/

abbrev Ast := Cmd (List Char)

def Token.redir (file : List Char) : Token → Option (Redir (List Char))
  | .sym '<' => some ⟨file, O_RDONLY, 0⟩
  | .sym '>' => some ⟨file, O_WRONLY ||| O_CREATE ||| O_TRUNC, 1⟩
  | .app => some ⟨file, O_WRONLY ||| O_CREATE, 1⟩
  | _ => none

inductive Redirs : List Token → List (Redir (List Char)) → Prop
  | nil : Redirs [] []
  | cons {t : Token} {w : List Char} {r : Redir (List Char)} {ts : List Token} {rs : List (Redir (List Char))}
      (redir : t.redir w = some r) (rest : Redirs ts rs) : Redirs (t :: .word w :: ts) (r :: rs)

inductive Args : List Token → List (List Char) → List (Redir (List Char)) → Prop
  | nil : Args [] [] []
  | cons {w : List Char} {ts us : List Token} {ws : List (List Char)} {rs rs' : List (Redir (List Char))}
      (redirs : Redirs ts rs) (rest : Args us ws rs') : Args (.word w :: ts ++ us) (w :: ws) (rs ++ rs')

def Cmd.wrap {W : Type} (c : Cmd W) (rs : List (Redir W)) : Cmd W := rs.foldl .redir c

def Cmd.backs {W : Type} (c : Cmd W) : Nat → Cmd W
  | 0 => c
  | n + 1 => backs (.back c) n

inductive Cat
  | line
  | pipeline
  | command

/-- 字句の列から構文木を導く。 -/
inductive Derives : Cat → List Token → Ast → Prop
  | block {ts us : List Token} {a : Ast} {rs : List (Redir (List Char))} (line : Derives .line ts a)
      (redirs : Redirs us rs) :
      Derives .command (.sym '(' :: ts ++ .sym ')' :: us) (a.wrap rs)
  | exec {ts us : List Token} {ws : List (List Char)} {rs rs' : List (Redir (List Char))} (redirs : Redirs ts rs)
      (args : Args us ws rs') (few : ws.length ≤ maxargs - 1) : Derives .command (ts ++ us) ((Cmd.exec ws).wrap (rs ++ rs'))
  | single {ts : List Token} {a : Ast} (command : Derives .command ts a) : Derives .pipeline ts a
  | pipe {ts us : List Token} {a b : Ast} (command : Derives .command ts a) (rest : Derives .pipeline us b) :
      Derives .pipeline (ts ++ .sym '|' :: us) (.pipe a b)
  | last {ts : List Token} {a : Ast} (n : Nat) (pipeline : Derives .pipeline ts a) :
      Derives .line (ts ++ List.replicate n (.sym '&')) (a.backs n)
  | list {ts us : List Token} {a b : Ast} (n : Nat) (pipeline : Derives .pipeline ts a) (rest : Derives .line us b) :
      Derives .line (ts ++ List.replicate n (.sym '&') ++ .sym ';' :: us) (.list (a.backs n) b)

end Xv6.Sh
