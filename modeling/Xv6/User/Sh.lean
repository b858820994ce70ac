import Xv6.Lib.Prog

/-!
# The shell's parser (user/sh.c)

The line is the list of its characters up to the terminating NUL, and a pointer into it is a
position; the cursor `*ps` is the state of the parsing functions. Loops and recursion take fuel,
and to run out of it is an outcome of its own, which is proved not to occur. While a line is being
parsed, the strings of a command are pairs of pointers into the line; `nulterminate` then writes
a NUL at the end of each, after which the first pointer alone is a C string.

Memory for the nodes is always found.
-/

namespace Xv6.Sh

open Prog

def MAXARGS : Nat := 10

def O_RDONLY : Nat := 0x000
def O_WRONLY : Nat := 0x001
def O_CREATE : Nat := 0x200
def O_TRUNC : Nat := 0x400

inductive Halt where
  | fuel
  | panic (msg : String)
  deriving DecidableEq

/-- `struct cmd`, over the type of its strings. -/
inductive Cmd (α : Type) where
  | exec (argv : List α)
  | redir (cmd : Cmd α) (file : α) (mode fd : Nat)
  | pipe (left right : Cmd α)
  | list (left right : Cmd α)
  | back (cmd : Cmd α)
  deriving DecidableEq

/-- The pointers `q` and `eq` to the beginning and the end of a word. -/
abbrev Span := Nat × Nat

/-- `cmd->argv[argc] = q`, where `cmd` is the EXEC node below the redirections of a command. -/
def Cmd.addArg {α : Type} (x : α) : Cmd α → Cmd α
  | exec argv => exec (argv ++ [x])
  | redir c file mode fd => redir (c.addArg x) file mode fd
  | c => c

def Cmd.map {α β : Type} (f : α → β) : Cmd α → Cmd β
  | exec argv => exec (argv.map f)
  | redir c file mode fd => redir (c.map f) (f file) mode fd
  | pipe l r => pipe (l.map f) (r.map f)
  | list l r => list (l.map f) (r.map f)
  | back c => back (c.map f)

def nul : Char := Char.ofNat 0

def whitespace : List Char := [' ', '\t', '\r', '\n', Char.ofNat 11]

def symbols : List Char := ['<', '|', '>', '&', ';', '(', ')']

/-- Whether `strchr` finds the character; it stops at the NUL of the string and never finds one. -/
def strchr (s : List Char) (c : Char) : Bool := s.contains c

section Parser

variable (line : List Char)

/-- The character at a position; at the end of the line it is the NUL. -/
def chr (i : Nat) : Char := line.getD i nul

/-- `while(s < es && p(*s)) s++`, where `n` is `es - s`. -/
def skip (p : Char → Bool) : Nat → Nat → Nat
  | 0, s => s
  | n + 1, s => if p (chr line s) then skip p n (s + 1) else s

def skipWhite (s : Nat) : Nat := skip line (strchr whitespace) (line.length - s) s

def isWord (c : Char) : Bool := !strchr whitespace c && !strchr symbols c

/-- The token that begins at `q`: the value returned and the position after it. -/
def token (q : Nat) : Char × Nat :=
  let c := chr line q
  if c = nul then (c, q)
  else if c ∈ ['|', '(', ')', ';', '&', '<'] then (c, q + 1)
  else if c = '>' then
    if chr line (q + 1) = '>' then ('+', q + 2) else (c, q + 1)
  else ('a', skip line isWord (line.length - q) q)

structure Tok where
  ret : Char
  q : Nat
  eq : Nat

def gettoken : Act Nat Halt Tok := fun s =>
  let q := skipWhite line s
  let (ret, eq) := token line q
  .ok (⟨ret, q, eq⟩, skipWhite line eq)

def peek (toks : List Char) : Act Nat Halt Bool := fun s =>
  let s := skipWhite line s
  .ok (chr line s != nul && strchr toks (chr line s), s)

/-- The switch of `parseredirs`. -/
def redircmd (tok : Char) (cmd : Cmd Span) (file : Span) : Cmd Span :=
  if tok = '<' then .redir cmd file O_RDONLY 0
  else if tok = '>' then .redir cmd file (O_WRONLY ||| O_CREATE ||| O_TRUNC) 1
  else if tok = '+' then .redir cmd file (O_WRONLY ||| O_CREATE) 1
  else cmd

def parseredirs : Nat → Cmd Span → Act Nat Halt (Cmd Span)
  | 0, _ => throw .fuel
  | fuel + 1, cmd => do
    if ← peek line ['<', '>'] then
      let tok ← gettoken line
      let file ← gettoken line
      if file.ret ≠ 'a' then throw (.panic "missing file for redirection")
      else parseredirs fuel (redircmd tok.ret cmd (file.q, file.eq))
    else return cmd

def parseargs : Nat → Nat → Cmd Span → Act Nat Halt (Cmd Span)
  | 0, _, _ => throw .fuel
  | fuel + 1, argc, ret => do
    if ← peek line ['|', ')', '&', ';'] then return ret
    else
      let tok ← gettoken line
      if tok.ret = nul then return ret
      else if tok.ret ≠ 'a' then throw (.panic "syntax")
      else if argc + 1 ≥ MAXARGS then throw (.panic "too many args")
      else
        let ret ← parseredirs line fuel (ret.addArg (tok.q, tok.eq))
        parseargs fuel (argc + 1) ret

def parsebacks : Nat → Cmd Span → Act Nat Halt (Cmd Span)
  | 0, _ => throw .fuel
  | fuel + 1, cmd => do
    if ← peek line ['&'] then
      let _ ← gettoken line
      parsebacks fuel (.back cmd)
    else return cmd

mutual

def parseline : Nat → Act Nat Halt (Cmd Span)
  | 0 => throw .fuel
  | fuel + 1 => do
    let cmd ← parsepipe fuel
    let cmd ← parsebacks line fuel cmd
    if ← peek line [';'] then
      let _ ← gettoken line
      let right ← parseline fuel
      return .list cmd right
    else return cmd

def parsepipe : Nat → Act Nat Halt (Cmd Span)
  | 0 => throw .fuel
  | fuel + 1 => do
    let cmd ← parseexec fuel
    if ← peek line ['|'] then
      let _ ← gettoken line
      let right ← parsepipe fuel
      return .pipe cmd right
    else return cmd

def parseexec : Nat → Act Nat Halt (Cmd Span)
  | 0 => throw .fuel
  | fuel + 1 => do
    if ← peek line ['('] then parseblock fuel
    else
      let ret ← parseredirs line fuel (.exec [])
      parseargs line fuel 0 ret

def parseblock : Nat → Act Nat Halt (Cmd Span)
  | 0 => throw .fuel
  | fuel + 1 => do
    if ← peek line ['('] then
      let _ ← gettoken line
      let cmd ← parseline fuel
      if ← peek line [')'] then
        let _ ← gettoken line
        parseredirs line fuel cmd
      else throw (.panic "syntax - missing )")
    else throw (.panic "parseblock")

end

/-- `parsecmd` up to the call of `nulterminate`. -/
def parse (fuel : Nat) : Act Nat Halt (Cmd Span) := do
  let cmd ← parseline line fuel
  let _ ← peek line []
  let s ← get
  if s ≠ line.length then throw (.panic "syntax") else return cmd

end Parser

def nulterminate : Cmd Span → List Char → List Char
  | .exec argv, buf => argv.foldl (fun buf x => buf.set x.2 nul) buf
  | .redir cmd file _ _, buf => (nulterminate cmd buf).set file.2 nul
  | .pipe left right, buf => nulterminate right (nulterminate left buf)
  | .list left right, buf => nulterminate right (nulterminate left buf)
  | .back cmd, buf => nulterminate cmd buf

def cstring (buf : List Char) (p : Nat) : List Char := (buf.drop p).takeWhile (· ≠ nul)

/-- The command that `parsecmd` returns, with the strings its pointers then stand for. -/
def parsecmd (fuel : Nat) (line : List Char) : Except Halt (Cmd (List Char)) := do
  let (cmd, _) ← (parse line fuel).run 0
  let buf := nulterminate cmd (line ++ [nul])
  return cmd.map fun x => cstring buf x.1

end Xv6.Sh
