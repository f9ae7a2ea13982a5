import Xv6.Fs.Syscall

/-!
# The parser of the shell

`gettoken`, `peek` and the functions from `parsecmd` to `nulterminate` of `user/sh.c`. A
pointer into the line is what the line holds from there on, without its NUL: `[]` is `es`,
where the byte is 0. The recursion of `parseline` and the loops count down a number; the
result `fuel` says that it was too small, and `parsecmd` is given one that never is. `malloc`
does not fail.
-/

namespace Xv6.Sh

open Fs (O_RDONLY O_WRONLY O_CREATE O_TRUNC)

def MAXARGS : Nat := 10

/-- `" \t\r\n\v"` -/
def whitespace : List UInt8 := [32, 9, 13, 10, 11]

/-- `"<|>&;()"` -/
def symbols : List UInt8 := [60, 124, 62, 38, 59, 40, 41]

/-- A byte of a word. -/
def plain (c : UInt8) : Bool := !whitespace.contains c && !symbols.contains c

/-- A word in the line: `q` and `eq`. -/
structure Slice where
  q : List UInt8
  eq : List UInt8
  deriving DecidableEq

def Slice.text (w : Slice) : List UInt8 := w.q.take (w.q.length - w.eq.length)

/-- What `gettoken` returns other than 0; `append` is `'+'` and `word` is `'a'`. Its `q` and `eq`
are read only for a word. -/
inductive Token where
  | bar
  | lpar
  | rpar
  | semi
  | amp
  | lt
  | gt
  | append
  | word (w : Slice)
  deriving DecidableEq

/-- The arguments of `redircmd`. -/
structure Redir where
  file : Slice
  mode : UInt32
  fd : Nat
  deriving DecidableEq

/-- `struct cmd` -/
inductive Cmd where
  | exec (argv : List Slice)
  | redir (cmd : Cmd) (args : Redir)
  | pipe (left right : Cmd)
  | list (left right : Cmd)
  | back (cmd : Cmd)
  deriving DecidableEq

inductive Stop where
  | panic (why : String)
  | fuel
  deriving DecidableEq

/-- A function of the parser, which moves `*ps`. -/
abbrev Parser := StateT (List UInt8) (Except Stop)

def panic (α : Type) (why : String) : Parser α := throw (.panic why)

def skip (s : List UInt8) : List UInt8 := s.dropWhile whitespace.contains

/-- The cases of the `switch` for one byte. -/
def symbol (c : UInt8) : Option Token :=
  if c = 124 then some .bar
  else if c = 40 then some .lpar
  else if c = 41 then some .rpar
  else if c = 59 then some .semi
  else if c = 38 then some .amp
  else if c = 60 then some .lt
  else if c = 62 then some .gt
  else none

/-- What `gettoken` returns, and where it ends. -/
def scan (s : List UInt8) : Option Token × List UInt8 :=
  match skip s with
  | [] => (none, [])
  | c :: s =>
    match symbol c with
    | some tok => if tok = .gt ∧ s.head? = some 62 then (some .append, s.tail) else (some tok, s)
    | none =>
      let eq := (c :: s).dropWhile plain
      (some (.word ⟨c :: s, eq⟩), eq)

def gettoken : Parser (Option Token) := fun s => .ok ((scan s).1, skip (scan s).2)

def peek (toks : List UInt8) : Parser Bool := fun s =>
  .ok (match skip s with
    | [] => false
    | c :: _ => toks.contains c,
   skip s)

/-- The `switch` of `parseredirs`. -/
def redircmd (tok : Option Token) (file : Slice) : List Redir :=
  match tok with
  | some .lt => [⟨file, O_RDONLY, 0⟩]
  | some .gt => [⟨file, O_WRONLY ||| O_CREATE ||| O_TRUNC, 1⟩]
  | some .append => [⟨file, O_WRONLY ||| O_CREATE, 1⟩]
  | _ => []

/-- The nodes that `parseredirs` puts around `cmd`, the innermost first. -/
def parseredirs : Nat → Parser (List Redir)
  | 0 => throw .fuel
  | n + 1 => do
    if ← peek [60, 62] then
      let tok ← gettoken
      match ← gettoken with
      | some (.word file) =>
        let redirs ← parseredirs n
        return redircmd tok file ++ redirs
      | _ => panic _ "missing file for redirection"
    else return []

def Cmd.wrap (cmd : Cmd) (redirs : List Redir) : Cmd := redirs.foldl .redir cmd

def parseblock (parseline : Parser Cmd) (n : Nat) : Parser Cmd := do
  if ← peek [40] then
    let _ ← gettoken
    let cmd ← parseline
    if ← peek [41] then
      let _ ← gettoken
      let redirs ← parseredirs n
      return cmd.wrap redirs
    else panic _ "syntax - missing )"
  else panic _ "parseblock"

/-- The loop of `parseexec`. -/
def parseargs : Nat → Nat → Parser (List Slice × List Redir)
  | 0, _ => throw .fuel
  | n + 1, argc => do
    if ← peek [124, 41, 38, 59] then return ([], [])
    else
      match ← gettoken with
      | none => return ([], [])
      | some (.word w) =>
        if argc + 1 ≥ MAXARGS then panic _ "too many args"
        else
          let redirs ← parseredirs n
          let rest ← parseargs n (argc + 1)
          return (w :: rest.1, redirs ++ rest.2)
      | _ => panic _ "syntax"

def parseexec (parseline : Parser Cmd) (n : Nat) : Parser Cmd := do
  if ← peek [40] then parseblock parseline n
  else
    let redirs ← parseredirs n
    let rest ← parseargs n 0
    return (Cmd.exec rest.1).wrap (redirs ++ rest.2)

def parsepipe (parseline : Parser Cmd) : Nat → Parser Cmd
  | 0 => throw .fuel
  | n + 1 => do
    let cmd ← parseexec parseline (n + 1)
    if ← peek [124] then
      let _ ← gettoken
      let right ← parsepipe parseline n
      return .pipe cmd right
    else return cmd

/-- The loop of `parseline`. -/
def parseback : Nat → Cmd → Parser Cmd
  | 0, _ => throw .fuel
  | n + 1, cmd => do
    if ← peek [38] then
      let _ ← gettoken
      parseback n (.back cmd)
    else return cmd

def parseline : Nat → Parser Cmd
  | 0 => throw .fuel
  | n + 1 => do
    let cmd ← parsepipe (parseline n) (n + 1)
    let cmd ← parseback (n + 1) cmd
    if ← peek [59] then
      let _ ← gettoken
      let right ← parseline n
      return .list cmd right
    else return cmd

/-- `*p = 0` in a buffer whose string has the given length. -/
def clear (len : Nat) (mem p : List UInt8) : List UInt8 := mem.set (len - p.length) 0

def nulterminate (len : Nat) : Cmd → List UInt8 → List UInt8
  | .exec argv, mem => argv.foldl (fun mem w => clear len mem w.eq) mem
  | .redir cmd args, mem => clear len (nulterminate len cmd mem) args.file.eq
  | .pipe left right, mem => nulterminate len right (nulterminate len left mem)
  | .list left right, mem => nulterminate len right (nulterminate len left mem)
  | .back cmd, mem => nulterminate len cmd mem

/-- The tree, and the buffer that it points into. -/
def parsecmd (input : List UInt8) : Except Stop (Cmd × List UInt8) := do
  let (cmd, s) ← parseline (input.length + 1) input
  let (_, s) ← peek [] s
  if s ≠ [] then throw (.panic "syntax")
  else return (cmd, nulterminate input.length cmd (input ++ [0]))

end Xv6.Sh
