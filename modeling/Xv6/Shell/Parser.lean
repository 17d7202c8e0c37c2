import Mathlib.Data.List.Basic

/-!
# The parser of the shell

`parsecmd` and what it calls, from `user/sh.c`.  The line and its terminating NUL are the list
`buf`, and a `char *` is an index into it: a load or store behind the NUL, and an index of `argv` or
`eargv` that is too large, stop the program, as `panic` does.  A loop has a bound on its rounds and
stops the program with `running` if it would go on.  `malloc` gives `execcmd` a structure of its own.
-/

namespace Xv6.Shell

def MAXARGS : Nat := 10

/-- Why the parser does not return. -/
inductive Stop where
  | panic (msg : String)
  /-- A load or store outside of the line or of an array. -/
  | outOfBounds
  | running
deriving DecidableEq, Repr

abbrev Parse := Except Stop

def panic {α : Type} (msg : String) : Parse α := .error (.panic msg)

/-- `char whitespace[] = " \t\r\n\v"` -/
def whitespace : List UInt8 := [32, 9, 13, 10, 11]

def chars (s : String) : List UInt8 := s.toList.map Char.toUInt8

/-- `char symbols[] = "<|>&;()"` -/
def symbols : List UInt8 := chars "<|>&;()"

/-- `strchr(s, c)` as a condition.  It does not find the terminating NUL. -/
def strchr : List UInt8 → UInt8 → Bool
  | [], _ => false
  | x :: s, c => x = c || strchr s c

def load (buf : List UInt8) (s : Nat) : Parse UInt8 :=
  match buf[s]? with
  | some c => pure c
  | none => .error .outOfBounds

/-- `s + strlen(s)` -/
def strend (buf : List UInt8) : Nat → Nat → Parse Nat
  | 0, _ => .error .running
  | fuel + 1, s => do
    if (← load buf s) = 0 then pure s else strend buf fuel (s + 1)

/-- `while (s < es && cond(*s)) s++;` -/
def skipLoop (cond : UInt8 → Bool) (buf : List UInt8) (es : Nat) : Nat → Nat → Parse Nat
  | 0, _ => .error .running
  | fuel + 1, s => do
    if s < es then
      if cond (← load buf s) then skipLoop cond buf es fuel (s + 1) else pure s
    else pure s

def skip (cond : UInt8 → Bool) (buf : List UInt8) (es s : Nat) : Parse Nat :=
  skipLoop cond buf es buf.length s

/-- What `gettoken` returns, in `ret`, `*q`, `*eq` and `*ps`. -/
structure Token where
  ret : UInt8
  q : Nat
  eq : Nat
  s : Nat

/-- The `switch` of `gettoken`: `ret` and `s`. -/
def tokenEnd (buf : List UInt8) (es s : Nat) : Parse (UInt8 × Nat) := do
  let c ← load buf s
  if c = 0 then pure (c, s)
  else if strchr (chars "|();&<") c then pure (c, s + 1)
  else if c = '>'.toUInt8 then do
    if (← load buf (s + 1)) = '>'.toUInt8 then pure ('+'.toUInt8, s + 2) else pure (c, s + 1)
  else do
    let s ← skip (fun c => !strchr whitespace c && !strchr symbols c) buf es s
    pure ('a'.toUInt8, s)

def gettoken (buf : List UInt8) (es s : Nat) : Parse Token := do
  let q ← skip (strchr whitespace) buf es s
  let (ret, eq) ← tokenEnd buf es q
  let s ← skip (strchr whitespace) buf es eq
  pure ⟨ret, q, eq, s⟩

/-- `peek(ps, es, toks)`, with the new `*ps`. -/
def peek (buf : List UInt8) (es : Nat) (toks : String) (s : Nat) : Parse (Bool × Nat) := do
  let s ← skip (strchr whitespace) buf es s
  let c ← load buf s
  pure (c ≠ 0 && strchr (chars toks) c, s)

/-- `struct execcmd`, less its type. -/
structure Execcmd where
  argv : List (Option Nat)
  eargv : List (Option Nat)
deriving DecidableEq, Repr

/-- `execcmd()`: all pointers are null. -/
def execcmd : Execcmd := ⟨List.replicate MAXARGS none, List.replicate MAXARGS none⟩

/-- `cmd->argv[argc] = q; cmd->eargv[argc] = eq;` -/
def Execcmd.set (cmd : Execcmd) (argc : Nat) (q eq : Option Nat) : Parse Execcmd :=
  if argc < MAXARGS then pure ⟨cmd.argv.set argc q, cmd.eargv.set argc eq⟩
  else .error .outOfBounds

/-- `parseredirs`, whose loop does not come to a second round. -/
def parseredirs (buf : List UInt8) (es s : Nat) : Parse Nat := do
  let (redir, s) ← peek buf es "<>" s
  if redir then panic "redirect command not supported!" else pure s

/-- The loop of `parseexec`. -/
def argLoop (buf : List UInt8) (es : Nat) : Nat → Nat → Execcmd → Nat → Parse (Execcmd × Nat × Nat)
  | 0, _, _, _ => .error .running
  | fuel + 1, argc, cmd, s => do
    let (done, s) ← peek buf es "|)&;" s
    if done then pure (cmd, argc, s)
    else do
      let t ← gettoken buf es s
      if t.ret = 0 then pure (cmd, argc, t.s)
      else if t.ret ≠ 'a'.toUInt8 then panic "syntax"
      else do
        let cmd ← cmd.set argc (some t.q) (some t.eq)
        if MAXARGS ≤ argc + 1 then panic "too many args"
        else do
          let s ← parseredirs buf es t.s
          argLoop buf es fuel (argc + 1) cmd s

def parseexec (buf : List UInt8) (es s : Nat) : Parse (Execcmd × Nat) := do
  let (block, s) ← peek buf es "(" s
  if block then panic "brackets not supported!"
  else do
    let s ← parseredirs buf es s
    let (cmd, argc, s) ← argLoop buf es buf.length 0 execcmd s
    let cmd ← cmd.set argc none none
    pure (cmd, s)

def parsepipe (buf : List UInt8) (es s : Nat) : Parse (Execcmd × Nat) := do
  let (cmd, s) ← parseexec buf es s
  let (pipe, s) ← peek buf es "|" s
  if pipe then panic "pipe command not supported!" else pure (cmd, s)

/-- `parseline`, whose loop does not come to a second round. -/
def parseline (buf : List UInt8) (es s : Nat) : Parse (Execcmd × Nat) := do
  let (cmd, s) ← parsepipe buf es s
  let (back, s) ← peek buf es "&" s
  if back then panic "backend command not supported!"
  else do
    let (list, s) ← peek buf es ";" s
    if list then panic "list command not supported!" else pure (cmd, s)

/-- The loop of `nulterminate`: `for (i = 0; argv[i]; i++) *eargv[i] = 0;` -/
def nulLoop (cmd : Execcmd) : Nat → Nat → List UInt8 → Parse (List UInt8)
  | 0, _, _ => .error .running
  | fuel + 1, i, buf =>
    match cmd.argv[i]?, cmd.eargv[i]? with
    | some none, _ => pure buf
    | some (some _), some (some e) =>
      if e < buf.length then nulLoop cmd fuel (i + 1) (buf.set e 0) else .error .outOfBounds
    | _, _ => .error .outOfBounds

def nulterminate (cmd : Execcmd) (buf : List UInt8) : Parse (List UInt8) :=
  nulLoop cmd (MAXARGS + 1) 0 buf

/-- `parsecmd(s)`, where `s` is the beginning of the line; with what it makes of the line. -/
def parsecmd (buf : List UInt8) : Parse (Execcmd × List UInt8) := do
  let es ← strend buf buf.length 0
  let (cmd, s) ← parseline buf es 0
  let (_, s) ← peek buf es "" s
  -- it prints what is left over, too
  if s ≠ es then panic "syntax"
  else do
    let buf ← nulterminate cmd buf
    pure (cmd, buf)

end Xv6.Shell
