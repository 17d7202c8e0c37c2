import Xv6.Fs.System

/-!
# Path names

The path functions of `fs.c`.  A path is the list of its characters, without the
terminating NUL.
-/

namespace Xv6.Fs

open ByteView Hoare

def slash : UInt8 := 47

/-- The contents of `name[DIRSIZ]` after an element has been copied there: a longer element
    is cut, and what follows a shorter one does not matter. -/
def elemName (elem : List UInt8) : Name := fun k => if k < DIRSIZ then elem.getD k 0 else 0

/-- Copy the next path element from `path` into `name`.  Return the rest of the path, from
    its next element on. -/
def skipelem (path : List UInt8) : Option (Name × List UInt8) :=
  match path.dropWhile (· == slash) with
  | [] => none
  | c :: s =>
    some (elemName ((c :: s).takeWhile (· != slash)),
      ((c :: s).dropWhile (· != slash)).dropWhile (· == slash))

section Functions

variable (sb : Superblock)

/-- The loop of `namex`, at the inode `ip`.  The first argument bounds the number of elements
    of the path. -/
def namexFrom (nameiparent : Bool) : Nat → Nat → List UInt8 → Name → FsM (Option Nat × Name)
  | 0, ip, _, name => return (some ip, name)
  | fuel + 1, ip, path, name =>
    match skipelem path with
    | none =>
      if nameiparent then do
        iput sb ip
        return (none, name)
      else return (some ip, name)
    | some (name, path) => do
      ilock sb ip
      let x := ((← get).inode ip).copy
      if x.type ≠ T_DIR then
        iunlockput sb ip
        return (none, name)
      else if x.nlink = 0 then
        iunlockput sb ip
        return (none, name)
      else if nameiparent = true ∧ path = [] then
        -- stop one level early
        iunlock ip
        return (some ip, name)
      else
        match ← dirlookup sb ip name with
        | none =>
          iunlockput sb ip
          return (none, name)
        | some (next, _) =>
          iunlockput sb ip
          namexFrom nameiparent fuel next path name

/-- Look up and return the inode for a path name, `cwd` being the current directory of the
    process.  If `nameiparent`, return the inode for the parent and the final path element. -/
def namex (cwd : Option Nat) (path : List UInt8) (nameiparent : Bool) (name : Name) :
    FsM (Option Nat × Name) := do
  let ip ← if path.head? = some slash then iget ROOTINO
    else match cwd with
      | none => fail (.panic .nullPointer)
      | some cwd => idup cwd
  namexFrom sb nameiparent (path.length + 1) ip path name

def namei (cwd : Option Nat) (path : List UInt8) : FsM (Option Nat) := do
  let (ip, _) ← namex sb cwd path false fun _ => 0
  return ip

end Functions

end Xv6.Fs
