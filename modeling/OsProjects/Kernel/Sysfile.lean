import OsProjects.Kernel.Vfs
import Mathlib.Data.Fintype.Card

/-!
# Sysfile — the file-system calls as programs of atomic actions

The functions of `fs.c`, `file.c` and `sysfile.c` on inodes, directories and paths, and the system
calls made of them.  A function that returns an inode pointer returns the inode number, or `none`
for the null pointer.
-/

namespace OsProjects.Kernel.Vfs

open Lib

abbrev Kprog := Prog Act Act.Reply

abbrev perform (a : Act) : Kprog a.Reply := .call a

def panic {α : Type} (msg : String) : Kprog α := .act (.panic msg) Empty.elim
def undefinedBehaviour {α : Type} : Kprog α := .act .undefined Empty.elim
abbrev printf (msg : String) : Kprog Unit := perform (.printf msg)
abbrev beginOp : Kprog Unit := perform .beginOp
abbrev endOp : Kprog Unit := perform .endOp
abbrev ninodes : Kprog Nat := perform .ninodes
abbrev cwd : Kprog Nat := perform .cwd
abbrev setCwd (i : Nat) : Kprog Unit := perform (.setCwd i)
abbrev iget (i : Nat) : Kprog Unit := perform (.iget i)
abbrev idup (i : Nat) : Kprog Unit := perform (.idup i)
abbrev ilock (i : Nat) : Kprog Unit := perform (.ilock i)
abbrev iunlock (i : Nat) : Kprog Unit := perform (.iunlock i)
abbrev inode (i : Nat) : Kprog Vinode := perform (.inode i)
abbrev initInode (i : Nat) (major minor : Int16) : Kprog Unit := perform (.initInode i major minor)
abbrev addNlink (i : Nat) (k : Int16) : Kprog Unit := perform (.addNlink i k)
abbrev clearNlink (i : Nat) : Kprog Unit := perform (.clearNlink i)
abbrev writei (i off : Nat) (bytes : List UInt8) : Kprog Int := perform (.writei i off bytes)
abbrev writeDirent (d off : Nat) (de : Dirent) : Kprog Int := perform (.writeDirent d off de)
abbrev itrunc (i : Nat) : Kprog Unit := perform (.itrunc i)
abbrev tryAlloc (i : Nat) (type : FileType) : Kprog Bool := perform (.tryAlloc i type)
abbrev iputLast (i : Nat) : Kprog Bool := perform (.iputLast i)
abbrev ifree (i : Nat) : Kprog Unit := perform (.ifree i)
abbrev idrop (i : Nat) : Kprog Unit := perform (.idrop i)
abbrev filealloc : Kprog (Option (Fin NFILE)) := perform .filealloc
abbrev fdalloc (f : Fin NFILE) : Kprog (Option (Fin NOFILE)) := perform (.fdalloc f)
abbrev fileInit (f : Fin NFILE) (major : Option Int16) (ip : Nat) (readable writable : Bool) :
    Kprog Unit := perform (.fileInit f major ip readable writable)
abbrev dropFile (f : Fin NFILE) : Kprog (Option (FdType × Nat)) := perform (.dropFile f)
abbrev argfd (fd : Int) : Kprog (Option (Fin NFILE)) := perform (.argfd fd)
abbrev takeFd (fd : Int) : Kprog (Option (Fin NFILE)) := perform (.takeFd fd)
abbrev getFile (f : Fin NFILE) : Kprog File := perform (.getFile f)
abbrev setOff (f : Fin NFILE) (off : Nat) : Kprog Unit := perform (.setOff f off)
abbrev devWrite (major : Int16) (bytes : List UInt8) : Kprog Int := perform (.devWrite major bytes)

/-! ## Inodes and directories -/

def iput (i : Nat) : Kprog Unit := do
  if ← iputLast i then do
    ifree i
    idrop i
  else pure ()

def iunlockput (i : Nat) : Kprog Unit := do
  iunlock i
  iput i

/-- The inode called `name`, referenced, and the offset of its entry. -/
def dirlookup (dp : Nat) (name : List UInt8) : Kprog (Option (Nat × Nat)) := do
  let v ← inode dp
  if v.type ≠ .dir then panic "dirlookup not DIR"
  else
    match lookupEntry v.data name with
    | .error msg => panic msg
    | .ok none => pure none
    | .ok (some (off, inum)) => do
      iget inum
      pure (some (inum, off))

def dirlink (dp : Nat) (name : List UInt8) (inum : Nat) : Kprog Int := do
  match ← dirlookup dp name with
  | some (ip, _) => do
    iput ip
    pure (-1)
  | none => do
    let v ← inode dp
    match freeSlot v.data with
    | .error msg => panic msg
    | .ok off => do
      -- `de.inum` is a `ushort`
      let n ← writeDirent dp off (direntFor name (inum % 2 ^ 16))
      pure (if n ≠ SIZEOF_DIRENT then -1 else 0)

/-- The loop of `namex` over the elements of the path; with `parent` it stops one level early and
gives the last element too. -/
def walk (parent : Bool) : List (List UInt8) → Nat → Kprog (Option (Nat × List UInt8))
  | [], ip => do
    if parent then do
      iput ip
      pure none
    else pure (some (ip, []))
  | name :: rest, ip => do
    ilock ip
    let v ← inode ip
    if v.type ≠ .dir then do
      iunlockput ip
      pure none
    else if parent = true ∧ rest = [] then do
      iunlock ip
      pure (some (ip, name))
    else do
      match ← dirlookup ip name with
      | none => do
        iunlockput ip
        pure none
      | some (next, _) => do
        iunlockput ip
        walk parent rest next

def namex (path : List UInt8) (parent : Bool) : Kprog (Option (Nat × List UInt8)) := do
  if path.head? = some slash then do
    iget ROOTINO
    walk parent (elements path) ROOTINO
  else do
    let ip ← cwd
    idup ip
    walk parent (elements path) ip

def namei (path : List UInt8) : Kprog (Option Nat) := do
  let found ← namex path false
  pure (found.map Prod.fst)

def nameiparent (path : List UInt8) : Kprog (Option (Nat × List UInt8)) := namex path true

/-- The loop of `ialloc` over the inode numbers. -/
def iallocFrom (type : FileType) : List Nat → Kprog (Option Nat)
  | [] => do
    printf "ialloc: no inodes\n"
    pure none
  | inum :: rest => do
    if ← tryAlloc inum type then do
      iget inum
      pure (some inum)
    else iallocFrom type rest

def ialloc (type : FileType) : Kprog (Option Nat) := do
  iallocFrom type (List.range' 1 ((← ninodes) - 1))

/-! ## Creating and removing names -/

abbrev dot : List UInt8 := [46]
abbrev dotdot : List UInt8 := [46, 46]

/-- A string that `argstr` has copied in. -/
structure CStr where
  bytes : List UInt8
  noNul : 0 ∉ bytes
  short : bytes.length < MAXPATH

/-- The entries for a new inode: those of a new directory, then its name in `dp`.  `false` is
`goto fail`. -/
def createEntries (dp : Nat) (name : List UInt8) (ip : Nat) (type : FileType) : Kprog Bool := do
  if type = .dir then do
    if (← dirlink ip dot ip) < 0 then pure false
    else if (← dirlink ip dotdot dp) < 0 then pure false
    else if (← dirlink dp name ip) < 0 then pure false
    else do
      addNlink dp 1
      pure true
  else if (← dirlink dp name ip) < 0 then pure false
  else pure true

/-- `create` from `ialloc` on: `dp` has no entry of this name. -/
def createInode (dp : Nat) (name : List UInt8) (type : FileType) (major minor : Int16) :
    Kprog (Option Nat) := do
  match ← ialloc type with
  | none => do
    iunlockput dp
    pure none
  | some ip => do
    ilock ip
    initInode ip major minor
    if ← createEntries dp name ip type then do
      iunlockput dp
      pure (some ip)
    else do
      clearNlink ip
      iunlockput ip
      iunlockput dp
      pure none

def create (path : List UInt8) (type : FileType) (major minor : Int16) :
    Kprog (Option Nat) := do
  match ← nameiparent path with
  | none => pure none
  | some (dp, name) => do
    ilock dp
    match ← dirlookup dp name with
    | some (ip, _) => do
      iunlockput dp
      ilock ip
      let v ← inode ip
      if type = .file ∧ (v.type = .file ∨ v.type = .device) then pure (some ip)
      else if type = .symlink then pure (some ip)
      else do
        iunlockput ip
        pure none
    | none => createInode dp name type major minor

/-- The label `bad` of `sys_link`. -/
def linkBad (ip : Nat) : Kprog Int := do
  ilock ip
  addNlink ip (-1)
  iunlockput ip
  endOp
  pure (-1)

def sysLink (old new : CStr) : Kprog Int := do
  beginOp
  match ← namei old.bytes with
  | none => do
    endOp
    pure (-1)
  | some ip => do
    ilock ip
    let v ← inode ip
    if v.type = .dir then do
      iunlockput ip
      endOp
      pure (-1)
    else do
      addNlink ip 1
      iunlock ip
      match ← nameiparent new.bytes with
      | none => linkBad ip
      | some (dp, name) => do
        ilock dp
        if (← dirlink dp name ip) < 0 then do
          iunlockput dp
          linkBad ip
        else do
          iunlockput dp
          iput ip
          endOp
          pure 0

/-- `ip->type == T_DIR && !isdirempty(ip)` -/
def occupied (v : Vinode) : Kprog Bool :=
  if v.type = .dir then
    match isdirempty v.data with
    | .error msg => panic msg
    | .ok empty => pure (!empty)
  else pure false

/-- `sys_unlink` once both inodes are locked and the entry may go. -/
def removeEntry (dp ip off : Nat) (type : FileType) : Kprog Int := do
  let n ← writeDirent dp off noDirent
  if n ≠ SIZEOF_DIRENT then panic "unlink: writei"
  else do
    (if type = .dir then addNlink dp (-1) else pure ())
    iunlockput dp
    addNlink ip (-1)
    iunlockput ip
    endOp
    pure 0

/-- The label `bad` of `sys_unlink`. -/
def unlinkBad (dp : Nat) : Kprog Int := do
  iunlockput dp
  endOp
  pure (-1)

def sysUnlink (path : CStr) : Kprog Int := do
  beginOp
  match ← nameiparent path.bytes with
  | none => do
    endOp
    pure (-1)
  | some (dp, name) => do
    ilock dp
    if namecmp name dot = 0 ∨ namecmp name dotdot = 0 then unlinkBad dp
    else do
      match ← dirlookup dp name with
      | none => unlinkBad dp
      | some (ip, off) => do
        ilock ip
        let v ← inode ip
        if v.nlink < 1 then panic "unlink: nlink < 1"
        else if ← occupied v then do
          iunlockput ip
          unlinkBad dp
        else removeEntry dp ip off v.type

/-- `sys_mkdir` and `sys_mknod` once the operation has begun: make the inode and let it go. -/
def makeNode (path : List UInt8) (type : FileType) (major minor : Int16) : Kprog Int := do
  match ← create path type major minor with
  | none => do
    endOp
    pure (-1)
  | some ip => do
    iunlockput ip
    endOp
    pure 0

-- These three begin the operation before they fetch the path.
def sysMkdir (path : Option CStr) : Kprog Int := do
  beginOp
  match path with
  | none => do
    endOp
    pure (-1)
  | some path => makeNode path.bytes .dir 0 0

def sysMknod (path : Option CStr) (major minor : Int16) : Kprog Int := do
  beginOp
  match path with
  | none => do
    endOp
    pure (-1)
  | some path => makeNode path.bytes .device major minor

def changeDir (path : List UInt8) : Kprog Int := do
  match ← namei path with
  | none => do
    endOp
    pure (-1)
  | some ip => do
    ilock ip
    let v ← inode ip
    if v.type ≠ .dir then do
      iunlockput ip
      endOp
      pure (-1)
    else do
      iunlock ip
      iput (← cwd)
      endOp
      setCwd ip
      pure 0

def sysChdir (path : Option CStr) : Kprog Int := do
  beginOp
  match path with
  | none => do
    endOp
    pure (-1)
  | some path => changeDir path.bytes

/-! ## Symbolic links -/

/-- What `sys_symlink` writes for a target: its length as an `int`, then the string with its NUL. -/
def linkRecord (target : List UInt8) : List UInt8 := leBytes 4 target.length ++ (target ++ [0])

def sysSymlink (target path : CStr) : Kprog Int := do
  beginOp
  match ← create path.bytes .symlink 0 0 with
  | none => do
    endOp
    pure (-1)
  | some ip => do
    if (← writei ip 0 (leBytes 4 target.bytes.length)) ≠ 4 then do
      iunlockput ip
      endOp
      pure (-1)
    else if (← writei ip 4 (target.bytes ++ [0])) ≠ target.bytes.length + 1 then do
      iunlockput ip
      endOp
      pure (-1)
    else do
      iunlockput ip
      endOp
      pure 0

/-- The value of four bytes as an `int`. -/
def intValue (bytes : List UInt8) : Int :=
  if leValue bytes < 2 ^ 31 then leValue bytes else leValue bytes - 2 ^ 32

/-- The string in `target` after the two calls of `readi` in `sys_open`.  It is defined when
`length` has been read whole, `target[length+1]` is an array that fits on the kernel stack of one
page, and the part of it that has been filled contains a NUL. -/
def linkTarget (data : List UInt8) : Option (List UInt8) :=
  let length := intValue (FlatArray.read data 0 4)
  let target := FlatArray.read data 4 (length.toNat + 1)
  if 4 ≤ data.length ∧ 0 ≤ length ∧ length.toNat + 1 ≤ PGSIZE ∧ 0 ∈ target then
    some (target.takeWhile (· != 0))
  else none

/-! ## Files -/

/-- `omode & flag` -/
def has (omode flag : UInt32) : Bool := omode &&& flag != 0

def fileclose (f : Fin NFILE) : Kprog Unit := do
  match ← dropFile f with
  | some (.inode, ip) | some (.device, ip) => do
    beginOp
    iput ip
    endOp
  | _ => pure ()

-- The loop of `sys_open` over symbolic links; `left` is `9 - symlink_depth`.
def followLinks (omode : UInt32) : Nat → Nat → Kprog (Option Nat)
  | 0, ip => do
    let v ← inode ip
    if v.type = .symlink then do
      printf "symbolic link is a loop"
      iunlockput ip
      pure none
    else pure (some ip)
  | left + 1, ip => do
    let v ← inode ip
    if v.type = .symlink then
      if has omode O_NOFOLLOW then pure (some ip)
      else
        match linkTarget v.data with
        | none => undefinedBehaviour
        | some target => do
          iunlockput ip
          match ← namei target with
          | none => pure none
          | some ip => do
            ilock ip
            followLinks omode left ip
    else pure (some ip)

/-- The first part of `sys_open`: the inode to open, locked. -/
def openInode (path : List UInt8) (omode : UInt32) : Kprog (Option Nat) := do
  if has omode O_CREATE then create path .file 0 0
  else do
    match ← namei path with
    | none => pure none
    | some ip => do
      ilock ip
      let v ← inode ip
      if v.type = .dir ∧ omode ≠ O_RDONLY then do
        iunlockput ip
        pure none
      else pure (some ip)

/-- A device number that `sys_open` refuses. -/
def BadDevice (v : Vinode) : Prop :=
  v.type = .device ∧ (v.major < 0 ∨ Int16.ofNat NDEV ≤ v.major)

instance (v : Vinode) : Decidable (BadDevice v) := inferInstanceAs (Decidable (_ ∧ _))

/-- The last part of `sys_open`: a file and a descriptor for the locked inode. -/
def openFile (omode : UInt32) (ip : Nat) : Kprog Int := do
  let v ← inode ip
  if BadDevice v then do
    iunlockput ip
    endOp
    pure (-1)
  else do
    match ← filealloc with
    | none => do
      iunlockput ip
      endOp
      pure (-1)
    | some f => do
      match ← fdalloc f with
      | none => do
        fileclose f
        iunlockput ip
        endOp
        pure (-1)
      | some fd => do
        fileInit f (if v.type = .device then some v.major else none) ip (!has omode O_WRONLY)
          (has omode O_WRONLY || has omode O_RDWR)
        (if has omode O_TRUNC = true ∧ v.type = .file then itrunc ip else pure ())
        iunlock ip
        endOp
        pure fd.val

def sysOpen (path : CStr) (omode : UInt32) : Kprog Int := do
  beginOp
  match ← openInode path.bytes omode with
  | none => do
    endOp
    pure (-1)
  | some ip => do
    match ← followLinks omode 9 ip with
    | none => do
      endOp
      pure (-1)
    | some ip => openFile omode ip

def sysClose (fd : Int) : Kprog Int := do
  match ← takeFd fd with
  | none => pure (-1)
  | some f => do
    fileclose f
    pure 0

/-- `max` of `filewrite` -/
abbrev maxWrite : Nat := (MAXOPBLOCKS - 1 - 1 - 2) / 2 * BSIZE

/-- The loop of `filewrite`: whether all bytes were written.  Each round takes at least one. -/
def filewriteLoop (f : Fin NFILE) : Nat → List UInt8 → Kprog Bool
  | 0, rest => pure rest.isEmpty
  | rounds + 1, rest => do
    if rest.isEmpty then pure true
    else do
      let g ← getFile f
      beginOp
      ilock g.ip
      let r ← writei g.ip g.off (rest.take maxWrite)
      (if r > 0 then setOff f (g.off + r.toNat) else pure ())
      iunlock g.ip
      endOp
      if r ≠ (rest.take maxWrite).length then pure false
      else filewriteLoop f rounds (rest.drop maxWrite)

def filewrite (f : Fin NFILE) (bytes : List UInt8) : Kprog Int := do
  let g ← getFile f
  if g.writable = false then pure (-1)
  else
    match g.type with
    | .device => if g.major < 0 ∨
      Int16.ofNat NDEV ≤ g.major then pure (-1) else devWrite g.major bytes
    | .inode => do
      let all ← filewriteLoop f bytes.length bytes
      pure (if all then bytes.length else -1)
    | .none => panic "filewrite"

def sysWrite (fd : Int) (bytes : List UInt8) : Kprog Int := do
  match ← argfd fd with
  | none => pure (-1)
  | some f => filewrite f bytes

/-! ## The calls -/

/-- The calls on names and descriptors; a string that `argstr` cannot copy in is `none`. -/
inductive Call
  | openFile (path : Option CStr) (omode : UInt32)
  | mkdir (path : Option CStr)
  | mknod (path : Option CStr) (major minor : Int16)
  | symlink (target path : Option CStr)
  | link (old new : Option CStr)
  | unlink (path : Option CStr)
  | chdir (path : Option CStr)
  | close (fd : Int)

def argstr (arg : Option CStr) (k : CStr → Kprog Int) : Kprog Int :=
  match arg with
  | none => pure (-1)
  | some s => k s

theorem argstr_after {P : Type} [DecidableEq P] {p : P} {s : Sys P} {arg : Option CStr}
    {k : CStr → Kprog Int} {Q : Int → Sys P → Prop} (hfails : Q (-1) s)
    (hk : ∀ str, (k str).After (exec p) s Q) : (argstr arg k).After (exec p) s Q := by
  cases arg with
  | none => exact hfails
  | some str => exact hk str

def Call.code : Call → Kprog Int
  | .openFile path omode => argstr path fun path => sysOpen path omode
  | .mkdir path => sysMkdir path
  | .mknod path major minor => sysMknod path major minor
  | .symlink target path =>
    argstr target fun target => argstr path fun path => sysSymlink target path
  | .link old new => argstr old fun old => argstr new fun new => sysLink old new
  | .unlink path => argstr path sysUnlink
  | .chdir path => sysChdir path
  | .close fd => sysClose fd

/-- A formatted disk with nothing but the root directory, where all processes are. -/
def Sys.boot (P : Type) [Fintype P] (ninodes : Nat) (room : List Bool) : Sys P where
  ninodes := ninodes
  ino i := if i = ROOTINO then ⟨.dir, 0, 0, 1, (direntFor dot ROOTINO).encode ++
    (direntFor dotdot ROOTINO).encode⟩ else blank .free
  mem i := if i = ROOTINO then ⟨Fintype.card P, false, none⟩ else ⟨0, false, none⟩
  inUse := 1
  file _ := ⟨.none, 0, false, false, 0, 0, 0⟩
  proc _ := ⟨ROOTINO, fun _ => none⟩
  room := { answers := room }
  console := []
  outstanding := 0
  born _ := 0
  stamp _ _ := 0
  clock := 1

end OsProjects.Kernel.Vfs
