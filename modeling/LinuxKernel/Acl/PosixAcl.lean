import LinuxKernel.Lib.Masks

/-!
# POSIX access control lists

The check of a list, its evaluation for a process, and the conversion to mode bits
(`fs/posix_acl.c`), with the check of plain mode bits (`fs/namei.c`).
-/

namespace LinuxKernel.Acl

/-- `e_tag` with the id that the entry is about. -/
inductive Tag
  | userObj
  | user (uid : UInt32)
  | groupObj
  | group (gid : UInt32)
  | mask
  | other
  | unknown
deriving DecidableEq

structure Entry where
  tag : Tag
  perm : BitVec 16
deriving DecidableEq

/-- `e_perm` as an operand of type `int`. -/
def Entry.bits (pa : Entry) : BitVec 32 :=
  pa.perm.setWidth 32

/-- The entries of a `struct posix_acl`. -/
abbrev PosixAcl := List Entry

/-- The owner and the group of a `struct inode`. -/
structure Inode where
  uid : UInt32
  gid : UInt32

/-- The part of `struct cred` that decides on file access. -/
structure Cred where
  fsuid : UInt32
  fsgid : UInt32
  groupInfo : List UInt32

def inGroupP (cred : Cred) (grp : UInt32) : Bool :=
  grp = cred.fsgid || cred.groupInfo.contains grp

def eio : Int := 5
def EACCES : Int := 13
def EINVAL : Int := 22

def invalidId : UInt32 := 0xffffffff

/-- The tag that `posix_acl_valid` is at; `done` is its state 0. -/
inductive State
  | userObj
  | user
  | group
  | other
  | done
deriving DecidableEq

/-- The loop body of `posix_acl_valid`: the next `state` and `needs_mask`. -/
def validStep (state : State) (needsMask : Bool) (pa : Entry) : Option (State × Bool) :=
  if pa.perm &&& ~~~7 ≠ 0 then
    none
  else
    match pa.tag with
    | .userObj => if state = .userObj then some (.user, needsMask) else none
    | .user uid =>
      if state ≠ .user then none
      else if uid = invalidId then none
      else some (state, true)
    | .groupObj => if state = .user then some (.group, needsMask) else none
    | .group gid =>
      if state ≠ .group then none
      else if gid = invalidId then none
      else some (state, true)
    | .mask => if state ≠ .group then none else some (.other, needsMask)
    | .other =>
      if state = .other ∨ state = .group ∧ needsMask = false then some (.done, needsMask)
      else none
    | .unknown => none

def validLoop : State → Bool → PosixAcl → Int
  | state, _, [] => if state = .done then 0 else -EINVAL
  | state, needsMask, pa :: acl =>
    match validStep state needsMask pa with
    | none => -EINVAL
    | some (state, needsMask) => validLoop state needsMask acl

def posixAclValid (acl : PosixAcl) : Int :=
  validLoop .userObj false acl

/-- The code behind the label `check_perm`. -/
def checkPerm (pa : Entry) (want : BitVec 32) : Int :=
  if pa.bits &&& want = want then 0 else -EACCES

/-- The code behind the label `mask`, with the entries behind `pa`. -/
def maskPerm (pa : Entry) (want : BitVec 32) : PosixAcl → Int
  | [] => checkPerm pa want
  | maskObj :: rest =>
    if maskObj.tag = .mask then
      if pa.bits &&& maskObj.bits &&& want = want then 0 else -EACCES
    else
      maskPerm pa want rest

def permissionLoop (inode : Inode) (cred : Cred) (want : BitVec 32) : Bool → PosixAcl → Int
  | _, [] => -eio
  | found, pa :: rest =>
    match pa.tag with
    | .userObj =>
      if inode.uid = cred.fsuid then checkPerm pa want
      else permissionLoop inode cred want found rest
    | .user uid =>
      if uid = cred.fsuid then maskPerm pa want rest
      else permissionLoop inode cred want found rest
    | .groupObj =>
      if inGroupP cred inode.gid then
        if pa.bits &&& want = want then maskPerm pa want rest
        else permissionLoop inode cred want true rest
      else
        permissionLoop inode cred want found rest
    | .group gid =>
      if inGroupP cred gid then
        if pa.bits &&& want = want then maskPerm pa want rest
        else permissionLoop inode cred want true rest
      else
        permissionLoop inode cred want found rest
    | .mask => permissionLoop inode cred want found rest
    | .other => if found then -EACCES else checkPerm pa want
    | .unknown => -eio

/-- `MAY_READ | MAY_WRITE | MAY_EXEC`. -/
def mayRwx : BitVec 32 := 7

def posixAclPermission (inode : Inode) (cred : Cred) (acl : PosixAcl) (want : BitVec 32) : Int :=
  permissionLoop inode cred (want &&& 0x87) false acl

def S_IRWXUGO : BitVec 16 := 0o777
def S_IRWXG : BitVec 16 := 0o70
def S_IRWXO : BitVec 16 := 0o7

/-- The loop body of `posix_acl_equiv_mode`: the next `mode` and `not_equiv`. -/
def equivStep (mode : BitVec 16) (notEquiv : Int) (pa : Entry) : Option (BitVec 16 × Int) :=
  match pa.tag with
  | .userObj => some (mode ||| (pa.perm &&& S_IRWXO) <<< 6, notEquiv)
  | .groupObj => some (mode ||| (pa.perm &&& S_IRWXO) <<< 3, notEquiv)
  | .other => some (mode ||| (pa.perm &&& S_IRWXO), notEquiv)
  | .mask => some ((mode &&& ~~~S_IRWXG) ||| (pa.perm &&& S_IRWXO) <<< 3, 1)
  | .user _ => some (mode, 1)
  | .group _ => some (mode, 1)
  | .unknown => none

def equivLoop : BitVec 16 → Int → PosixAcl → Option (BitVec 16 × Int)
  | mode, notEquiv, [] => some (mode, notEquiv)
  | mode, notEquiv, pa :: acl =>
    match equivStep mode notEquiv pa with
    | none => none
    | some (mode, notEquiv) => equivLoop mode notEquiv acl

/-- `posix_acl_equiv_mode`: the result and the new `*mode_p`. -/
def posixAclEquivMode (acl : PosixAcl) (mode : BitVec 16) : Int × BitVec 16 :=
  match equivLoop 0 0 acl with
  | none => (-EINVAL, mode)
  | some (bits, notEquiv) => (notEquiv, (mode &&& ~~~S_IRWXUGO) ||| bits)

/-- `acl_permission_check` of an inode without a list. -/
def aclPermissionCheck (inode : Inode) (cred : Cred) (mode : BitVec 16) (mask : BitVec 32) : Int :=
  let mode := mode.setWidth 32
  let mode := if cred.fsuid = inode.uid then mode >>> 6
    else if inGroupP cred inode.gid then mode >>> 3
    else mode
  if mask &&& ~~~mode &&& mayRwx = 0 then 0 else -EACCES

end LinuxKernel.Acl
