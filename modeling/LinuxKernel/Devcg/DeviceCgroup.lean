import LinuxKernel.Lib.TreeWalk
import LinuxKernel.Str.Strtox

/-!
# The device cgroup

The functions of `security/device_cgroup.c`.  A cgroup allows or denies by default and has a list
of exceptions.  The cgroups of the tree are listed with each parent in front of its children, the
order of `css_for_each_descendant_pre`.  Allocations succeed.
-/

namespace LinuxKernel.Devcg

open Lib Str Function

/-- `DEV_BLOCK` or `DEV_CHAR`. -/
inductive DevType
  | block
  | char
deriving DecidableEq

/-- A mask of `ACC_MKNOD`, `ACC_READ` and `ACC_WRITE`. -/
abbrev Access := BitVec 16

def ACC_MKNOD : Access := 1

def ACC_READ : Access := 2

def ACC_WRITE : Access := 4

/-- The number `~0`, which stands for all majors or minors. -/
def anyNumber : UInt32 := 0xFFFFFFFF

structure ExceptionItem where
  type : DevType
  major : UInt32
  minor : UInt32
  access : Access
deriving DecidableEq

inductive Behavior
  | none
  | allow
  | deny
deriving DecidableEq

structure DevCgroup where
  behavior : Behavior
  exceptions : List ExceptionItem
deriving DecidableEq

def ExceptionItem.sameDevices (walk ex : ExceptionItem) : Bool :=
  walk.type = ex.type && walk.major = ex.major && walk.minor = ex.minor

variable (exceptions : List ExceptionItem) (parent : Option DevCgroup)

def devExceptionAdd (ex : ExceptionItem) : List ExceptionItem :=
  if exceptions.any (·.sameDevices ex) then
    exceptions.map fun walk =>
      if walk.sameDevices ex then { walk with access := walk.access ||| ex.access } else walk
  else
    exceptions ++ [ex]

/-- The loop body of `dev_exception_rm`: what is left of an item. -/
def removeAccess (ex walk : ExceptionItem) : Option ExceptionItem :=
  if walk.sameDevices ex then
    if walk.access &&& ~~~ex.access = 0 then none
    else some { walk with access := walk.access &&& ~~~ex.access }
  else
    some walk

def devExceptionRm (ex : ExceptionItem) : List ExceptionItem :=
  exceptions.filterMap (removeAccess ex)

/-- An exception contains all of the devices and the access. -/
def ExceptionItem.contains (ex : ExceptionItem) (type : DevType) (major minor : UInt32)
    (access : Access) : Bool :=
  decide (type = ex.type) && (ex.major == anyNumber || ex.major == major) &&
    (ex.minor == anyNumber || ex.minor == minor) && decide (access &&& ~~~ex.access = 0)

def matchException (type : DevType) (major minor : UInt32) (access : Access) : Bool :=
  exceptions.any (·.contains type major minor access)

/-- An exception contains some of the devices and of the access. -/
def ExceptionItem.overlaps (ex : ExceptionItem) (type : DevType) (major minor : UInt32)
    (access : Access) : Bool :=
  decide (type = ex.type) && (ex.major == anyNumber || major == anyNumber || ex.major == major) &&
    (ex.minor == anyNumber || minor == anyNumber || ex.minor == minor) &&
      decide (access &&& ex.access ≠ 0)

def matchExceptionPartial (type : DevType) (major minor : UInt32) (access : Access) : Bool :=
  exceptions.any (·.overlaps type major minor access)

/-- `__devcgroup_check_permission`: the operation is permitted. -/
def checkPermission (devCgroup : DevCgroup) (type : DevType) (major minor : UInt32)
    (access : Access) : Bool :=
  if devCgroup.behavior = .allow then
    !matchExceptionPartial devCgroup.exceptions type major minor access
  else
    matchException devCgroup.exceptions type major minor access

def verifyNewEx (devCgroup : DevCgroup) (refex : ExceptionItem) (behavior : Behavior) : Bool :=
  if devCgroup.behavior = .allow then
    if behavior = .allow then
      true
    else
      !matchExceptionPartial devCgroup.exceptions refex.type refex.major refex.minor refex.access
  else
    matchException devCgroup.exceptions refex.type refex.major refex.minor refex.access

def parentHasPerm (childcg : DevCgroup) (ex : ExceptionItem) : Bool :=
  match parent with
  | none => true
  | some parent => verifyNewEx parent ex childcg.behavior

def parentAllowsRemoval (childcg : DevCgroup) (ex : ExceptionItem) : Bool :=
  match parent with
  | none => true
  | some parent =>
    if childcg.behavior = .deny then
      true
    else
      !matchExceptionPartial parent.exceptions ex.type ex.major ex.minor ex.access

def mayAllowAll : Bool :=
  match parent with
  | none => true
  | some parent => parent.behavior = .allow

def revalidateActiveExceptions (devcg : DevCgroup) : DevCgroup :=
  { devcg with
    exceptions := devcg.exceptions.foldl (fun exceptions ex =>
      if parentHasPerm parent devcg ex then exceptions else devExceptionRm exceptions ex)
      devcg.exceptions }

structure Hierarchy where
  parent : Nat → Option Nat
  cgroups : List Nat
  nodup : cgroups.Nodup
  parentsFirst : ParentsFirst parent (fun _ => False) cgroups

/-- The state of all cgroups. -/
abbrev World := Nat → DevCgroup

def DevCgroup.online (devcg : DevCgroup) : Bool :=
  devcg.behavior ≠ .none

variable (h : Hierarchy) (w : World)

/-- `css_to_devcgroup(css->parent)`. -/
def parentOf (cg : Nat) : Option DevCgroup :=
  (h.parent cg).map w

def hasOnlineChildren (cg : Nat) : Bool :=
  h.cgroups.any fun child => h.parent child = some cg && (w child).online

def devcgroupOnline (cg : Nat) : World :=
  match parentOf h w cg with
  | none => update w cg { w cg with behavior := .allow }
  | some parent =>
    update w cg
      { behavior := parent.behavior
        exceptions := (w cg).exceptions ++ parent.exceptions }

def devcgroupOffline (cg : Nat) : World :=
  update w cg { w cg with behavior := .none }

/-- The loop body of `propagate_exception`: a descendant of a cgroup with the behaviour `root`. -/
def propagateTo (root : Behavior) (ex : ExceptionItem) (parent devcg : DevCgroup) : DevCgroup :=
  if devcg.online then
    revalidateActiveExceptions (some parent)
      { devcg with
        exceptions :=
          if root = .allow ∧ devcg.behavior = .allow then devExceptionAdd devcg.exceptions ex
          else devExceptionRm devcg.exceptions ex }
  else
    devcg

def propagateException (devcgRoot : Nat) (ex : ExceptionItem) : World :=
  visitAll h.parent (propagateTo (w devcgRoot).behavior ex)
    (descendants h.parent devcgRoot h.cgroups) w

inductive Rule
  | all
  | device (ex : ExceptionItem)
deriving DecidableEq

def isdigit (c : UInt8) : Bool :=
  48 ≤ c && c ≤ 57

/-- The loop that copies the digits of a number to `temp`. -/
def copyDigits : Nat → CStr → CStr × CStr
  | 0, b => ([], b)
  | _ + 1, [] => ([], [])
  | n + 1, c :: b =>
    if isdigit (head b) then (c :: (copyDigits n b).1, (copyDigits n b).2) else ([c], b)

/-- A major or minor number, and the text behind it. -/
def readNumber (b : CStr) : Option (UInt32 × CStr) :=
  if head b = 42 then
    some (anyNumber, b.drop 1)
  else if isdigit (head b) then
    let r := copyDigits 11 b
    match kstrtouint r.1 10 with
    | .error _ => none
    | .ok number => some (number, r.2)
  else
    none

def readAccess : Nat → CStr → Access → Option Access
  | 0, _, access => some access
  | n + 1, b, access =>
    if head b = 114 then readAccess n (b.drop 1) (access ||| ACC_READ)
    else if head b = 119 then readAccess n (b.drop 1) (access ||| ACC_WRITE)
    else if head b = 109 then readAccess n (b.drop 1) (access ||| ACC_MKNOD)
    else if head b = 10 ∨ head b = 0 then some access
    else none

/-- The numbers and the access of a rule about a type. -/
def readDevice (type : DevType) (b : CStr) : Option ExceptionItem := do
  guard (isspace (head b))
  let (major, b) ← readNumber (b.drop 1)
  guard (head b = 58)
  let (minor, b) ← readNumber (b.drop 1)
  guard (isspace (head b))
  let access ← readAccess 3 (b.drop 1) 0
  return { type, major, minor, access }

/-- The rule read in `devcgroup_update_access`; `none` is `-EINVAL`. -/
def readRule (buffer : CStr) : Option Rule :=
  if head buffer = 97 then some .all
  else if head buffer = 98 then (readDevice .block (buffer.drop 1)).map .device
  else if head buffer = 99 then (readDevice .char (buffer.drop 1)).map .device
  else none

def EPERM : Int := 1

/-- `DEVCG_ALLOW` or `DEVCG_DENY`. -/
inductive FileType
  | allow
  | deny
deriving DecidableEq

/-- The rule `a`. -/
def updateAll (cg : Nat) (filetype : FileType) : World × Int :=
  if hasOnlineChildren h w cg then
    (w, -EINVAL)
  else
    match filetype with
    | .allow =>
      if mayAllowAll (parentOf h w cg) then
        (update w cg
          { behavior := .allow
            exceptions := ((parentOf h w cg).map DevCgroup.exceptions).getD [] }, 0)
      else
        (w, -EPERM)
    | .deny => (update w cg { behavior := .deny, exceptions := [] }, 0)

/-- A rule about some devices in `devices.allow`. -/
def allowDevice (cg : Nat) (ex : ExceptionItem) : World × Int :=
  if (w cg).behavior = .allow then
    if parentAllowsRemoval (parentOf h w cg) (w cg) ex then
      (update w cg { w cg with exceptions := devExceptionRm (w cg).exceptions ex }, 0)
    else
      (w, -EPERM)
  else if parentHasPerm (parentOf h w cg) (w cg) ex then
    (update w cg { w cg with exceptions := devExceptionAdd (w cg).exceptions ex }, 0)
  else
    (w, -EPERM)

/-- The cgroup after a rule in `devices.deny`. -/
def denied (devcg : DevCgroup) (ex : ExceptionItem) : DevCgroup :=
  { devcg with
    exceptions :=
      if devcg.behavior = .deny then devExceptionRm devcg.exceptions ex
      else devExceptionAdd devcg.exceptions ex }

/-- A rule about some devices in `devices.deny`. -/
def denyDevice (cg : Nat) (ex : ExceptionItem) : World × Int :=
  (propagateException h (update w cg (denied (w cg) ex)) cg ex, 0)

/-- `devcgroup_update_access` with `CAP_SYS_ADMIN`. -/
def devcgroupUpdateAccess (cg : Nat) (filetype : FileType) (buffer : CStr) : World × Int :=
  match readRule buffer with
  | none => (w, -EINVAL)
  | some .all => updateAll h w cg filetype
  | some (.device ex) =>
    match filetype with
    | .allow => allowDevice h w cg ex
    | .deny => denyDevice h w cg ex

end LinuxKernel.Devcg
