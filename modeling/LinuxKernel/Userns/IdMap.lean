import LinuxKernel.Str.Strtox
import Mathlib.Data.List.Sort

/-!
# Id maps of user namespaces

`kernel/user_namespace.c`: the maps between the ids of a namespace and the ids of the kernel, the
lookups in both directions, and the writes that install a map.  What a write depends on from
outside (capabilities, allocation, the copy from user space) is part of the request.
-/

namespace LinuxKernel.Userns

open Str

inductive Errno where
  | perm
  | nomem
  | inval
  | fault
  | users
deriving DecidableEq

structure UidGidExtent where
  first : UInt32
  lowerFirst : UInt32
  count : UInt32
deriving DecidableEq

/-- `struct uid_gid_map`: the extents up to `nr_extents`. -/
abbrev UidGidMap := List UidGidExtent

def uidGidMapMaxExtents : Nat := 5

/-- `(u32) -1`. -/
def noId : UInt32 := 0xFFFFFFFF

/-- The test of `map_id_range_down()` on an extent. -/
def UidGidExtent.hasRange (e : UidGidExtent) (id id2 : UInt32) : Bool :=
  let last := e.first + e.count - 1
  id ≥ e.first && id ≤ last && (id2 ≥ e.first && id2 ≤ last)

def mapIdRangeDown (map : UidGidMap) (id count : UInt32) : UInt32 :=
  let id2 := id + count - 1
  match map.find? (fun e => e.hasRange id id2) with
  | some e => (id - e.first) + e.lowerFirst
  | none => noId

def mapIdDown (map : UidGidMap) (id : UInt32) : UInt32 :=
  match map.find? (fun e => id ≥ e.first && id ≤ e.first + e.count - 1) with
  | some e => (id - e.first) + e.lowerFirst
  | none => noId

def mapIdUp (map : UidGidMap) (id : UInt32) : UInt32 :=
  match map.find? (fun e => id ≥ e.lowerFirst && id ≤ e.lowerFirst + e.count - 1) with
  | some e => (id - e.lowerFirst) + e.first
  | none => noId

def mappingsOverlap (newMap : UidGidMap) (extent : UidGidExtent) : Bool :=
  let upperLast := extent.first + extent.count - 1
  let lowerLast := extent.lowerFirst + extent.count - 1
  newMap.any (fun prev =>
    let prevUpperLast := prev.first + prev.count - 1
    let prevLowerLast := prev.lowerFirst + prev.count - 1
    (prev.first ≤ upperLast && prevUpperLast ≥ extent.first) ||
      (prev.lowerFirst ≤ lowerLast && prevLowerLast ≥ extent.lowerFirst))

/-- The lines that the loop of `map_write()` goes through; a final newline begins no other. -/
def lines : CStr → List CStr
  | [] => [[]]
  | c :: s =>
    if c = 10 then
      if s = [] then [[]] else [] :: lines s
    else
      match lines s with
      | [] => [[c]]
      | l :: ls => (c :: l) :: ls

def parseExtent (pos : CStr) : Option UidGidExtent := do
  let (first, pos) := simpleStrtoul (skipSpaces pos) 10
  guard (isspace (head pos))
  let (lowerFirst, pos) := simpleStrtoul (skipSpaces pos) 10
  guard (isspace (head pos))
  let (count, pos) := simpleStrtoul (skipSpaces pos) 10
  guard (head pos = 0 ∨ isspace (head pos))
  guard (head (skipSpaces pos) = 0)
  return ⟨first.toUInt32, lowerFirst.toUInt32, count.toUInt32⟩

/-- The checks of an extent against those before it. -/
def extentValid (newMap : UidGidMap) (extent : UidGidExtent) : Bool :=
  !(extent.first == noId || extent.lowerFirst == noId) &&
    !(extent.first + extent.count ≤ extent.first) &&
    !(extent.lowerFirst + extent.count ≤ extent.lowerFirst) &&
    !mappingsOverlap newMap extent

/-- The loop of `map_write()` over the lines. -/
def parseLines (newMap : UidGidMap) : List CStr → Option UidGidMap
  | [] => some newMap
  | line :: rest => do
      let extent ← parseExtent line
      guard (extentValid newMap extent)
      let newMap := newMap ++ [extent]
      guard (¬ (newMap.length = uidGidMapMaxExtents ∧ rest ≠ []))
      parseLines newMap rest

/-- The extents that are written in a buffer. -/
def parseMap (kbuf : CStr) : Option UidGidMap := do
  let newMap ← parseLines [] (lines kbuf)
  guard (newMap.length ≠ 0)
  return newMap

inductive IdKind where
  | uid
  | gid
  | projid
deriving DecidableEq

structure UserNamespace where
  parent : Option Nat
  level : Nat
  owner : UInt32
  setgroupsAllowed : Bool
  maps : IdKind → UidGidMap

def initUserNs : UserNamespace where
  parent := none
  level := 0
  owner := 0
  setgroupsAllowed := true
  maps _ := [⟨0, 0, 4294967295⟩]

/-- A write to a map file, with what it depends on outside. -/
structure MapRequest where
  /-- `seq_user_ns()`. -/
  seqNs : Nat
  /-- `file_ns_capable(file, ns, CAP_SYS_ADMIN)`. -/
  sysAdmin : Bool
  /-- `__get_free_page()` returned a page. -/
  page : Bool
  ppos : Nat
  count : Nat
  /-- What `copy_from_user()` copied. -/
  data : Option (List UInt8)
  euid : UInt32
  egid : UInt32
  /-- `ns_capable()` and `file_ns_capable()` for `cap_setid` over the parent. -/
  setidCapable : Bool

/-- The buffer as a string. -/
def MapRequest.kbuf (req : MapRequest) : CStr :=
  (req.data.getD []).takeWhile (· ≠ 0)

def pageSize : Nat := 4096

def newIdmapPermitted (req : MapRequest) (kind : IdKind) (ns parent : UserNamespace)
    (newMap : UidGidMap) : Bool :=
  let own : Bool := match newMap with
    | [extent] =>
      extent.count == 1 && ns.owner == req.euid && match kind with
        | .uid => mapIdDown (parent.maps .uid) extent.lowerFirst == req.euid
        | .gid =>
          !ns.setgroupsAllowed && mapIdDown (parent.maps .gid) extent.lowerFirst == req.egid
        | .projid => false
    | _ => false
  own || kind == .projid || req.setidCapable

/-- The loop that maps the lower ids to the ids of the kernel. -/
def mapLower (parentMap : UidGidMap) : UidGidMap → Option UidGidMap
  | [] => some []
  | extent :: rest => do
      let lowerFirst := mapIdRangeDown parentMap extent.lowerFirst extent.count
      guard (lowerFirst ≠ noId)
      let rest ← mapLower parentMap rest
      return { extent with lowerFirst := lowerFirst } :: rest

/-- `map_write()`: the map that is installed. -/
def mapWrite (req : MapRequest) (kind : IdKind) (ns parent : UserNamespace) :
    Except Errno UidGidMap :=
  if (ns.maps kind).length ≠ 0 then
    .error .perm
  else if kind ≠ .projid ∧ !req.sysAdmin then
    .error .perm
  else if !req.page then
    .error .nomem
  else if req.ppos ≠ 0 ∨ req.count ≥ pageSize then
    .error .inval
  else if req.data.isNone then
    .error .fault
  else
    match parseMap req.kbuf with
    | none => .error .inval
    | some newMap =>
      if !newIdmapPermitted req kind ns parent newMap then
        .error .perm
      else
        match mapLower (parent.maps kind) newMap with
        | none => .error .perm
        | some newMap => .ok newMap

/-- `create_user_ns()`: a namespace below the one with index `i`. -/
def createUserNs (parent : UserNamespace) (i : Nat) (chrooted alloc : Bool)
    (owner group : UInt32) : Except Errno UserNamespace :=
  if parent.level > 32 then
    .error .users
  else if chrooted then
    .error .perm
  else if mapIdUp (parent.maps .uid) owner = noId ∨ mapIdUp (parent.maps .gid) group = noId then
    .error .perm
  else if !alloc then
    .error .nomem
  else
    .ok
      { parent := some i
        level := parent.level + 1
        owner := owner
        setgroupsAllowed := parent.setgroupsAllowed
        maps := fun _ => [] }

/-- What `proc_setgroups_write()` reads from its buffer. -/
def parseSetgroups (kbuf : CStr) : Option Bool :=
  let request : Option (Bool × CStr) :=
    if kbuf.take 5 = [97, 108, 108, 111, 119] then
      some (true, kbuf.drop 5)
    else if kbuf.take 4 = [100, 101, 110, 121] then
      some (false, kbuf.drop 4)
    else
      none
  match request with
  | none => none
  | some (allowed, pos) => if head (skipSpaces pos) = 0 then some allowed else none

def procSetgroupsWrite (ns : UserNamespace) (ppos count : Nat) (data : Option (List UInt8)) :
    Except Errno UserNamespace :=
  if ppos ≠ 0 ∨ count ≥ 8 then
    .error .inval
  else
    match data with
    | none => .error .fault
    | some data =>
      match parseSetgroups (data.takeWhile (· ≠ 0)) with
      | none => .error .inval
      | some true => if ns.setgroupsAllowed then .ok ns else .error .perm
      | some false =>
        if (ns.maps .gid).length ≠ 0 then
          .error .perm
        else
          .ok { ns with setgroupsAllowed := false }

/-- All namespaces, parents first, and the extents as written for each map. -/
structure UsernsState where
  spaces : List UserNamespace
  written : Nat → IdKind → UidGidMap

/-- `proc_uid_map_write()`, `proc_gid_map_write()` and `proc_projid_map_write()` on the namespace
`i`. -/
def procMapWrite (st : UsernsState) (req : MapRequest) (kind : IdKind) (i : Nat)
    (ns : UserNamespace) : Except Errno UsernsState :=
  match ns.parent with
  | none => .error .perm
  | some p =>
    if req.seqNs ≠ i ∧ req.seqNs ≠ p then
      .error .perm
    else
      match st.spaces[p]? with
      | none => .error .perm
      | some parent =>
        match mapWrite req kind ns parent with
        | .error e => .error e
        | .ok newMap =>
          .ok
            { spaces := st.spaces.set i { ns with maps := Function.update ns.maps kind newMap }
              written := Function.update st.written i
                (Function.update (st.written i) kind ((parseMap req.kbuf).getD [])) }

end LinuxKernel.Userns
