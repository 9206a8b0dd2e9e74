/-
The text of changelog entries: `fs_changelog` and `fsnodes_escape_name` write it, `restore_line` of `master/restore.cc`
and its macros take it apart.

Lines are C strings, so they are lists of bytes that end where the list ends. A macro that would read on past the end of
a line fails here. Of the about forty kinds of entries, those of the namespace, of attributes and of access control
lists are modelled, which are all that carry strings.
-/
import Mathlib.Data.List.TakeWhile
import SaunaFS.Lib.Decimal
import SaunaFS.Namespace.Node

namespace SaunaFS.Changelog

open Namespace List Option Decimal

/-! ## Entries -/

inductive AclType where
  | access
  | default
  | richAcl
deriving DecidableEq

/-- the changelog entries, with their arguments in the order of the text -/
inductive Entry where
  | acquire (inode : Inode) (sessionid : UInt32)
  | attr (inode : Inode) (mode uid gid atime mtime : UInt32)
  | clone (inodeSrc parentDst inodeDst : Inode) (name : Name) (canOverwrite : Bool)
  | create (parent : Inode) (name : Name) (type : NodeType) (mode : BitVec 16) (uid gid rdev : UInt32) (inode : Inode)
  | deleteacl (inode : Inode) (type : AclType)
  | link (inode parent : Inode) (name : Name)
  | move (parentSrc : Inode) (nameSrc : Name) (parentDst : Inode) (nameDst : Name) (inode : Inode)
  | purge (inode : Inode)
  | release (inode : Inode) (sessionid : UInt32)
  | setacl (inode : Inode) (type : UInt8) (aclString : Name)
  | setpath (inode : Inode) (path : Name)
  | setxattr (inode : Inode) (name value : Name) (mode : UInt32)
  | symlink (parent : Inode) (name path : Name) (uid gid : UInt32) (inode : Inode)
  | setrichacl (inode : Inode) (aclString : Name)
  | undel (inode : Inode)
  | unlink (parent : Inode) (name : Name) (inode : Inode)
deriving DecidableEq

/-- an entry with its timestamp -/
structure Logged where
  ts : UInt32
  entry : Entry
deriving DecidableEq

/-! ## Writing -/

/-- the bytes of a text -/
def lit (s : String) : Name := s.toList.map fun c => UInt8.ofNat c.toNat

/-- `%" PRIu32 "` -/
def u32 (n : UInt32) : Name := print n.toNat

/-- `%d` of some of the bits of a mode -/
def modeText (mode : BitVec 16) : Name := print mode.toNat

/-- the bytes that `fsnodes_escape_name` leaves as they are -/
def isPlain (c : UInt8) : Bool := 32 ≤ c && c < 127 && c ≠ 44 && c ≠ 37 && c ≠ 40 && c ≠ 41

def hexDigit (d : UInt8) : UInt8 := if d < 10 then 48 + d else 55 + d

def escapeByte (c : UInt8) : Name := if isPlain c then [c] else [37, hexDigit (c >>> 4), hexDigit (c &&& 15)]

def fsnodesEscapeName (name : Name) : Name := name.flatMap escapeByte

def aclTypeChar : AclType → UInt8
  | .access => 97
  | .default => 100
  | .richAcl => 114

/-- the text of an entry after the timestamp -/
def Entry.text : Entry → Name
  | acquire inode sessionid => lit "ACQUIRE(" ++ u32 inode ++ lit "," ++ u32 sessionid ++ lit ")"
  | attr inode mode uid gid atime mtime =>
    lit "ATTR(" ++ u32 inode ++ lit "," ++ u32 mode ++ lit "," ++ u32 uid ++ lit "," ++ u32 gid ++ lit "," ++
      u32 atime ++ lit "," ++ u32 mtime ++ lit ")"
  | clone inodeSrc parentDst inodeDst name canOverwrite =>
    lit "CLONE(" ++ u32 inodeSrc ++ lit "," ++ u32 parentDst ++ lit "," ++ u32 inodeDst ++ lit "," ++
      fsnodesEscapeName name ++ lit "," ++ u32 (if canOverwrite then 1 else 0) ++ lit ")"
  | create parent name type mode uid gid rdev inode =>
    lit "CREATE(" ++ u32 parent ++ lit "," ++ fsnodesEscapeName name ++ lit "," ++ [type.char] ++ lit "," ++
      modeText mode ++ lit "," ++ u32 uid ++ lit "," ++ u32 gid ++ lit "," ++ u32 rdev ++ lit "):" ++ u32 inode
  | deleteacl inode type => lit "DELETEACL(" ++ u32 inode ++ lit "," ++ [aclTypeChar type] ++ lit ")"
  | link inode parent name =>
    lit "LINK(" ++ u32 inode ++ lit "," ++ u32 parent ++ lit "," ++ fsnodesEscapeName name ++ lit ")"
  | move parentSrc nameSrc parentDst nameDst inode =>
    lit "MOVE(" ++ u32 parentSrc ++ lit "," ++ fsnodesEscapeName nameSrc ++ lit "," ++ u32 parentDst ++ lit "," ++
      fsnodesEscapeName nameDst ++ lit "):" ++ u32 inode
  | purge inode => lit "PURGE(" ++ u32 inode ++ lit ")"
  | release inode sessionid => lit "RELEASE(" ++ u32 inode ++ lit "," ++ u32 sessionid ++ lit ")"
  | setacl inode type aclString => lit "SETACL(" ++ u32 inode ++ lit "," ++ [type] ++ lit "," ++ aclString ++ lit ")"
  | setpath inode path => lit "SETPATH(" ++ u32 inode ++ lit "," ++ fsnodesEscapeName path ++ lit ")"
  | setxattr inode name value mode =>
    lit "SETXATTR(" ++ u32 inode ++ lit "," ++ fsnodesEscapeName name ++ lit "," ++
      fsnodesEscapeName value ++ lit "," ++
      u32 mode ++ lit ")"
  | symlink parent name path uid gid inode =>
    lit "SYMLINK(" ++ u32 parent ++ lit "," ++ fsnodesEscapeName name ++ lit "," ++ fsnodesEscapeName path ++ lit "," ++
      u32 uid ++ lit "," ++ u32 gid ++ lit "):" ++ u32 inode
  | setrichacl inode aclString => lit "SETRICHACL(" ++ u32 inode ++ lit "," ++ aclString ++ lit ")"
  | undel inode => lit "UNDEL(" ++ u32 inode ++ lit ")"
  | unlink parent name inode =>
    lit "UNLINK(" ++ u32 parent ++ lit "," ++ fsnodesEscapeName name ++ lit "):" ++ u32 inode

/-- `kMaxEntrySize` of `fs_changelog`: `kMaxLogLineSize` without room for the timestamp -/
def maxEntrySize : ℕ := 200000 - 20

/-- the line that `fs_changelog` writes, which `vsnprintf` cuts if it is too long -/
def fsChangelog (l : Logged) : Name := u32 l.ts ++ lit "|" ++ l.entry.text.take (maxEntrySize - 1)

/-! ## Reading -/

def eat (c : UInt8) : Name → Option Name
  | [] => none
  | b :: s => if b = c then some s else none

def getU32 (s : Name) : UInt32 × Name := ((strtoul s).1.toUInt32, (strtoul s).2)

def hexValue (h : UInt8) : Option UInt8 :=
  if 48 ≤ h && h ≤ 57 then some (h - 48) else if 65 ≤ h && h ≤ 70 then some (h - 55) else none

/-- the loop of `GETNAME`, `GETPATH` and `GETDATA`, for at most so many bytes -/
def getEscaped (c : UInt8) : ℕ → Name → Option (Name × Name)
  | _, [] => none
  | 0, b :: s => some ([], b :: s)
  | n + 1, b :: s =>
    if b = c then some ([], b :: s)
    else if b = 37 then
      match s with
      | h1 :: h2 :: s => do
        let h1 ← hexValue h1
        let h2 ← hexValue h2
        let (name, s) ← getEscaped c n s
        some ((h1 * 16 + h2) :: name, s)
      | _ => none
    else do
      let (name, s) ← getEscaped c n s
      some (b :: name, s)

def getData (c : UInt8) (s : Name) : Option (Name × Name) := getEscaped c s.length s

def cString (s : Name) : Name := s.takeWhile (· ≠ 0)

/-- `GETNAME` and the string made of the buffer of 256 bytes -/
def getName (c : UInt8) (s : Name) : Option (Name × Name) := (getEscaped c 255 s).map fun r => (cString r.1, r.2)

/-- `GETPATH` and the string made of the buffer -/
def getPath (c : UInt8) (s : Name) : Option (Name × Name) := (getData c s).map fun r => (cString r.1, r.2)

/-- `GETCHAR` and the reading of a type; nothing is read at the end of the line -/
def getChar : Name → Option (UInt8 × Name)
  | [] => none
  | b :: s => some (b, s)

def typeOfChar (c : UInt8) : Option NodeType :=
  [NodeType.file, .directory, .symlink, .fifo, .blockDev, .charDev, .socket, .trash, .reserved].find?
    fun t => t.char = c

def aclTypeOfChar (c : UInt8) : Option AclType := [AclType.default, .access, .richAcl].find? fun t => aclTypeChar t = c

def modeOf (n : UInt32) : BitVec 16 := BitVec.ofNat 16 n.toNat

def doAcquire (s : Name) : Option Entry := do
  let (inode, s) := getU32 (← eat 40 s)
  let (cuid, s) := getU32 (← eat 44 s)
  let _ ← eat 41 s
  some (.acquire inode cuid)

def doAttr (s : Name) : Option Entry := do
  let (inode, s) := getU32 (← eat 40 s)
  let (mode, s) := getU32 (← eat 44 s)
  let (uid, s) := getU32 (← eat 44 s)
  let (gid, s) := getU32 (← eat 44 s)
  let (atime, s) := getU32 (← eat 44 s)
  let (mtime, s) := getU32 (← eat 44 s)
  let _ ← eat 41 s
  some (.attr inode mode uid gid atime mtime)

def doCloneNode (s : Name) : Option Entry := do
  let (srcInode, s) := getU32 (← eat 40 s)
  let (dstParent, s) := getU32 (← eat 44 s)
  let (dstInode, s) := getU32 (← eat 44 s)
  let (name, s) ← getName 44 (← eat 44 s)
  let (canOverwrite, s) := getU32 (← eat 44 s)
  let _ ← eat 41 s
  some (.clone srcInode dstParent dstInode name (canOverwrite ≠ 0))

def doCreate (s : Name) : Option Entry := do
  let (parent, s) := getU32 (← eat 40 s)
  let (name, s) ← getName 44 (← eat 44 s)
  let (type, s) ← getChar (← eat 44 s)
  let (mode, s) := getU32 (← eat 44 s)
  let (uid, s) := getU32 (← eat 44 s)
  let (gid, s) := getU32 (← eat 44 s)
  let (rdev, s) := getU32 (← eat 44 s)
  let s ← eat 41 s
  let (inode, _) := getU32 (← eat 58 s)
  some (.create parent name (← typeOfChar type) (modeOf mode) uid gid rdev inode)

def doDeleteacl (s : Name) : Option Entry := do
  let (inode, s) := getU32 (← eat 40 s)
  let (type, s) ← getChar (← eat 44 s)
  let _ ← eat 41 s
  some (.deleteacl inode (← aclTypeOfChar type))

def doLink (s : Name) : Option Entry := do
  let (inode, s) := getU32 (← eat 40 s)
  let (parent, s) := getU32 (← eat 44 s)
  let (name, s) ← getName 41 (← eat 44 s)
  let _ ← eat 41 s
  some (.link inode parent name)

def doMove (s : Name) : Option Entry := do
  let (parentSrc, s) := getU32 (← eat 40 s)
  let (nameSrc, s) ← getName 44 (← eat 44 s)
  let (parentDst, s) := getU32 (← eat 44 s)
  let (nameDst, s) ← getName 41 (← eat 44 s)
  let s ← eat 41 s
  let (inode, _) := getU32 (← eat 58 s)
  some (.move parentSrc nameSrc parentDst nameDst inode)

def doPurge (s : Name) : Option Entry := do
  let (inode, s) := getU32 (← eat 40 s)
  let _ ← eat 41 s
  some (.purge inode)

def doRelease (s : Name) : Option Entry := do
  let (inode, s) := getU32 (← eat 40 s)
  let (cuid, s) := getU32 (← eat 44 s)
  let _ ← eat 41 s
  some (.release inode cuid)

def doSetacl (s : Name) : Option Entry := do
  let (inode, s) := getU32 (← eat 40 s)
  let (type, s) ← getChar (← eat 44 s)
  let (aclString, s) ← getPath 41 (← eat 44 s)
  let _ ← eat 41 s
  some (.setacl inode type aclString)

def doSetpath (s : Name) : Option Entry := do
  let (inode, s) := getU32 (← eat 40 s)
  let (path, s) ← getPath 41 (← eat 44 s)
  let _ ← eat 41 s
  some (.setpath inode path)

def doSetxattr (s : Name) : Option Entry := do
  let (inode, s) := getU32 (← eat 40 s)
  let (name, s) ← getName 44 (← eat 44 s)
  let (value, s) ← getData 44 (← eat 44 s)
  let (mode, s) := getU32 (← eat 44 s)
  let _ ← eat 41 s
  some (.setxattr inode name value mode)

def doSymlink (s : Name) : Option Entry := do
  let (parent, s) := getU32 (← eat 40 s)
  let (name, s) ← getName 44 (← eat 44 s)
  let (path, s) ← getPath 44 (← eat 44 s)
  let (uid, s) := getU32 (← eat 44 s)
  let (gid, s) := getU32 (← eat 44 s)
  let s ← eat 41 s
  let (inode, _) := getU32 (← eat 58 s)
  some (.symlink parent name path uid gid inode)

def doSetrichacl (s : Name) : Option Entry := do
  let (inode, s) := getU32 (← eat 40 s)
  let (aclString, s) ← getPath 41 (← eat 44 s)
  let _ ← eat 41 s
  some (.setrichacl inode aclString)

def doUndel (s : Name) : Option Entry := do
  let (inode, s) := getU32 (← eat 40 s)
  let _ ← eat 41 s
  some (.undel inode)

def doUnlink (s : Name) : Option Entry := do
  let (parent, s) := getU32 (← eat 40 s)
  let (name, s) ← getName 41 (← eat 44 s)
  let s ← eat 41 s
  let (inode, _) := getU32 (← eat 58 s)
  some (.unlink parent name inode)

/-- the keywords in the order in which `restore_line` looks for them -/
def parsers : List (Name × (Name → Option Entry)) :=
  [(lit "ATTR", doAttr), (lit "ACQUIRE", doAcquire), (lit "CLONE", doCloneNode), (lit "CREATE", doCreate),
    (lit "DELETEACL", doDeleteacl), (lit "LINK", doLink), (lit "MOVE", doMove), (lit "PURGE", doPurge),
    (lit "RELEASE", doRelease), (lit "SETACL", doSetacl), (lit "SETPATH", doSetpath), (lit "SETXATTR", doSetxattr),
    (lit "SYMLINK", doSymlink), (lit "SETRICHACL", doSetrichacl), (lit "UNLINK", doUnlink), (lit "UNDEL", doUndel)]

/-- the entry after the timestamp -/
def parseEntry (s : Name) : Option Entry :=
  match parsers.find? fun p => p.1.isPrefixOf s with
  | none => none
  | some p => p.2 (s.drop p.1.length)

/-- the parsing done by `restore_line`; the loaders put a colon and a blank in front of the line -/
def restoreLine (line : Name) : Option Logged := do
  let s ← eat 32 (← eat 58 line)
  let (ts, s) := getU32 s
  let entry ← parseEntry (← eat 124 s)
  some ⟨ts, entry⟩

/-! ## Strings are read back -/

theorem forall_byte {P : UInt8 → Prop} (h : ∀ k : Fin 256, P (UInt8.ofFin k)) (b : UInt8) : P b := h b.toFin

theorem unescape_byte (b : UInt8) :
    hexValue (hexDigit (b >>> 4)) = some (b >>> 4) ∧ hexValue (hexDigit (b &&& 15)) = some (b &&& 15) ∧
      (b >>> 4) * 16 + (b &&& 15) = b :=
  forall_byte (P := fun b => hexValue (hexDigit (b >>> 4)) = some (b >>> 4) ∧
    hexValue (hexDigit (b &&& 15)) = some (b &&& 15) ∧ (b >>> 4) * 16 + (b &&& 15) = b) (by decide +kernel) b

variable {b : UInt8} {rest path : Name} {n : UInt32}

variable {c : UInt8}

theorem ne_of_isPlain (hc : c = 44 ∨ c = 41) (hb : isPlain b) : b ≠ c ∧ b ≠ 37 := by
  unfold isPlain at hb
  grind

theorem fsnodesEscapeName_cons (b : UInt8) (name : Name) :
    fsnodesEscapeName (b :: name) = escapeByte b ++ fsnodesEscapeName name := flatMap_cons

theorem getEscaped_plain (hn : b ≠ c) (hp : b ≠ 37) (n : ℕ) (s : Name) :
    getEscaped c (n + 1) (b :: s) = (getEscaped c n s).map fun r => (b :: r.1, r.2) := by
  conv_lhs => unfold getEscaped
  simp only [if_neg hn, if_neg hp]
  cases getEscaped c n s <;> rfl

variable {c : UInt8}

theorem getEscaped_hex (hn : 37 ≠ c) (n : ℕ) (b : UInt8) (s : Name) :
    getEscaped c (n + 1) (37 :: hexDigit (b >>> 4) :: hexDigit (b &&& 15) :: s) =
      (getEscaped c n s).map fun r => (b :: r.1, r.2) := by
  obtain ⟨hh, hl, hb⟩ := unescape_byte b
  rw [getEscaped]
  simp only [if_neg hn, if_true, hh, hl, hb, bind_eq_bind, bind_some]
  cases getEscaped c n s <;> rfl

theorem getEscaped_escape (hc : c = 44 ∨ c = 41) (name rest : Name) (n : ℕ) (hn : name.length ≤ n) :
    getEscaped c n (fsnodesEscapeName name ++ c :: rest) = some (name, c :: rest) := by
  induction name generalizing n with
  | nil => cases n <;> simp [fsnodesEscapeName, getEscaped]
  | cons b name ih =>
    cases n with
    | zero => simp at hn
    | succ n =>
      have ih := ih n (by simpa using hn)
      rw [fsnodesEscapeName_cons, append_assoc, escapeByte]
      split_ifs with hpl
      · obtain ⟨hne, hp⟩ := ne_of_isPlain hc hpl
        rw [singleton_append, getEscaped_plain hne hp, ih, map_some]
      · have hne : (37 : UInt8) ≠ c := by rcases hc with rfl | rfl <;> decide
        rw [cons_append, cons_append, singleton_append, getEscaped_hex hne, ih, map_some]

theorem length_le_escape (name : Name) : name.length ≤ (fsnodesEscapeName name).length := by
  induction name with
  | nil => simp
  | cons b name ih =>
    have hb : 1 ≤ (escapeByte b).length := by
      unfold escapeByte
      split_ifs <;> simp
    rw [fsnodesEscapeName_cons, length_append, length_cons]
    omega

variable {s name : Name}

theorem cString_eq (hs : 0 ∉ s) : cString s = s := by
  unfold cString
  rw [takeWhile_eq_self_iff]
  intro b hb
  have : b ≠ 0 := fun h => hs (h ▸ hb)
  simpa using this

section

variable (hc : c = 44 ∨ c = 41)
include hc

theorem getName_escape (hl : name.length ≤ 255) (hn : 0 ∉ name) :
    getName c (fsnodesEscapeName name ++ c :: rest) = some (name, c :: rest) := by
  rw [getName, getEscaped_escape hc name rest 255 hl, map_some, cString_eq hn]

theorem getData_escape {data : Name} : getData c (fsnodesEscapeName data ++ c :: rest) = some (data, c :: rest) := by
  have hl := length_le_escape data
  refine getEscaped_escape hc data rest _ ?_
  rw [length_append]
  omega

theorem getPath_escape (hp : 0 ∉ path) : getPath c (fsnodesEscapeName path ++ c :: rest) = some (path, c :: rest) := by
  rw [getPath, getData_escape hc, map_some, cString_eq hp]

end

theorem getPath_plain (hp : ∀ b ∈ path, b ≠ 0 ∧ b ≠ 37 ∧ b ≠ 41) :
    getPath 41 (path ++ 41 :: rest) = some (path, 41 :: rest) := by
  have he (n : ℕ) (hn : path.length ≤ n) : getEscaped 41 n (path ++ 41 :: rest) = some (path, 41 :: rest) := by
    induction path generalizing n with
    | nil => cases n <;> simp [getEscaped]
    | cons b path ih =>
      cases n with
      | zero => simp at hn
      | succ n =>
        obtain ⟨-, hpe, hen⟩ := hp b mem_cons_self
        have ih := ih (fun b' hb' => hp b' (mem_cons_of_mem _ hb')) n (by simpa using hn)
        rw [cons_append, getEscaped_plain hen hpe, ih, map_some]
  rw [getPath, getData, he _ (by simp), map_some, cString_eq fun h => (hp 0 h).1 rfl]

theorem getU32_u32 (n : UInt32) (rest : Name) (hr : ∀ b, rest.head? = some b → isDigit b = false) :
    getU32 (u32 n ++ rest) = (n, rest) := by
  have hn : n.toNat < 2 ^ 64 := lt_trans n.toNat_lt (by norm_num)
  unfold getU32 u32
  rw [strtoul_print hn hr]
  refine Prod.ext (UInt32.toNat_inj.1 ?_) rfl
  simp only [UInt64.toNat_toUInt32, UInt64.toNat_ofNat']
  have := n.toNat_lt
  omega

theorem getU32_modeText (mode : BitVec 16) (rest : Name) (hr : ∀ b, rest.head? = some b → isDigit b = false) :
    ∃ n, getU32 (modeText mode ++ rest) = (n, rest) ∧ modeOf n = mode := by
  have hn : mode.toNat < 2 ^ 64 := lt_trans mode.isLt (by norm_num)
  unfold getU32 modeText
  rw [strtoul_print hn hr]
  refine ⟨_, rfl, BitVec.eq_of_toNat_eq ?_⟩
  simp only [modeOf, UInt64.toNat_toUInt32, UInt64.toNat_ofNat', BitVec.toNat_ofNat]
  have := mode.isLt
  omega

/-! ## Entries are read back -/

/-- a name that the buffer and the C string of a name can hold -/
def ReadableName (name : Name) : Prop := name.length ≤ 255 ∧ 0 ∉ name

/-- text that need not be escaped -/
def ReadablePlain (s : Name) : Prop := ∀ b ∈ s, b ≠ 0 ∧ b ≠ 37 ∧ b ≠ 41

@[simp] theorem readablePlain_nil : ReadablePlain [] := by simp [ReadablePlain]

@[simp] theorem readablePlain_cons :
    ReadablePlain (c :: s) ↔ (c ≠ 0 ∧ c ≠ 37 ∧ c ≠ 41) ∧ ReadablePlain s := forall_mem_cons

@[simp] theorem readablePlain_append {t : Name} : ReadablePlain (s ++ t) ↔ ReadablePlain s ∧ ReadablePlain t :=
  forall_mem_append

@[simp] theorem readablePlain_u32 : ReadablePlain (u32 n) := by
  intro b hb
  have hd := isDigit_of_mem_print hb
  unfold isDigit at hd
  grind

/-- the strings of an entry can be read back -/
def Entry.Readable : Entry → Prop
  | clone _ _ _ name _ | create _ name _ _ _ _ _ _ | link _ _ name | setxattr _ name _ _ | unlink _ name _ =>
    ReadableName name
  | move _ nameSrc _ nameDst _ => ReadableName nameSrc ∧ ReadableName nameDst
  | symlink _ name path _ _ _ => ReadableName name ∧ 0 ∉ path
  | setpath _ path => 0 ∉ path
  | setacl _ _ aclString | setrichacl _ aclString => ReadablePlain aclString
  | _ => True

theorem eat_cons : eat c (c :: s) = some s := if_pos rfl

theorem typeOfChar_char {type : NodeType} : typeOfChar type.char = some type := by cases type <;> rfl

theorem aclTypeOfChar_aclTypeChar {type : AclType} :
    aclTypeOfChar (aclTypeChar type) = some type := by cases type <;> rfl

theorem getU32_comma (n : UInt32) (rest : Name) : getU32 (u32 n ++ 44 :: rest) = (n, 44 :: rest) :=
  getU32_u32 n _ (by simp; decide)

theorem getU32_paren : getU32 (u32 n ++ 41 :: rest) = (n, 41 :: rest) := getU32_u32 n _ (by simp; decide)

theorem getU32_end : getU32 (u32 n) = (n, []) := by
  simpa using getU32_u32 n [] (by simp)

theorem getU32_mode {mode : BitVec 16} :
    (getU32 (modeText mode ++ 44 :: rest)).2 = 44 :: rest ∧ modeOf (getU32 (modeText mode ++ 44 :: rest)).1 = mode := by
  obtain ⟨n, hn, hm⟩ := getU32_modeText mode (44 :: rest) (by simp; decide)
  rw [hn]
  exact ⟨rfl, hm⟩

theorem getName_comma (h : ReadableName name) :
    getName 44 (fsnodesEscapeName name ++ 44 :: rest) = some (name, 44 :: rest) := getName_escape (.inl rfl) h.1 h.2

theorem getName_paren (h : ReadableName name) :
    getName 41 (fsnodesEscapeName name ++ 41 :: rest) = some (name, 41 :: rest) := getName_escape (.inr rfl) h.1 h.2

theorem parseEntry_text {e : Entry} (h : e.Readable) : parseEntry e.text = some e := by
  cases e with
  | acquire inode sessionid =>
    simp [Entry.text, lit, parseEntry, parsers, doAcquire, eat_cons, getU32_comma, getU32_paren]
  | attr inode mode uid gid atime mtime =>
    simp [Entry.text, lit, parseEntry, parsers, doAttr, eat_cons, getU32_comma, getU32_paren]
  | clone inodeSrc parentDst inodeDst name canOverwrite =>
    simp only [Entry.Readable] at h
    cases canOverwrite <;>
      simp [Entry.text, lit, parseEntry, parsers, doCloneNode, eat_cons, getU32_comma, getU32_paren, getName_comma h]
  | create parent name type mode uid gid rdev inode =>
    simp only [Entry.Readable] at h
    simp [Entry.text, lit, parseEntry, parsers, doCreate, getChar, eat_cons, getU32_comma, getU32_paren, getU32_end,
      getU32_mode, getName_comma h, typeOfChar_char]
  | deleteacl inode type =>
    simp [Entry.text, lit, parseEntry, parsers, doDeleteacl, getChar, eat_cons, getU32_comma, aclTypeOfChar_aclTypeChar]
  | link inode parent name =>
    simp only [Entry.Readable] at h
    simp [Entry.text, lit, parseEntry, parsers, doLink, eat_cons, getU32_comma, getName_paren h]
  | move parentSrc nameSrc parentDst nameDst inode =>
    simp only [Entry.Readable] at h
    simp [Entry.text, lit, parseEntry, parsers, doMove, eat_cons, getU32_comma, getU32_end, getName_comma h.1,
      getName_paren h.2]
  | purge inode => simp [Entry.text, lit, parseEntry, parsers, doPurge, eat_cons, getU32_paren]
  | release inode sessionid =>
    simp [Entry.text, lit, parseEntry, parsers, doRelease, eat_cons, getU32_comma, getU32_paren]
  | setacl inode type aclString =>
    simp only [Entry.Readable] at h
    simp [Entry.text, lit, parseEntry, parsers, doSetacl, getChar, eat_cons, getU32_comma, getPath_plain h]
  | setpath inode path =>
    simp only [Entry.Readable] at h
    simp [Entry.text, lit, parseEntry, parsers, doSetpath, eat_cons, getU32_comma, getPath_escape (.inr rfl) h]
  | setxattr inode name value mode =>
    simp only [Entry.Readable] at h
    simp [Entry.text, lit, parseEntry, parsers, doSetxattr, eat_cons, getU32_comma, getU32_paren, getName_comma h,
      getData_escape (.inl rfl)]
  | symlink parent name path uid gid inode =>
    simp only [Entry.Readable] at h
    simp [Entry.text, lit, parseEntry, parsers, doSymlink, eat_cons, getU32_comma, getU32_paren, getU32_end,
      getName_comma h.1, getPath_escape (.inl rfl) h.2]
  | setrichacl inode aclString =>
    simp only [Entry.Readable] at h
    simp [Entry.text, lit, parseEntry, parsers, doSetrichacl, eat_cons, getU32_comma, getPath_plain h]
  | undel inode => simp [Entry.text, lit, parseEntry, parsers, doUndel, eat_cons, getU32_paren]
  | unlink parent name inode =>
    simp only [Entry.Readable] at h
    simp [Entry.text, lit, parseEntry, parsers, doUnlink, eat_cons, getU32_comma, getU32_end, getName_paren h]

theorem restoreLine_fsChangelog {l : Logged} (h : l.entry.Readable) (hf : l.entry.text.length < maxEntrySize) :
    restoreLine (lit ": " ++ fsChangelog l) = some l := by
  have ht : l.entry.text.take (maxEntrySize - 1) = l.entry.text := take_of_length_le (by omega)
  have hts (rest : Name) : getU32 (u32 l.ts ++ 124 :: rest) = (l.ts, 124 :: rest) := getU32_u32 _ _ (by simp; decide)
  simp [restoreLine, fsChangelog, ht, lit, eat_cons, hts, parseEntry_text h]

end SaunaFS.Changelog
