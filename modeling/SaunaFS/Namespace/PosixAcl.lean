/-
Access control lists as text (`common/richacl_string.cc`), POSIX access control lists (`common/access_control_list.cc`)
and their conversion (`common/richacl_posix_convert.cc`, `richacl_compat.cc`).

Bits without a letter are not written: among them is `kAutoSetMode`, with which a client asks that the mode be kept. A
POSIX list comes from a client as it is, so the rights may be any four bits, and the entries may be in any order.
-/
import SaunaFS.Changelog.Text

namespace SaunaFS.Namespace

open Ace

open Changelog (u32 lit eat ReadablePlain readablePlain_cons)

/-! ## Bits as letters -/

/-- the letters of a bit vector; a bit that has been written is not written again -/
def writeLetters {w : ℕ} : List (UInt8 × ℕ) → BitVec w → Name
  | [], _ => []
  | (c, i) :: table, v => if v.getLsbD i then c :: writeLetters table (v &&& ~~~BitVec.twoPow w i)
      else writeLetters table v

/-! ## Writing lists -/

/-- `kAclFlagBits`, as letters and positions of bits -/
def aclFlagBits : List (UInt8 × ℕ) := [(109, 7), (119, 6), (97, 0), (112, 1), (100, 2)]

def aceFlagBits : List (UInt8 × ℕ) := [(102, 0), (100, 1), (110, 2), (105, 3), (97, 7), (83, 8)]

/-- `kMaskFlags`; the letters of files and directories stand for the same bits -/
def maskFlags : List (UInt8 × ℕ) :=
  [(114, 0), (114, 0), (119, 1), (119, 1), (112, 2), (112, 2), (120, 5), (100, 6), (68, 16), (97, 7), (65, 8), (82, 3),
    (87, 4), (99, 17), (67, 18), (111, 19), (83, 20), (101, 9), (69, 10)]

namespace Ace

/-- `writeType`: a type without a letter is written as a byte -/
def writeType (type : BitVec 2) : Name :=
  if type = 0 then [65] else if type = 1 then [68] else [UInt8.ofNat type.toNat]

def writeIdentifier (a : Ace) : Name :=
  if a.has specialWho then
    if a.id = 0 then [79] else if a.id = 1 then [71] else if a.id = 2 then [69] else []
  else if a.has identifierGroup then 103 :: u32 a.id
  else 117 :: u32 a.id

def toString (a : Ace) : Name :=
  writeLetters maskFlags a.mask ++ 58 :: writeLetters aceFlagBits (a.flags &&& ~~~(identifierGroup ||| specialWho)) ++
    58 :: writeType a.type ++ 58 :: a.writeIdentifier ++ [47]

end Ace

def RichAcl.toString (acl : RichAcl) : Name :=
  writeLetters aclFlagBits acl.flags ++ 124 :: writeLetters maskFlags acl.ownerMask ++
    124 :: writeLetters maskFlags acl.groupMask ++
    124 :: writeLetters maskFlags acl.otherMask ++ 124 :: acl.aceList.flatMap Ace.toString

/-! ## No byte needs escaping -/

theorem readablePlain_writeLetters {w : ℕ} {table : List (UInt8 × ℕ)} (h : ∀ e ∈ table, e.1 ≠ 0 ∧ e.1 ≠ 37 ∧ e.1 ≠ 41)
    (v : BitVec w) : ReadablePlain (writeLetters table v) := by
  induction table generalizing v with
  | nil => simp [writeLetters]
  | cons e table ih =>
    obtain ⟨hh, ht⟩ := List.forall_mem_cons.1 h
    rw [writeLetters]
    split_ifs with hv
    · exact readablePlain_cons.2 ⟨hh, ih ht _⟩
    · exact ih ht v

theorem readablePlain_maskFlags {w : ℕ} {v : BitVec w} : ReadablePlain (writeLetters maskFlags v) :=
  readablePlain_writeLetters (by decide) v

theorem Ace.readablePlain_toString {a : Ace} : ReadablePlain a.toString := by
  have ht : ReadablePlain (writeType a.type) := by
    have ha : ∀ type : BitVec 2, ∀ b ∈ writeType type, b ≠ 0 ∧ b ≠ 37 ∧ b ≠ 41 := by decide +kernel
    exact ha a.type
  have hw : ReadablePlain a.writeIdentifier := by
    unfold writeIdentifier
    split_ifs <;> simp
  have hf : ReadablePlain (writeLetters aceFlagBits (a.flags &&& ~~~(identifierGroup ||| specialWho))) :=
    readablePlain_writeLetters (by decide) _
  simp [toString, readablePlain_maskFlags, hf, ht, hw]

theorem RichAcl.toString_plain {acl : RichAcl} : ReadablePlain acl.toString := by
  have ha : ReadablePlain (acl.aceList.flatMap Ace.toString) := by
    intro b hb
    obtain ⟨a, -, hb⟩ := List.mem_flatMap.1 hb
    exact a.readablePlain_toString b hb
  have hf : ReadablePlain (writeLetters aclFlagBits acl.flags) := readablePlain_writeLetters (by decide) _
  simp [toString, readablePlain_maskFlags, hf, ha]

/-! ## POSIX lists -/

/-- `AccessControlList::Entry`; type 0 is a named user and type 1 a named group -/
structure PosixEntry where
  type : BitVec 4
  id : UInt32
  accessRights : BitVec 4
deriving DecidableEq

/-- `AccessControlList`, with the four parts of `basic_permissions_` -/
structure AccessControlList where
  list : List PosixEntry
  owner : BitVec 4
  group : BitVec 4
  other : BitVec 4
  mask : BitVec 4
deriving DecidableEq

def namedUser : BitVec 4 := 0
def namedGroup : BitVec 4 := 1

def maskUnset : BitVec 4 := 0xF

namespace PosixEntry

/-- the order of the entries of a list, as far as they are for different users and groups -/
def Before (a b : PosixEntry) : Prop := a.type < b.type ∨ a.type = b.type ∧ a.id < b.id

instance (a b : PosixEntry) : Decidable (a.Before b) := inferInstanceAs (Decidable (_ ∨ _))

def isFor (e : PosixEntry) (type : BitVec 4) (id : UInt32) : Bool := e.type = type && e.id = id

end PosixEntry

namespace AccessControlList

variable (acl : AccessControlList)

def minimalAcl : Bool := acl.mask = maskUnset && acl.list.isEmpty

/-! ## Text -/

def accessMaskToChar (m : BitVec 4) : UInt8 := if 7 < m then 63 else 48 + UInt8.ofNat m.toNat

def entryText (e : PosixEntry) : Name :=
  if e.type = namedUser then lit "/u:" ++ u32 e.id ++ [58, accessMaskToChar e.accessRights]
  else if e.type = namedGroup then lit "/g:" ++ u32 e.id ++ [58, accessMaskToChar e.accessRights]
  else []

def maskText (mask : BitVec 4) : Name := if mask = maskUnset then [] else lit "/m::" ++ [accessMaskToChar mask]

def toString : Name :=
  65 :: accessMaskToChar acl.owner :: accessMaskToChar acl.group :: accessMaskToChar acl.other ::
    (acl.list.flatMap entryText ++ maskText acl.mask)

theorem plain_accessMaskToChar {m : BitVec 4} :
    accessMaskToChar m ≠ 0 ∧ accessMaskToChar m ≠ 37 ∧ accessMaskToChar m ≠ 41 := by
  revert m
  decide

theorem toString_plain {acl : AccessControlList} : ReadablePlain acl.toString := by
  have he : ReadablePlain (acl.list.flatMap entryText) := by
    intro b hb
    obtain ⟨e, -, hb⟩ := List.mem_flatMap.1 hb
    have hp : ReadablePlain (entryText e) := by
      unfold entryText
      split_ifs <;> simp [lit, plain_accessMaskToChar]
    exact hp b hb
  have hm : ReadablePlain (maskText acl.mask) := by
    unfold maskText
    split_ifs <;> simp [lit, plain_accessMaskToChar]
  simp [toString, plain_accessMaskToChar, he, hm]

end AccessControlList

/-! ## Conversion -/

namespace RichAcl

/-- `changeMask` for the entry at an index -/
def changeMask (l : List Ace) (i : ℕ) (a : Ace) (mask : BitVec 32) : List Ace :=
  if mask ≠ 0 ∧ a.mask = mask then l.set i { a with flags := a.flags &&& ~~~inheritOnly }
  else if mask &&& ~~~posixAlwaysAllowed ≠ 0 then
    if a.isInheritable then
      l.take i ++ [{ a with flags := a.flags ||| inheritOnly },
        { a with flags := a.flags &&& (~~~inheritanceFlags ||| inherited), mask := mask }] ++ l.drop (i + 1)
    else l.set i { a with mask := mask }
  else if a.isInheritable then l.set i { a with flags := a.flags ||| inheritOnly }
  else l.eraseIdx i

/-- the backward loop of `isolateWho`, which looks for an entry that denies and can take more; it is over at an entry
that allows what is to be denied -/
def denyPlace (who : Ace) (deny : BitVec 32) : List (Ace × ℕ) → Option (Ace × ℕ)
  | [] => none
  | (a, i) :: l =>
    if a.isInheritOnly then denyPlace who deny l
    else if a.isDeny then if a.isSameIdentifier who then some (a, i) else denyPlace who deny l
    else if a.isAllow && (a.mask &&& deny != 0) then none
    else denyPlace who deny l

def isolateWho (who : Ace) (deny : BitVec 32) (l : List Ace) : List Ace :=
  let deny := l.foldl (fun deny a =>
    if !a.isInheritOnly && a.isSameIdentifier who then deny &&& ~~~a.mask else deny) deny
  if deny = 0 then l
  else
    match denyPlace who deny l.dropLast.zipIdx.reverse with
    | some (a, i) => changeMask l i a (a.mask ||| deny)
    | none => l.dropLast ++ [⟨1, who.flags &&& ~~~inheritanceFlags, deny, who.id⟩] ++ l.getLast?.toList

/-- the loop of `isolateGroupClass` over the entries below an index -/
def isolateEntries (deny : BitVec 32) : ℕ → List Ace → List Ace
  | 0, l => l
  | i + 1, l =>
    match l[i]? with
    | none => isolateEntries deny i l
    | some a => isolateEntries deny i (if a.isInheritOnly || a.isOwner || a.isGroup then l else isolateWho a deny l)

def isolateGroupClass (groupMask deny : BitVec 32) (l : List Ace) : List Ace :=
  match l.getLast? with
  | none => l
  | some a =>
    if a.isInheritOnly || !a.isEveryone then l
    else
      let deny := deny ||| (a.mask &&& ~~~groupMask)
      if deny = 0 then l
      else
        let l := isolateWho ⟨0, specialWho, 0, 1⟩ deny l
        isolateEntries deny (l.length - 1) l

/-- the permissions of one entry of a POSIX list -/
def posixMask (isDir : Bool) (rights : BitVec 4) : BitVec 32 :=
  withoutDeleteChild isDir (convertMode2Mask (rights.setWidth 16))

/-- the entry for a named user or group -/
def namedAce (isDir : Bool) (e : PosixEntry) : List Ace :=
  if e.type = namedUser then [⟨0, 0, posixMask isDir e.accessRights, e.id⟩]
  else if e.type = namedGroup then [⟨0, identifierGroup, posixMask isDir e.accessRights, e.id⟩]
  else []

def appendPosixACL (acl : RichAcl) (posix : AccessControlList) (isDir : Bool) : RichAcl :=
  if posix.minimalAcl then
    ⟨posixMask isDir posix.owner, posixMask isDir posix.group, posixMask isDir posix.other, masked ||| writeThrough,
      acl.aceList⟩
  else
    let other := posixMask isDir posix.other
    let list := acl.aceList ++
      [⟨0, specialWho, posixMask isDir posix.owner, 0⟩, ⟨0, specialWho, posixMask isDir posix.group, 1⟩] ++
      posix.list.flatMap (namedAce isDir) ++ [⟨0, specialWho, other, 2⟩]
    let list := isolateWho ⟨0, specialWho, 0, 0⟩ other list
    let new : RichAcl := ⟨0, 0, 0, 0, isolateGroupClass 0 other list⟩
    let new := { new with
      ownerMask := new.allowedToWho ⟨0, specialWho, 0, 0⟩
      groupMask := new.allowedToWho ⟨0, specialWho, 0, 1⟩
      otherMask := new.allowedToWho ⟨0, specialWho, 0, 2⟩ }
    if posix.mask = maskUnset then new else { new with groupMask := posixMask isDir posix.mask, flags := masked }

def appendDefaultPosixACL (acl : RichAcl) (posix : AccessControlList) : RichAcl :=
  let dirAcl := (⟨0, 0, 0, 0, []⟩ : RichAcl).appendPosixACL posix true
  { acl with
    aceList := acl.aceList ++ dirAcl.aceList.map fun a =>
      { a with flags := a.flags ||| (fileInherit ||| directoryInherit ||| inheritOnly) } }

end RichAcl

end SaunaFS.Namespace
