/-
Access control lists of nodes (`common/richacl.h`, `common/richacl.cc`): the permission check, and the list and mode
that a new node inherits from its directory.
-/
import Mathlib.Tactic

namespace SaunaFS.Namespace

open BitVec

/-! ## Entries -/

/-- `RichACL::Ace`; flags and mask are bit fields of 9 and 21 bits -/
structure Ace where
  type : BitVec 2
  flags : BitVec 32
  mask : BitVec 32
  id : UInt32
deriving DecidableEq

namespace Ace

def fileInherit : BitVec 32 := 0x1
def directoryInherit : BitVec 32 := 0x2
def noPropagateInherit : BitVec 32 := 0x4
def inheritOnly : BitVec 32 := 0x8
def identifierGroup : BitVec 32 := 0x40
def inherited : BitVec 32 := 0x80
def specialWho : BitVec 32 := 0x100

def inheritanceFlags : BitVec 32 := 0x8f

def deleteChild : BitVec 32 := 0x40

def posixModeRead : BitVec 32 := 0x1

/-- `kPosixModeWrite`: write and append data, delete children -/
def posixModeWrite : BitVec 32 := 0x46

def posixModeExec : BitVec 32 := 0x20

def posixAlwaysAllowed : BitVec 32 := 0x120080

def posixOwnerAllowed : BitVec 32 := 0xc0100

variable (a : Ace)

def has (flag : BitVec 32) : Bool := a.flags &&& flag != 0

def isAllow : Bool := a.type == 0

def isDeny : Bool := a.type == 1

def isOwner : Bool := a.has specialWho && a.id == 0

def isGroup : Bool := a.has specialWho && a.id == 1

def isEveryone : Bool := a.has specialWho && a.id == 2

def isUnixUser : Bool := !a.has specialWho && !a.has identifierGroup

def isUnixGroup : Bool := !a.has specialWho && a.has identifierGroup

def isInheritOnly : Bool := a.has inheritOnly

def isInheritable : Bool := a.has (fileInherit ||| directoryInherit)

def isSameIdentifier (a b : Ace) : Bool :=
  (a.flags ^^^ b.flags) &&& (specialWho ||| identifierGroup) == 0 && a.id == b.id

def inheritsToDirectory : Bool := a.has directoryInherit || (a.has fileInherit && !a.has noPropagateInherit)

end Ace

open Ace

/-! ## Lists -/

structure RichAcl where
  ownerMask : BitVec 32
  groupMask : BitVec 32
  otherMask : BitVec 32
  flags : BitVec 16
  aceList : List Ace
deriving DecidableEq

namespace RichAcl

def autoInherit : BitVec 16 := 0x01
def isProtected : BitVec 16 := 0x02
def writeThrough : BitVec 16 := 0x40
def masked : BitVec 16 := 0x80
def autoSetMode : BitVec 16 := 0x20

variable (acl : RichAcl) (a : Ace)

def has (flag : BitVec 16) : Bool := acl.flags &&& flag != 0

/-- `convertMode2Mask`: the lowest three bits of a mode as permissions -/
def convertMode2Mask (mode : BitVec 16) : BitVec 32 :=
  (if mode.getLsbD 2 then posixModeRead else 0) ||| (if mode.getLsbD 1 then posixModeWrite else 0) |||
    if mode.getLsbD 0 then posixModeExec else 0

def convertMask2Mode (mask : BitVec 32) : BitVec 16 :=
  (if mask &&& posixModeRead ≠ 0 then 4 else 0) ||| (if mask &&& posixModeWrite ≠ 0 then 2 else 0) |||
    if mask &&& posixModeExec ≠ 0 then 1 else 0

/-- three groups of permissions as the lowest nine bits of a mode -/
def permissionBits (owner group other : BitVec 32) : BitVec 16 :=
  convertMask2Mode owner <<< 6 ||| convertMask2Mode group <<< 3 ||| convertMask2Mode other

def getMode : BitVec 16 := permissionBits acl.ownerMask acl.groupMask acl.otherMask

/-- the effect of an entry on a mask, in the loops that go through the list from its end -/
def allowOrDeny (allowed : BitVec 32) : BitVec 32 :=
  if a.isAllow then allowed ||| a.mask else if a.isDeny then allowed &&& ~~~a.mask else allowed

def allowedToWho (who : Ace) (acl : RichAcl) : BitVec 32 :=
  acl.aceList.foldr (fun a allowed =>
    if !a.isInheritOnly && (a.isSameIdentifier who || a.isEveryone) then allowOrDeny a allowed else allowed) 0

def groupClassAllowed : BitVec 32 :=
  let entries := acl.aceList.filter fun a => !a.isInheritOnly && !a.isOwner
  let everyoneAllowed := (entries.filter isEveryone).foldr allowOrDeny 0
  let others := entries.filter fun a => !a.isEveryone
  let allowed := others.foldr (fun a allowed => allowed ||| acl.allowedToWho a) 0
  if others.any isGroup then allowed else allowed ||| everyoneAllowed

/-- the loop of `computeMaxMasks` over the entries from the last to the first -/
def maxMasks (gmask : BitVec 32) (a : Ace) (masks : BitVec 32 × BitVec 32 × BitVec 32) :
    BitVec 32 × BitVec 32 × BitVec 32 :=
  let (owner, group, other) := masks
  if a.isInheritOnly then masks
  else if a.isOwner then (allowOrDeny a owner, group, other)
  else if a.isEveryone then
    if a.isAllow then (owner ||| a.mask, group ||| (a.mask &&& gmask), other ||| a.mask)
    else if a.isDeny then (owner &&& ~~~a.mask, group &&& ~~~a.mask, other &&& ~~~a.mask)
    else masks
  else if a.isAllow then (owner ||| (a.mask &&& gmask), group ||| (a.mask &&& gmask), other)
  else masks

def computeMaxMasks : RichAcl :=
  let limits := acl.aceList.any fun a => !a.isInheritOnly && !a.isOwner && !a.isEveryone && a.isDeny
  let gmask := if limits then acl.groupClassAllowed else allOnes 32
  let masks := acl.aceList.foldr (maxMasks gmask) (0, 0, 0)
  { acl with
    ownerMask := masks.1
    groupMask := masks.2.1
    otherMask := masks.2.2
    flags := acl.flags &&& ~~~(writeThrough ||| masked) }

/-- an entry as a new directory gets it -/
def inheritedByDirectory : Ace :=
  if a.has noPropagateInherit then { a with flags := a.flags &&& ~~~inheritanceFlags }
  else if a.has directoryInherit then { a with flags := a.flags &&& ~~~inheritOnly }
  else { a with flags := a.flags ||| inheritOnly }

/-- an entry as a new file gets it -/
def inheritedByFile : Ace :=
  { a with flags := a.flags &&& ~~~inheritanceFlags, mask := a.mask &&& ~~~deleteChild }

def inherit (dirAcl : RichAcl) (isDir : Bool) : RichAcl :=
  let entries :=
    if isDir then (dirAcl.aceList.filter inheritsToDirectory).map inheritedByDirectory
    else (dirAcl.aceList.filter fun a => a.has fileInherit).map inheritedByFile
  if dirAcl.has autoInherit then
    ⟨0, 0, 0, autoInherit, entries.map fun a => { a with flags := a.flags ||| inherited }⟩
  else ⟨0, 0, 0, 0, entries.map fun a => { a with flags := a.flags &&& ~~~inherited }⟩

/-! ## Lists that say no more than a mode -/

/-- what the loop of `equivMode` has found out about the three classes -/
structure Classes where
  ownerAllowed : BitVec 32
  ownerDefined : BitVec 32
  groupAllowed : BitVec 32
  groupDefined : BitVec 32
  everyoneAllowed : BitVec 32
  everyoneDefined : BitVec 32

variable (s : Classes)

def equivOwner (a : Ace) : Option Classes :=
  let x := a.mask &&& ~~~s.ownerDefined
  if a.isAllow then
    if x &&& (s.groupDefined &&& ~~~s.groupAllowed) ≠ 0 then none
    else some { s with ownerAllowed := s.ownerAllowed ||| x, ownerDefined := s.ownerDefined ||| x }
  else if x &&& s.groupAllowed ≠ 0 then none
  else some { s with ownerDefined := s.ownerDefined ||| x }

def equivEveryone : Classes :=
  { s with
    groupAllowed := if a.isAllow then s.groupAllowed ||| (a.mask &&& ~~~s.groupDefined) else s.groupAllowed
    everyoneAllowed := if a.isAllow then s.everyoneAllowed ||| (a.mask &&& ~~~s.everyoneDefined) else s.everyoneAllowed
    groupDefined := s.groupDefined ||| a.mask
    everyoneDefined := s.everyoneDefined ||| a.mask }

def equivGroup : Classes :=
  let x := a.mask &&& ~~~s.groupDefined
  { s with
    groupAllowed := if a.isAllow then s.groupAllowed ||| x else s.groupAllowed
    groupDefined := s.groupDefined ||| x }

/-- one entry in the loop of `equivMode` -/
def equivAce (a : Ace) : Option Classes :=
  if a.flags &&& ~~~specialWho ≠ 0 then none
  else if a.isOwner then equivOwner s a
  else if a.isEveryone then (equivOwner s a).map (equivEveryone a)
  else if a.isGroup then some (equivGroup a s)
  else none

/-- the masks of the list itself, if it has any -/
def applyOwnMasks : Classes :=
  if acl.has masked then
    { s with
      ownerAllowed := if acl.has writeThrough then acl.ownerMask else s.ownerAllowed &&& acl.ownerMask
      everyoneAllowed := if acl.has writeThrough then acl.otherMask else s.everyoneAllowed &&& acl.otherMask
      groupAllowed := s.groupAllowed &&& acl.groupMask }
  else s

/-- `equivMode`: the mode that says the same as the list, if there is one -/
def equivMode (mode : BitVec 16) (isDir : Bool) : Option (BitVec 16) :=
  let x := if isDir then 0 else deleteChild
  let always := posixAlwaysAllowed ||| x
  if acl.flags &&& ~~~(writeThrough ||| masked) ≠ 0 then none
  else if acl.has autoSetMode && acl.aceList.isEmpty then some mode
  else
    (acl.aceList.foldlM equivAce ⟨0, always ||| posixOwnerAllowed, 0, always, 0, always⟩).bind fun s =>
      if s.groupAllowed &&& ~~~s.ownerDefined ≠ 0 then none
      else
        let s := acl.applyOwnMasks s
        let mode := (mode &&& ~~~0o777) ||| permissionBits s.ownerAllowed s.groupAllowed s.everyoneAllowed
        if (convertMode2Mask (mode >>> 6) ^^^ s.ownerAllowed) &&& ~~~x ≠ 0 ∨
            (convertMode2Mask (mode >>> 3) ^^^ s.groupAllowed) &&& ~~~x ≠ 0 ∨
            (convertMode2Mask mode ^^^ s.everyoneAllowed) &&& ~~~x ≠ 0 then none
        else some mode

/-- the inherited list of a node whose mode does not say it all -/
def limitedTo (mode : BitVec 16) (acl : RichAcl) : RichAcl :=
  let acl := if acl.has autoInherit then { acl with flags := acl.flags ||| isProtected } else acl
  let acl := acl.computeMaxMasks
  { acl with
    flags := acl.flags ||| masked
    ownerMask := acl.ownerMask &&& convertMode2Mask (mode >>> 6)
    groupMask := acl.groupMask &&& convertMode2Mask (mode >>> 3)
    otherMask := acl.otherMask &&& convertMode2Mask mode }

/-- `inheritInode`: the mode and, if one is needed, the list of a new node -/
def inheritInode (dirAcl : RichAcl) (mode umask : BitVec 16) (isDir : Bool) : BitVec 16 × Option RichAcl :=
  let acl := dirAcl.inherit isDir
  if acl.aceList.isEmpty then (mode &&& ~~~umask, none)
  else
    match acl.equivMode mode isDir with
    | some m => (mode &&& m, none)
    | none => ((acl.limitedTo mode).getMode, some (acl.limitedTo mode))

/-! ## Changes of a list -/

/-- what a mask must not hold on a node that is no directory -/
def withoutDeleteChild (isDir : Bool) (mask : BitVec 32) :
    BitVec 32 := if isDir then mask else mask &&& ~~~deleteChild

def setMode (mode : BitVec 16) (isDir : Bool) : RichAcl :=
  { acl with
    flags := acl.flags ||| (masked ||| writeThrough)
    ownerMask := withoutDeleteChild isDir (convertMode2Mask (mode >>> 6))
    groupMask := withoutDeleteChild isDir (convertMode2Mask (mode >>> 3))
    otherMask := withoutDeleteChild isDir (convertMode2Mask mode) }

def checkInheritFlags (isDirectory : Bool) : Bool :=
  acl.aceList.all (fun a => !(a.isInheritOnly && !a.isInheritable)) &&
    (isDirectory || acl.aceList.all fun a => !(a.isInheritOnly || a.isInheritable))

/-- whether `createExplicitInheritance` splits an entry -/
def isSplit : Bool := !(a.isInheritOnly || !a.isInheritable)

/-- `createExplicitInheritance`: what is inherited from an entry goes to an entry of its own at the end -/
def createExplicitInheritance : RichAcl :=
  { acl with
    aceList :=
      acl.aceList.map (fun a =>
        if isSplit a then
          { a with flags := a.flags &&& ~~~(inheritOnly ||| fileInherit ||| directoryInherit) }
        else a) ++
      (acl.aceList.filter isSplit).map fun a => { a with flags := a.flags ||| inheritOnly } }

/-- `removeInheritOnly`: take out the entries with the flag, or those without it -/
def removeInheritOnly (withFlagSet : Bool) : RichAcl :=
  { acl with aceList := acl.aceList.filter fun a => a.isInheritOnly != withFlagSet }

/-! ## Permissions -/

/-- the variables of the loop of `checkPermission` -/
structure Check where
  mask : BitVec 32
  denied : BitVec 32
  inClass : Bool

/-- the label at `entry_matches_everyone` -/
def Check.entry (s : Check) (a : Ace) (aceMask : BitVec 32) : Check :=
  { s with
    denied := if a.isDeny then s.denied ||| (aceMask &&& s.mask) else s.denied
    mask := s.mask &&& ~~~aceMask }

/-- one entry in the loop of `checkPermission`; leaving the loop once nothing is asked any more changes nothing -/
def checkAce (ownerUid ownerGid uid : UInt32) (groups : List UInt32) (s : Check) (a : Ace) : Check :=
  let groupMask := if acl.has masked && a.isAllow then a.mask &&& acl.groupMask else a.mask
  let inClass := { s with inClass := true }
  if a.isInheritOnly then s
  else if a.isOwner then if ownerUid = uid then inClass.entry a a.mask else s
  else if a.isGroup then if ownerGid ∈ groups then inClass.entry a groupMask else s
  else if a.isUnixUser then
    if uid ≠ a.id then s else if uid = ownerUid then inClass.entry a a.mask else inClass.entry a groupMask
  else if a.isUnixGroup then if a.id ∈ groups then inClass.entry a groupMask else s
  else s.entry a a.mask

def checkPermission (requested : BitVec 32) (ownerUid ownerGid uid : UInt32) (groups : List UInt32) : Bool :=
  if acl.has masked && acl.has writeThrough && ownerUid == uid then requested &&& ~~~acl.ownerMask == 0
  else
    let start : Check := ⟨requested, 0, !acl.has masked || decide (ownerGid ∈ groups)⟩
    let s := acl.aceList.foldl (acl.checkAce ownerUid ownerGid uid groups) start
    let denied := s.denied ||| s.mask
    if !acl.has masked then denied == 0
    else if uid = ownerUid then denied ||| (requested &&& ~~~acl.ownerMask) == 0
    else if s.inClass then denied ||| (requested &&& ~~~acl.groupMask) == 0
    else if acl.has writeThrough then requested &&& ~~~acl.otherMask == 0
    else denied ||| (requested &&& ~~~acl.otherMask) == 0

/-! ## Inheriting twice -/

variable {i : ℕ} {mask : BitVec 32} {mode : BitVec 16}

theorem getLsbD_0777 : (0o777#16).getLsbD i = decide (i < 9) := by
  by_cases hi : i < 16
  · interval_cases i <;> rfl
  · rw [getLsbD_of_ge _ _ (by omega)]
    simp only [Bool.false_eq, decide_eq_false_iff_not]
    omega

theorem getLsbD_modeBits (r w x : Bool) :
    let mode : BitVec 16 := (if r then 4 else 0) ||| (if w then 2 else 0) ||| if x then 1 else 0
    mode.getLsbD 2 = r ∧ mode.getLsbD 1 = w ∧ mode.getLsbD 0 = x := by
  revert r w x
  decide

theorem getLsbD_convertMask2Mode (mask : BitVec 32) :
    (convertMask2Mode mask).getLsbD 2 = decide (mask &&& posixModeRead ≠ 0) ∧
      (convertMask2Mode mask).getLsbD 1 = decide (mask &&& posixModeWrite ≠ 0) ∧
      (convertMask2Mode mask).getLsbD 0 = decide (mask &&& posixModeExec ≠ 0) := by
  have h := getLsbD_modeBits (decide (mask &&& posixModeRead ≠ 0)) (decide (mask &&& posixModeWrite ≠ 0))
    (decide (mask &&& posixModeExec ≠ 0))
  unfold convertMask2Mode
  simpa only [decide_eq_true_eq] using h

theorem and_convertMode2Mask_class : (mask &&& convertMode2Mask mode) &&& posixModeRead =
        (if mode.getLsbD 2 then mask &&& posixModeRead else 0) ∧
      (mask &&& convertMode2Mask mode) &&& posixModeWrite =
        (if mode.getLsbD 1 then mask &&& posixModeWrite else 0) ∧
      (mask &&& convertMode2Mask mode) &&& posixModeExec =
        (if mode.getLsbD 0 then mask &&& posixModeExec else 0) := by
  simp only [BitVec.and_assoc]
  unfold convertMode2Mask
  cases mode.getLsbD 2 <;> cases mode.getLsbD 1 <;> cases mode.getLsbD 0 <;>
    exact ⟨by simp [posixModeRead, posixModeWrite, posixModeExec],
      by simp [posixModeRead, posixModeWrite, posixModeExec],
      by simp [posixModeRead, posixModeWrite, posixModeExec]⟩

theorem getLsbD_of_convertMask2Mode (hi : i < 3)
    (h : (convertMask2Mode (mask &&& convertMode2Mask mode)).getLsbD i) : mode.getLsbD i := by
  obtain ⟨hr, hw, hx⟩ := getLsbD_convertMask2Mode (mask &&& convertMode2Mask mode)
  obtain ⟨hr', hw', hx'⟩ := and_convertMode2Mask_class
  rw [hr'] at hr
  rw [hw'] at hw
  rw [hx'] at hx
  by_contra hn
  obtain rfl | rfl | rfl : i = 0 ∨ i = 1 ∨ i = 2 := by omega
  · rw [hx, if_neg hn] at h
    simp at h
  · rw [hw, if_neg hn] at h
    simp at h
  · rw [hr, if_neg hn] at h
    simp at h

theorem getLsbD_convertMask2Mode_of_ge (mask : BitVec 32) (hi : 3 ≤ i) : (convertMask2Mode mask).getLsbD i = false := by
  have hb : ∀ r w x : Bool, ((if r then 4 else 0 : BitVec 16) ||| (if w then 2 else 0) ||| if x then 1 else 0) &&&
      7 = (if r then 4 else 0) ||| (if w then 2 else 0) ||| if x then 1 else 0 := by decide
  have h := hb (decide (mask &&& posixModeRead ≠ 0)) (decide (mask &&& posixModeWrite ≠ 0))
    (decide (mask &&& posixModeExec ≠ 0))
  simp only [decide_eq_true_eq] at h
  have hs : (7#16).getLsbD i = false := by
    by_cases hl : i < 16
    · interval_cases i <;> rfl
    · exact getLsbD_of_ge _ _ (by omega)
  unfold convertMask2Mode
  rw [← h, getLsbD_and]
  exact (congrArg (_ && ·) hs).trans (Bool.and_false _)

theorem getLsbD_permissionBits {owner group other : BitVec 32} : (permissionBits owner group other).getLsbD i =
      if i < 3 then (convertMask2Mode other).getLsbD i
      else if i < 6 then (convertMask2Mode group).getLsbD (i - 3)
      else if i < 9 then (convertMask2Mode owner).getLsbD (i - 6) else false := by
  unfold permissionBits
  simp only [getLsbD_or, getLsbD_shiftLeft]
  split_ifs with h3 h6 h9
  · simp [show i < 6 by omega, h3]
  · rw [getLsbD_convertMask2Mode_of_ge other (by omega)]
    simp [h6, h3, show i < 16 by omega]
  · rw [getLsbD_convertMask2Mode_of_ge other (by omega), getLsbD_convertMask2Mode_of_ge group (by omega)]
    simp [h6, show i < 16 by omega]
  · rw [getLsbD_convertMask2Mode_of_ge other (by omega), getLsbD_convertMask2Mode_of_ge group (by omega),
      getLsbD_convertMask2Mode_of_ge owner (by omega)]
    simp

theorem convertMask2Mode_convertMode2Mask {isDir : Bool} (hi : i < 3) :
    (convertMask2Mode (withoutDeleteChild isDir (convertMode2Mask mode))).getLsbD i = mode.getLsbD i := by
  have hb : ∀ r w x : Bool, let mask := withoutDeleteChild isDir ((if r then posixModeRead else 0) |||
        (if w then posixModeWrite else 0) ||| if x then posixModeExec else 0)
      decide (mask &&& posixModeRead ≠ 0) = r ∧ decide (mask &&& posixModeWrite ≠ 0) = w ∧
        decide (mask &&& posixModeExec ≠ 0) = x := by
    cases isDir <;> decide
  obtain ⟨hr, hw, hx⟩ := hb (mode.getLsbD 2) (mode.getLsbD 1) (mode.getLsbD 0)
  obtain ⟨hr', hw', hx'⟩ := getLsbD_convertMask2Mode (withoutDeleteChild isDir (convertMode2Mask mode))
  obtain rfl | rfl | rfl : i = 0 ∨ i = 1 ∨ i = 2 := by omega
  · exact hx'.trans hx
  · exact hw'.trans hw
  · exact hr'.trans hr

theorem getMode_setMode (mode : BitVec 16) (isDir : Bool) : (acl.setMode mode isDir).getMode = mode &&& 0o777 := by
  refine eq_of_getLsbD_eq fun i _ => ?_
  unfold getMode setMode
  rw [getLsbD_permissionBits, getLsbD_and, show (0o777 : BitVec 16) = 0o777#16 from rfl, getLsbD_0777]
  split_ifs with h3 h6 h9
  · rw [convertMask2Mode_convertMode2Mask h3]
    simp [show i < 9 by omega]
  · rw [convertMask2Mode_convertMode2Mask (by omega), getLsbD_ushiftRight, show 3 + (i - 3) = i by omega]
    simp [show i < 9 by omega]
  · rw [convertMask2Mode_convertMode2Mask (by omega), getLsbD_ushiftRight, show 6 + (i - 6) = i by omega]
    simp [h9]
  · simp [h9]

theorem getMode_and : acl.getMode &&& 0o777 = acl.getMode := by
  refine eq_of_getLsbD_eq fun i _ => ?_
  rw [getLsbD_and, show (0o777 : BitVec 16) = 0o777#16 from rfl, getLsbD_0777]
  by_cases h9 : i < 9
  · simp [h9]
  · rw [getMode, getLsbD_permissionBits]
    simp [h9, show ¬ i < 3 by omega, show ¬ i < 6 by omega]

theorem and_getMode_limitedTo (mode : BitVec 16) :
    mode &&& (acl.limitedTo mode).getMode = (acl.limitedTo mode).getMode := by
  refine eq_of_getLsbD_eq fun i _ => ?_
  rw [getLsbD_and]
  suffices h : (acl.limitedTo mode).getMode.getLsbD i → mode.getLsbD i = true by
    cases hb : (acl.limitedTo mode).getMode.getLsbD i with
    | false => rw [Bool.and_false]
    | true => rw [h hb, Bool.and_true]
  intro hb
  obtain ⟨owner, how⟩ : ∃ m, (acl.limitedTo mode).ownerMask = m &&& convertMode2Mask (mode >>> 6) := ⟨_, rfl⟩
  obtain ⟨group, hg⟩ : ∃ m, (acl.limitedTo mode).groupMask = m &&& convertMode2Mask (mode >>> 3) := ⟨_, rfl⟩
  obtain ⟨other, ho⟩ : ∃ m, (acl.limitedTo mode).otherMask = m &&& convertMode2Mask mode := ⟨_, rfl⟩
  rw [getMode, getLsbD_permissionBits, how, hg, ho] at hb
  split_ifs at hb with h3 h6 h9
  · exact getLsbD_of_convertMask2Mode h3 hb
  · have h := getLsbD_of_convertMask2Mode (by omega) hb
    rwa [getLsbD_ushiftRight, show 3 + (i - 3) = i by omega] at h
  · have h := getLsbD_of_convertMask2Mode (by omega) hb
    rwa [getLsbD_ushiftRight, show 6 + (i - 6) = i by omega] at h

end RichAcl

end SaunaFS.Namespace
