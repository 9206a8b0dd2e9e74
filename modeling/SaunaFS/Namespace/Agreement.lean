/-
The permission bits of a mode and the masks of an access control list. Every function that sets one of them for a node
sets the other to match, whatever the flags of the list are.
-/
import SaunaFS.Namespace.Edits

namespace SaunaFS.Namespace

open Changelog BitVec Option RichAcl

variable {n : FSNode} {mode : BitVec 16} {m : SugidClearMode} {uid attrgid : UInt32} {s : SetMask}

theorem and_not_and_0777 {cleared : BitVec 16} (h : ~~~cleared &&& 0o777 = 0o777) :
    mode &&& ~~~cleared &&& 0o777 = mode &&& 0o777 := by
  rw [BitVec.and_assoc, h]

theorem withPermissions_and {acl : RichAcl} : withPermissions mode acl.getMode &&& 0o777 = acl.getMode := by
  unfold withPermissions
  refine eq_of_getLsbD_eq fun i _ => ?_
  have hm := congrArg (getLsbD · i) acl.getMode_and
  have h777 : (0o777 : BitVec 16).getLsbD i = decide (i < 9) := getLsbD_0777
  simp only [getLsbD_and, getLsbD_or, getLsbD_not, h777] at hm ⊢
  by_cases h9 : i < 9
  · simp [h9]
  · simp only [h9, decide_false, Bool.and_false] at hm ⊢
    exact hm

/-! ## `fs_setattr` -/

theorem SugidClearMode.not_cleared_and : ~~~(m.cleared uid s n attrgid) &&& 0o777 = 0o777 := by
  unfold SugidClearMode.cleared
  cases m <;> dsimp only <;> (try split_ifs) <;> rfl

theorem newMode_and (hs : s.mode = false)
    {attrmode : BitVec 16} : newMode m uid s n attrmode attrgid &&& 0o777 = n.mode &&& 0o777 := by
  unfold newMode
  simp only [hs, Bool.and_false, Bool.false_eq_true, if_false]
  split_ifs
  · exact and_not_and_0777 m.not_cleared_and
  · exact and_not_and_0777 rfl

/-- a new mode is written into the list, and a mode that only loses the set-id bits keeps its permissions -/
theorem agrees_setattr (h : n.Agrees) (m : SugidClearMode) (uid : UInt32) (s : SetMask) (attrmode : BitVec 16)
    (attrgid : UInt32) (acl : RichAcl)
    (ha : (if s.mode then n.acl.map (·.setMode (newMode m uid s n attrmode attrgid) n.isDirectory) else n.acl) =
      some acl) : newMode m uid s n attrmode attrgid &&& 0o777 = acl.getMode := by
  cases hs : s.mode with
  | true =>
    rw [hs, if_pos rfl] at ha
    obtain ⟨old, _, rfl⟩ := map_eq_some_iff.1 ha
    exact (getMode_setMode ..).symm
  | false =>
    rw [hs, if_neg Bool.false_ne_true] at ha
    rw [newMode_and hs, h acl ha]

/-! ## Lists -/

namespace FSNode

theorem agrees_setRichAcl (n : FSNode) (acl a : RichAcl) (h : (n.setRichAcl acl).2 = some a) :
    (n.setRichAcl acl).1 &&& 0o777 = a.getMode := by
  unfold setRichAcl at h ⊢
  split at h
  · cases h
  · split_ifs at h ⊢ with ha
    · obtain rfl := some.inj h
      exact (getMode_setMode ..).symm
    · obtain rfl := some.inj h
      exact withPermissions_and

theorem agrees_setPosixAcl (n : FSNode) (isDefault : Bool) (posix : AccessControlList) :
    (n.setPosixAcl isDefault posix).1 &&& 0o777 = (n.setPosixAcl isDefault posix).2.getMode := by
  cases isDefault with
  | true => exact (getMode_setMode ..).symm
  | false => exact withPermissions_and

theorem getMode_aclWithout {withFlagSet : Bool} {a : RichAcl} (h : n.aclWithout withFlagSet = some a) :
    ∃ acl, n.acl = some acl ∧ a.getMode = acl.getMode := by
  obtain ⟨acl, ha, rfl⟩ := map_eq_some_iff.1 h
  exact ⟨acl, ha, rfl⟩

theorem agrees_deleteAcl (h : n.Agrees) (type : AclType) (a : RichAcl) (hac : n.deleteAcl type = some a) :
    n.mode &&& 0o777 = a.getMode := by
  have hk {withFlagSet : Bool} (ha : (n.aclWithout withFlagSet).filter (fun acl => !acl.aceList.isEmpty) = some a) :
      n.mode &&& 0o777 = a.getMode := by
    obtain ⟨acl, hold, hm⟩ := getMode_aclWithout (filter_eq_some_iff.1 ha).1
    rw [hm, h acl hold]
  cases type with
  | richAcl => cases hac
  | default | access => exact hk hac

end FSNode

/-! ## New nodes -/

namespace Metadata

variable {acl : RichAcl} {umask : BitVec 16}

theorem agrees_inheritInode {dirAcl : RichAcl} {base : BitVec 16} {isDir : Bool}
    (h : (dirAcl.inheritInode base umask isDir).2 = some acl) :
    base &&& ((dirAcl.inheritInode base umask isDir).1 ||| ~~~0o777) &&& 0o777 = acl.getMode := by
  obtain ⟨hm, ha⟩ : (dirAcl.inheritInode base umask isDir).1 = acl.getMode ∧ base &&& acl.getMode = acl.getMode := by
    unfold inheritInode at h ⊢
    dsimp only at h ⊢
    split_ifs at h ⊢
    split at h
    · cases h
    · obtain rfl := some.inj h
      exact ⟨rfl, and_getMode_limitedTo ..⟩
  rw [hm, BitVec.and_assoc, BitVec.and_or_distrib_right, acl.getMode_and]
  exact (congrArg (base &&& ·) (or_zero ..)).trans ha

theorem agrees_newModeAcl {p : FSNode} {type : NodeType} {inheritacl : AclInheritance}
    (h : (newModeAcl p type mode umask inheritacl).2 = some acl) :
    (newModeAcl p type mode umask inheritacl).1 &&& 0o777 = acl.getMode := by
  unfold newModeAcl at h ⊢
  cases hp : (if inheritacl = .inheritAcl then p.acl else none) with
  | none =>
    rw [hp] at h
    cases h
  | some parentAcl =>
    rw [hp] at h
    exact agrees_inheritInode h

/-- a new node takes its mode from the list it inherits, if there is one -/
theorem agrees_newNode (ts : UInt32) (p : FSNode) (type : NodeType) (mode umask : BitVec 16) (uid gid : UInt32)
    (copysgid : Bool) (inheritacl : AclInheritance) :
    (newNode ts p type mode umask uid gid copysgid inheritacl).Agrees := by
  intro acl ha
  have h := agrees_newModeAcl ha
  change (if _ then (newModeAcl p type mode umask inheritacl).1 ||| 0o2000
    else (newModeAcl p type mode umask inheritacl).1) &&& 0o777 = _
  split_ifs
  · -- the set-group bit is no permission
    rw [BitVec.and_or_distrib_right, h]
    exact or_zero ..
  · exact h

end Metadata

end SaunaFS.Namespace
