/-
When an operation succeeds, and with what outcome: one equivalence (`*_eq_ok`) with everything that has been checked
before it, for the operations that more than one result is about.
-/
import SaunaFS.Namespace.Run

namespace SaunaFS.Namespace

open Changelog

namespace Metadata

variable {cfg : Config} {t u : Metadata} {c : FsContext} {log : List Logged} {ts : UInt32}
  {parent parentSrc parentDst inode : Inode} {name nameSrc nameDst path : Name}

/-! ## Creating and linking -/

theorem fsSymlink_eq_ok : t.fsSymlink cfg c parent name path inode = .ok (u, log) ↔
      verifySession c .readWrite .notMeta = .ok ∧
      ∃ wd n, t.fsnodesGetNodeForOperation c .directory modeMaskW parent = .ok (wd, n) ∧
        (path ≠ [] && !path.contains 0) ∧ fsnodesNamecheck name ∧ t.fsnodesNameisused wd name = false ∧
        (c.isPersonalityMaster && cfg.quotaCreate t.toTables c.uid c.gid wd) = false ∧
        ∃ v, t.fsnodesCreateNode cfg c.ts wd name .symlink 0o777 0 c.uid c.gid false .dontInheritAcl inode = some v ∧
          u = v.setSymlinkPath cfg wd inode path ∧ log = [⟨c.ts, .symlink wd name path c.uid c.gid inode⟩] := by
  unfold fsSymlink
  simp only [bind_eq_ok, require_eq_ok, forOperation_eq_ok, created_eq_ok, Except.ok.injEq, Prod.mk.injEq, Prod.exists,
    exists_const, decide_eq_true_eq, Bool.not_eq_true', eq_comm (b := u), eq_comm (b := log)]

/-! ## Unlinking and renaming -/

variable {r : Unit} {src n : FSNode} {isDefault : Bool}

theorem replaceable_eq_ok {dn : FSNode} {de : Option Inode} : t.replaceable c dn de = .ok r ↔
      ∀ id, de = some id → ∃ n, t.nodes.get id = some n ∧ (n.isDirectory && !n.entries.isEmpty) = false ∧
        (!c.canCheckPermissions || fsnodesStickyAccess dn n c.uid) := by
  unfold replaceable
  cases de with
  | none => simp
  | some id =>
    simp only [bind_eq_ok, nodeOf_eq_ok, require_eq_ok, exists_const, Bool.not_eq_true', Option.some.injEq, forall_eq']

theorem fsRename_eq_ok : t.fsRename cfg c parentSrc nameSrc parentDst nameDst inode = .ok (u, log) ↔
      verifySession c .readWrite .any = .ok ∧
      ∃ dwd dn, t.fsnodesGetNodeForOperation c .directory modeMaskW parentDst = .ok (dwd, dn) ∧
      ∃ swd sn, t.fsnodesGetNodeForOperation c .directory modeMaskW parentSrc = .ok (swd, sn) ∧
        fsnodesNamecheck nameSrc ∧
      ∃ se n, t.childOf swd nameSrc = .ok (se, n) ∧ (!c.canCheckPermissions || fsnodesStickyAccess sn n c.uid) ∧
        (c.isPersonalityMaster || decide (se = inode)) ∧
        (n.isDirectory && t.fsnodesIsancestor se dn) = false ∧ fsnodesNamecheck nameDst ∧
        (t.fsnodesLookup dwd nameDst = some se ∧ u = t ∧ log = [] ∨ t.fsnodesLookup dwd nameDst ≠ some se ∧
            (∀ id, t.fsnodesLookup dwd nameDst = some id → ∃ m, t.nodes.get id = some m ∧
              (m.isDirectory && !m.entries.isEmpty) = false ∧
              (!c.canCheckPermissions || fsnodesStickyAccess dn m c.uid)) ∧
            cfg.quotaRename t.toTables dwd swd se (t.fsnodesLookup dwd nameDst) = false ∧
            u = t.moveEdge cfg c.ts swd nameSrc dwd nameDst se (t.fsnodesLookup dwd nameDst) ∧
            log = [⟨c.ts, .move swd nameSrc dwd nameDst se⟩]) := by
  unfold fsRename
  simp only [bind_eq_ok, require_eq_ok, forOperation_eq_ok, Prod.exists, exists_const, decide_eq_true_eq,
    Bool.not_eq_true']
  refine and_congr_right fun _ => exists_congr fun dwd => exists_congr fun dn => and_congr_right fun _ =>
    exists_congr fun swd => exists_congr fun sn => and_congr_right fun _ => and_congr_right fun _ =>
    exists_congr fun se => exists_congr fun n => and_congr_right fun _ => and_congr_right fun _ =>
    and_congr_right fun _ => and_congr_right fun _ => and_congr_right fun _ => ?_
  by_cases hs : t.fsnodesLookup dwd nameDst = some se
  · simp [hs, eq_comm (b := u), eq_comm (b := log)]
  · simp only [hs, if_false, bind_eq_ok, replaceable_eq_ok, require_eq_ok, Bool.not_eq_true', exists_const,
      Except.ok.injEq, Prod.mk.injEq, false_and, false_or, ne_eq, not_false_eq_true, true_and, eq_comm (b := u),
      eq_comm (b := log)]

/-! ## Attributes and lists -/

section Attributes

variable {s : SetMask} {attrmode : BitVec 16} {attruid attrgid attratime attrmtime : UInt32} {sugid : SugidClearMode}

/-- owner, group and times after `fs_setattr` -/
def newUid (s : SetMask) (n : FSNode) (attruid : UInt32) : UInt32 := if s.uid then attruid else n.uid

def newGid (s : SetMask) (n : FSNode) (attrgid : UInt32) : UInt32 := if s.gid then attrgid else n.gid

def newAtime (c : FsContext) (s : SetMask) (n : FSNode) (attratime : UInt32) : UInt32 :=
  if s.atimeNow then c.ts else if s.atime then attratime else n.atime

def newMtime (c : FsContext) (s : SetMask) (n : FSNode) (attrmtime : UInt32) : UInt32 :=
  if s.mtimeNow then c.ts else if s.mtime then attrmtime else n.mtime

theorem fsSetattr_ok (h : t.fsSetattr cfg c inode s attrmode attruid attrgid attratime attrmtime sugid = .ok (u, log)) :
    ∃ p n, t.fsnodesGetNodeForOperation c .any modeMaskEmpty inode = .ok (p, n) ∧
      u = t.setAttributes cfg c.ts p n (newMode sugid c.uid s n attrmode attrgid)
        (if s.mode then n.acl.map (·.setMode (newMode sugid c.uid s n attrmode attrgid) n.isDirectory) else n.acl)
        s.chown (newUid s n attruid) (newGid s n attrgid) (newAtime c s n attratime) (newMtime c s n attrmtime) ∧
      log = [⟨c.ts, .attr p (newMode sugid c.uid s n attrmode attrgid &&& 0o7777).toNat.toUInt32 (newUid s n attruid)
        (newGid s n attrgid) (newAtime c s n attratime) (newMtime c s n attrmtime)⟩] := by
  unfold fsSetattr at h
  simp only [bind_eq_ok, require_eq_ok, forOperation_eq_ok, Except.ok.injEq, Prod.mk.injEq, Prod.exists,
    exists_const] at h
  obtain ⟨-, p, n, hg, -, -, -, -, -, -, -, rfl, rfl⟩ := h
  exact ⟨p, n, hg, rfl, rfl⟩

end Attributes

theorem fsnodesSetPosixAcl_eq_ok {p : Inode} {acl : AccessControlList} :
    t.fsnodesSetPosixAcl cfg ts p n isDefault acl = .ok u ↔ (!isDefault || n.isDirectory) ∧
        u = t.setAcl cfg ts p (n.setPosixAcl isDefault acl).1 (some (n.setPosixAcl isDefault acl).2) := by
  unfold fsnodesSetPosixAcl
  simp only [bind_eq_ok, require_eq_ok, Except.ok.injEq, exists_const, eq_comm (b := u)]

end Metadata

end SaunaFS.Namespace
