/-
What an access control list permits, and the access to a directory whose default list is set or deleted
(`RichACL::checkPermission`; `fsnodes_setacl`, `fsnodes_deleteacl` and `fsnodes_access` of `master/filesystem_node.cc`).
-/
import SaunaFS.Namespace.Outcomes

namespace SaunaFS.Namespace

open Changelog BitVec List Option Ace RichAcl

/-! ## Permissions within permissions -/

/-- all bits of one mask are in the other -/
def Within {w : ℕ} (a b : BitVec w) : Prop := a &&& ~~~b = 0#w

instance {w : ℕ} (a b : BitVec w) : Decidable (Within a b) := inferInstanceAs (Decidable (_ = _))

variable {w : ℕ} {a : Ace} {modemask : BitVec 16} {b : BitVec w}

theorem within_iff {a : BitVec w} : Within a b ↔ ∀ i, a.getLsbD i → b.getLsbD i := by
  constructor
  · intro h i hi
    have hb := congrArg (getLsbD · i) h
    simp only [getLsbD_and, getLsbD_not, hi, Bool.true_and, getLsbD_zero,
      decide_eq_true (lt_of_getLsbD hi)] at hb
    simpa using hb
  · intro h
    refine eq_of_getLsbD_eq fun i hi => ?_
    have hb := h i
    cases ha : a.getLsbD i <;> simp_all

theorem within_and_iff {a c : BitVec w} : Within a (b &&& c) ↔ Within a b ∧ Within a c := by
  simp only [within_iff, getLsbD_and, Bool.and_eq_true]
  exact ⟨fun h => ⟨fun i hi => (h i hi).1, fun i hi => (h i hi).2⟩, fun h i hi => ⟨h.1 i hi, h.2 i hi⟩⟩

/-! ## Rules for a requester -/

/-- who asks, and for a node of whom -/
structure Requester where
  ownerUid : UInt32
  ownerGid : UInt32
  uid : UInt32
  groups : List UInt32

/-- the class in which an entry applies to a requester -/
inductive Who where
  | owner
  | group
  | everyone
deriving DecidableEq

/-- an entry that applies -/
structure Rule where
  who : Who
  type : BitVec 2
  mask : BitVec 32

namespace Requester

variable (r : Requester)

/-- the labels of `checkPermission` that an entry leads to -/
def matching (a : Ace) : Option Who :=
  if a.isInheritOnly then none
  else if a.isOwner then if r.ownerUid = r.uid then some .owner else none
  else if a.isGroup then if r.ownerGid ∈ r.groups then some .group else none
  else if a.isUnixUser then if r.uid ≠ a.id then none else if r.uid = r.ownerUid then some .owner else some .group
  else if a.isUnixGroup then if a.id ∈ r.groups then some .group else none
  else some .everyone

def rule (a : Ace) : Option Rule := (r.matching a).map (⟨·, a.type, a.mask⟩)

def rules (l : List Ace) : List Rule := l.filterMap r.rule

def classed (l : List Rule) : Bool := decide (r.ownerGid ∈ r.groups) || l.any (·.who ≠ .everyone)

@[simp] theorem rules_nil : r.rules [] = [] := rfl

variable {l : List Ace}

@[simp] theorem rules_append {l' : List Ace} : r.rules (l ++ l') = r.rules l ++ r.rules l' := filterMap_append

theorem rules_inheritOnly (h : ∀ a ∈ l, a.isInheritOnly) : r.rules l = [] := by
  refine filterMap_eq_nil_iff.2 fun a ha => ?_
  rw [rule, matching, if_pos (h a ha), map_none]

theorem rules_congr {f : Ace → Ace} (h : ∀ a ∈ l, r.rule (f a) = r.rule a) : r.rules (l.map f) = r.rules l := by
  rw [rules, filterMap_map]
  exact filterMap_congr h

end Requester

open Requester

namespace Rule

/-- the mask of a rule; what a rule of the group class allows is limited -/
def limited (gm : BitVec 32) (x : Rule) : BitVec 32 := if x.who = .group ∧ x.type = 0 then x.mask &&& gm else x.mask

/-- what the rules grant: the first one that has a permission in its mask decides on it -/
def granted (gm : BitVec 32) : List Rule → BitVec 32
  | [] => 0
  | x :: l => if x.type = 1 then granted gm l &&& ~~~x.limited gm else granted gm l ||| x.limited gm

def noLimit : BitVec 32 := allOnes 32

@[simp] theorem limited_noLimit {x : Rule} : x.limited noLimit = x.mask := by
  rw [limited, noLimit, and_allOnes, ite_self]

@[simp] theorem granted_nil (gm : BitVec 32) : granted gm [] = 0 := rfl

theorem granted_and_limit (gm : BitVec 32) (l : List Rule) : granted gm l &&& gm = granted noLimit l &&& gm := by
  induction l with
  | nil => rfl
  | cons x l ih =>
    refine eq_of_getLsbD_eq fun i hi => ?_
    have ih := congrArg (getLsbD · i) ih
    simp only [granted, limited_noLimit, getLsbD_and] at ih ⊢
    cases hg : gm.getLsbD i
    · simp
    · rw [hg, Bool.and_true, Bool.and_true] at ih
      unfold limited
      split_ifs <;>
        simp only [getLsbD_and, getLsbD_or, getLsbD_not, ih, hg, Bool.and_true]

end Rule

open Rule

namespace RichAcl

variable (acl : RichAcl) (r : Requester)

def groupLimit : BitVec 32 := if acl.has masked then acl.groupMask else noLimit

/-- what the entries grant to a requester -/
def listed : BitVec 32 := granted acl.groupLimit (r.rules acl.aceList)

/-- what the list permits a requester to do -/
def permitted : BitVec 32 :=
  if !acl.has masked then acl.listed r
  else if r.uid = r.ownerUid then if acl.has writeThrough then acl.ownerMask else acl.listed r &&& acl.ownerMask
  else if r.classed (r.rules acl.aceList) then acl.listed r &&& acl.groupMask
  else if acl.has writeThrough then acl.otherMask else acl.listed r &&& acl.otherMask

theorem checkAce_eq (s : Check) (a : Ace) : acl.checkAce r.ownerUid r.ownerGid r.uid r.groups s a =
      match r.rule a with
      | none => s
      | some x => Check.entry { s with inClass := s.inClass || decide (x.who ≠ Who.everyone) } a
          (x.limited acl.groupLimit) := by
  have hg : (if (acl.has masked && a.isAllow) then a.mask &&& acl.groupMask else a.mask) =
      (⟨.group, a.type, a.mask⟩ : Rule).limited acl.groupLimit := by
    unfold limited groupLimit isAllow
    by_cases hm : acl.has masked
    · simp only [hm, Bool.true_and, if_true, true_and, beq_iff_eq]
    · simp only [hm, Bool.false_and, Bool.false_eq_true, if_false, noLimit, and_allOnes, ite_self]
  unfold checkAce rule matching
  rw [hg]
  split_ifs <;> simp [limited]

theorem check_loop (l : List Ace) (s : Check) : let e := l.foldl (acl.checkAce r.ownerUid r.ownerGid r.uid r.groups) s
    e.denied ||| e.mask = s.denied ||| (s.mask &&& ~~~granted acl.groupLimit (r.rules l)) ∧
      e.inClass = (s.inClass || (r.rules l).any (·.who ≠ .everyone)) := by
  induction l generalizing s with
  | nil =>
    refine ⟨?_, by simp⟩
    rw [rules_nil, granted_nil, show ~~~(0 : BitVec 32) = allOnes 32 from rfl, and_allOnes]
    rfl
  | cons a l ih =>
    rw [foldl_cons, checkAce_eq, rules, filterMap_cons]
    cases hr : r.rule a with
    | none => exact ih s
    | some x =>
      obtain ⟨hd, hc⟩ := ih _
      refine ⟨hd.trans ?_, hc.trans ?_⟩
      · have ht : a.isDeny = decide (x.type = 1) := by
          obtain ⟨w, -, rfl⟩ := map_eq_some_iff.1 hr
          rfl
        refine eq_of_getLsbD_eq fun i hi => ?_
        simp only [Check.entry, granted, ht, decide_eq_true_eq, rules]
        split_ifs <;> simp [hi] <;> grind
      · simp [Check.entry, rules, Bool.or_assoc]

theorem checkPermission_iff {requested : BitVec 32} :
    acl.checkPermission requested r.ownerUid r.ownerGid r.uid r.groups ↔ Within requested (acl.permitted r) := by
  obtain ⟨hd, hc⟩ := acl.check_loop r acl.aceList ⟨requested, 0, !acl.has masked || decide (r.ownerGid ∈ r.groups)⟩
  simp only [show ∀ x : BitVec 32, 0 ||| x = x from fun _ => zero_or, ← listed.eq_def] at hd
  rw [Bool.or_assoc] at hc
  have hb (m : BitVec 32) : (requested &&& ~~~acl.listed r) ||| (requested &&& ~~~m) = 0 ↔
      Within requested (acl.listed r &&& m) := or_eq_zero_iff.trans within_and_iff.symm
  unfold checkPermission permitted
  simp only [hd, hc, show (decide (r.ownerGid ∈ r.groups) || (r.rules acl.aceList).any (·.who ≠ .everyone)) =
    r.classed (r.rules acl.aceList) from rfl]
  cases acl.has masked
  · simp [Within]
  · simp only [Bool.true_and, Bool.not_true, Bool.false_eq_true, if_false, Bool.false_or]
    by_cases ho : r.uid = r.ownerUid
    · cases acl.has writeThrough
      · simpa only [ho, if_true, Bool.false_and, if_false, Bool.false_eq_true, beq_iff_eq] using hb acl.ownerMask
      · simp [ho, Within]
    · have ho' : (r.ownerUid == r.uid) = false := beq_false_of_ne fun h => ho h.symm
      simp only [ho, ho', Bool.and_false, Bool.false_eq_true, if_false]
      split_ifs
      · simpa only [beq_iff_eq] using hb acl.groupMask
      · simp [Within]
      · simpa only [beq_iff_eq] using hb acl.otherMask

end RichAcl

/-! ## Nodes -/

variable (c : FsContext) (n : FSNode)

/-- whether the permissions of a requester are not looked at -/
def FsContext.unchecked : Bool := (c.session.map Session.noMasterPermCheck).getD false || c.uid == 0

def FsContext.asks : Requester := ⟨n.uid, n.gid, c.uid, c.gid :: c.groups⟩

/-- the permissions that a request for a node needs -/
def FSNode.asked (modemask : BitVec 16) : BitVec 32 := withoutDeleteChild n.isDirectory (convertMode2Mask modemask)

theorem fsnodesAccess_of_acl {c : FsContext} {n : FSNode} {acl : RichAcl} (ha : n.acl = some acl)
    (modemask : BitVec 16) :
    fsnodesAccess c n modemask = (c.unchecked || decide (Within (n.asked modemask) (acl.permitted (c.asks n)))) := by
  rw [Bool.eq_iff_iff, Bool.or_eq_true, decide_eq_true_eq, ← RichAcl.checkPermission_iff]
  unfold fsnodesAccess
  rw [ha, ← FsContext.unchecked.eq_def]
  cases c.unchecked with
  | true => simp
  | false => simp [FSNode.asked, withoutDeleteChild, FsContext.asks]

theorem fsnodesAccess_congr {c : FsContext} {n n' : FSNode} (hm : n'.mode = n.mode)
    (ha : n'.acl = n.acl) (hu : n'.uid = n.uid) (hg : n'.gid = n.gid) (hd : n'.data = n.data) :
    fsnodesAccess c n' modemask = fsnodesAccess c n modemask := by
  unfold fsnodesAccess FSNode.isDirectory
  rw [hm, ha, hu, hg, hd]

/-! ## The part of a list that is not inherited -/

theorem Ace.has_and {keep flag : BitVec 32} (h : keep &&& flag = flag) :
    { a with flags := a.flags &&& keep }.has flag = a.has flag := by
  unfold has
  rw [BitVec.and_assoc, h]

theorem Ace.isInheritOnly_or {flags : BitVec 32} (h : flags &&& inheritOnly = inheritOnly) :
    { a with flags := a.flags ||| flags }.isInheritOnly := by
  have hf : (a.flags ||| flags) &&& inheritOnly = inheritOnly := by
    rw [BitVec.and_comm, BitVec.and_or_distrib_left, BitVec.and_comm inheritOnly flags, h]
    refine eq_of_getLsbD_eq fun i _ => ?_
    rw [getLsbD_or, getLsbD_and]
    cases inheritOnly.getLsbD i <;> simp
  unfold isInheritOnly has
  rw [hf]
  rfl

theorem Requester.matching_congr (r : Requester) {b : Ace} (hs : b.has specialWho = a.has specialWho)
    (hg : b.has identifierGroup = a.has identifierGroup) (hi : b.isInheritOnly = a.isInheritOnly)
    (hid : b.id = a.id) : r.matching b = r.matching a := by
  unfold matching isOwner isGroup isUnixUser isUnixGroup
  rw [hs, hg, hi, hid]

namespace RichAcl

/-- an entry without what `createExplicitInheritance` moves to the end of the list -/
def explicit (a : Ace) : Ace :=
  if isSplit a then { a with flags := a.flags &&& ~~~(inheritOnly ||| fileInherit ||| directoryInherit) }
  else a

variable {a : Ace} {r : Requester} {acl : RichAcl}

theorem isInheritOnly_explicit : (explicit a).isInheritOnly = a.isInheritOnly := by
  unfold explicit
  split_ifs with h
  · have hn : a.isInheritOnly = false := by
      unfold isSplit at h
      cases ha : a.isInheritOnly <;> simp_all
    rw [hn, Ace.isInheritOnly, Ace.has, BitVec.and_assoc]
    simp [inheritOnly, fileInherit, directoryInherit]
  · rfl

theorem rule_explicit : r.rule (explicit a) = r.rule a := by
  have hm : r.matching (explicit a) = r.matching a := by
    refine r.matching_congr ?_ ?_ isInheritOnly_explicit ?_ <;> unfold explicit <;> split_ifs
    all_goals first | rfl | exact has_and (by decide)
  unfold rule
  rw [hm]
  unfold explicit
  split_ifs <;> rfl

theorem aceList_explicit : (acl.createExplicitInheritance.removeInheritOnly true).aceList =
      (acl.aceList.map explicit).filter fun a => !a.isInheritOnly := by
  have hl : ((acl.aceList.filter isSplit).map fun a => { a with flags := a.flags ||| inheritOnly }).filter
      (fun a => a.isInheritOnly != true) = [] := by
    refine List.filter_eq_nil_iff.2 fun a ha => ?_
    obtain ⟨b, -, rfl⟩ := mem_map.1 ha
    rw [isInheritOnly_or (by decide)]
    decide
  change List.filter _ (_ ++ _) = _
  rw [filter_append, hl, append_nil]
  refine filter_congr fun a _ => ?_
  cases a.isInheritOnly <;> rfl

theorem rules_explicitInheritance :
    r.rules (acl.createExplicitInheritance.removeInheritOnly true).aceList = r.rules acl.aceList := by
  rw [aceList_explicit, ← r.rules_congr (l := acl.aceList) fun a _ => rule_explicit]
  unfold rules
  rw [filterMap_filter]
  refine filterMap_congr fun a _ => ?_
  split_ifs with h
  · rfl
  · rw [rule, matching, if_pos (by simpa using h), map_none]

theorem explicitInheritance_eq_nil :
    (acl.createExplicitInheritance.removeInheritOnly true).aceList = [] ↔ acl.aceList.all Ace.isInheritOnly := by
  rw [aceList_explicit, List.filter_eq_nil_iff, List.all_eq_true]
  simp [isInheritOnly_explicit]

end RichAcl

/-! ## Default lists -/

/-- the access to a directory as the class bits of its mode bind it -/
def FSNode.boundByMode (modemask : BitVec 16) : Bool :=
  let rules := (c.asks n).rules ((n.acl.map aceList).getD [])
  let bits :=
    if c.uid = n.uid then convertMode2Mask (n.mode >>> 6)
    else if (c.asks n).classed rules then
      granted noLimit rules &&& convertMode2Mask (n.mode >>> 3)
    else convertMode2Mask n.mode
  c.unchecked || decide (Within (n.asked modemask) bits)

def FSNode.onlyInheritOnly : Bool := (n.acl.map fun acl => acl.aceList.all Ace.isInheritOnly).getD false

namespace RichAcl

theorem has_setMode (acl : RichAcl) (mode : BitVec 16) (isDir : Bool) :
    (acl.setMode mode isDir).has masked ∧ (acl.setMode mode isDir).has writeThrough := by
  have hf (flag : BitVec 16) (i : ℕ) (h : flag.getLsbD i) (h' : (masked ||| writeThrough).getLsbD i) :
      (acl.setMode mode isDir).has flag := by
    refine bne_iff_ne.2 fun hz => ?_
    have hb := congrArg (getLsbD · i) hz
    simp [setMode, h, h'] at hb
  exact ⟨hf masked 7 rfl rfl, hf writeThrough 6 rfl rfl⟩

theorem permitted_setMode (acl : RichAcl) (mode : BitVec 16) (isDir : Bool) (r : Requester) :
    (acl.setMode mode isDir).permitted r =
      if r.uid = r.ownerUid then withoutDeleteChild isDir (convertMode2Mask (mode >>> 6))
      else if r.classed (r.rules acl.aceList) then
        granted noLimit (r.rules acl.aceList) &&&
          withoutDeleteChild isDir (convertMode2Mask (mode >>> 3))
      else withoutDeleteChild isDir (convertMode2Mask mode) := by
  obtain ⟨hm, ht⟩ := acl.has_setMode mode isDir
  unfold permitted
  simp only [hm, ht, Bool.not_true, Bool.false_eq_true, if_false, if_true]
  rw [listed, groupLimit, if_pos hm, granted_and_limit]
  rfl

end RichAcl

theorem access_setDefault {posix : AccessControlList} (ts : UInt32) (modemask : BitVec 16) : fsnodesAccess c { n with
      mode := (n.setPosixAcl true posix).1
      acl := some (n.setPosixAcl true posix).2
      ctime := ts } modemask = n.boundByMode c modemask := by
  have hr : (c.asks n).rules
      (((n.aclWithout true).getD ⟨0, 0, 0, 0, []⟩).appendDefaultPosixACL posix).aceList =
      (c.asks n).rules ((n.acl.map aceList).getD []) := by
    have hn := (c.asks n).rules_inheritOnly (l := ((⟨0, 0, 0, 0, []⟩ : RichAcl).appendPosixACL posix true).aceList.map
      fun a => { a with flags := a.flags ||| (fileInherit ||| directoryInherit ||| inheritOnly) }) (by
        intro a ha
        obtain ⟨b, -, rfl⟩ := mem_map.1 ha
        exact isInheritOnly_or (by decide))
    refine ((c.asks n).rules_append).trans ?_
    rw [hn, append_nil]
    unfold FSNode.aclWithout
    cases n.acl with
    | none => rfl
    | some acl => exact acl.rules_explicitInheritance
  have hp := (((n.aclWithout true).getD ⟨0, 0, 0, 0, []⟩).appendDefaultPosixACL posix).permitted_setMode
    n.mode true (c.asks n)
  rw [hr] at hp
  refine (fsnodesAccess_of_acl rfl _).trans ?_
  exact congrArg (fun bits => _ || decide (Within (n.asked modemask) bits)) hp

theorem access_deleteDefault {ts : UInt32} :
    fsnodesAccess c { n with acl := n.deleteAcl .default, ctime := ts } modemask =
      if n.onlyInheritOnly then fsnodesAccess c { n with acl := none } modemask else fsnodesAccess c n modemask := by
  unfold FSNode.onlyInheritOnly
  cases ha : n.acl with
  | none =>
    refine fsnodesAccess_congr rfl ?_ rfl rfl rfl
    simp only [FSNode.deleteAcl, FSNode.aclWithout, ha]
    rfl
  | some acl =>
    have hd : n.deleteAcl .default = if acl.aceList.all Ace.isInheritOnly then none
        else some (acl.createExplicitInheritance.removeInheritOnly true) := by
      simp only [FSNode.deleteAcl, FSNode.aclWithout, ha, map_some, filter_some,
        ← acl.explicitInheritance_eq_nil, ← List.isEmpty_iff, Bool.not_eq_true']
      cases (acl.createExplicitInheritance.removeInheritOnly true).aceList.isEmpty <;> rfl
    rw [hd, map_some, getD_some]
    split_ifs
    · rfl
    · have hp : (acl.createExplicitInheritance.removeInheritOnly true).permitted (c.asks n) =
          acl.permitted (c.asks n) := by
        unfold permitted listed
        rw [acl.rules_explicitInheritance]
        rfl
      rw [fsnodesAccess_of_acl ha]
      refine (fsnodesAccess_of_acl rfl _).trans ?_
      exact congrArg (fun bits => _ || decide (Within (n.asked modemask) bits)) hp

namespace Metadata

variable {cfg : Config} {t u : Metadata} {c : FsContext} {p : Inode} {n : FSNode}

theorem get_setAcl (ts : UInt32) (hg : t.nodes.get p = some n) (mode : BitVec 16) (acl : Option RichAcl) :
    (t.setAcl cfg ts p mode acl).nodes.get p = some { n with mode := mode, acl := acl, ctime := ts } := by
  change ((t.nodes.modify p _).modify p _).get p = _
  rw [FiniteTable.modify_eq_set hg, FiniteTable.modify_set, FiniteTable.get_set, if_pos rfl]

theorem fsnodesDeleteacl_eq_ok {ts : UInt32} {type : AclType} : t.fsnodesDeleteacl cfg ts p n type = .ok u ↔
      (decide (type ≠ .default) || n.isDirectory) ∧ u = t.setAcl cfg ts p n.mode (n.deleteAcl type) := by
  unfold fsnodesDeleteacl
  simp only [bind_eq_ok, require_eq_ok, Except.ok.injEq, exists_const, eq_comm (b := u)]

/-- **Default lists and access.** Setting a default list keeps the decision on a request exactly if it was the one of
the class bits of the mode; deleting it does unless the list held nothing else, and then exactly if the decision was the
one of the mode. -/
theorem default_acl_access (cfg : Config) (t : Metadata) (ts : UInt32) (p : Inode) (n : FSNode) (d : AccessControlList)
    (c : FsContext) (modemask : BitVec 16) (hget : t.nodes.get p = some n) (hdir : n.isDirectory) :
    (∃ u n', t.fsnodesSetPosixAcl cfg ts p n true d = .ok u ∧ u.nodes.get p = some n' ∧
      (fsnodesAccess c n' modemask = fsnodesAccess c n modemask ↔
        fsnodesAccess c n modemask = n.boundByMode c modemask)) ∧
    ∃ u n', t.fsnodesDeleteacl cfg ts p n .default = .ok u ∧ u.nodes.get p = some n' ∧
      (fsnodesAccess c n' modemask = fsnodesAccess c n modemask ↔
        (n.onlyInheritOnly → fsnodesAccess c n modemask = fsnodesAccess c { n with acl := none } modemask)) := by
  constructor
  · refine ⟨_, _, fsnodesSetPosixAcl_eq_ok.2 ⟨hdir, rfl⟩, get_setAcl ts hget _ _, ?_⟩
    rw [access_setDefault]
    exact eq_comm
  · refine ⟨_, _, fsnodesDeleteacl_eq_ok.2 ⟨hdir, rfl⟩, get_setAcl ts hget _ _, ?_⟩
    refine (Eq.congr_left (access_deleteDefault c n)).trans ?_
    cases n.onlyInheritOnly with
    | true => simpa using eq_comm
    | false => simp

def groupDirectory (mode : BitVec 16) : FSNode := ⟨0, 0, 0, 1, mode, 5, 9, 0, [rootInode], none, .directory []⟩

/-- the tree with this directory in the place of its root -/
def withDirectory (n : FSNode) : Metadata := (fsNew .unlimited 1).modifyNode rootInode fun _ => n

/-- the user 7 of a group -/
def memberOf (gid : UInt32) : FsContext :=
    ⟨1, true, some ⟨rootInode, false, false, false, false, false⟩, 7, gid, [], true⟩

/-- the access of the owner is kept -/
theorem default_acl_access_owner : let n := groupDirectory 0o750
    ∃ u n', (withDirectory n).fsnodesSetPosixAcl .unlimited 1 rootInode n true ⟨[], 7, 5, 0, maskUnset⟩ = .ok u ∧
      u.nodes.get rootInode = some n' ∧
      fsnodesAccess { memberOf 9 with uid := 5 } n' modeMaskR =
        fsnodesAccess { memberOf 9 with uid := 5 } n modeMaskR := by
  obtain ⟨⟨u, n', hset, hget, hiff⟩, -⟩ :=
    default_acl_access .unlimited (withDirectory (groupDirectory 0o750)) 1 rootInode
    (groupDirectory 0o750) ⟨[], 7, 5, 0, maskUnset⟩ { memberOf 9 with uid := 5 } modeMaskR rfl rfl
  exact ⟨u, n', hset, hget, hiff.2 (by decide)⟩

/-- **The group is locked out.** Its members may read the directory until it gets a default list, and again when the
list is deleted. -/
theorem default_acl_locks_group_out : let n := groupDirectory 0o750
    ∃ u n' v n'', (withDirectory n).fsnodesSetPosixAcl .unlimited 1 rootInode n true ⟨[], 7, 5, 0, 7⟩ = .ok u ∧
      u.nodes.get rootInode = some n' ∧ u.fsnodesDeleteacl .unlimited 1 rootInode n' .default = .ok v ∧
      v.nodes.get rootInode = some n'' ∧ fsnodesAccess (memberOf 9) n modeMaskR ∧
      fsnodesAccess (memberOf 9) n' modeMaskR = false ∧ fsnodesAccess (memberOf 9) n'' modeMaskR :=
  ⟨_, _, _, _, rfl, rfl, rfl, rfl, by decide, by decide, by decide⟩

end Metadata

end SaunaFS.Namespace
