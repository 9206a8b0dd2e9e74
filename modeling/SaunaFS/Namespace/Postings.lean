/-
The changes of a run as the books see them. The books are the indexes of the trash and of the reserved files, the
counters and the used quotas, and the references to chunks. A node enters them, leaves them or is booked otherwise
(`Shift`), or edges change around nodes that stay booked as they are (`Relinked`), or a node is edited (`Edit`).
-/
import SaunaFS.Namespace.Changes

namespace SaunaFS.Namespace

open DirectoryTree ParentWalk FiniteTable Option FSNode NodeType

/-- neither in the trash nor reserved -/
abbrev FSNode.IsLive (n : FSNode) : Prop := n.type ≠ .trash ∧ n.type ≠ .reserved

variable {n' : FSNode}

theorem Alike.weight {n : FSNode} (h : Alike n n') : n'.weight = n.weight := by
  obtain ⟨k, hk⟩ := h.data
  unfold FSNode.weight FSNode.usage FSNode.size
  rw [hk, h.uid, h.gid]
  cases n.data <;> rfl

theorem Alike.agrees {n : FSNode} (h : Alike n n') (hn : n.Agrees) : n'.Agrees := by
  intro acl ha
  rw [h.acl] at ha
  rw [h.mode, hn acl ha]

namespace Metadata

variable {cfg : Config} {lim : Limits} {t u v : Metadata} {x d : Inode} {n n' : FSNode} {ts : UInt32} {name : Name}
  {e : Name × Inode}

/-! ## Files that are not linked -/

/-- a node is in the index where it belongs, and in no other -/
structure Filed (t : Metadata) (x : Inode) : Prop where
  trash : ∀ key : TrashPathKey, key.id = x →
    ((t.trash.get key).isSome ↔ ∃ n, t.nodes.get x = some n ∧ n.type = .trash ∧ n.trashPathKey x = key)
  reserved : (t.reserved.get x).isSome ↔ ∃ n, t.nodes.get x = some n ∧ n.type = .reserved
  sessions : ∀ n, t.nodes.get x = some n → n.type = .reserved → n.sessions ≠ []
  loose : ∀ n, t.nodes.get x = some n → n.type = .trash ∨ n.type = .reserved → n.parent = []

/-- a node is in no index -/
structure Unfiled (t : Metadata) (x : Inode) : Prop where
  trash : ∀ key : TrashPathKey, key.id = x → t.trash.get key = none
  reserved : t.reserved.get x = none

theorem Filed.unfiled (h : t.Filed x) (hl : ∀ n, t.nodes.get x = some n → n.IsLive) : t.Unfiled x where
  trash := by
    intro key hk
    rw [← not_isSome_iff_eq_none, h.trash key hk]
    rintro ⟨n, hn, ht, _⟩
    exact (hl n hn).1 ht
  reserved := by
    rw [← not_isSome_iff_eq_none, h.reserved]
    rintro ⟨n, hn, ht⟩
    exact (hl n hn).2 ht

theorem Unfiled.filed (h : t.Unfiled x) (hl : ∀ n, t.nodes.get x = some n → n.IsLive) : t.Filed x where
  trash := by
    intro key hk
    rw [h.trash key hk]
    refine ⟨fun hno => (by cases hno), ?_⟩
    rintro ⟨n, hn, ht, _⟩
    exact absurd ht (hl n hn).1
  reserved := by
    rw [h.reserved]
    refine ⟨fun hno => (by cases hno), ?_⟩
    rintro ⟨n, hn, ht⟩
    exact absurd ht (hl n hn).2
  sessions := fun n hn ht => absurd ht (hl n hn).2
  loose := fun n hn ht => ht.elim (fun h => absurd h (hl n hn).1) fun h => absurd h (hl n hn).2

section

variable (hget : t.nodes.get x = some n)
include hget

/-- what being filed means for a node that is there -/
theorem filed_iff : t.Filed x ↔
    (∀ key : TrashPathKey, key.id = x → ((t.trash.get key).isSome ↔ n.type = .trash ∧ n.trashPathKey x = key)) ∧
      ((t.reserved.get x).isSome ↔ n.type = .reserved) ∧ (n.type = .reserved → n.sessions ≠ []) ∧
        (n.type = .trash ∨ n.type = .reserved → n.parent = []) := by
  constructor
  · intro h
    exact ⟨by simpa [hget] using h.trash, by simpa [hget] using h.reserved, h.sessions n hget, h.loose n hget⟩
  · rintro ⟨ht, hr, hs, hl⟩
    exact ⟨by simpa [hget] using ht, by simpa [hget] using hr, by simpa [hget] using hs, by simpa [hget] using hl⟩

theorem filed_inTrash (ht : n.type = .trash) (hp : n.parent = [])
    (htr : ∀ key : TrashPathKey, key.id = x → ((t.trash.get key).isSome ↔ n.trashPathKey x = key))
    (hr : t.reserved.get x = none) : t.Filed x :=
  (filed_iff hget).2 ⟨by simpa [ht] using htr, by simp [hr, ht], by simp [ht], fun _ => hp⟩

theorem Filed.inTrash (h : t.Filed x) (ht : n.type = .trash) (key : TrashPathKey)
    (hk : key.id = x) : (t.trash.get key).isSome ↔ n.trashPathKey x = key := by
  simpa [ht] using ((filed_iff hget).1 h).1 key hk

theorem Filed.not_reserved (h : t.Filed x) (ht : n.type ≠ .reserved) :
    t.reserved.get x = none := by
  simpa [ht] using ((filed_iff hget).1 h).2.1

theorem Filed.not_inTrash (h : t.Filed x) (ht : n.type ≠ .trash) (key : TrashPathKey)
    (hk : key.id = x) : t.trash.get key = none := by
  simpa [ht] using ((filed_iff hget).1 h).1 key hk

theorem filed_reserved (ht : n.type = .reserved) (hp : n.parent = [])
    (hs : n.sessions ≠ []) (htr : ∀ key : TrashPathKey, key.id = x → t.trash.get key = none)
    (hr : (t.reserved.get x).isSome) : t.Filed x :=
  (filed_iff hget).2 ⟨fun key hk => by simp [htr key hk, ht], by simp [hr, ht], fun _ => hs, fun _ => hp⟩

end

theorem Filed.congr (h : t.Filed x) (hno : u.nodes.get x = t.nodes.get x)
    (ht : ∀ key : TrashPathKey, key.id = x → u.trash.get key = t.trash.get key)
    (hr : u.reserved.get x = t.reserved.get x) : u.Filed x where
  trash := fun key hk => by rw [ht key hk, hno, h.trash key hk]
  reserved := by rw [hr, hno, h.reserved]
  sessions := fun n hn => h.sessions n (hno ▸ hn)
  loose := fun n hn => h.loose n (hno ▸ hn)

/-! ## Postings -/

/-- what a node counts for, if there is one -/
def weightOf (o : Option FSNode) : Account → ℤ := o.elim 0 weight

/-- the references of a node, if there is one -/
def refsOf (o : Option FSNode) : Refs := o.elim 0 refs

/-- what is behind the number `x` turns from `o` into `o'`, in the nodes and in all books -/
structure Shift (t u : Metadata) (x : Inode) (o o' : Option FSNode) : Prop where
  old : t.nodes.get x = o
  get : ∀ y, u.nodes.get y = if y = x then o' else t.nodes.get y
  trash : ∀ key : TrashPathKey, key.id ≠ x → u.trash.get key = t.trash.get key
  reserved : ∀ y, y ≠ x → u.reserved.get y = t.reserved.get y
  filed : t.Filed x → u.Filed x
  accounts : u.accounts = t.accounts + (weightOf o' - weightOf o)
  calls : Transfers t.calls u.calls (refsOf o) (refsOf o')
  agrees : (∀ n, o = some n → n.Agrees) → ∀ n, o' = some n → n.Agrees

/-- edges change; files that are not linked are left alone -/
structure Relinked (t u : Metadata) : Prop where
  get : ∀ y, Rel Alike (t.nodes.get y) (u.nodes.get y)
  still : ∀ y n, t.nodes.get y = some n → n.type = .trash ∨ n.type = .reserved → u.nodes.get y = some n
  beside : Beside t u

/-- something is written down that concerns no node -/
structure Noted (t u : Metadata) : Prop where
  nodes : u.nodes = t.nodes
  filed : ∀ x, t.Filed x → u.Filed x
  accounts : u.accounts = t.accounts
  calls : u.calls = t.calls

inductive Posting (cfg : Config) (lim : Limits) (t u : Metadata) : Prop
  | shift {x : Inode} {o o' : Option FSNode} (h : Shift t u x o o')
  | relink (h : Relinked t u)
  | note (h : Noted t u)
  | edit {id : Inode} {n n' : FSNode} (h : Edit cfg lim t u id n n')

abbrev Postings (cfg : Config) (lim : Limits) : Metadata → Metadata → Prop := Relation.ReflTransGen (Posting cfg lim)

/-! ## Accounts -/

def post (t : Metadata) (amount : Account → ℤ) : Metadata := { t with accounts := t.accounts + amount }

theorem post_fsnodesLink {amount : Account → ℤ} :
    (t.fsnodesLink cfg ts d x name).post amount = (t.post amount).fsnodesLink cfg ts d x name := by
  unfold fsnodesLink
  split_ifs <;> rfl

variable {amount : ℤ} {type : NodeType} {mode : BitVec 16} {copysgid : Bool} {inheritacl : AclInheritance}
  {old new key : TrashPathKey}

theorem credit_neg {a : Account} : credit a (-amount) = -credit a amount := Pi.single_neg _ _

theorem usage_neg {r : QuotaResource} : n.usage r (-amount) = -n.usage r amount := by
  unfold usage
  rw [credit_neg, credit_neg, neg_add]

theorem typeCredit_neg {data : NodeData} : typeCredit data (-amount) = -typeCredit data amount := by
  cases data <;> first | exact credit_neg | exact neg_zero.symm

/-- what a file that is not linked counts for on top -/
def stateCredit (n : FSNode) : Account → ℤ := (n.data.file?.map FileData.stateCredit).getD 0

theorem isLive_of_file {length : ℕ} {sessionid : List UInt32} {chunks : List ℕ}
    (h : n.data = .file ⟨.live, length, sessionid, chunks⟩) : n.IsLive := by
  unfold IsLive type
  rw [h]
  exact ⟨noConfusion, noConfusion⟩

theorem stateCredit_of_live (h : n.IsLive) : stateCredit n = 0 := by
  unfold stateCredit
  obtain ⟨h₁, h₂⟩ := h
  unfold type at h₁ h₂
  cases hdata : n.data with
  | file f =>
    obtain ⟨state, length, sessionid, chunks⟩ := f
    rw [hdata] at h₁ h₂
    cases state with
    | live => rfl
    | trash => exact absurd rfl h₁
    | reserved => exact absurd rfl h₂
  | _ => rfl

/-! ## Nodes that come and go -/

theorem shift_withNode (cfg : Config) (hf : t.nodes.get x = none) (hl : n.IsLive) (hr : n.refs = 0) (ha : n.Agrees) :
    Shift t ((t.withNode cfg x n).post (n.usage .inodes 1 + n.usage .size n.size)) x none (some n) where
  old := hf
  get := fun y => get_set ..
  trash := fun _ _ => rfl
  reserved := fun _ _ => rfl
  filed := by
    intro h
    have hu := h.unfiled fun m hm => by simp [hf] at hm
    refine Unfiled.filed ⟨hu.trash, hu.reserved⟩ fun m hm => ?_
    obtain rfl : n = m := some.inj ((get_set_self (t := t.nodes)).symm.trans hm)
    exact hl
  accounts := by
    change t.accounts + credit .nodes 1 + typeCredit n.data 1 + (n.usage .inodes 1 + n.usage .size n.size) =
      t.accounts + (n.weight - 0)
    have hs : (n.data.file?.map FileData.stateCredit).getD 0 = 0 := stateCredit_of_live hl
    rw [weight, hs]
    abel
  calls := transfers_same _ hr
  agrees := fun _ m hm => some.inj hm ▸ ha

theorem mapFile_same_sessions {data : NodeData} :
    data.mapFile (fun f => { f with sessionid := id f.sessionid }) = data := by
  cases data <;> rfl

theorem transfers_drop (calls : List ChunkCall) (n : FSNode) :
    Transfers calls (calls ++ chunkCalls (.delete · n.goal) ((n.data.file?.map FileData.chunks).getD [])) n.refs 0 := by
  unfold refs
  cases n.data.file? with
  | none => exact ⟨[], rfl, rfl⟩
  | some f =>
    have h := transfers_deletes calls (.delete · n.goal) (fun _ => ⟨rfl, rfl⟩) (le_refl (chunkRefs n.goal f.chunks))
    rwa [sub_self] at h

theorem shift_dropNode (hget : t.nodes.get x = some n) (hn : ∀ y, y ≠ x → v.nodes.get y = t.nodes.get y)
    (ht : ∀ key : TrashPathKey, key.id ≠ x → v.trash.get key = t.trash.get key)
    (hr : ∀ y, y ≠ x → v.reserved.get y = t.reserved.get y) (hu : t.Filed x → v.Unfiled x)
    (ha : v.accounts = t.accounts - stateCredit n) (hca : v.calls = t.calls) (ctime : UInt32)
    (sessions : List UInt32 → List UInt32) : Shift t (v.dropNode x { n with
      ctime := ctime, data := n.data.mapFile fun f => { f with sessionid := sessions f.sessionid } }) x
        (some n) none where
  old := hget
  get := by
    intro y
    change (v.nodes.erase x).get y = _
    rw [get_erase]
    split_ifs with hy
    · rfl
    · exact hn y hy
  trash := ht
  reserved := hr
  filed := by
    intro h
    refine Unfiled.filed ⟨(hu h).trash, (hu h).reserved⟩ fun m hm => ?_
    exact absurd ((get_erase_self (t := v.nodes)).symm.trans hm) (by simp)
  accounts := by
    have hs : ({ n with
        ctime := ctime, data := n.data.mapFile fun f => { f with sessionid := sessions f.sessionid } } : FSNode).size =
          n.size := by
      unfold size
      cases n.data <;> rfl
    have hty : typeCredit (n.data.mapFile fun f => { f with sessionid := sessions f.sessionid }) (-1) =
        -typeCredit n.data 1 := by
      rw [← typeCredit_neg]
      cases n.data <;> rfl
    change v.accounts + credit .nodes (-1) + typeCredit _ (-1) + n.usage .size (-size _) + n.usage .inodes (-1) =
      t.accounts + (0 - n.weight)
    rw [hs, hty, ha, credit_neg, usage_neg, usage_neg, weight, stateCredit]
    abel
  calls := by
    have hc : ((n.data.mapFile fun f => { f with sessionid := sessions f.sessionid }).file?.map FileData.chunks).getD
      [] =
        (n.data.file?.map FileData.chunks).getD [] := by
      cases n.data <;> rfl
    change Transfers t.calls (v.calls ++ chunkCalls _ _) n.refs 0
    rw [hca, hc]
    exact transfers_drop t.calls n
  agrees := fun _ m hm => by cases hm

/-! ## Files that change their state -/

/-- a file in another state; its `ctime` may change too -/
def restated (n : FSNode) (f : FileData) (state : FileState) (ctime : UInt32) : FSNode :=
  { n with data := .file { f with state := state }, ctime := ctime }

variable {f : FileData}

theorem weight_restated (hdata : n.data = .file f) {state : FileState} {ctime : UInt32} :
    (restated n f state ctime).weight - n.weight = { f with state := state }.stateCredit - f.stateCredit := by
  have hs : (restated n f state ctime).size = n.size := by
    unfold size restated
    rw [hdata]
    rfl
  unfold weight
  rw [hs, hdata]
  change credit .nodes 1 + credit .filenodes 1 + n.usage .inodes 1 + n.usage .size n.size +
    { f with state := state }.stateCredit -
      (credit .nodes 1 + credit .filenodes 1 + n.usage .inodes 1 + n.usage .size n.size + f.stateCredit) = _
  abel

section

variable (hget : t.nodes.get x = some n)
include hget

section

variable (hdata : n.data = .file f)
include hdata

theorem shift_restated {state : FileState} {ctime : UInt32} (hn : u.nodes = t.nodes.set x (restated n f state ctime))
    (ht : ∀ key : TrashPathKey, key.id ≠ x → u.trash.get key = t.trash.get key)
    (hr : ∀ y, y ≠ x → u.reserved.get y = t.reserved.get y) (hf : t.Filed x → u.Filed x)
    (ha : u.accounts = t.accounts + ({ f with state := state }.stateCredit - f.stateCredit))
    (hc : u.calls = t.calls) : Shift t u x (some n) (some (restated n f state ctime)) where
  old := hget
  get := fun y => by rw [hn, get_set]
  trash := ht
  reserved := hr
  filed := hf
  accounts := by rw [ha, ← weight_restated hdata]; rfl
  calls := by
    rw [hc]
    refine transfers_same _ ?_
    change (restated n f state ctime).refs = n.refs
    rw [refs_file hdata]
    rfl
  agrees := by
    intro h m hm acl hac
    obtain rfl := some.inj hm
    exact h n rfl acl hac

theorem nodes_setFileState (state : FileState) :
    (t.setFileState x state).nodes = t.nodes.set x (restated n f state n.ctime) := by
  change t.nodes.modify x _ = _
  rw [modify_eq_set hget, hdata]
  rfl

theorem nodes_setFileState_setCtime (state : FileState) (ts : UInt32) :
    ((t.setFileState x state).setCtime x ts).nodes = t.nodes.set x (restated n f state ts) := by
  change (t.setFileState x state).nodes.modify x _ = _
  rw [nodes_setFileState hget hdata, modify_set]
  rfl

end

end

variable {y : Inode}

section States

variable {length : ℕ} {sessionid : List UInt32} {chunks : List ℕ} {path : Name}

section

variable (hget : t.nodes.get x = some n)
include hget

theorem shift_moveToTrash (hdata : n.data = .file ⟨.live, length, sessionid, chunks⟩) (hp : n.parent = []) :
    Shift t (t.moveToTrash cfg ts x n length path) x (some n)
      (some (restated n ⟨.live, length, sessionid, chunks⟩ .trash ts)) := by
  have hn := nodes_setFileState_setCtime hget hdata .trash ts
  refine shift_restated hget hdata hn (fun key hk => ?_) (fun _ _ => rfl) (fun h => ?_) ?_ rfl
  · change (t.trash.insertNew _ path).get key = _
    rw [get_insertNew, if_neg]
    rintro rfl
    exact hk rfl
  · have hu := h.unfiled fun m hm => some.inj (hget.symm.trans hm) ▸ isLive_of_file hdata
    refine filed_inTrash (n := restated n ⟨.live, length, sessionid, chunks⟩ .trash ts) ?_ rfl hp (fun key hk => ?_)
      hu.reserved
    · change ((t.setFileState x .trash).setCtime x ts).nodes.get x = _
      rw [hn, get_set_self]
    · change ((t.trash.insertNew _ path).get key).isSome ↔ _
      rw [get_insertNew]
      split_ifs with he
      · exact ⟨fun _ => he.symm, fun _ => rfl⟩
      · rw [hu.trash key hk]
        exact ⟨fun hno => (by cases hno), fun h => absurd h.symm he⟩
  · change t.accounts + credit .trashspace length + credit .trashnodes 1 =
      t.accounts + (credit .trashnodes 1 + credit .trashspace length - 0)
    abel

theorem shift_moveToReserved
    (hdata : n.data = .file ⟨.live, length, sessionid, chunks⟩) (hp : n.parent = []) (ho : sessionid ≠ []) :
    Shift t (t.moveToReserved cfg x length path) x (some n)
      (some (restated n ⟨.live, length, sessionid, chunks⟩ .reserved n.ctime)) := by
  have hn := nodes_setFileState hget hdata .reserved
  refine shift_restated hget hdata hn (fun _ _ => rfl) (fun y hy => ?_) (fun h => ?_) ?_ rfl
  · change (t.reserved.insertNew x path).get y = _
    rw [get_insertNew, if_neg hy]
  · have hu := h.unfiled fun m hm => some.inj (hget.symm.trans hm) ▸ isLive_of_file hdata
    refine filed_reserved (n := restated n ⟨.live, length, sessionid, chunks⟩ .reserved n.ctime) ?_ rfl hp ho
      hu.trash ?_
    · change (t.setFileState x .reserved).nodes.get x = _
      rw [hn, get_set_self]
    · change ((t.reserved.insertNew x path).get x).isSome
      rw [get_insertNew, if_pos rfl]
      rfl
  · change t.accounts + credit .reservedspace length + credit .reservednodes 1 =
      t.accounts + (credit .reservednodes 1 + credit .reservedspace length - 0)
    abel

theorem fsnodesRemoveNode_of_loose (hp : n.parent = []) : t.fsnodesRemoveNode x = t.dropNode x n := by
  unfold fsnodesRemoveNode
  rw [hget]
  exact if_neg (not_not.2 hp)

end

theorem shift_dropLastLink (ts : UInt32) (path : Name) (hget : t.nodes.get x = some n)
    (hl : n.IsLive) (hp : n.parent = []) : ∃ o, Shift t (t.dropLastLink cfg ts x n path) x (some n) o := by
  have hd : Shift t (t.fsnodesRemoveNode x) x (some n) none := by
    rw [fsnodesRemoveNode_of_loose hget hp]
    have h := shift_dropNode hget (v := t) (fun _ _ => rfl) (fun _ _ => rfl) (fun _ _ => rfl)
      (fun h => h.unfiled fun m hm => some.inj (hget.symm.trans hm) ▸ hl)
      (by rw [stateCredit_of_live hl, sub_zero]) rfl n.ctime id
    rwa [mapFile_same_sessions] at h
  unfold dropLastLink
  split
  · rename_i length sessionid chunks hdata
    split_ifs with ht ho
    · exact ⟨_, shift_moveToTrash hget hdata hp⟩
    · exact ⟨_, shift_moveToReserved hget hdata hp ho⟩
    · exact ⟨none, hd⟩
  · exact ⟨none, hd⟩

variable {trash : FiniteTable TrashPathKey Name} {key : TrashPathKey}

theorem isSome_erase_key {key₀ : TrashPathKey}
    (h : (trash.get key).isSome ↔ key₀ = key) : (trash.erase key₀).get key = none := by
  rw [get_erase]
  split_ifs with he
  · rfl
  · rw [← not_isSome_iff_eq_none, h]
    exact fun he' => he he'.symm

theorem get_erase_key (hk : key.id ≠ x) : (trash.erase (n.trashPathKey x)).get key = trash.get key :=
  get_erase_of_ne fun he => hk (he ▸ rfl)

theorem shift_purge_open (hget : t.nodes.get x = some n)
    (hdata : n.data = .file ⟨.trash, length, sessionid, chunks⟩) (ho : sessionid ≠ [])
    (hp : t.trash.get (n.trashPathKey x) = some path) : Shift t (t.fsnodesPurge cfg ts x) x (some n)
      (some (restated n ⟨.trash, length, sessionid, chunks⟩ .reserved n.ctime)) := by
  have hn := nodes_setFileState hget hdata .reserved
  have hpu : t.fsnodesPurge cfg ts x =
      { ((((((t.adjust .trashspace (-length)).adjust .trashnodes (-1)).setFileState x
        .reserved).fsnodesUpdateChecksum cfg
          x).adjust .reservedspace length).adjust .reservednodes 1) with
        trash := t.trash.erase (n.trashPathKey x)
        reserved := t.reserved.insertNew x path } := by
    unfold fsnodesPurge
    simp only [hget, hdata, ho, ne_eq, not_false_eq_true, if_true]
    split
    next hno => exact absurd (hp.symm.trans hno) (some_ne_none _)
    next hs =>
      cases hp.symm.trans hs
      rfl
  rw [hpu]
  have ht : n.type = .trash := by rw [type, hdata]; rfl
  refine shift_restated hget hdata hn (fun key hk => get_erase_key hk) (fun y hy => ?_) (fun h => ?_) ?_ rfl
  · change (t.reserved.insertNew x path).get y = _
    rw [get_insertNew, if_neg hy]
  · refine filed_reserved (n := restated n ⟨.trash, length, sessionid, chunks⟩ .reserved n.ctime) ?_ rfl
      (h.loose n hget (Or.inl ht)) ho (fun key hk => isSome_erase_key (h.inTrash hget ht key hk)) ?_
    · change (t.setFileState x .reserved).nodes.get x = _
      rw [hn, get_set_self]
    · change ((t.reserved.insertNew x path).get x).isSome
      rw [get_insertNew, if_pos rfl]
      rfl
  · change t.accounts + credit .trashspace (-length) + credit .trashnodes (-1) + credit .reservedspace length +
        credit .reservednodes 1 =
      t.accounts + (credit .reservednodes 1 +
        credit .reservedspace length - (credit .trashnodes 1 + credit .trashspace length))
    rw [credit_neg, credit_neg]
    abel

theorem removeNode_setCtime (hget : v.nodes.get x = some n) (hp : n.parent = []) :
    ((v.setCtime x ts).fsnodesUpdateChecksum cfg x).fsnodesRemoveNode x =
      ((v.setCtime x ts).fsnodesUpdateChecksum cfg x).dropNode x { n with ctime := ts } := by
  refine fsnodesRemoveNode_of_loose ?_ hp
  change (v.modifyNode x _).nodes.get x = _
  rw [get_modifyNode, if_pos rfl, hget]
  rfl

theorem get_setCtime_of_ne (hy : y ≠ x) : (v.setCtime x ts).nodes.get y = v.nodes.get y :=
  get_modifyNode_of_ne v _ hy

theorem shift_purge_closed (cfg : Config) (hget : t.nodes.get x = some n)
    (hdata : n.data = .file ⟨.trash, length, [], chunks⟩) (hp : n.parent = []) :
    Shift t (t.fsnodesPurge cfg ts x) x (some n) none := by
  have ht : n.type = .trash := by rw [type, hdata]; rfl
  have hpu : t.fsnodesPurge cfg ts x =
      (({ ((t.adjust .trashspace (-length)).adjust .trashnodes (-1)) with
        trash := t.trash.erase (n.trashPathKey x) }.setCtime x ts).fsnodesUpdateChecksum cfg x).dropNode x
          { n with ctime := ts } := by
    rw [← removeNode_setCtime (by exact hget) hp]
    unfold fsnodesPurge
    simp only [hget, hdata, ne_eq, not_true_eq_false, if_false]
    rfl
  rw [hpu]
  have h := shift_dropNode hget
    (v := ({ ((t.adjust .trashspace (-length)).adjust .trashnodes (-1)) with
        trash := t.trash.erase (n.trashPathKey x) }.setCtime x ts).fsnodesUpdateChecksum cfg x)
    (fun y hy => get_setCtime_of_ne hy) (fun key hk => get_erase_key hk) (fun _ _ => rfl)
    (fun h => ⟨fun key hk => isSome_erase_key (h.inTrash hget ht key hk),
      h.not_reserved (t := t) hget (by rw [ht]; decide)⟩) ?_ rfl ts id
  · rwa [mapFile_same_sessions] at h
  · rw [stateCredit, hdata]
    change t.accounts + credit .trashspace (-length) + credit .trashnodes (-1) =
      t.accounts - (credit .trashnodes 1 + credit .trashspace length)
    rw [credit_neg, credit_neg]
    abel

theorem shift_purge_reserved (cfg : Config) (ts : UInt32) (k : List UInt32 → List UInt32)
    (hget : t.nodes.get x = some n)
    (hdata : n.data = .file ⟨.reserved, length, sessionid, chunks⟩) (hp : n.parent = []) :
    Shift t ((t.setSessions x k).fsnodesPurge cfg ts x) x (some n) none := by
  have ht : n.type = .reserved := by rw [type, hdata]; rfl
  have hget' : (t.setSessions x k).nodes.get x =
    some { n with data := .file ⟨.reserved, length, k sessionid, chunks⟩ } := by
    unfold setSessions
    rw [get_modifyNode, if_pos rfl, hget, map_some, hdata]
    rfl
  have hpu : (t.setSessions x k).fsnodesPurge cfg ts x =
      (({ (((t.setSessions x k).adjust .reservedspace (-length)).adjust .reservednodes (-1)) with
        reserved := t.reserved.erase x }.setCtime x ts).fsnodesUpdateChecksum cfg x).dropNode x
          { n with data := .file ⟨.reserved, length, k sessionid, chunks⟩, ctime := ts } := by
    rw [← removeNode_setCtime (n := { n with data := .file ⟨.reserved, length, k sessionid, chunks⟩ }) (by exact hget')
      hp]
    unfold fsnodesPurge
    simp only [hget']
    rfl
  rw [hpu]
  have h := shift_dropNode hget
    (v := ({ (((t.setSessions x k).adjust .reservedspace (-length)).adjust .reservednodes (-1)) with
        reserved := t.reserved.erase x }.setCtime x ts).fsnodesUpdateChecksum cfg x)
    (fun y hy => (get_setCtime_of_ne hy).trans (get_modifyNode_of_ne t _ hy)) (fun _ _ => rfl)
    (fun y hy => get_erase_of_ne hy)
    (fun h => ⟨h.not_inTrash (t := t) hget (by rw [ht]; decide), get_erase_self⟩) ?_ rfl ts k
  · rwa [hdata] at h
  · rw [stateCredit, hdata]
    change t.accounts + credit .reservedspace (-length) + credit .reservednodes (-1) =
      t.accounts - (credit .reservednodes 1 + credit .reservedspace length)
    rw [credit_neg, credit_neg]
    abel

/-- the part of `fsnodes_undel` before the file is linked, with the accounts settled -/
def takenFromTrash (cfg : Config) (t : Metadata) (ts : UInt32) (x : Inode) (n : FSNode) (length : ℕ) : Metadata :=
  (((({ t with trash := t.trash.erase (n.trashPathKey x) }.setFileState x .live).setCtime x
    ts).fsnodesUpdateChecksum cfg
    x).post (credit .trashspace (-length))).post (credit .trashnodes (-1))

theorem undelNode_eq : t.undelNode cfg ts x n length d name = (t.takenFromTrash cfg ts x n length).fsnodesLink
    cfg ts d x name := by
  unfold takenFromTrash
  rw [← post_fsnodesLink, ← post_fsnodesLink]
  rfl

theorem shift_takenFromTrash (cfg : Config) (ts : UInt32) (hget : t.nodes.get x = some n)
    (hdata : n.data = .file ⟨.trash, length, sessionid, chunks⟩) :
    Shift t (t.takenFromTrash cfg ts x n length) x (some n)
      (some (restated n ⟨.trash, length, sessionid, chunks⟩ .live ts)) := by
  have ht : n.type = .trash := by rw [type, hdata]; rfl
  have hn := nodes_setFileState_setCtime hget hdata .live ts
  refine shift_restated hget hdata hn (fun key hk => get_erase_key hk) (fun _ _ => rfl) (fun h => ?_) ?_ rfl
  · refine Unfiled.filed ⟨fun key hk => isSome_erase_key (h.inTrash hget ht key hk),
      h.not_reserved (t := t) hget (by rw [ht]; decide)⟩ fun m hm => ?_
    have hm' : (t.nodes.set x (restated n ⟨.trash, length, sessionid, chunks⟩ .live ts)).get x = some m := hn ▸ hm
    rw [get_set_self] at hm'
    obtain rfl := some.inj hm'
    exact isLive_of_file rfl
  · change t.accounts + credit .trashspace (-length) + credit .trashnodes (-1) =
      t.accounts + (0 - (credit .trashnodes 1 + credit .trashspace length))
    rw [credit_neg, credit_neg]
    abel

end States

/-! ## Edges -/

section

variable (hd : ∀ n, t.nodes.get d = some n → n.IsLive) (hx : ∀ n, t.nodes.get x = some n → n.IsLive)
include hd hx

theorem relinked_of_get {k : Inode → FSNode → FSNode} (hg : ∀ y, u.nodes.get y = (t.nodes.get y).map (k y))
    (ha : ∀ y n, Alike n (k y n)) (hk : ∀ y n, y ≠ d → y ≠ x → k y n = n) (hb : Beside t u) : Relinked t u where
  get := by
    intro y
    rw [hg]
    cases t.nodes.get y with
    | none => exact .none
    | some n => exact .some (ha y n)
  still := by
    intro y n hn ht
    have hne (z : Inode) (hz : ∀ n, t.nodes.get z = some n → n.IsLive) : y ≠ z := by
      rintro rfl
      exact ht.elim (hz n hn).1 (hz n hn).2
    rw [hg, hn, map_some, hk y n (hne d hd) (hne x hx)]
  beside := hb

theorem relinked_fsnodesRemoveEdge (cfg : Config) (ts : UInt32) (h : t.find d name = some e) :
    Relinked t (t.fsnodesRemoveEdge cfg ts d name x) :=
  relinked_of_get hd hx (fun y => get_fsnodesRemoveEdge cfg ts x y h) (alike_cutNode ts d e x)
    (fun _ _ => cutNode_of_ne) (beside_fsnodesRemoveEdge ..)

theorem relinked_fsnodesLink : Relinked t (t.fsnodesLink cfg ts d x name) :=
  relinked_of_get hd hx (fun _ => get_fsnodesLink) (alike_linkNode cfg ts d name x) (fun _ _ => linkNode_of_ne)
    (beside_fsnodesLink ..)

end

theorem Relinked.isLive (h : Relinked t u) (hx : ∀ n, t.nodes.get x = some n → n.IsLive) :
    ∀ n, u.nodes.get x = some n → n.IsLive := by
  intro n hn
  have hr := h.get x
  rw [hn] at hr
  cases hm : t.nodes.get x with
  | none =>
    rw [hm] at hr
    cases hr
  | some m =>
    rw [hm] at hr
    cases hr with
    | some ha =>
      unfold IsLive
      rw [ha.type]
      exact hx m hm

theorem isLive_of_isDir (hd : t.graph.isDir d) (n : FSNode) (hn : t.nodes.get d = some n) : n.IsLive := by
  rw [isDir_graph hn, isDirectory] at hd
  unfold IsLive type
  cases hdata : n.data with
  | directory => exact ⟨noConfusion, noConfusion⟩
  | _ =>
    rw [hdata] at hd
    cases hd

theorem isLive_of_entry (ht : t.IsTree) (hf : t.Filed e.2) (he : e ∈ t.entries d) (n : FSNode)
    (hn : t.nodes.get e.2 = some n) : n.IsLive := by
  have hp := ht.toLedger.parent_of_entry (by rwa [entries_graph] : e ∈ t.graph.entries d)
  rw [parents_graph hn] at hp
  by_contra hl
  rw [not_and_or, not_not, not_not] at hl
  rw [hf.loose n hn hl] at hp
  cases hp

/-! ## Every change is posted -/

theorem Posting.single (h : Posting cfg lim t u) : Postings cfg lim t u := Relation.ReflTransGen.single h

theorem newNode_refs (ts : UInt32) (p : FSNode) (type : NodeType) (mode umask : BitVec 16) (uid gid : UInt32)
    (copysgid : Bool) (inheritacl : AclInheritance) :
    (newNode ts p type mode umask uid gid copysgid inheritacl).refs = 0 := by
  cases type <;> rfl

theorem newNode_isLive (ts : UInt32) (p : FSNode) (umask : BitVec 16) (uid gid : UInt32) :
    (newNode ts p type mode umask uid gid copysgid inheritacl).IsLive := by
  cases type <;> exact ⟨noConfusion, noConfusion⟩

theorem create_postings {parent inode : Inode} {umask : BitVec 16} {uid gid : UInt32} (hd : t.graph.isDir parent)
    (h : t.fsnodesCreateNode cfg ts parent name type mode umask uid gid copysgid inheritacl inode = some u) :
    Postings cfg lim t u := by
  obtain ⟨p, n, hp, _, hf, hn, rfl⟩ := fsnodesCreateNode_inv h
  have hl : n.IsLive := hn ▸ newNode_isLive ..
  have hs := shift_withNode cfg hf hl (hn ▸ newNode_refs ..) (hn ▸ agrees_newNode ts p type mode umask uid gid copysgid
    inheritacl)
  have hc : ((t.withNode cfg inode n).fsnodesLink cfg ts parent inode name).chargeNode n =
      ((t.withNode cfg inode n).post (n.usage .inodes 1 + n.usage .size n.size)).fsnodesLink cfg ts
        parent inode name := by
    rw [← post_fsnodesLink]
    unfold chargeNode fsnodesQuotaUpdate post
    rw [add_assoc]
  rw [hc]
  refine (Posting.single (.shift hs)).tail (.relink (relinked_fsnodesLink (fun m hm => ?_) fun m hm => ?_))
  · have hne : parent ≠ inode := by
      rintro rfl
      rw [hf] at hp
      cases hp
    rw [hs.get, if_neg hne] at hm
    exact isLive_of_isDir hd m hm
  · rw [hs.get, if_pos rfl] at hm
    exact some.inj hm ▸ hl

theorem unlink_postings (cfg : Config) (ts : UInt32) (ht : t.IsTree) (hfi : ∀ x, t.Filed x)
    (hf : t.find d name = some e) : Postings cfg lim t (t.fsnodesUnlink cfg ts d name e.2) := by
  have he := mem_entries_of_find hf
  have hd := ht.toLedger.isDir_of_entry (by rwa [entries_graph] : e ∈ t.graph.entries d)
  have hl := isLive_of_entry ht (hfi e.2) he
  have hr := relinked_fsnodesRemoveEdge (isLive_of_isDir hd) hl cfg ts hf
  have hed : Postings cfg lim t (t.fsnodesRemoveEdge cfg ts d name e.2) := Posting.single (.relink hr)
  unfold fsnodesUnlink
  dsimp only
  split
  · exact hed
  · rename_i n hn
    split_ifs with hp
    · exact hed
    · obtain ⟨o, hs⟩ := shift_dropLastLink ts (t.fsnodesGetpath d e.2) hn (hr.isLive hl n hn) (not_not.1 hp)
      exact hed.tail (.shift hs)

theorem setSessions_id : t.setSessions x id = t := by
  have hn : t.nodes.modify x (fun n =>
    { n with data := n.data.mapFile fun f => { f with sessionid := id f.sessionid } }) =
      t.nodes := by
    ext y : 1
    rw [get_modify]
    split_ifs with hy
    · subst hy
      cases t.nodes.get y with
      | none => rfl
      | some n => rw [map_some, mapFile_same_sessions]
    · rfl
  unfold setSessions modifyNode
  rw [hn]

theorem purge_postings (hf : t.Filed x) : Postings cfg lim t (t.fsnodesPurge cfg ts x) := by
  cases hget : t.nodes.get x with
  | none =>
    unfold fsnodesPurge
    rw [hget]
  | some n =>
    cases hdata : n.data with
    | file f =>
      obtain ⟨state, length, sessionid, chunks⟩ := f
      cases state with
      | live =>
        unfold fsnodesPurge
        simp only [hget, hdata]
        exact .refl
      | trash =>
        have ht : n.type = .trash := by rw [type, hdata]; rfl
        cases sessionid with
        | nil => exact Posting.single (.shift (shift_purge_closed cfg hget hdata (hf.loose n hget (Or.inl ht))))
        | cons s sessionid =>
          obtain ⟨path, hp⟩ := isSome_iff_exists.1
            ((hf.inTrash hget ht (n.trashPathKey x) rfl).2 rfl)
          exact Posting.single (.shift (shift_purge_open hget hdata (List.cons_ne_nil s sessionid) hp))
      | reserved =>
        have ht : n.type = .reserved := by rw [type, hdata]; rfl
        have h := shift_purge_reserved cfg ts id hget hdata (hf.loose n hget (Or.inr ht))
        rw [setSessions_id] at h
        exact Posting.single (.shift h)
    | _ =>
      unfold fsnodesPurge
      simp only [hget, hdata]
      exact .refl

/-- **Every change is posted.** -/
theorem Change.postings (h : Change cfg lim t u) (htr : t.IsTree) (hf : ∀ x, t.Filed x) : Postings cfg lim t u := by
  cases h with
  | fold d insensitive => exact Posting.single (.note ⟨rfl, fun x h => h.congr rfl (fun _ _ => rfl) rfl, rfl, rfl⟩)
  | create _ hd h => exact create_postings hd h
  | link _ hd hget _ hl =>
    exact Posting.single (.relink (relinked_fsnodesLink (isLive_of_isDir hd)
      fun m hm => some.inj (hget.symm.trans hm) ▸ hl))
  | unlink ts hfi => exact unlink_postings cfg ts htr hf hfi
  | @move ts swd dwd nameSrc nameDst e _ hfi _ hd =>
    have he := mem_entries_of_find hfi
    have hdi := htr.toLedger.isDir_of_entry (by rwa [entries_graph] : e ∈ t.graph.entries swd)
    have hl := isLive_of_entry htr (hf e.2) he
    have hc := relinked_fsnodesRemoveEdge (isLive_of_isDir hdi) hl cfg ts hfi
    exact (Posting.single (.relink hc)).tail
      (.relink (relinked_fsnodesLink (hc.isLive (isLive_of_isDir hd)) (hc.isLive hl)))
  | @undel ts x d n length sessionid chunks name _ hget hdata hd =>
    rw [undelNode_eq]
    have hs := shift_takenFromTrash cfg ts hget hdata
    refine (Posting.single (.shift hs)).tail (.relink (relinked_fsnodesLink (fun m hm => ?_) fun m hm => ?_))
    · rw [hs.get] at hm
      split_ifs at hm
      · exact some.inj hm ▸ isLive_of_file rfl
      · exact isLive_of_isDir hd m hm
    · rw [hs.get, if_pos rfl] at hm
      exact some.inj hm ▸ isLive_of_file rfl
  | @trashPath x n path hget ht =>
    refine Posting.single (.note ⟨rfl, fun y h => ?_, rfl, rfl⟩)
    by_cases hy : y = x
    · subst hy
      refine filed_inTrash hget ht (h.loose n hget (Or.inl ht)) (fun key hk => ?_)
        (h.not_reserved (t := t) hget (by rw [ht]; decide))
      rw [get_set]
      split_ifs with heq
      · exact ⟨fun _ => heq.symm, fun _ => rfl⟩
      · exact h.inTrash hget ht key hk
    · refine h.congr rfl (fun key hk => get_set_of_ne fun heq => hy ?_) rfl
      rw [← hk, heq]
      rfl
  | purge ts x => exact purge_postings (hf x)
  | @release x n length sessionid chunks ts k hget hdata =>
    have ht : n.type = .reserved := by rw [type, hdata]; rfl
    exact Posting.single (.shift (shift_purge_reserved cfg ts k hget hdata ((hf x).loose n hget (Or.inr ht))))
  | @forgetTrash key hn =>
    refine Posting.single (.note ⟨rfl, fun y h => h.congr rfl (fun key' hk => ?_) rfl, rfl, rfl⟩)
    rw [get_erase]
    split_ifs with heq
    · have hu := (hf key.id).unfiled fun m hm => by simp [hn] at hm
      rw [heq, hu.trash key rfl]
    · rfl
  | @forgetReserved x hn =>
    refine Posting.single (.note ⟨rfl, fun y h => h.congr rfl (fun _ _ => rfl) ?_, rfl, rfl⟩)
    change (t.reserved.erase x).get y = _
    rw [get_erase]
    split_ifs with heq
    · have hu := (hf x).unfiled fun m hm => by simp [hn] at hm
      rw [heq, hu.reserved]
    · rfl
  | edit h => exact Posting.single (.edit h)

/-! ## Files stay filed -/

theorem Shift.filed_all {o o' : Option FSNode} (h : Shift t u x o o') (hf : ∀ y, t.Filed y) : u.Filed y := by
  by_cases hy : y = x
  · exact hy ▸ h.filed (hf x)
  · refine (hf y).congr (by rw [h.get, if_neg hy]) (fun key hk => h.trash key ?_) (h.reserved y hy)
    rwa [hk]

theorem Relinked.filed (h : Relinked t u) (hf : t.Filed x) : u.Filed x := by
  by_cases hl : ∀ n, t.nodes.get x = some n → n.IsLive
  · have hu := hf.unfiled hl
    refine Unfiled.filed ⟨?_, ?_⟩ (h.isLive hl)
    · rw [h.beside.trash]
      exact hu.trash
    · rw [h.beside.reserved]
      exact hu.reserved
  · push Not at hl
    obtain ⟨n, hn, hno⟩ := hl
    have ht : n.type = .trash ∨ n.type = .reserved := by rwa [not_and_or, not_not, not_not] at hno
    refine hf.congr (by rw [h.still x n hn ht, hn]) (fun key _ => ?_) ?_
    · rw [h.beside.trash]
    · rw [h.beside.reserved]

variable {trash : FiniteTable TrashPathKey Name}

theorem isSome_rekey (hs : (trash.get old).isSome)
    (h : (trash.get key).isSome ↔ old = key) : ((rekey trash old new).get key).isSome ↔ new = key := by
  obtain ⟨path, hp⟩ := isSome_iff_exists.1 hs
  unfold rekey
  simp only [hp]
  rw [get_set]
  split_ifs with hn
  · exact ⟨fun _ => hn.symm, fun _ => rfl⟩
  · rw [isSome_erase_key h]
    exact ⟨fun hno => (by cases hno), fun he => absurd he.symm hn⟩

theorem get_rekey_of_ne (hold : key ≠ old) (hn : key ≠ new) : (rekey trash old new).get key = trash.get key := by
  unfold rekey
  cases trash.get old with
  | none => rfl
  | some path => exact (get_set_of_ne hn).trans (get_erase_of_ne hold)

theorem Edit.parent {id : Inode} (h : Edit cfg lim t u id n n') :
    n'.parent = n.parent := congrArg Vertex.parent h.vertex

theorem Edit.filed {id : Inode} (h : Edit cfg lim t u id n n') (hf : ∀ y, t.Filed y) : u.Filed y := by
  have hn (y : Inode) : u.nodes.get y = if y = id then some n' else t.nodes.get y := by rw [h.nodes, get_set]
  by_cases hy : y = id
  · subst hy
    have hget : u.nodes.get y = some n' := by rw [hn, if_pos rfl]
    obtain ⟨htr, hre, hse, hlo⟩ := (filed_iff h.get).1 (hf y)
    rw [filed_iff hget, h.type, Edit.parent h, h.reserved]
    refine ⟨fun key hk => ?_, hre, fun hr => h.sessions hr (hse hr), hlo⟩
    rw [h.trash, retrash]
    split_ifs with ht
    · have hke := (hf y).inTrash h.get ht
      simpa [ht] using isSome_rekey ((hke _ rfl).2 rfl) (hke key hk)
    · simpa [ht] using htr key hk
  · refine (hf y).congr (by rw [hn, if_neg hy]) (fun key hk => ?_) (by rw [h.reserved])
    rw [h.trash, retrash]
    split_ifs
    · refine get_rekey_of_ne (fun he => hy ?_) fun he => hy ?_ <;>
      · rw [← hk, he]
        rfl
    · rfl

theorem Posting.filed (h : Posting cfg lim t u) (hf : ∀ x, t.Filed x) (x : Inode) : u.Filed x := by
  cases h with
  | shift h => exact h.filed_all hf
  | relink h => exact h.filed (hf x)
  | note h => exact h.filed x (hf x)
  | edit h => exact Edit.filed h hf

/-! ## Runs -/

theorem filed_fsNew (x : Inode) : (fsNew cfg ts).Filed x := by
  refine Unfiled.filed ⟨fun _ _ => rfl, rfl⟩ fun n hn => ?_
  have hr : (fsNew cfg ts).nodes.get x = if x = rootInode then some (rootNode ts) else none := rfl
  rw [hr] at hn
  split_ifs at hn
  exact some.inj hn ▸ ⟨noConfusion, noConfusion⟩

/-- **Invariants of the books.** What every posting keeps, under a condition on the limits of operations, holds in every
state of a run whose operations meet the condition. -/
theorem inv_run_of_postings {L : Limits → Prop} {P : Metadata → Prop} {ops : List Op}
    (hpo : ∀ lim t u, L lim → Posting cfg lim t u → P t → P u)
    (ho : Stepwise.Along (step cfg) (fun t op => L (op.limits t)) (fsNew cfg ts) ops) (hn : P (fsNew cfg ts)) :
    (∀ x, (after cfg ts ops).Filed x) ∧ P (after cfg ts ops) := by
  refine inv_run_of_changes (P := fun t => (∀ x, t.Filed x) ∧ P t) (fun lim t u hl h hr htr ht => ?_) ho
    ⟨filed_fsNew, hn⟩
  have hp := Change.postings h htr ht.1
  clear h hr htr
  induction hp with
  | refl => exact ht
  | tail _ h ih => exact ⟨Posting.filed h ih.1, hpo lim _ _ hl h ih.2⟩

end Metadata

end SaunaFS.Namespace
