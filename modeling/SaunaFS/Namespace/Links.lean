/-
The nodes after an edge has been removed or made. Apart from the two ends of the edge nothing changes, and there only
the entries, the parents and the times: all else that a node is (`Alike`) stays.
-/
import SaunaFS.Namespace.Graph
import SaunaFS.Namespace.References

namespace SaunaFS.Namespace

open FiniteTable

/-! ## Nodes that differ only in links and times -/

/-- entries, parents, `mtime` and `ctime` apart, the nodes are equal -/
structure Alike (n n' : FSNode) : Prop where
  data : ∃ k, n'.data = n.data.mapEntries k
  goal : n'.goal = n.goal
  mode : n'.mode = n.mode
  uid : n'.uid = n.uid
  gid : n'.gid = n.gid
  trashtime : n'.trashtime = n.trashtime
  acl : n'.acl = n.acl

namespace Alike

variable {n n' : FSNode}

theorem refl (n : FSNode) : Alike n n where
  data := ⟨id, by cases n.data <;> rfl⟩
  goal := rfl
  mode := rfl
  uid := rfl
  gid := rfl
  trashtime := rfl
  acl := rfl

theorem type (h : Alike n n') : n'.type = n.type := by
  obtain ⟨k, hk⟩ := h.data
  unfold FSNode.type
  rw [hk]
  cases n.data <;> rfl

theorem isDirectory (h : Alike n n') : n'.isDirectory = n.isDirectory := by
  obtain ⟨k, hk⟩ := h.data
  unfold FSNode.isDirectory
  rw [hk]
  cases n.data <;> rfl

theorem ownStats (h : Alike n n') (cfg : Config) : n'.ownStats cfg = n.ownStats cfg := by
  obtain ⟨k, hk⟩ := h.data
  unfold FSNode.ownStats
  rw [hk, h.goal]
  cases n.data <;> rfl

end Alike

namespace Metadata

variable {cfg : Config} {t u : Metadata} {x d y : Inode} {ts : UInt32} {name : Name} {e : Name × Inode}

/-- a node after the entry `e` of `d` has been taken away from `x` -/
def cutNode (ts : UInt32) (d : Inode) (e : Name × Inode) (x y : Inode) (n : FSNode) : FSNode :=
  { n with
    data := if y = d then n.data.mapEntries (·.erase e) else n.data
    parent := if y = x then n.parent.erase d else n.parent
    mtime := if y = d then ts else n.mtime
    ctime := if y = d ∨ y = x then ts else n.ctime }

/-- a node after `x` has been linked into `d` -/
def linkNode (cfg : Config) (ts : UInt32) (d : Inode) (name : Name) (x y : Inode) (n : FSNode) : FSNode :=
  { n with
    data := if y = d then n.data.mapEntries (·.orderedInsert cfg.before (name, x)) else n.data
    parent := if y = x then n.parent ++ [d] else n.parent
    mtime := if y = d ∧ 0 < ts then ts else n.mtime
    ctime := if (y = d ∨ y = x) ∧ 0 < ts then ts else n.ctime }

theorem alike_cutNode (ts : UInt32) (d : Inode) (e : Name × Inode) (x y : Inode) (n : FSNode) :
    Alike n (cutNode ts d e x y n) where
  data := by
    change ∃ k, (if y = d then n.data.mapEntries (·.erase e) else n.data) = _
    split_ifs
    · exact ⟨_, rfl⟩
    · exact (Alike.refl n).data
  goal := rfl
  mode := rfl
  uid := rfl
  gid := rfl
  trashtime := rfl
  acl := rfl

theorem alike_linkNode (cfg : Config) (ts : UInt32) (d : Inode) (name : Name) (x y : Inode) (n : FSNode) :
    Alike n (linkNode cfg ts d name x y n) where
  data := by
    change ∃ k, (if y = d then n.data.mapEntries (·.orderedInsert cfg.before (name, x)) else n.data) = _
    split_ifs
    · exact ⟨_, rfl⟩
    · exact (Alike.refl n).data
  goal := rfl
  mode := rfl
  uid := rfl
  gid := rfl
  trashtime := rfl
  acl := rfl

variable {n : FSNode}

theorem cutNode_of_ne (hd : y ≠ d) (hx : y ≠ x) : cutNode ts d e x y n = n := by
  simp [cutNode, hd, hx]

theorem linkNode_of_ne (hd : y ≠ d) (hx : y ≠ x) : linkNode cfg ts d name x y n = n := by
  simp [linkNode, hd, hx]

/-- what is written down neither in the nodes nor in statistics, checksums and names stays -/
structure Beside (t u : Metadata) : Prop where
  trash : u.trash = t.trash
  reserved : u.reserved = t.reserved
  accounts : u.accounts = t.accounts
  calls : u.calls = t.calls

/-! ## Removing and making an edge -/

theorem get_fsnodesRemoveEdge (cfg : Config) (ts : UInt32) (x y : Inode) (h : t.find d name = some e) :
    (t.fsnodesRemoveEdge cfg ts d name x).nodes.get y = (t.nodes.get y).map (cutNode ts d e x y) := by
  have he (y : Inode) : (t.eraseEntry cfg d name e).nodes.get y =
      if y = d then (t.nodes.get d).map fun n => { n with data := n.data.mapEntries (·.erase e) } else t.nodes.get y :=
    get_modify ..
  unfold fsnodesRemoveEdge
  simp only [h, nodes_fsnodesUpdateChecksum, nodes_fsnodesAddStats, get_modifyNode, he]
  by_cases hd : y = d <;> by_cases hx : y = x <;> cases hy : t.nodes.get y <;>
    simp_all [cutNode]

theorem get_fsnodesLink :
    (t.fsnodesLink cfg ts d x name).nodes.get y = (t.nodes.get y).map (linkNode cfg ts d name x y) := by
  have hi (y : Inode) : (t.insertEntry cfg d name x).nodes.get y =
      if y = d then (t.nodes.get d).map fun n =>
        { n with data := n.data.mapEntries (·.orderedInsert cfg.before (name, x)) }
      else t.nodes.get y :=
    get_modify ..
  unfold fsnodesLink
  split_ifs with ht
  · simp only [nodes_fsnodesUpdateChecksum, nodes_fsnodesAddStats, get_modifyNode, hi]
    by_cases hd : y = d <;> by_cases hx : y = x <;> cases hy : t.nodes.get y <;>
      simp_all [linkNode]
  · simp only [nodes_fsnodesAddStats, get_modifyNode, hi]
    by_cases hd : y = d <;> by_cases hx : y = x <;> cases hy : t.nodes.get y <;>
      simp_all [linkNode]

theorem beside_fsnodesRemoveEdge (cfg : Config) (t : Metadata) (ts : UInt32) (d : Inode) (name : Name) (x : Inode) :
    Beside t (t.fsnodesRemoveEdge cfg ts d name x) := by
  unfold fsnodesRemoveEdge
  cases t.find d name <;> exact ⟨rfl, rfl, rfl, rfl⟩

theorem beside_fsnodesLink (cfg : Config) (t : Metadata) (ts : UInt32) (d x : Inode) (name : Name) :
    Beside t (t.fsnodesLink cfg ts d x name) := by
  unfold fsnodesLink
  split_ifs <;> exact ⟨rfl, rfl, rfl, rfl⟩

theorem get_fsnodesCreateNode {parent inode : Inode} {type : NodeType} {mode umask : BitVec 16} {uid gid : UInt32}
    {copysgid : Bool} {inheritacl : AclInheritance} {p : FSNode}
    (h : t.fsnodesCreateNode cfg ts parent name type mode umask uid gid copysgid inheritacl inode = some u)
    (hp : t.nodes.get parent = some p) (y : Inode) : u.nodes.get y =
      if y = inode then some { newNode ts p type mode umask uid gid copysgid inheritacl with parent := [parent] }
      else (t.nodes.get y).map (linkNode cfg ts parent name inode y) := by
  obtain ⟨p', n, hp', _, hf, hn, rfl⟩ := fsnodesCreateNode_inv h
  obtain rfl : p' = p := Option.some.inj (hp'.symm.trans hp)
  change ((t.withNode cfg inode n).fsnodesLink cfg ts parent inode name).nodes.get y = _
  rw [get_fsnodesLink]
  change ((t.nodes.set inode n).get y).map _ = _
  rw [get_set]
  split_ifs with hy
  · have hne : inode ≠ parent := by
      rintro rfl
      simp [hf] at hp
    rw [hy, hn]
    simp [linkNode, hne, newNode]
  · rfl

/-! ## What becomes of the other nodes -/

theorem get_fsnodesRemoveNode_of_ne (hy : y ≠ x) : (t.fsnodesRemoveNode x).nodes.get y = t.nodes.get y := by
  unfold fsnodesRemoveNode
  split
  · rfl
  · split_ifs
    · rfl
    · exact get_erase_of_ne hy

theorem get_modifyNode_of_ne (t : Metadata) (f : FSNode → FSNode) (hy : y ≠ x) :
    (t.modifyNode x f).nodes.get y = t.nodes.get y := by
  rw [get_modifyNode, if_neg hy]

theorem get_dropLastLink_of_ne {path : Name} (hy : y ≠ x) :
    (t.dropLastLink cfg ts x n path).nodes.get y = t.nodes.get y := by
  unfold dropLastLink
  split
  · split_ifs
    · exact (get_modifyNode_of_ne _ _ hy).trans (get_modifyNode_of_ne t _ hy)
    · exact get_modifyNode_of_ne t _ hy
    · exact get_fsnodesRemoveNode_of_ne hy
  · exact get_fsnodesRemoveNode_of_ne hy

theorem get_fsnodesUnlink_of_ne (cfg : Config) (ts : UInt32) (h : t.find d name = some e) (hy : y ≠ x) :
    (t.fsnodesUnlink cfg ts d name x).nodes.get y = (t.nodes.get y).map (cutNode ts d e x y) := by
  unfold fsnodesUnlink
  dsimp only
  rw [← get_fsnodesRemoveEdge cfg ts x y h]
  split
  · rfl
  · split_ifs
    · rfl
    · exact get_dropLastLink_of_ne hy

end Metadata

end SaunaFS.Namespace
