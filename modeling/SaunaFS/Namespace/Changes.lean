/-
What a run can do to the metadata: a few kinds of changes (`Change`), each with what has been checked before it
(`perform_changes`). An invariant that each kind of change keeps is kept by every run (`inv_run_of_changes`). Where the
source does not keep something in step, a change says so under a condition (`Limits`, `Op.limits`).
-/
import SaunaFS.Namespace.Agreement
import SaunaFS.Namespace.Links
import SaunaFS.Namespace.Outcomes
import SaunaFS.Namespace.Tree

namespace SaunaFS.Namespace

open DirectoryTree ParentWalk Changelog FiniteTable Option Except

/-! ## Changes -/

inductive Change (cfg : Config) (lim : Limits) : Metadata → Metadata → Prop
  | fold (t : Metadata) (d : Inode) (insensitive : Bool) :
    Change cfg lim t { t with fold := t.fold.set d { t.foldOf d with insensitive := insensitive } }
  | create {t u : Metadata} {ts : UInt32} {parent inode : Inode} {name : Name} {type : NodeType}
    {mode umask : BitVec 16}
    {uid gid : UInt32} {copysgid : Bool} {inheritacl : Metadata.AclInheritance} (hts : lim.names → 0 < ts)
    (hd : t.graph.isDir parent = true)
    (h : t.fsnodesCreateNode cfg ts parent name type mode umask uid gid copysgid inheritacl inode = some u) :
    Change cfg lim t u
  | link {t : Metadata} {ts : UInt32} {d x : Inode} {n : FSNode} {name : Name} (hts : lim.names → 0 < ts)
    (hd : t.graph.isDir d = true) (hget : t.nodes.get x = some n) (hleaf : n.isDirectory = false)
    (hlive : n.type ≠ .trash ∧ n.type ≠ .reserved) : Change cfg lim t (t.fsnodesLink cfg ts d x name)
  | unlink {t : Metadata} {d : Inode} {name : Name} {e : Name × Inode} (ts : UInt32) (hfind : t.find d name = some e)
    (hname : lim.names → e.1 = name) (hempty : t.graph.isDir e.2 = true → t.entries e.2 = []) :
    Change cfg lim t (t.fsnodesUnlink cfg ts d name e.2)
  | move {t : Metadata} {ts : UInt32} {swd dwd : Inode} {nameSrc nameDst : Name} {e : Name × Inode}
    (hts : lim.names → 0 < ts) (hfind : t.find swd nameSrc = some e) (hname : lim.names → e.1 = nameSrc)
    (hd : t.graph.isDir dwd = true) (hbelow : t.graph.isDir e.2 = true → ¬ Above t.graph.up dwd e.2) :
    Change cfg lim t ((t.fsnodesRemoveEdge cfg ts swd nameSrc e.2).fsnodesLink cfg ts dwd e.2 nameDst)
  | undel {t : Metadata} {ts : UInt32} {x d : Inode} {n : FSNode} {length : ℕ} {sessionid : List UInt32}
    {chunks : List ℕ} {name : Name} (hts : lim.names → 0 < ts) (hget : t.nodes.get x = some n)
    (hdata : n.data = .file ⟨.trash, length, sessionid, chunks⟩) (hd : t.graph.isDir d = true) :
    Change cfg lim t (t.undelNode cfg ts x n length d name)
  | trashPath {t : Metadata} {x : Inode} {n : FSNode} (path : Name) (hget : t.nodes.get x = some n)
    (htype : n.type = .trash) : Change cfg lim t { t with trash := t.trash.set (n.trashPathKey x) path }
  | purge (t : Metadata) (ts : UInt32) (x : Inode) : Change cfg lim t (t.fsnodesPurge cfg ts x)
  | release {t : Metadata} {x : Inode} {n : FSNode} {length : ℕ} {sessionid : List UInt32}
    {chunks : List ℕ} (ts : UInt32)
    (k : List UInt32 → List UInt32) (hget : t.nodes.get x = some n)
    (hdata : n.data = .file ⟨.reserved, length, sessionid, chunks⟩) :
    Change cfg lim t ((t.setSessions x k).fsnodesPurge cfg ts x)
  | forgetTrash {t : Metadata} {key : TrashPathKey} (hnone : t.nodes.get key.id = none) :
    Change cfg lim t { t with trash := t.trash.erase key }
  | forgetReserved {t : Metadata} {x : Inode} (hnone : t.nodes.get x = none) :
    Change cfg lim t { t with reserved := t.reserved.erase x }
  | edit {t u : Metadata} {id : Inode} {n n' : FSNode} (h : Edit cfg lim t u id n n') : Change cfg lim t u

/-- one change after the other -/
abbrev Changes (cfg : Config) (lim : Limits) : Metadata → Metadata → Prop := Relation.ReflTransGen (Change cfg lim)

/-! ## Conditions on operations -/

/-- the entry that is found under a name has this name, letter by letter -/
def ExactName (t : Metadata) (d : Inode) (name : Name) : Prop := ∀ e, t.find d name = some e → e.1 = name

/-- a step of a snapshot puts a new file in the place of the one that has the name -/
def replaces (src n : FSNode) : Bool :=
  match src.data, n.data with
  | .file f, .file g => !Metadata.sameContents g f
  | _, _ => false

def newGroup (parent : FSNode) (gid : UInt32) : UInt32 := if parent.mode &&& 0o2000 = 0o2000 then parent.gid else gid

namespace Op

variable (t : Metadata)

/-- the nodes at which a step of a snapshot meets: the source, the directory, and the node that has the name -/
structure Overwrites (t : Metadata) (inodeSrc parentDst : Inode) (name : Name) (src p : FSNode) (dst : Inode)
    (n : FSNode) : Prop where
  src : t.nodes.get inodeSrc = some src
  parent : t.nodes.get parentDst = some p
  found : t.fsnodesLookup parentDst name = some dst
  dst : t.nodes.get dst = some n

/-- entries are removed by their exact names, and the clock does not show 0 when one is made -/
def exactNames : Op → Prop
  | symlink c _ _ _ _ | mknod c _ _ _ _ _ _ _ | mkdir c _ _ _ _ _ _ | link c _ _ _ | undel c _ _ => 0 < c.ts
  | unlink c parent name | rmdir c parent name => ∀ wd, t.resolve c.onMaster parent = .ok wd → ExactName t wd name
  | removeTask _ parent name => ExactName t parent name
  | rename c parentSrc nameSrc parentDst nameDst =>
    0 < c.ts ∧ (∀ swd, t.resolve c.onMaster parentSrc = .ok swd → ExactName t swd nameSrc) ∧
      ∀ dwd, t.resolve c.onMaster parentDst = .ok dwd → ExactName t dwd nameDst
  | clone ts inodeSrc _ parentDst name _ _ =>
    0 < ts ∧ ∀ src p dst n, Overwrites t inodeSrc parentDst name src p dst n → replaces src n →
      ExactName t parentDst name
  | _ => True

/-- lengths of symbolic links fit 16 bits, and one with several links is overwritten only by one of the same length -/
def fittingLengths : Op → Prop
  | symlink _ _ _ path _ => path.length < 2 ^ 16
  | clone _ inodeSrc _ parentDst name _ _ =>
    ∀ src p dst n old new, Overwrites t inodeSrc parentDst name src p dst n → n.data = .symlink old →
      src.data = .symlink new → n.parent = [parentDst] ∨ old.length % 2 ^ 16 = new.length % 2 ^ 16
  | _ => True

/-- a step of a snapshot gives no node to another owner -/
def sameOwners : Op → Prop
  | clone _ inodeSrc _ parentDst name _ _ =>
    ∀ src p dst n, Overwrites t inodeSrc parentDst name src p dst n →
      if replaces src n then newGroup p src.gid = src.gid else src.uid = n.uid ∧ src.gid = n.gid
  | _ => True

/-- a step of a snapshot overwrites the mode of no node with a list that says otherwise -/
def sameModes : Op → Prop
  | clone _ inodeSrc _ parentDst name _ _ =>
    ∀ src p dst n acl, Overwrites t inodeSrc parentDst name src p dst n → replaces src n = false → n.acl = some acl →
      src.mode &&& 0o777 = acl.getMode
  | _ => True

/-- all conditions on an operation in the state it meets -/
def limits (op : Op) : Limits := ⟨op.exactNames t, op.fittingLengths t, op.sameOwners t, op.sameModes t⟩

end Op

namespace Metadata

variable {cfg : Config} {lim : Limits} {t u : Metadata} {c : FsContext} {log : List Logged} {ts : UInt32}
  {parent parentSrc parentDst inode inodeSrc inodeDst origInode : Inode} {name nameSrc nameDst path : Name}
  {uid gid rdev sessionid : UInt32} {type : NodeType} {mode umask : BitVec 16} {copysgid canOverwrite : Bool}

/-! ## The end of the process -/

theorem stopped_updateParentStats {ps : List Inode} {s : Stats} (h : t.stopped) :
    (t.updateParentStats ps s).stopped := by
  change (t.stopped || _)
  rw [h, Bool.true_or]

variable {d x id : Inode} {v : Metadata} {src : FSNode} {f : FileData} {answer : Except Status ℕ+}

theorem stopped_fsnodesRemoveEdge (h : t.stopped) : (t.fsnodesRemoveEdge cfg ts d name x).stopped := by
  unfold fsnodesRemoveEdge
  cases t.find d name with
  | none => exact stopped_updateParentStats (s := -t.fsnodesGetStats cfg x) h
  | some e => exact stopped_updateParentStats (s := -(t.eraseEntry cfg d name e).fsnodesGetStats cfg x) h

theorem stopped_fsnodesLink_eq : (t.fsnodesLink cfg ts d x name).stopped =
      (t.stopped || (((t.insertEntry cfg d name x).modifyNode x fun n =>
        { n with parent := n.parent ++ [d] }).statsPaths [d]).isNone) := by
  unfold fsnodesLink
  dsimp only
  split_ifs <;> rfl

theorem stopped_fsnodesLink (h : t.stopped) : (t.fsnodesLink cfg ts d x name).stopped := by
  rw [stopped_fsnodesLink_eq, h, Bool.true_or]

theorem stopped_fsnodesRemoveNode : (t.fsnodesRemoveNode x).stopped = t.stopped := by
  unfold fsnodesRemoveNode
  split
  · rfl
  · split_ifs <;> rfl

theorem stopped_dropLastLink {n : FSNode} : (t.dropLastLink cfg ts x n path).stopped = t.stopped := by
  unfold dropLastLink
  split
  · split_ifs
    · rfl
    · rfl
    · exact stopped_fsnodesRemoveNode
  · exact stopped_fsnodesRemoveNode

theorem stopped_fsnodesUnlink_eq :
    (t.fsnodesUnlink cfg ts d name x).stopped = (t.fsnodesRemoveEdge cfg ts d name x).stopped := by
  unfold fsnodesUnlink
  dsimp only
  split
  · rfl
  · split_ifs
    · rfl
    · exact stopped_dropLastLink

theorem stopped_fsnodesPurge (h : t.stopped) : (t.fsnodesPurge cfg ts x).stopped := by
  unfold fsnodesPurge
  split
  · exact h
  · split
    · dsimp only
      split_ifs
      · split
        · rfl
        · exact h
      · rw [stopped_fsnodesRemoveNode]
        exact h
    · rw [stopped_fsnodesRemoveNode]
      exact h
    · exact h

theorem Change.stopped (h : Change cfg lim t u) (hs : t.stopped) : u.stopped := by
  cases h with
  | fold | trashPath | forgetTrash | forgetReserved => exact hs
  | create _ _ h =>
    obtain ⟨p, n, _, _, _, _, rfl⟩ := fsnodesCreateNode_inv h
    exact stopped_fsnodesLink hs
  | link => exact stopped_fsnodesLink hs
  | unlink => exact (stopped_fsnodesUnlink_eq).trans (stopped_fsnodesRemoveEdge hs)
  | move => exact stopped_fsnodesLink (stopped_fsnodesRemoveEdge hs)
  | undel => exact stopped_fsnodesLink hs
  | purge | release => exact stopped_fsnodesPurge hs
  | edit h => exact h.stopped hs

variable {P : Metadata → Prop}

theorem Changes.induct (hP : ∀ t u, Change cfg lim t u → u.stopped = false → P t → P u) (h : Changes cfg lim t u)
    (hr : u.stopped = false) (ht : P t) : P u := by
  induction h with
  | refl => exact ht
  | tail hch hc ih =>
    refine hP _ _ hc hr (ih ?_)
    by_contra hs
    rw [Change.stopped hc (by simpa using hs)] at hr
    cases hr

theorem changes_of_edits (h : Edits cfg lim t u) : Changes cfg lim t u :=
  Relation.ReflTransGen.mono (fun _ _ ⟨_, _, _, he⟩ => .edit he) _ _ h

variable {n : FSNode}

theorem statsPath_self (hg : t.nodes.get x = some n) (hr : x ≠ rootInode)
    (hp : n.parent = [x]) {fuel : ℕ} : statsPath t.nodes fuel x = none := by
  induction fuel with
  | zero => rfl
  | succ fuel ih => simp [statsPath, hg, hr, hp, ih]

theorem stopped_of_self_link (hr : x ≠ rootInode) (hs : (t.nodes.get x).isSome)
    (hl : t.graph.parents x = []) : (t.fsnodesLink cfg ts x x name).stopped := by
  obtain ⟨n, hn⟩ := isSome_iff_exists.1 hs
  rw [parents_graph hn] at hl
  rw [stopped_fsnodesLink_eq]
  have hg : ((t.insertEntry cfg x name x).modifyNode x fun n => { n with parent := n.parent ++ [x] }).nodes.get x =
      some { n with data := n.data.mapEntries (·.orderedInsert cfg.before (name, x)), parent := [x] } := by
    rw [get_modifyNode, if_pos rfl]
    change ((t.nodes.modify x _).get x).map _ = _
    rw [get_modify, if_pos rfl, hn]
    simp [hl]
  simp [statsPaths, statsPath_self hg hr rfl]

/-! ## The nodes of an operation -/

section Operations

variable {e : ExpectedNodeType} {modemask : BitVec 16} {id : Inode} {n : FSNode}

theorem resolve_of_operation (h : t.fsnodesGetNodeForOperation c e modemask inode = .ok (id, n)) :
    t.resolve c inode = .ok id := by
  unfold fsnodesGetNodeForOperation at h
  split at h
  · cases h
  · split at h
    · cases h
    · rename_i id' hr _ n' hg
      split_ifs at h
      obtain ⟨rfl, rfl⟩ : id' = id ∧ n' = n := by simpa using h
      exact hr

theorem isDir_of_operation (h : t.fsnodesGetNodeForOperation c .directory modemask inode = .ok (id, n)) :
    t.graph.isDir id := by
  obtain ⟨hg, hc⟩ := getNodeForOperation_inv h
  rw [isDir_graph hg, ExpectedNodeType.check_directory.1 hc]

theorem isDir_of_get (hg : t.nodes.get id = some n) (hd : n.isDirectory) : t.graph.isDir id :=
  (isDir_graph hg).trans hd

theorem find_of_childOf (h : t.childOf d name = .ok (id, n)) :
    ∃ a, t.find d name = some (a, id) ∧ t.nodes.get id = some n := by
  obtain ⟨hl, hg⟩ := childOf_eq_ok.1 h
  obtain ⟨⟨a, id'⟩, hf, rfl⟩ := map_eq_some_iff.1 hl
  exact ⟨a, hf, hg⟩

theorem empty_of_node (hg : t.nodes.get id = some n) (he : (n.isDirectory && !n.entries.isEmpty) = false) :
    t.graph.isDir id → t.entries id = [] := by
  intro hd
  rw [isDir_graph hg] at hd
  rw [hd, Bool.true_and, Bool.not_eq_false', List.isEmpty_iff] at he
  rw [entries, Nodes.entries, hg]
  exact he

end Operations

/-! ## Operations on names -/

theorem Change.single (h : Change cfg lim t u) : Changes cfg lim t u := Relation.ReflTransGen.single h

theorem fsLookup_changes : Changes cfg lim t (t.fsLookup c parent name).1 := by
  unfold fsLookup
  split
  · exact .refl
  · split
    · exact .refl
    · dsimp only
      split_ifs <;> first | exact .refl | exact Change.single (.fold t _ _)

theorem fsSymlink_changes (h : t.fsSymlink cfg c parent name path inode = .ok (u, log)) (ht : lim.names → 0 < c.ts)
    (hl : lim.lengths → path.length < 2 ^ 16) : Changes cfg lim t u := by
  obtain ⟨-, wd, p, hw, -, -, -, -, v, hc, rfl, -⟩ := fsSymlink_eq_ok.1 h
  obtain ⟨hg, -⟩ := getNodeForOperation_inv hw
  have hn := get_fsnodesCreateNode hc hg inode
  rw [if_pos rfl] at hn
  exact (Change.single (.create ht (isDir_of_operation hw) hc)).tail
    (.edit (edit_setSymlinkPath hn rfl rfl hl))

theorem fsMknod_changes (h : t.fsMknod cfg c parent name type mode umask rdev inode = .ok (u, log))
    (ht : lim.names → 0 < c.ts) : Changes cfg lim t u := by
  simp only [fsMknod, bind_eq_ok, require_eq_ok, forOperation_eq_ok, created_eq_ok, ok.injEq, Prod.mk.injEq,
    Prod.exists, exists_const] at h
  obtain ⟨-, -, wd, p, hw, -, -, -, v, hc, rfl, -⟩ := h
  obtain ⟨hg, -⟩ := getNodeForOperation_inv hw
  have hn := get_fsnodesCreateNode hc hg inode
  rw [if_pos rfl] at hn
  exact (Change.single (.create ht (isDir_of_operation hw) hc)).tail (.edit (edit_setRdev rdev hn))

theorem fsMkdir_changes (h : t.fsMkdir cfg c parent name mode umask copysgid inode = .ok (u, log))
    (ht : lim.names → 0 < c.ts) : Changes cfg lim t u := by
  simp only [fsMkdir, bind_eq_ok, require_eq_ok, forOperation_eq_ok, created_eq_ok, ok.injEq, Prod.mk.injEq,
    Prod.exists, exists_const] at h
  obtain ⟨-, wd, p, hw, -, -, -, v, hc, rfl, -⟩ := h
  exact Change.single (.create ht (isDir_of_operation hw) hc)

theorem fsLink_changes (h : t.fsLink cfg c inodeSrc parentDst nameDst = .ok (u, log)) (ht : lim.names → 0 < c.ts) :
    Changes cfg lim t u := by
  simp only [fsLink, bind_eq_ok, require_eq_ok, forOperation_eq_ok, ok.injEq, Prod.mk.injEq, Prod.exists,
    exists_const] at h
  obtain ⟨-, dwd, m, hdw, sp, n, hs, hli, -, -, rfl, -⟩ := h
  obtain ⟨hg, hc⟩ := getNodeForOperation_inv hs
  have hl : n.isDirectory = false := by
    unfold ExpectedNodeType.check at hc
    cases hd : n.isDirectory with
    | false => rfl
    | true => simp [hd] at hc
  exact Change.single (.link ht (isDir_of_operation hdw) hg hl (by simpa using hli))

theorem unlink_changes (hn : lim.names → ExactName t d name)
    (hc : t.childOf d name = .ok (id, n)) (he : (n.isDirectory && !n.entries.isEmpty) = false) :
    Changes cfg lim t (t.fsnodesUnlink cfg ts d name id) := by
  obtain ⟨a, hf, hg⟩ := find_of_childOf hc
  exact Change.single (.unlink (e := (a, id)) ts hf (fun hl => hn hl _ hf) (empty_of_node hg he))

theorem fsUnlink_changes (h : t.fsUnlink cfg c parent name = .ok (u, log))
    (hn : lim.names → ∀ wd, t.resolve c parent = .ok wd → ExactName t wd name) : Changes cfg lim t u := by
  simp only [fsUnlink, bind_eq_ok, require_eq_ok, forOperation_eq_ok, ok.injEq, Prod.mk.injEq, Prod.exists,
    exists_const, Bool.not_eq_true'] at h
  obtain ⟨-, wd, p, hw, -, child, cn, hc, -, hl, rfl, -⟩ := h
  exact unlink_changes (fun hli => hn hli wd (resolve_of_operation hw)) hc (by rw [hl, Bool.false_and])

theorem fsRmdir_changes (h : t.fsRmdir cfg c parent name = .ok (u, log))
    (hn : lim.names → ∀ wd, t.resolve c parent = .ok wd → ExactName t wd name) : Changes cfg lim t u := by
  simp only [fsRmdir, bind_eq_ok, require_eq_ok, forOperation_eq_ok, ok.injEq, Prod.mk.injEq, Prod.exists,
    exists_const] at h
  obtain ⟨-, wd, p, hw, -, child, cn, hc, -, -, he, rfl, -⟩ := h
  exact unlink_changes (fun hl => hn hl wd (resolve_of_operation hw)) hc
    (by rw [he, Bool.not_true, Bool.and_false])

theorem removeTaskUnlink_changes (h : t.removeTaskUnlink cfg c parent name = .ok (u, log))
    (hn : lim.names → ExactName t parent name) : Changes cfg lim t u := by
  simp only [removeTaskUnlink, bind_eq_ok, require_eq_ok, nodeOf_eq_ok, Prod.exists, exists_const] at h
  obtain ⟨p, -, -, child, cn, hc, -, h⟩ := h
  split_ifs at h with he
  · cases h
    exact .refl
  · cases h
    exact unlink_changes hn hc (Bool.eq_false_iff.2 he)

/-- the edge is moved once nothing is in its way; into itself a directory cannot be moved without ending the process -/
theorem moveEdge_change {swd dwd : Inode} {e : Name × Inode} (ht : t.IsTree)
    (hts : lim.names → 0 < ts) (hf : t.find swd nameSrc = some e) (hn : lim.names → e.1 = nameSrc)
    (hd : t.graph.isDir dwd) (hno : t.graph.isDir e.2 → e.2 ≠ dwd → ¬ Above t.graph.up dwd e.2)
    (hr : ((t.fsnodesRemoveEdge cfg ts swd nameSrc e.2).fsnodesLink cfg ts dwd e.2 nameDst).stopped = false) :
    Change cfg lim t ((t.fsnodesRemoveEdge cfg ts swd nameSrc e.2).fsnodesLink cfg ts dwd e.2 nameDst) := by
  refine .move hts hf hn hd fun hdi => hno hdi ?_
  rintro rfl
  have he : e ∈ t.graph.entries swd := (entries_graph t swd).symm ▸ mem_entries_of_find hf
  have hc := graph_fsnodesRemoveEdge cfg hf ts e.2
  have hh := ht.cut_dir he hdi
  have hs : ((t.fsnodesRemoveEdge cfg ts swd nameSrc e.2).fsnodesLink cfg ts e.2 e.2 nameDst).stopped := by
    refine stopped_of_self_link hh.ne_root ?_ (by rw [hc]; exact hh.loose)
    rw [← isSome_graph, hc]
    exact isSome_of_isDir hh.dir
  rw [hs] at hr
  cases hr

theorem fsRename_changes (ht : t.IsTree)
    (h : t.fsRename cfg c parentSrc nameSrc parentDst nameDst inode = .ok (u, log)) (hr : u.stopped = false)
    (hts : lim.names → 0 < c.ts) (hsr : lim.names → ∀ swd, t.resolve c parentSrc = .ok swd → ExactName t swd nameSrc)
    (hds : lim.names → ∀ dwd, t.resolve c parentDst = .ok dwd → ExactName t dwd nameDst) : Changes cfg lim t u := by
  obtain ⟨-, dwd, dn, hdw, swd, sn, hsw, -, se, n, hse, -, -, ha, -,
    ⟨-, rfl, -⟩ | ⟨hne, hre, -, rfl, -⟩⟩ := fsRename_eq_ok.1 h
  · exact .refl
  obtain ⟨a, hf, hg⟩ := find_of_childOf hse
  obtain ⟨hdg, -⟩ := getNodeForOperation_inv hdw
  have hd := isDir_of_operation hdw
  have hn : lim.names → a = nameSrc := fun hl => hsr hl swd (resolve_of_operation hsw) _ hf
  -- the test finds every directory above the destination, the destination itself apart
  have hno : t.graph.isDir se → se ≠ dwd → ¬ Above t.graph.up dwd se := by
    intro hdi hs hab
    rw [isDir_graph hg] at hdi
    rw [hdi, Bool.true_and, isancestor_of_above ht hdg ((isDir_graph hdg).symm.trans hd) hs hab] at ha
    cases ha
  cases hde : t.fsnodesLookup dwd nameDst with
  | none =>
    rw [hde] at hr
    exact Change.single (moveEdge_change (e := (a, se)) ht hts hf hn hd hno hr)
  | some id =>
    rw [hde] at hr hne
    obtain ⟨⟨a', id'⟩, hf', rfl⟩ := map_eq_some_iff.1 hde
    obtain ⟨m, hm, he, -⟩ := hre id' hde
    have he' := empty_of_node hm he
    have hne' : se ≠ id' := fun heq => hne (congrArg some heq.symm)
    obtain ⟨hf₁, hd₁, hdi₁⟩ := IsTree.unlink_aside cfg c.ts ht hf hd hf' hne' he'
    obtain ⟨ht₁, hup⟩ := IsTree.unlink cfg ht c.ts hf' he'
    refine (Change.single (.unlink (e := (a', id')) c.ts hf' (fun hl => hds hl dwd (resolve_of_operation hdw) _ hf')
      he')).tail (moveEdge_change (e := (a, se)) ht₁ hts hf₁ hn hd₁ (fun hdi hs hab => ?_) hr)
    exact hno (hdi₁.symm.trans hdi) hs (Relation.ReflTransGen.mono (fun y w hy => hup y w hy) _ _ hab)

/-! ## Trash and open files -/

variable {length : ℕ} {inodes : List Inode} {p : FSNode} {dst : Inode} {opened : Bool} {smode : SMode} {op : Op}
  {ops : List Op}

theorem undelWalk_changes {p : Inode} {sessionid : List UInt32} {chunks : List ℕ}
    {isNew : Bool} {parts : List Name} (ht : lim.names → 0 < ts) (hg : t.nodes.get x = some n)
    (hda : n.data = .file ⟨.trash, length, sessionid, chunks⟩) (hd : t.graph.isDir p)
    (h : undelWalk cfg ts x n length t p isNew parts inodes = .ok (u, log)) : Changes cfg lim t u := by
  induction parts generalizing t p isNew inodes log with
  | nil => cases h
  | cons name rest ih =>
    cases rest with
    | nil =>
      unfold undelWalk at h
      split_ifs at h
      cases h
      exact Change.single (.undel ht hg hda hd)
    | cons name' rest =>
      unfold undelWalk at h
      split at h
      · rename_i child _
        split_ifs at h with hdi
        refine ih hg ?_ h
        cases hch : t.nodes.get child with
        | none => simp [hch] at hdi
        | some m => exact isDir_of_get hch (by simpa [hch] using hdi)
      · split at h
        · cases h
        · rename_i inode inodes
          simp only [bind_eq_ok, created_eq_ok, Prod.exists, ok.injEq, Prod.mk.injEq] at h
          obtain ⟨v, hc, u', log', hw, rfl, -⟩ := h
          obtain ⟨m, hm⟩ := isSome_iff_exists.1 (isSome_graph.symm.trans (isSome_of_isDir hd))
          have hge := get_fsnodesCreateNode hc hm
          have hxp : x ≠ p := by
            rintro rfl
            rw [isDir_of_file hg hda] at hd
            cases hd
          have hx : x ≠ inode := by
            rintro rfl
            obtain ⟨-, -, -, -, hf, -⟩ := fsnodesCreateNode_inv hc
            rw [hg] at hf
            cases hf
          refine (Change.single (.create ht hd hc)).trans (ih ?_ ?_ hw)
          · rw [hge, if_neg hx, hg, map_some, linkNode_of_ne hxp hx]
          · have hn := hge inode
            rw [if_pos rfl] at hn
            exact isDir_of_get hn rfl

theorem fsUndel_changes (ht : t.IsTree) (h : t.fsUndel cfg c inode inodes = .ok (u, log))
    (hts : lim.names → 0 < c.ts) : Changes cfg lim t u := by
  simp only [fsUndel, bind_eq_ok, require_eq_ok, forOperation_eq_ok, Prod.exists, exists_const] at h
  obtain ⟨-, x, n, hx, h⟩ := h
  split at h
  · rename_i length sessionid chunks hd
    split at h
    · cases h
    · split at h
      · cases h
      · simp only [bind_eq_ok, Prod.exists, ok.injEq, Prod.mk.injEq] at h
        obtain ⟨t', log', hw, rfl, -⟩ := h
        exact undelWalk_changes hts (getNodeForOperation_inv hx).1 hd ht.root_dir hw
  · cases h

theorem fsSettrashpath_changes (h : t.fsSettrashpath c inode path = .ok (u, log)) : Changes cfg lim t u := by
  simp only [fsSettrashpath, bind_eq_ok, require_eq_ok, forOperation_eq_ok, ok.injEq, Prod.mk.injEq,
    Prod.exists, exists_const] at h
  obtain ⟨-, x, n, hx, ht, -, rfl, -⟩ := h
  exact Change.single (.trashPath path (getNodeForOperation_inv hx).1 (of_decide_eq_true ht))

theorem fsPurge_changes (h : t.fsPurge cfg c inode = .ok (u, log)) : Changes cfg lim t u := by
  simp only [fsPurge, bind_eq_ok, require_eq_ok, forOperation_eq_ok, ok.injEq, Prod.mk.injEq, Prod.exists,
    exists_const] at h
  obtain ⟨-, x, n, hx, ht, rfl, -⟩ := h
  exact Change.single (.purge t c.ts x)

theorem emptyTrashEntry_changes {key : TrashPathKey} (h : t.emptyTrashEntry cfg ts key = .ok (u, log)) :
    Changes cfg lim t u := by
  simp only [emptyTrashEntry, bind_eq_ok, require_eq_ok, exists_const] at h
  replace h := h.2
  split at h <;> cases h
  · exact Change.single (.forgetTrash ‹_›)
  · exact Change.single (.purge t ts key.id)

theorem emptyReservedEntry_changes (h : t.emptyReservedEntry cfg ts inode = .ok (u, log)) : Changes cfg lim t u := by
  simp only [emptyReservedEntry, bind_eq_ok, require_eq_ok, exists_const] at h
  replace h := h.2
  split at h <;> cases h
  · exact Change.single (.forgetReserved ‹_›)
  · exact Change.single (.purge t ts inode)

theorem fsAcquire_changes (h : t.fsAcquire cfg ts inode sessionid = .ok (u, log)) : Changes cfg lim t u := by
  simp only [fsAcquire, bind_eq_ok, nodeOf_eq_ok] at h
  obtain ⟨n, hg, h⟩ := h
  split at h
  · rename_i f hf
    simp only [bind_eq_ok, require_eq_ok, exists_const, ok.injEq, Prod.mk.injEq] at h
    obtain ⟨-, rfl, -⟩ := h
    exact Change.single (.edit (edit_setSessions hg hf fun _ _ => by simp))
  · cases h

theorem fsRelease_changes (h : t.fsRelease cfg ts inode sessionid = .ok (u, log)) : Changes cfg lim t u := by
  simp only [fsRelease, bind_eq_ok, nodeOf_eq_ok] at h
  obtain ⟨n, hg, h⟩ := h
  split at h
  rotate_left
  · cases h
  rename_i f hf
  simp only [bind_eq_ok, require_eq_ok, exists_const, ok.injEq, Prod.mk.injEq] at h
  obtain ⟨-, rfl, -⟩ := h
  split_ifs with hl
  · simp only [Bool.and_eq_true, decide_eq_true_eq] at hl
    obtain ⟨state, length, sessions, chunks⟩ := f
    obtain rfl : state = .reserved := by
      have ht := hl.1
      rw [FSNode.type, hf] at ht
      cases state <;> simp [NodeData.type] at ht
      rfl
    exact Change.single (.release ts _ hg hf)
  · refine Change.single (.edit (edit_setSessions hg hf fun hr _ hn => hl ?_))
    simp [hr, hn]

/-! ## Snapshots -/

theorem cloneEnd_changes (hc : Changes cfg lim t (v.fsnodesUpdateChecksum cfg id))
    (hpa : (v.nodes.get parentDst).isSome)
    (h : v.cloneEnd cfg ts inodeSrc parentDst inodeDst name canOverwrite id = .ok (u, log)) : Changes cfg lim t u := by
  simp only [cloneEnd, bind_eq_ok, require_eq_ok, ok.injEq, Prod.mk.injEq, exists_const] at h
  obtain ⟨-, rfl, -⟩ := h
  obtain ⟨p, hp⟩ := isSome_iff_exists.1 hpa
  have hg : (v.fsnodesUpdateChecksum cfg id).nodes.get parentDst = some p := hp
  exact hc.tail (.edit (edit_fsnodesUpdateChecksum hg))

theorem cloneToNewNode_changes (ht : lim.names → 0 < ts)
    (hs : t.nodes.get inodeSrc = some src) (hl : src.type ≠ .trash ∧ src.type ≠ .reserved)
    (hp : t.nodes.get parentDst = some p) (hd : p.isDirectory)
    (h : t.cloneToNewNode cfg ts inodeSrc src parentDst name inode = .ok v) :
    Changes cfg lim t (v.fsnodesUpdateChecksum cfg inode) ∧ (v.nodes.get parentDst).isSome := by
  simp only [cloneToNewNode, bind_eq_ok, created_eq_ok, ok.injEq] at h
  obtain ⟨w, hc, rfl⟩ := h
  have hg := get_fsnodesCreateNode hc hp
  have hne : inodeSrc ≠ inode := by
    rintro rfl
    obtain ⟨-, -, -, -, hf, -⟩ := fsnodesCreateNode_inv hc
    rw [hs] at hf
    cases hf
  -- the source may be the directory itself, with the new entry
  obtain ⟨src', hs', ha⟩ : ∃ src', w.nodes.get inodeSrc = some src' ∧ Alike src src' := by
    rw [hg, if_neg hne, hs]
    exact ⟨_, rfl, alike_linkNode ..⟩
  have hn := hg inode
  rw [if_pos rfl] at hn
  rw [hs', getD_some]
  obtain ⟨n', he⟩ := edit_cloneNewData cfg lim src' hn (by rw [ha.type]; rfl)
    (by rw [ha.type]; exact hl) rfl rfl
  refine ⟨(Change.single (.create ht (isDir_of_get hp hd) hc)).tail (.edit he), ?_⟩
  have hse : (w.cloneNewData cfg src' inode parentDst).nodes = w.nodes.set inode n' := he.nodes
  rw [hse, get_set]
  split_ifs
  · rfl
  · rw [hg, hp]
    split_ifs
    rfl

theorem cloneToExistingNode_kept (h : replaces src n = false) :
    t.cloneToExistingNode cfg ts src parentDst name dst n inode =
      .ok (dst, (t.cloneData cfg src dst parentDst).cloneAttributes ts src dst) := by
  unfold cloneToExistingNode
  unfold replaces at h
  cases hs : src.data with
  | file f =>
    cases hn : n.data with
    | file g =>
      rw [hs, hn] at h
      have hsa : sameContents g f := by simpa using h
      simp [hsa, cloneData, hs]
    | _ => simp
  | _ => simp

theorem cloneToExistingNode_replaced (h : replaces src n) : ∃ f g, src.data = .file f ∧ n.data = .file g ∧
      t.cloneToExistingNode cfg ts src parentDst name dst n inode =
        (t.replaceFileNode cfg ts src f parentDst name dst inode >>= fun t =>
          .ok (inode, t.cloneAttributes ts src inode)) := by
  unfold replaces at h
  split at h
  · rename_i f g hf hg
    have hs : sameContents g f = false := by simpa using h
    refine ⟨f, g, hf, hg, ?_⟩
    unfold cloneToExistingNode
    rw [hf, hg]
    exact if_neg (by simp [hs])
  · cases h

theorem replaceFileNode_changes {g : FileData} (ht : lim.names → 0 < ts) (hna : lim.names → ExactName t parentDst name)
    (ho : lim.owners → newGroup p src.gid = src.gid) (hp : t.nodes.get parentDst = some p)
    (hd : p.isDirectory) (hfo : t.fsnodesLookup parentDst name = some dst) (hds : t.nodes.get dst = some n)
    (hg : n.data = .file g) (h : t.replaceFileNode cfg ts src f parentDst name dst inode = .ok v) :
    Changes cfg lim t ((v.cloneAttributes ts src inode).fsnodesUpdateChecksum cfg inode) ∧
      ((v.cloneAttributes ts src inode).nodes.get parentDst).isSome := by
  simp only [replaceFileNode, bind_eq_ok, created_eq_ok, ok.injEq] at h
  obtain ⟨w, hcr, rfl⟩ := h
  obtain ⟨⟨a, dst'⟩, hf, rfl⟩ := map_eq_some_iff.1 hfo
  have hle : n.isDirectory = false := by rw [FSNode.isDirectory, hg]; rfl
  have hne : parentDst ≠ dst' := by
    rintro rfl
    obtain rfl : p = n := Option.some.inj (hp.symm.trans hds)
    rw [hle] at hd
    cases hd
  -- the directory without the old file
  have hp₁ := get_fsnodesUnlink_of_ne cfg ts hf hne
  rw [hp, map_some] at hp₁
  have hal := alike_cutNode ts parentDst (a, dst') dst' parentDst p
  have hge := get_fsnodesCreateNode hcr hp₁
  have hn := hge inode
  rw [if_pos rfl] at hn
  obtain ⟨w', n₁, n₂, hc, ha⟩ := replaced_edits cfg lim ts src f hn rfl rfl rfl
    fun hl => ⟨rfl, by
      exact (ho hl).symm⟩
  have he : t.graph.isDir dst' → t.entries dst' = [] :=
    empty_of_node hds (by rw [hle, Bool.false_and])
  refine ⟨(((Change.single (.unlink (e := (a, dst')) ts hf (fun hl => hna hl _ hf) he)).tail
    (.create ht (isDir_of_get hp₁ (hal.isDirectory.trans hd)) hcr)).tail (.edit hc)).tail
    (.edit ha), ?_⟩
  have hs : ((w.cloneChunkData cfg src f inode parentDst).cloneAttributes ts src inode).nodes = w'.nodes.set inode n₂ :=
    ha.nodes
  rw [hs, hc.nodes, get_set, get_set]
  split_ifs with heq
  · rfl
  · rw [hge, if_neg heq, hp₁]
    rfl

theorem cloneNode_changes
    (h : t.cloneNode cfg ts inodeSrc origInode parentDst inodeDst name canOverwrite inode = .ok (u, log))
    (hts : lim.names → 0 < ts) (hn : lim.names → ∀ src p dst n, Op.Overwrites t inodeSrc parentDst name src p dst n →
      replaces src n → ExactName t parentDst name)
    (hle : lim.lengths → ∀ src p dst n old new, Op.Overwrites t inodeSrc parentDst name src p dst n →
      n.data = .symlink old → src.data = .symlink new →
      n.parent = [parentDst] ∨ old.length % 2 ^ 16 = new.length % 2 ^ 16)
    (how : lim.owners → ∀ src p dst n, Op.Overwrites t inodeSrc parentDst name src p dst n →
      if replaces src n then newGroup p src.gid = src.gid else src.uid = n.uid ∧ src.gid = n.gid)
    (hm : lim.modes → ∀ src p dst n acl, Op.Overwrites t inodeSrc parentDst name src p dst n →
      replaces src n = false → n.acl = some acl → src.mode &&& 0o777 = acl.getMode) : Changes cfg lim t u := by
  simp only [cloneNode, bind_eq_ok, nodeOf_eq_ok, require_eq_ok, exists_const] at h
  obtain ⟨src, hs, hli, p, hp, hdi, h⟩ := h
  have hli' : src.type ≠ .trash ∧ src.type ≠ .reserved := by simpa using hli
  split at h
  rotate_left
  · simp only [bind_eq_ok] at h
    obtain ⟨-, -, v, hne, hen⟩ := h
    obtain ⟨hc, hpa⟩ := cloneToNewNode_changes hts hs hli' hp hdi hne
    exact cloneEnd_changes hc hpa hen
  rename_i dst hfo
  simp only [cloneNodeTest, bind_eq_ok, nodeOf_eq_ok, require_eq_ok, exists_const, decide_eq_true_eq, Prod.exists] at h
  obtain ⟨n, hd, ⟨-, -, ht, -⟩, id, v, he, hen⟩ := h
  have ho : Op.Overwrites t inodeSrc parentDst name src p dst n := ⟨hs, hp, hfo, hd⟩
  cases hr : replaces src n with
  | true =>
    obtain ⟨f, g, hf, hg, heq⟩ := cloneToExistingNode_replaced hr
    rw [heq] at he
    simp only [bind_eq_ok, ok.injEq, Prod.mk.injEq] at he
    obtain ⟨w, hre, rfl, rfl⟩ := he
    have hgr (hl : lim.owners) : newGroup p src.gid = src.gid := by
      have := how hl src p dst n ho
      rwa [if_pos hr] at this
    obtain ⟨hc, hpa⟩ := replaceFileNode_changes hts (fun hl => hn hl src p dst n ho hr) hgr hp hdi hfo hd hg hre
    exact cloneEnd_changes hc hpa hen
  | false =>
    rw [cloneToExistingNode_kept hr] at he
    obtain ⟨rfl, rfl⟩ := Prod.mk.inj (ok.inj he)
    have hsa (hl : lim.owners) : src.uid = n.uid ∧ src.gid = n.gid := by
      have := how hl src p dst n ho
      rwa [hr] at this
    obtain ⟨w, n₁, n₂, hco, ha⟩ := cloneOnto_edits cfg lim ts parentDst hd ht hli' hsa
      (fun hl acl => hm hl src p dst n acl ho hr)
      (fun hl old new => hle hl src p dst n old new ho)
    refine cloneEnd_changes ((Change.single (.edit hco)).tail (.edit ha)) ?_ hen
    have hse : ((t.cloneData cfg src dst parentDst).cloneAttributes ts src dst).nodes = w.nodes.set dst n₂ :=
      ha.nodes
    rw [hse, hco.nodes, get_set, get_set]
    split_ifs
    · rfl
    · rw [hp]
      rfl

/-! ## Attributes and lists -/

theorem fsSetattr_changes {s : SetMask} {attrmode : BitVec 16} {attruid attrgid attratime attrmtime : UInt32}
    {sugid : SugidClearMode}
    (h : t.fsSetattr cfg c inode s attrmode attruid attrgid attratime attrmtime sugid = .ok (u, log)) :
    Changes cfg lim t u := by
  obtain ⟨p, n, hp, rfl, -⟩ := fsSetattr_ok h
  refine Change.single (.edit (edit_setAttributes _ _ _ (getNodeForOperation_inv hp).1 ?_ fun ha =>
    agrees_setattr ha sugid c.uid s attrmode attrgid))
  intro hc
  rw [SetMask.chown, Bool.or_eq_false_iff] at hc
  simp [newUid, newGid, hc]

theorem fsUpdateAtime_changes (h : t.fsUpdateAtime cfg ts inode = .ok (u, log)) : Changes cfg lim t u := by
  unfold fsUpdateAtime at h
  simp only [bind_eq_ok, nodeOf_eq_ok] at h
  obtain ⟨n, hg, h⟩ := h
  split_ifs at h
  · cases h
    exact .refl
  · cases h
    exact Change.single (.edit (edit_atime hg ts))

theorem fsSetRichAcl_changes {acl : RichAcl} (h : t.fsSetRichAcl cfg c inode acl = .ok (u, log)) :
    Changes cfg lim t u := by
  simp only [fsSetRichAcl, fsnodesSetRichAcl, bind_eq_ok, require_eq_ok, forOperation_eq_ok, ok.injEq,
    Prod.mk.injEq, Prod.exists, exists_const] at h
  obtain ⟨-, p, n, hp, _, ⟨-, rfl⟩, rfl, -⟩ := h
  exact Change.single (.edit (edit_setAcl (getNodeForOperation_inv hp).1 c.ts fun _ => n.agrees_setRichAcl acl))

theorem fsSetPosixAcl_changes {isDefault : Bool} {acl : AccessControlList}
    (h : t.fsSetPosixAcl cfg c inode isDefault acl = .ok (u, log)) : Changes cfg lim t u := by
  simp only [fsSetPosixAcl, fsnodesSetPosixAcl_eq_ok, bind_eq_ok, require_eq_ok, forOperation_eq_ok, ok.injEq,
    Prod.mk.injEq, Prod.exists, exists_const] at h
  obtain ⟨-, p, n, hp, _, ⟨-, rfl⟩, rfl, -⟩ := h
  refine Change.single (.edit (edit_setAcl (getNodeForOperation_inv hp).1 c.ts fun _ a ha => ?_))
  obtain rfl := Option.some.inj ha
  exact n.agrees_setPosixAcl isDefault acl

theorem fsDeleteacl_changes {type : AclType} (h : t.fsDeleteacl cfg c inode type = .ok (u, log)) :
    Changes cfg lim t u := by
  simp only [fsDeleteacl, fsnodesDeleteacl, bind_eq_ok, require_eq_ok, forOperation_eq_ok, ok.injEq,
    Prod.mk.injEq, Prod.exists, exists_const] at h
  obtain ⟨-, p, n, hp, _, ⟨-, rfl⟩, rfl, -⟩ := h
  exact Change.single (.edit (edit_setAcl (getNodeForOperation_inv hp).1 c.ts fun ha =>
    FSNode.agrees_deleteAcl ha type))

theorem fsSetxattr_changes {attrname attrvalue : Name} {mode : UInt32} {answer : Status}
    (h : t.fsSetxattr cfg c inode opened attrname attrvalue mode answer = .ok (u, log)) : Changes cfg lim t u := by
  unfold fsSetxattr at h
  simp only [bind_eq_ok, require_eq_ok, forOperation_eq_ok, ok.injEq, Prod.mk.injEq, Prod.exists,
    exists_const] at h
  obtain ⟨-, p, n, hp, -, -, -, -, -, rfl, -⟩ := h
  exact Change.single (.edit (edit_fsnodesUpdateCtime (getNodeForOperation_inv hp).1 c.ts))

theorem fsSeteattr_changes {eattr : BitVec 16} {recursive : Bool}
    (h : t.fsSeteattr cfg c inode eattr smode recursive = .ok (u, log)) (hr : u.stopped = false) :
    Changes cfg lim t u := by
  unfold fsSeteattr at h
  simp only [bind_eq_ok, require_eq_ok, forOperation_eq_ok, ok.injEq, Prod.mk.injEq, Prod.exists,
    exists_const] at h
  obtain ⟨-, -, p, n, hp, -, rfl, -⟩ := h
  exact changes_of_edits (seteattr_edits cfg lim _ t p hr)

theorem setTrashtime_changes {trashtime : UInt32}
    (h : t.setTrashtime cfg ts uid inode trashtime smode = .ok (u, log)) : Changes cfg lim t u := by
  unfold setTrashtime at h
  simp only [bind_eq_ok, nodeOf_eq_ok, require_eq_ok, exists_const] at h
  obtain ⟨n, hg, -, h⟩ := h
  split_ifs at h
  · cases h
    exact Change.single (.edit (edit_changeTrashtime ts _ hg))
  · cases h
    exact .refl

/-! ## Contents and goals -/

theorem setGoal_changes {goal : ℕ} {set : Bool} (h : t.setGoal cfg ts uid inode goal set = .ok (u, log)) :
    Changes cfg lim t u := by
  unfold setGoal at h
  simp only [bind_eq_ok, nodeOf_eq_ok, require_eq_ok, exists_const] at h
  obtain ⟨n, hg, -, h⟩ := h
  split_ifs at h
  · split at h
    · rename_i f hf
      cases h
      have he : Edit cfg lim t _ inode n _ := edit_fsnodesChangefilegoal hg hf goal
      have hg' := (congrArg (·.get inode) he.nodes).trans get_set_self
      exact (Change.single (.edit he)).tail (.edit (edit_fsnodesUpdateCtime hg' ts))
    · rename_i entries hd
      cases h
      exact Change.single (.edit (edit_directoryGoal hg ts goal (by rw [FSNode.isAnyFile, hd]; rfl)))
    · cases h
      exact .refl
  · cases h
    exact .refl

theorem fsTrySetlength_changes
    (h : t.fsTrySetlength cfg c inode opened length answer = .ok (u, log)) : Changes cfg lim t u := by
  unfold fsTrySetlength at h
  simp only [bind_eq_ok, require_eq_ok, forOperation_eq_ok, fileOf_eq_ok, Prod.exists, exists_const] at h
  obtain ⟨-, p, n, hp, f, hf, h⟩ := h
  split_ifs at h with hc
  · split at h
    · cases h
    · cases h
      exact Change.single (.edit (edit_truncatedChunk _ (getNodeForOperation_inv hp).1 hf hc.2))
  · cases h
    exact .refl

theorem setlength_changes (hg : t.nodes.get inode = some n)
    (hf : n.data = .file f) : Changes cfg lim t ((t.fsnodesSetlength cfg inode n f length).touchFile cfg inode ts) := by
  have he : Edit cfg lim t _ inode n _ := edit_fsnodesSetlength length hg hf
  have hg' := (congrArg (·.get inode) he.nodes).trans get_set_self
  exact (Change.single (.edit he)).tail (.edit (edit_touchFile hg' ts))

theorem fsDoSetlength_changes (h : t.fsDoSetlength cfg c inode length = .ok (u, log)) : Changes cfg lim t u := by
  unfold fsDoSetlength at h
  simp only [bind_eq_ok, require_eq_ok, forOperation_eq_ok, fileOf_eq_ok, Prod.exists, exists_const, ok.injEq,
    Prod.mk.injEq] at h
  obtain ⟨-, p, n, hp, f, hf, rfl, -⟩ := h
  exact setlength_changes (getNodeForOperation_inv hp).1 hf

theorem fsWriteend_changes (h : t.fsWriteend cfg ts inode length = .ok (u, log)) : Changes cfg lim t u := by
  unfold fsWriteend at h
  split_ifs at h
  · cases h
    exact .refl
  · simp only [bind_eq_ok, nodeOf_eq_ok, fileOf_eq_ok] at h
    obtain ⟨n, hg, f, hf, h⟩ := h
    split_ifs at h
    · cases h
      exact setlength_changes hg hf
    · cases h
      exact .refl

theorem le_roundedSize (n : ℕ) : n ≤ roundedSize n := by
  unfold roundedSize
  split_ifs <;> omega

theorem fsWritechunk_changes {indx : ℕ}
    (h : t.fsWritechunk cfg c inode indx answer = .ok (u, log)) : Changes cfg lim t u := by
  unfold fsWritechunk at h
  simp only [bind_eq_ok, require_eq_ok, forOperation_eq_ok, fileOf_eq_ok, Prod.exists, exists_const] at h
  obtain ⟨-, p, n, hp, f, hf, -, -, h⟩ := h
  obtain ⟨hg, -⟩ := getNodeForOperation_inv hp
  split at h
  · cases h
    exact Change.single (.edit (edit_resizedChunks _ hg hf))
  · rename_i nchunkid
    cases h
    have hi : indx < max f.chunks.length
        (if indx < f.chunks.length then f.chunks.length else roundedSize (indx + 1)) := by
      have := le_roundedSize (indx + 1)
      split_ifs <;> omega
    have he : Edit cfg lim t _ p n _ := edit_writtenChunk hg hf nchunkid hi
    exact (Change.single (.edit he)).tail (.edit (Edit.touchFile he c.ts))

theorem resolve_eq (h : t.resolve c inode = .ok id) : id = inode ∨ t.graph.isDir id := by
  unfold resolve at h
  split at h
  · split_ifs at h
    exact .inl (ok.inj h).symm
  · split at h
    · split at h
      · cases h
      · split_ifs at h
        exact .inl (ok.inj h).symm
    · split at h
      · cases h
      · rename_i rn hr
        split at h
        · cases h
        · rename_i hd
          split at h
          · obtain rfl := ok.inj h
            exact .inr (isDir_of_get hr (by simpa using hd))
          · split at h
            · cases h
            · split_ifs at h
              exact .inl (ok.inj h).symm

theorem eq_of_fileOperation {modemask : BitVec 16} {e : ExpectedNodeType}
    (h : t.fsnodesGetNodeForOperation c e modemask inode = .ok (id, n)) (hf : n.data = .file f) : id = inode := by
  rcases resolve_eq (resolve_of_operation h) with he | hd
  · exact he
  · rw [isDir_of_file (getNodeForOperation_inv h).1 hf] at hd
    cases hd

theorem fsAppend_changes (h : t.fsAppend cfg c inode inodeSrc = .ok (u, log)) : Changes cfg lim t u := by
  unfold fsAppend at h
  simp only [bind_eq_ok, require_eq_ok, forOperation_eq_ok, fileOf_eq_ok, Prod.exists, exists_const,
    decide_eq_true_eq] at h
  obtain ⟨hn, -, p, n, hp, sp, sn, hs, f, hf, g, hg, -, h⟩ := h
  split_ifs at h
  · cases h
    exact .refl
  · simp only [bind_eq_ok, require_eq_ok, exists_const, ok.injEq, Prod.mk.injEq] at h
    obtain ⟨-, rfl, -⟩ := h
    obtain rfl := eq_of_fileOperation hp hf
    obtain rfl := eq_of_fileOperation hs hg
    obtain ⟨v, w, n₁, n₂, h₁, h₂, h₃⟩ := fsnodesAppendchunks_edits (g := g) cfg lim c.ts
      (getNodeForOperation_inv hp).1 hf (getNodeForOperation_inv hs).1 hn
    exact ((Change.single (.edit h₁)).tail (.edit h₂)).tail (.edit h₃)

theorem fsRepair_changes {answers : ℕ → Option ℕ} (h : t.fsRepair cfg c inode answers = .ok (u, log)) :
    Changes cfg lim t u := by
  unfold fsRepair at h
  simp only [bind_eq_ok, require_eq_ok, forOperation_eq_ok, fileOf_eq_ok, Prod.exists, exists_const, ok.injEq,
    Prod.mk.injEq] at h
  obtain ⟨-, p, n, hp, f, hf, rfl, -⟩ := h
  obtain ⟨hg, -⟩ := getNodeForOperation_inv hp
  have hc := transfers_repair t.calls n.goal f.chunks answers
  split_ifs
  · exact Change.single (.edit (edit_repairedChunks hg hf c.ts _ rfl hc))
  · exact Change.single (.edit (edit_keptChunks hg hf _ rfl hc))

/-! ## Runs -/

/-- **What an operation can do.** -/
theorem perform_changes (ht : t.IsTree) (h : t.perform cfg op = .ok (u, log)) (hr : u.stopped = false) :
    Changes cfg (op.limits t) t u := by
  cases op with
  | lookup c parent name =>
    cases h
    exact fsLookup_changes
  | symlink => exact fsSymlink_changes h (fun hl => hl) (fun hl => hl)
  | mknod => exact fsMknod_changes h (fun hl => hl)
  | mkdir => exact fsMkdir_changes h (fun hl => hl)
  | link => exact fsLink_changes h (fun hl => hl)
  | unlink => exact fsUnlink_changes h (fun hl => hl)
  | rmdir => exact fsRmdir_changes h (fun hl => hl)
  | removeTask => exact removeTaskUnlink_changes h (fun hl => hl)
  | rename =>
    exact fsRename_changes ht h hr (fun hl => hl.1) (fun hl => hl.2.1) (fun hl => hl.2.2)
  | undel => exact fsUndel_changes ht h (fun hl => hl)
  | settrashpath => exact fsSettrashpath_changes h
  | purge => exact fsPurge_changes h
  | emptyTrash => exact emptyTrashEntry_changes h
  | emptyReserved => exact emptyReservedEntry_changes h
  | acquire => exact fsAcquire_changes h
  | release => exact fsRelease_changes h
  | clone =>
    exact cloneNode_changes h (fun hl => hl.1) (fun hl => hl.2) (fun hl => hl) (fun hl => hl) (fun hl => hl)
  | setattr => exact fsSetattr_changes h
  | updateAtime => exact fsUpdateAtime_changes h
  | setRichAcl => exact fsSetRichAcl_changes h
  | setPosixAcl => exact fsSetPosixAcl_changes h
  | deleteacl => exact fsDeleteacl_changes h
  | setxattr => exact fsSetxattr_changes h
  | seteattr => exact fsSeteattr_changes h hr
  | setTrashtime => exact setTrashtime_changes h
  | setGoal => exact setGoal_changes h
  | trySetlength => exact fsTrySetlength_changes h
  | doSetlength => exact fsDoSetlength_changes h
  | writechunk => exact fsWritechunk_changes h
  | writeend => exact fsWriteend_changes h
  | append => exact fsAppend_changes h
  | repair => exact fsRepair_changes h

theorem graph_setSessions (t : Metadata) (x : Inode) (k : List UInt32 → List UInt32) :
    (t.setSessions x k).graph = t.graph :=
  graph_modifyNode_same t x fun n => vertex_mapFile n _

theorem Edit.graph {n' : FSNode} (h : Edit cfg lim t u id n n') : u.graph = t.graph := by
  funext y
  change (u.nodes.get y).map FSNode.vertex = (t.nodes.get y).map FSNode.vertex
  rw [h.nodes, get_set]
  split_ifs with hy
  · rw [hy, h.get, map_some, map_some, h.vertex]
  · rfl

theorem Change.isTree (h : Change cfg lim t u) (ht : t.IsTree) : u.IsTree := by
  cases h with
  | fold | trashPath | forgetTrash | forgetReserved => exact ht
  | create _ hd h => exact ht.create h hd
  | link _ hd hge hl =>
    exact ht.link hd (by rw [isSome_graph, hge, isSome_some]) ((isDir_graph hge).trans hl)
  | unlink ts hf _ he => exact (ht.unlink cfg ts hf he).1
  | move _ hf _ hd hb => exact ht.move hf hd hb
  | @undel ts x d n _ _ _ _ _ hge hda hd =>
    have hg : ((({ t with trash := t.trash.erase (n.trashPathKey x) }.setFileState x .live).setCtime x
        ts).fsnodesUpdateChecksum cfg x).graph = t.graph :=
      (graph_setCtime _ _ _).trans (graph_setFileState _ _ _)
    refine (ht.congr hg).link (by rwa [hg]) ?_ (by rw [hg]; exact isDir_of_file hge hda)
    rw [hg, isSome_graph, hge, isSome_some]
  | purge ts x => exact ht.purge cfg ts x
  | release ts k => exact (ht.congr (graph_setSessions t _ k)).purge cfg ts _
  | edit h => exact ht.congr (Edit.graph h)

theorem isTree_fsNew : (fsNew cfg ts).IsTree := by
  have hg (x : Inode) : (fsNew cfg ts).nodes.get x = if x = rootInode then some (rootNode ts) else none := rfl
  have he (x : Inode) : (fsNew cfg ts).graph.entries x = [] := by
    rw [entries_graph, entries, Nodes.entries, hg]
    split_ifs <;> rfl
  have hp (x : Inode) : (fsNew cfg ts).graph.parents x = [] := by
    simp only [Graph.parents, graph, hg]
    split_ifs <;> rfl
  have hdi (x : Inode) (hx : (fsNew cfg ts).graph.isDir x) : x = rootInode := by
    by_contra hn
    simp [Graph.isDir, graph, hg, hn] at hx
  exact
    { root_dir := rfl
      root_parents := rfl
      edges := fun d x => by simp [he, hp]
      files := fun d _ => he d
      single := fun d hd hn => absurd (hdi d hd) hn
      reaches := fun d hd => hdi d hd ▸ .root }

theorem step_changes (ht : t.IsTree) :
    t.step cfg op = t ∨ Changes cfg (op.limits t) t (t.step cfg op) ∧ (t.step cfg op).stopped = false := by
  unfold step
  cases h : t.exec cfg op with
  | error => exact Or.inl rfl
  | ok r =>
    obtain ⟨hp, hr⟩ := finish_eq_ok.1 h
    exact Or.inr ⟨perform_changes ht hp hr, hr⟩

/-- **Invariants of runs.** What every change keeps, under a condition on the limits of operations, holds in every state
of a run whose operations meet the condition; that the directories form a tree may be used. -/
theorem inv_run_of_changes {L : Limits → Prop}
    (hch : ∀ lim t u, L lim → Change cfg lim t u → u.stopped = false → t.IsTree → P t → P u)
    (ho : Stepwise.Along (step cfg) (fun t op => L (op.limits t)) (fsNew cfg ts) ops) (hn : P (fsNew cfg ts)) :
    P (after cfg ts ops) := by
  have hs (t : Metadata) (op : Op) (hl : L (op.limits t)) (ht : t.IsTree ∧ P t) :
      (t.step cfg op).IsTree ∧ P (t.step cfg op) := by
    rcases step_changes ht.1 with h | ⟨h, hr⟩
    · rwa [h]
    · refine Changes.induct (P := fun t => t.IsTree ∧ P t) (fun t u hc hu ht => ?_) h hr ht
      exact ⟨Change.isTree hc ht.1, hch _ t u hl hc hu ht.1 ht.2⟩
  exact (Stepwise.inv_run hs _ ops ho ⟨isTree_fsNew, hn⟩).2

theorem inv_run_of_all_changes (hc : ∀ lim t u, Change cfg lim t u → u.stopped = false → t.IsTree → P t → P u)
    (hn : P (fsNew cfg ts)) : P (after cfg ts ops) :=
  inv_run_of_changes (L := fun _ => True) (fun lim t u _ => hc lim t u)
    (Stepwise.along_of_forall (fun _ _ => trivial) _ ops) hn

theorem isTree_run (cfg : Config) (ts : UInt32) (ops : List Op) : (after cfg ts ops).IsTree :=
  inv_run_of_all_changes (fun _ _ _ h _ ht _ => Change.isTree h ht) isTree_fsNew

end Metadata

end SaunaFS.Namespace
