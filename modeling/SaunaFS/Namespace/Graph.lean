/-
The directory graph of the metadata. `graph` forgets everything about the nodes but their edges; each function that
changes the tree is then a `cut`, an `attach`, or an added or removed vertex of the graph.
-/
import SaunaFS.Lib.DirectoryTree
import SaunaFS.Namespace.Operations

namespace SaunaFS.Namespace

open DirectoryTree ParentWalk List Option FiniteTable FSNode

/-! ## The graph of the nodes -/

def FSNode.vertex (n : FSNode) : Vertex Inode Name := ⟨n.parent, n.entries, n.isDirectory⟩

namespace Metadata

def graph (t : Metadata) : DirectoryTree.Graph Inode Name := fun x => (t.nodes.get x).map vertex

variable {cfg : Config} {t u : Metadata} {x d : Inode} {ts : UInt32} {name : Name} {e : Name × Inode}

theorem entries_graph (t : Metadata) (d : Inode) : t.graph.entries d = t.entries d := by
  unfold graph Graph.entries entries
  rw [Option.map_map]
  rfl

variable {n : FSNode} {inheritacl : AclInheritance}

theorem isDir_graph (h : t.nodes.get x = some n) : t.graph.isDir x = n.isDirectory := by
  simp [graph, Graph.isDir, h, vertex]

theorem parents_graph (h : t.nodes.get x = some n) : t.graph.parents x = n.parent := by
  simp [graph, Graph.parents, h, vertex]

theorem isSome_graph : (t.graph x).isSome = (t.nodes.get x).isSome := by
  simp [graph]

variable {f : FSNode → FSNode} {sr : Stats} {type : NodeType} {mode umask : BitVec 16} {uid gid : UInt32}
  {copysgid : Bool} {parent inode y : Inode} {α : Type*} {p : α → Bool}

theorem graph_modifyNode (t : Metadata) (x : Inode) {k : Vertex Inode Name → Vertex Inode Name}
    (hf : ∀ n, t.nodes.get x = some n → (f n).vertex = k n.vertex) : (t.modifyNode x f).graph = alter t.graph x k := by
  funext y
  unfold graph modifyNode alter
  simp only [get_modify, put_apply]
  split_ifs with h
  · cases hx : t.nodes.get x with
    | none => rfl
    | some n => simpa using hf n hx
  · rfl

theorem graph_modifyNode_same (t : Metadata) (x : Inode) (hf : ∀ n, (f n).vertex = n.vertex) :
    (t.modifyNode x f).graph = t.graph := by
  rw [graph_modifyNode t x (k := fun v => v) fun n _ => hf n]
  funext y
  unfold alter
  rw [put_apply]
  split_ifs with h
  · rw [h, Option.map_id']
  · rfl

theorem vertex_erase : { n with data := n.data.mapEntries (·.erase e) }.vertex = mapEntries (·.erase e) n.vertex := by
  unfold FSNode.vertex FSNode.entries FSNode.isDirectory
  cases n.data <;> rfl

theorem vertex_mapEntries (hdi : n.isDirectory) (k : List (Name × Inode) → List (Name × Inode)) :
    { n with data := n.data.mapEntries k }.vertex = mapEntries k n.vertex := by
  unfold FSNode.vertex FSNode.entries
  unfold isDirectory at hdi ⊢
  cases hd : n.data <;> first | rfl | (rw [hd] at hdi; cases hdi)

theorem vertex_mapFile (n : FSNode) (k : FileData → FileData) :
    { n with data := n.data.mapFile k }.vertex = n.vertex := by
  unfold FSNode.vertex FSNode.entries FSNode.isDirectory
  cases n.data <;> rfl

/-! ## Edges -/

theorem mem_entries_of_find (h : t.find d name = some e) : e ∈ t.entries d := by
  unfold find at h
  split_ifs at h
  · obtain ⟨_, _, h⟩ := bind_eq_some_iff.1 h
    exact mem_of_find?_eq_some h
  · exact mem_of_find?_eq_some h

theorem graph_eraseEntry (cfg : Config) (t : Metadata) (d : Inode) (name : Name) (e : Name × Inode) :
    (t.eraseEntry cfg d name e).graph = alter t.graph d (mapEntries (·.erase e)) :=
  graph_modifyNode t d fun _ _ => vertex_erase

theorem graph_congr (h : u.nodes = t.nodes) : u.graph = t.graph := by
  unfold graph
  rw [h]

theorem nodes_fsnodesUpdateChecksum : (t.fsnodesUpdateChecksum cfg x).nodes = t.nodes := rfl

theorem nodes_fsnodesAddStats : (t.fsnodesAddStats x sr).nodes = t.nodes := rfl

theorem graph_fsnodesUpdateChecksum : (t.fsnodesUpdateChecksum cfg x).graph = t.graph := rfl

theorem graph_fsnodesAddStats : (t.fsnodesAddStats x sr).graph = t.graph := rfl

/-- removing an edge is a `cut`, whatever happens to times, statistics and checksums -/
theorem graph_fsnodesRemoveEdge (cfg : Config) (h : t.find d name = some e) (ts : UInt32) (x : Inode) :
    (t.fsnodesRemoveEdge cfg ts d name x).graph = cut t.graph d e x := by
  unfold fsnodesRemoveEdge
  rw [h, graph_fsnodesUpdateChecksum, graph_modifyNode (k := mapParent (·.erase d)), graph_fsnodesUpdateChecksum,
    graph_modifyNode_same, graph_fsnodesAddStats, graph_eraseEntry]
  · rfl
  · intro _
    rfl
  · intro _ _
    rfl

theorem graph_insertEntry (hd : t.graph.isDir d) : (t.insertEntry cfg d name x).graph =
    alter t.graph d (mapEntries (·.orderedInsert cfg.before (name, x))) :=
  graph_modifyNode t d fun _ hn => vertex_mapEntries ((isDir_graph hn).symm.trans hd) _

theorem entries_insertEntry (hd : t.graph.isDir d) : (t.insertEntry cfg d name x).entries y =
    if y = d then (t.entries d).orderedInsert cfg.before (name, x) else t.entries y := by
  rw [← entries_graph, ← entries_graph, ← entries_graph, graph_insertEntry hd,
    entries_mapEntries _ (Or.inr (isSome_of_isDir hd))]

/-- making an edge is an `attach` -/
theorem graph_fsnodesLink (hd : t.graph.isDir d) :
    (t.fsnodesLink cfg ts d x name).graph = attach cfg.before t.graph d name x := by
  have hl : ((t.insertEntry cfg d name x).modifyNode x fun n => { n with parent := n.parent ++ [d] }).graph =
      attach cfg.before t.graph d name x := by
    rw [graph_modifyNode (k := mapParent (· ++ [d])), graph_insertEntry hd]
    · rfl
    · intro _ _
      rfl
  unfold fsnodesLink
  split_ifs
  · rw [graph_fsnodesUpdateChecksum, graph_modifyNode_same, graph_fsnodesUpdateChecksum, graph_modifyNode_same,
      graph_fsnodesAddStats, hl]
    · intro _
      rfl
    · intro _
      rfl
  · exact hl

theorem graph_placeNode : (t.placeNode x n).graph = put t.graph x (some n.vertex) := by
  funext y
  simp only [graph, placeNode, get_set, put_apply]
  split_ifs <;> rfl

theorem vertex_newNode {p : FSNode} :
    (newNode ts p type mode umask uid gid copysgid inheritacl).vertex = ⟨[], [], type = .directory⟩ := by
  cases type <;> rfl

/-- the metadata with a new node that is counted but not yet linked -/
def withNode (cfg : Config) (t : Metadata) (inode : Inode) (n : FSNode) : Metadata :=
  (((t.adjust .nodes 1).countType n.data 1).placeNode inode n).fsnodesUpdateChecksum cfg inode

/-- the usage of a new node is recorded -/
def chargeNode (t : Metadata) (n : FSNode) : Metadata :=
  (t.fsnodesQuotaUpdate n .inodes 1).fsnodesQuotaUpdate n .size n.size

theorem fsnodesCreateNode_inv
    (h : t.fsnodesCreateNode cfg ts parent name type mode umask uid gid copysgid inheritacl inode = some u) :
    ∃ p n, t.nodes.get parent = some p ∧ inode ≠ 0 ∧ t.nodes.get inode = none ∧
      n = newNode ts p type mode umask uid gid copysgid inheritacl ∧
      u = ((t.withNode cfg inode n).fsnodesLink cfg ts parent inode name).chargeNode n := by
  unfold fsnodesCreateNode at h
  split at h
  · cases h
  · rename_i p hp
    split_ifs at h with hf
    push Not at hf
    exact ⟨p, _, hp, hf.1, by simpa using hf.2, rfl, (some.inj h).symm⟩

theorem get_modifyNode : (t.modifyNode x f).nodes.get y = if y = x then (t.nodes.get x).map f else t.nodes.get y :=
  get_modify ..

theorem graph_fsnodesCreateNode
    (h : t.fsnodesCreateNode cfg ts parent name type mode umask uid gid copysgid inheritacl inode = some u)
    (hd : t.graph.isDir parent) : t.graph inode = none ∧
      u.graph = attach cfg.before (put t.graph inode (some ⟨[], [], type = .directory⟩)) parent name inode := by
  obtain ⟨p, n, hp, _, hf, hn, rfl⟩ := fsnodesCreateNode_inv h
  have hne : parent ≠ inode := by
    rintro rfl
    simp [hf] at hp
  have hw : (t.withNode cfg inode n).graph = put t.graph inode (some ⟨[], [], type = .directory⟩) := by
    change ((((t.adjust .nodes 1).countType n.data 1)).placeNode inode n).graph = _
    rw [graph_placeNode, hn, vertex_newNode]
    rfl
  refine ⟨by simp [graph, hf], ?_⟩
  change ((t.withNode cfg inode n).fsnodesLink cfg ts parent inode name).graph = _
  rw [graph_fsnodesLink, hw]
  rw [hw, isDir_put, if_neg hne, hd]

theorem graph_fsnodesRemoveNode :
    (t.fsnodesRemoveNode x).graph = if t.graph.parents x = [] then put t.graph x none else t.graph := by
  unfold fsnodesRemoveNode
  cases hx : t.nodes.get x with
  | none =>
    rw [if_pos (by simp [graph, Graph.parents, hx])]
    funext y
    rw [put_apply]
    split_ifs with hy
    · simp [graph, hy, hx]
    · rfl
  | some n =>
    rw [parents_graph hx]
    by_cases hp : n.parent = []
    · rw [if_pos hp]
      simp only [hp, ne_eq, not_true_eq_false, if_false]
      funext y
      rw [put_apply]
      change ((t.nodes.erase x).get y).map vertex = _
      rw [get_erase]
      split_ifs <;> rfl
    · simp only [hp, ne_eq, not_false_eq_true, if_true, if_false]

theorem graph_setFileState (t : Metadata) (x : Inode) (state : FileState) : (t.setFileState x state).graph = t.graph :=
  graph_modifyNode_same t x fun n => vertex_mapFile n _

theorem graph_setCtime (t : Metadata) (x : Inode) (ts : UInt32) : (t.setCtime x ts).graph = t.graph :=
  graph_modifyNode_same t x fun _ => rfl

theorem graph_dropLastLink {path : Name} (hn : t.nodes.get x = some n) (hp : n.parent = []) :
    ((t.dropLastLink cfg ts x n path).graph = t.graph ∧ n.isDirectory = false) ∨
      (t.dropLastLink cfg ts x n path).graph = put t.graph x none := by
  have hr : (t.fsnodesRemoveNode x).graph = put t.graph x none := by
    rw [graph_fsnodesRemoveNode, parents_graph hn, if_pos hp]
  unfold dropLastLink
  split
  · rename_i hd
    have hl : n.isDirectory = false := by simp [isDirectory, NodeData.isDirectory, hd]
    split_ifs
    · exact Or.inl ⟨(graph_setCtime _ _ _).trans (graph_setFileState _ _ _), hl⟩
    · exact Or.inl ⟨graph_setFileState _ _ _, hl⟩
    · exact Or.inr hr
  · exact Or.inr hr

/-- after an unlink the edge is gone, and with its last link the node may be -/
theorem graph_fsnodesUnlink (cfg : Config) (h : t.find d name = some e) (ts : UInt32) :
    ((t.fsnodesUnlink cfg ts d name e.2).graph = cut t.graph d e e.2 ∧
        (t.graph.isDir e.2 → (cut t.graph d e e.2).parents e.2 ≠ [])) ∨
      ((t.fsnodesUnlink cfg ts d name e.2).graph = put (cut t.graph d e e.2) e.2 none ∧
        (cut t.graph d e e.2).parents e.2 = []) := by
  have hc := graph_fsnodesRemoveEdge cfg h ts e.2
  unfold fsnodesUnlink
  simp only
  cases hx : (t.fsnodesRemoveEdge cfg ts d name e.2).nodes.get e.2 with
  | none =>
    refine Or.inl ⟨hc, fun hdi => ?_⟩
    have hn : (t.fsnodesRemoveEdge cfg ts d name e.2).graph.isDir e.2 = false := by simp [graph, Graph.isDir, hx]
    rw [hc, isDir_cut, hdi] at hn
    cases hn
  | some n =>
    have hpa := parents_graph hx
    have hdi := isDir_graph hx
    rw [hc] at hpa hdi
    rw [isDir_cut] at hdi
    simp only
    split_ifs with hp
    · exact Or.inl ⟨hc, fun _ => by rwa [hpa]⟩
    · push Not at hp
      rcases graph_dropLastLink hx hp with ⟨hg, hl⟩ | hg
      · exact Or.inl ⟨hg.trans hc, fun hd => by simp [hdi, hl] at hd⟩
      · exact Or.inr ⟨by rw [hg, hc], by rw [hpa, hp]⟩

/-! ## Lookups after an unlink -/

theorem find?_erase_of_ne [BEq α] [LawfulBEq α] {l : List α} {a b : α}
    (h : l.find? p = some a) (hn : a ≠ b) : (l.erase b).find? p = some a := by
  induction l with
  | nil => cases h
  | cons c l ih =>
    rw [find?_cons] at h
    by_cases hc : c = b
    · subst hc
      rw [erase_cons_head]
      split at h
      · exact absurd (some.inj h).symm hn
      · exact h
    · rw [erase_cons_tail (by simpa using hc), find?_cons]
      split at h
      · exact h
      · exact ih h

theorem find?_eraseP_of_disjoint {r : α → Bool} (h : ∀ a, r a → p a = false) (l : List α) :
    (l.eraseP r).find? p = l.find? p := by
  induction l with
  | nil => rfl
  | cons a l ih =>
    rw [eraseP_cons]
    cases hr : r a with
    | true =>
      rw [cond_true, find?_cons, h a hr]
    | false => rw [cond_false, find?_cons, find?_cons, ih]

/-- a change of the lower-case names, which are kept if the directory is marked -/
theorem foldOf_modify (t : Metadata) (d y : Inode) (f : CaseFold → CaseFold) :
    ((if (t.foldOf d).insensitive then t.fold.modify d f else t.fold).get y).getD ⟨false, [], 0⟩ =
      if y = d ∧ (t.foldOf d).insensitive then f (t.foldOf d) else t.foldOf y := by
  unfold foldOf
  by_cases hi : ((t.fold.get d).getD ⟨false, [], 0⟩).insensitive
  · rw [if_pos hi, get_modify]
    by_cases hy : y = d
    · cases hd : t.fold.get d with
      | none => simp [hd] at hi
      | some f =>
        rw [hd] at hi
        simp only [getD_some] at hi
        simp [hy, hi]
    · simp [hy]
  · rw [if_neg hi, if_neg fun h => hi h.2]

theorem foldOf_eraseEntry (cfg : Config) (t : Metadata) (d y : Inode) (name : Name) (e : Name × Inode) :
    (t.eraseEntry cfg d name e).foldOf y =
      if y = d ∧ (t.foldOf d).insensitive then
        { t.foldOf d with
          lower := (t.foldOf d).lower.eraseP fun e => e.1 = hstringToLowerCase name
          hash := (t.foldOf d).hash - cfg.nameHash (hstringToLowerCase name) }
      else t.foldOf y :=
  foldOf_modify t d y _

theorem foldOf_fsnodesRemoveEdge (cfg : Config) (ts : UInt32) (x : Inode) (h : t.find d name = some e) (y : Inode) :
    (t.fsnodesRemoveEdge cfg ts d name x).foldOf y = (t.eraseEntry cfg d name e).foldOf y := by
  unfold fsnodesRemoveEdge
  rw [h]
  rfl

theorem fold_fsnodesUnlink : (t.fsnodesUnlink cfg ts d name x).fold = (t.fsnodesRemoveEdge cfg ts d name x).fold := by
  have hr (t : Metadata) : (t.fsnodesRemoveNode x).fold = t.fold := by
    unfold fsnodesRemoveNode
    split
    · rfl
    · split_ifs <;> rfl
  unfold fsnodesUnlink
  simp only
  split
  · rfl
  · split_ifs
    · rfl
    · unfold dropLastLink
      split
      · split_ifs
        · rfl
        · rfl
        · exact hr _
      · exact hr _

theorem foldOf_fsnodesUnlink (cfg : Config) (t : Metadata) (ts : UInt32) (d : Inode) (name : Name) (x y : Inode) :
    (t.fsnodesUnlink cfg ts d name x).foldOf y = (t.fsnodesRemoveEdge cfg ts d name x).foldOf y := by
  unfold foldOf
  rw [fold_fsnodesUnlink]

theorem entries_fsnodesUnlink (cfg : Config) (h : t.find d name = some e) (ts : UInt32) (hn : y ≠ e.2) :
    (t.fsnodesUnlink cfg ts d name e.2).entries y = if y = d then (t.entries d).erase e else t.entries y := by
  rw [← entries_graph, ← entries_graph, ← entries_graph]
  rcases graph_fsnodesUnlink cfg h ts with ⟨hg, _⟩ | ⟨hg, _⟩
  · rw [hg, entries_cut]
  · rw [hg, entries_put, if_neg hn, entries_cut]

/-- an entry for another node is found as before, also in a directory that is marked -/
theorem find_fsnodesUnlink {s : Inode} {name' : Name} {e' : Name × Inode} (cfg : Config) (ts : UInt32)
    (h : t.find d name = some e) (h' : t.find s name' = some e') (hne : e'.2 ≠ e.2) (hs : s ≠ e.2) :
    (t.fsnodesUnlink cfg ts d name e.2).find s name' = some e' := by
  have hfo := foldOf_fsnodesUnlink cfg t ts d name e.2 s
  rw [foldOf_fsnodesRemoveEdge cfg ts e.2 h, foldOf_eraseEntry] at hfo
  have he := entries_fsnodesUnlink cfg h ts hs
  have hee : e' ≠ e := fun heq => hne (congrArg Prod.snd heq)
  -- an entry that is searched by any property stays the first one
  have hf {p : Name × Inode → Bool} (hp : (t.entries s).find? p = some e') :
      ((t.fsnodesUnlink cfg ts d name e.2).entries s).find? p = some e' := by
    rw [he]
    split_ifs with hsd
    · rw [hsd] at hp
      exact find?_erase_of_ne hp hee
    · exact hp
  unfold find at h h' ⊢
  by_cases hi : (t.foldOf s).insensitive
  · rw [if_pos hi] at h'
    obtain ⟨l', hl', hf'⟩ := bind_eq_some_iff.1 h'
    have hi' : ((t.fsnodesUnlink cfg ts d name e.2).foldOf s).insensitive := by
      rw [hfo]
      split_ifs with hsd
      · exact hsd.2
      · exact hi
    rw [if_pos hi']
    have hlo : ((t.fsnodesUnlink cfg ts d name e.2).foldOf s).lower.find? (fun e => e.1 = hstringToLowerCase name') =
        some l' := by
      rw [hfo]
      split_ifs with hsd
      · obtain ⟨rfl, hid⟩ := hsd
        rw [if_pos hid] at h
        obtain ⟨l, hl, hfi⟩ := bind_eq_some_iff.1 h
        -- different nodes have different lower-case names
        have hn : hstringToLowerCase name ≠ hstringToLowerCase name' := by
          intro heq
          rw [heq, hl'] at hl
          rw [← some.inj hl, hf'] at hfi
          exact hee (some.inj hfi)
        rw [find?_eraseP_of_disjoint _ (t.foldOf s).lower, hl']
        intro a ha
        simp only [decide_eq_true_eq] at ha
        simp [ha, hn]
      · exact hl'
    rw [hlo, bind_some]
    exact hf hf'
  · rw [if_neg hi] at h'
    have hi' : ¬ ((t.fsnodesUnlink cfg ts d name e.2).foldOf s).insensitive := by
      rw [hfo]
      split_ifs with hsd
      · exact fun _ => hi (hsd.1 ▸ hsd.2)
      · exact hi
    rw [if_neg hi']
    exact hf h'

end Metadata

end SaunaFS.Namespace
