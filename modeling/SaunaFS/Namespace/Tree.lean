/-
The directories form a tree, and the functions that change its edges keep it one.
-/
import SaunaFS.Lib.Stepwise
import SaunaFS.Namespace.Graph

namespace SaunaFS.Namespace

open DirectoryTree ParentWalk

namespace Metadata

variable {cfg : Config} {t u : Metadata} {x d : Inode} {ts : UInt32} {name : Name} {e : Name × Inode}

/-! ## Trees -/

/-- the directories form a tree below inode 1 -/
abbrev IsTree (t : Metadata) : Prop := Tree rootInode t.graph

theorem IsTree.unlink (cfg : Config) (h : t.IsTree) (ts : UInt32) (hf : t.find d name = some e)
    (hem : t.graph.isDir e.2 → t.entries e.2 = []) : (t.fsnodesUnlink cfg ts d name e.2).IsTree ∧
      ∀ y w, (t.fsnodesUnlink cfg ts d name e.2).graph.up y = some w → t.graph.up y = some w := by
  have he : e ∈ t.graph.entries d := by
    rw [entries_graph]
    exact mem_entries_of_find hf
  cases hd : t.graph.isDir e.2 with
  | false =>
    obtain ⟨hc, hup⟩ := h.cut_leaf he hd
    rcases graph_fsnodesUnlink cfg hf ts with ⟨hg, _⟩ | ⟨hg, hp⟩
    · rw [IsTree, hg]
      exact ⟨hc, fun y w hy => by rwa [hup] at hy⟩
    · obtain ⟨her, hup'⟩ := hc.erase_leaf hp (isDir_cut.trans hd)
      rw [IsTree, hg]
      exact ⟨her, fun y w hy => by rwa [hup', hup] at hy⟩
  | true =>
    have hh := h.cut_dir he hd
    rcases graph_fsnodesUnlink cfg hf ts with ⟨_, hp⟩ | ⟨hg, _⟩
    · exact absurd hh.loose (hp hd)
    · have hen : (cut t.graph d e e.2).entries e.2 = [] := by
        have hs : (t.graph.entries e.2) = [] := (entries_graph t e.2).trans (hem hd)
        rw [entries_cut]
        split_ifs with heq
        · rw [← heq, hs, List.erase_nil]
        · exact hs
      rw [IsTree, hg]
      refine ⟨hh.erase hen, fun y w hy => ?_⟩
      have hn : y ≠ e.2 := fun heq => by simp [Graph.up, isDir_put, heq] at hy
      rw [up_congr (g := t.graph)] at hy
      · exact hy
      · rw [isDir_put, if_neg hn, isDir_cut]
      · intro _
        rw [parents_put, if_neg hn, parents_cut, if_neg hn]

theorem isDir_fsnodesUnlink (hf : t.find d name = some e) (hn : x ≠ e.2) :
    (t.fsnodesUnlink cfg ts d name e.2).graph.isDir x = t.graph.isDir x := by
  rcases graph_fsnodesUnlink cfg hf ts with ⟨hg, _⟩ | ⟨hg, _⟩
  · rw [hg, isDir_cut]
  · rw [hg, isDir_put, if_neg hn, isDir_cut]

theorem IsTree.create {parent inode : Inode} {type : NodeType} {mode umask : BitVec 16} {uid gid : UInt32}
    {copysgid : Bool} {inheritacl : AclInheritance} (h : t.IsTree)
    (hc : t.fsnodesCreateNode cfg ts parent name type mode umask uid gid copysgid inheritacl inode = some u)
    (hd : t.graph.isDir parent) : u.IsTree := by
  obtain ⟨hn, hg⟩ := graph_fsnodesCreateNode hc hd
  rw [IsTree, hg]
  exact Tree.add h hn hd _

theorem IsTree.link (h : t.IsTree) (hd : t.graph.isDir d) (hx : (t.graph x).isSome)
    (hl : t.graph.isDir x = false) : (t.fsnodesLink cfg ts d x name).IsTree := by
  rw [IsTree, graph_fsnodesLink hd]
  exact Tree.attach_leaf h hd hx hl

theorem IsTree.congr (h : t.IsTree) (hg : u.graph = t.graph) : u.IsTree := by
  rwa [IsTree, hg]

theorem IsTree.removeNode (h : t.IsTree) (hl : t.graph.isDir x = false) : (t.fsnodesRemoveNode x).IsTree := by
  rw [IsTree, graph_fsnodesRemoveNode]
  split_ifs with hp
  · exact (Tree.erase_leaf h hp hl).1
  · exact h

variable {n : FSNode} {swd dwd : Inode} {nameSrc nameDst : Name}

theorem isDir_of_file {f : FileData} (hn : t.nodes.get x = some n) (hf : n.data = .file f) :
    t.graph.isDir x = false := by
  rw [isDir_graph hn, FSNode.isDirectory, hf]
  rfl

theorem IsTree.purge (cfg : Config) (h : t.IsTree) (ts : UInt32) (x : Inode) : (t.fsnodesPurge cfg ts x).IsTree := by
  -- whatever is written down beside the nodes, a file that is removed is no directory
  have hr {v : Metadata} (hv : v.nodes = t.nodes) (hl : t.graph.isDir x = false) :
      (((v.setCtime x ts).fsnodesUpdateChecksum cfg x).fsnodesRemoveNode x).IsTree := by
    have hg : ((v.setCtime x ts).fsnodesUpdateChecksum cfg x).graph = t.graph :=
      (graph_setCtime v x ts).trans (graph_congr hv)
    exact (h.congr hg).removeNode (by rwa [hg])
  unfold fsnodesPurge
  split
  · exact h
  · rename_i n hn
    split
    · rename_i hf
      simp only
      split_ifs
      · split
        · exact h.congr (graph_setFileState _ _ _)
        · exact h.congr (graph_setFileState _ _ _)
      · exact hr rfl (isDir_of_file hn hf)
    · rename_i hf
      exact hr rfl (isDir_of_file hn hf)
    · exact h

/-! ## The ancestor test -/

theorem chain_eq_walk (h : t.IsTree) (hd : t.graph.isDir d) {fuel : ℕ} :
    Nodes.chain t.nodes fuel d = walk t.graph.up fuel d := by
  induction fuel generalizing d with
  | zero => rfl
  | succ fuel ih =>
    obtain ⟨n, hn⟩ := Option.isSome_iff_exists.1 (isSome_graph.symm.trans (isSome_of_isDir hd))
    have hdi : n.isDirectory := (isDir_graph hn).symm.trans hd
    have hup : t.graph.up d = n.parent.head? := by rw [Graph.up, if_pos hd, parents_graph hn]
    rw [Nodes.chain, walk, hn, hup]
    simp only [hdi, if_true]
    cases hp : n.parent.head? with
    | none => rfl
    | some p =>
      have hpd := h.toLedger.isDir_of_parent (mem_parents_of_up (hup.trans hp))
      simp only [Option.map_some, Option.getD_some, ih hpd]

theorem isancestor_of_above (h : t.IsTree) (hn : t.nodes.get d = some n) (hd : n.isDirectory)
    (hne : x ≠ d) (ha : Above t.graph.up d x) : t.fsnodesIsancestor x n := by
  rcases Relation.ReflTransGen.cases_head ha with he | ⟨p, hp, hr⟩
  · exact absurd he.symm hne
  · have hup : t.graph.up d = n.parent.head? := by
      rw [Graph.up, if_pos ((isDir_graph hn).trans hd), parents_graph hn]
    have hpa : p ∈ t.graph.parents d := mem_parents_of_up hp
    have hpd := h.toLedger.isDir_of_parent hpa
    have hk (w : Inode) (hw : Above t.graph.up p w) : w ∈ t.nodes.keys := by
      have hwd : t.graph.isDir w := by
        rcases Relation.ReflTransGen.cases_tail hw with he | ⟨v, _, hv⟩
        · exact he ▸ hpd
        · exact h.toLedger.isDir_of_parent (mem_parents_of_up hv)
      rw [FiniteTable.mem_keys, ← isSome_graph]
      exact isSome_of_isDir hwd
    have hm := mem_walk h.toLedger.up_root (h.reaches p hpd) t.nodes.keys hk hr
    rw [← chain_eq_walk h hpd] at hm
    unfold fsnodesIsancestor
    rw [List.any_eq_true]
    exact ⟨p, by rwa [parents_graph hn] at hpa, decide_eq_true hm⟩

/-! ## Moving -/

/-- **Moving an entry.** A directory must not be moved to itself or below. -/
theorem IsTree.move (h : t.IsTree) (hf : t.find swd nameSrc = some e)
    (hd : t.graph.isDir dwd) (hb : t.graph.isDir e.2 → ¬ Above t.graph.up dwd e.2) :
    ((t.fsnodesRemoveEdge cfg ts swd nameSrc e.2).fsnodesLink cfg ts dwd e.2 nameDst).IsTree := by
  have he : e ∈ t.graph.entries swd := by
    rw [entries_graph]
    exact mem_entries_of_find hf
  have hc := graph_fsnodesRemoveEdge cfg hf ts e.2
  have hd' : (t.fsnodesRemoveEdge cfg ts swd nameSrc e.2).graph.isDir dwd := by rw [hc, isDir_cut, hd]
  rw [IsTree, graph_fsnodesLink hd', hc]
  rw [hc] at hd'
  cases hdi : t.graph.isDir e.2 with
  | false =>
    refine Tree.attach_leaf (h.cut_leaf he hdi).1 hd' ?_ (isDir_cut.trans hdi)
    have hs : (t.graph e.2).isSome := by
      have hp := h.toLedger.parent_of_entry he
      cases hv : t.graph e.2 with
      | none => simp [Graph.parents, hv] at hp
      | some v => rfl
    rw [cut, isSome_alter, isSome_alter, hs]
  | true =>
    refine (h.cut_dir he hdi).attach hd' ((h.reaches dwd hd).of_not_above (fun y hy => ?_) (hb hdi))
    exact up_congr isDir_cut fun _ => by rw [parents_cut, if_neg hy]

theorem IsTree.unlink_aside {e' : Name × Inode} (cfg : Config) (ts : UInt32)
    (h : t.IsTree) (hs : t.find swd nameSrc = some e) (hdw : t.graph.isDir dwd)
    (hd : t.find dwd nameDst = some e') (hn : e.2 ≠ e'.2) (he : t.graph.isDir e'.2 → t.entries e'.2 = []) :
    (t.fsnodesUnlink cfg ts dwd nameDst e'.2).find swd nameSrc = some e ∧
      (t.fsnodesUnlink cfg ts dwd nameDst e'.2).graph.isDir dwd ∧
      (t.fsnodesUnlink cfg ts dwd nameDst e'.2).graph.isDir e.2 = t.graph.isDir e.2 := by
  have hsw : swd ≠ e'.2 := by
    intro heq
    have hm := mem_entries_of_find hs
    have hdi := h.toLedger.isDir_of_entry (by rwa [entries_graph] : e ∈ t.graph.entries swd)
    rw [heq, he (heq ▸ hdi)] at hm
    cases hm
  have hdw' : dwd ≠ e'.2 := by
    intro heq
    have hm := mem_entries_of_find hd
    rw [heq, he (heq ▸ hdw)] at hm
    cases hm
  exact ⟨find_fsnodesUnlink cfg ts hd hs hn hsw, (isDir_fsnodesUnlink hd hdw').trans hdw, isDir_fsnodesUnlink hd hn⟩

end Metadata

end SaunaFS.Namespace
