/-
Checksums that are kept up to date by differences (`master/filesystem_checksum.cc`). Between the steps of a function a
checksum may be behind; `InStepBut` says which nodes these are.

- `checksums_in_step`: in every run that removes entries by their exact names, all checksums are what
  `fsnodes_recalculate_checksum` makes of the nodes and entries.
-/
import SaunaFS.Namespace.Changes

namespace SaunaFS.Namespace

open DirectoryTree FiniteTable Function FSNode Option

/-! ## Computed from scratch -/

/-- the exclusive or of the hashes of the names in a list of entries -/
def namesHash (cfg : Config) (es : List (Name × Inode)) : XorWord 16 := (es.map fun e => cfg.nameHash e.1).sum

namespace Metadata

variable {cfg : Config} {lim : Limits} {t u v : Metadata} {x y d : Inode} {n n' : FSNode} {ts : UInt32} {name : Name}
  {e : Name × Inode} {S : List Inode}

/-- `fsnodes_checksum` with `full_update`; the hash of the lower-case names is only computed again where they are in
use -/
def fullChecksum (cfg : Config) (t : Metadata) (id : Inode) (n : FSNode) : XorWord 64 :=
  n.fsnodesChecksum cfg id (namesHash cfg n.entries)
    (if (t.foldOf id).insensitive then namesHash cfg (t.foldOf id).lower else (t.foldOf id).hash)

def recalculatedChecksum (cfg : Config) (t : Metadata) : XorWord 64 :=
  nodeChecksumSeed + t.nodes.sum fun id n => t.fullChecksum cfg id n

/-! ## In step -/

/-- everything is in step but the checksums of the nodes in the list -/
structure InStepBut (cfg : Config) (t : Metadata) (S : List Inode) : Prop where
  names : ∀ d, t.graph.isDir d = true → t.entriesHash d = namesHash cfg (t.entries d)
  lower : ∀ d, (t.foldOf d).hash = namesHash cfg (t.foldOf d).lower
  fresh : ∀ id, id ∉ S → (t.nodes.get id).isSome → t.checksumOf cfg id = some (t.checksum id)
  total : t.fsNodesChecksum = nodeChecksumSeed + t.nodes.sum fun id _ => t.checksum id

theorem InStepBut.weaken (h : t.InStepBut cfg S) (x : Inode) : t.InStepBut cfg (x :: S) :=
  { h with fresh := fun id hi => h.fresh id fun hm => hi (List.mem_cons_of_mem x hm) }

theorem checksumOf_of_not_dir (hg : t.nodes.get x = some n) (hd : n.isDirectory = false) {a b : XorWord 16} :
    t.checksumOf cfg x = some (n.fsnodesChecksum cfg x a b) := by
  unfold checksumOf
  rw [hg, map_some]
  unfold fsnodesChecksum digest
  unfold isDirectory at hd
  cases hda : n.data <;> first | (rw [hda] at hd; cases hd) | rfl

theorem InStepBut.recalculated (h : t.InStepBut cfg []) : t.fsNodesChecksum = t.recalculatedChecksum cfg := by
  rw [h.total]
  congr 1
  refine Finset.sum_congr rfl fun id hi => ?_
  obtain ⟨n, hn⟩ := isSome_iff_exists.1 ((t.nodes.mem_keys id).1 hi)
  have hf := h.fresh id List.not_mem_nil (by rw [hn, isSome_some])
  rw [hn, elim_some, elim_some]
  refine some.inj (hf.symm.trans ?_)
  unfold fullChecksum
  cases hd : n.isDirectory with
  | false => exact checksumOf_of_not_dir hn hd
  | true =>
    have hna := h.names id ((isDir_graph hn).trans hd)
    have he : t.entries id = n.entries := by
      unfold entries Nodes.entries
      rw [hn]
      rfl
    unfold checksumOf
    dsimp only
    rw [hn, map_some, hna, he, ← h.lower, ite_self]

/-! ## Single steps -/

/-- what the checksums are made of -/
def summed (t : Metadata) := (t.nodes, t.fold, t.checksum, t.fsNodesChecksum, t.entriesHash)

theorem InStepBut.congr (h : t.InStepBut cfg S) (hu : u.summed = t.summed) : u.InStepBut cfg S := by
  simp only [summed, Prod.mk.injEq] at hu
  obtain ⟨hn, hf, hc, ht, hh⟩ := hu
  refine ⟨fun d hd => ?_, ?_, ?_, ?_⟩
  · unfold graph at hd
    unfold entries
    rw [hn] at hd ⊢
    rw [hh]
    exact h.names d hd
  · unfold foldOf
    rw [hf]
    exact h.lower
  · unfold checksumOf foldOf
    rw [hn, hf, hc, hh]
    exact h.fresh
  · rw [hn, hc, ht]
    exact h.total

variable {f : FSNode → FSNode} {c : Inode → XorWord 64} {es : List (Name × Inode)} {length : ℕ}

theorem sum_checksum_modify : ((t.nodes.modify x f).sum fun id _ => c id) = t.nodes.sum fun id _ => c id := by
  refine sum_congr_get _ (fun y => ?_) fun y => ?_ <;>
  · rw [get_modify]
    split_ifs with hy
    · rw [hy]
      cases t.nodes.get x <;> rfl
    · rfl

theorem InStepBut.modifyNode (h : t.InStepBut cfg S) (hx : x ∈ S)
    (hv : ∀ n, (f n).entries = n.entries) (hdi : ∀ n, (f n).isDirectory = n.isDirectory) :
    (t.modifyNode x f).InStepBut cfg S where
  names := by
    intro d hd
    have hd' : t.graph.isDir d := by
      unfold Graph.isDir graph at hd ⊢
      rw [get_modifyNode] at hd
      split_ifs at hd with he
      · rw [he]
        cases hn : t.nodes.get x with
        | none =>
          rw [hn] at hd
          exact hd
        | some n =>
          rw [hn] at hd
          exact (hdi n).symm.trans hd
      · exact hd
    have hen : (t.modifyNode x f).entries d = t.entries d := by
      unfold entries Nodes.entries
      rw [get_modifyNode]
      split_ifs with he
      · rw [he]
        cases t.nodes.get x with
        | none => rfl
        | some n => exact hv n
      · rfl
    rw [hen]
    exact h.names d hd'
  lower := h.lower
  fresh := by
    intro y hy hs
    have hne : y ≠ x := fun he => hy (he ▸ hx)
    rw [get_modifyNode_of_ne t f hne] at hs
    have hf := h.fresh y hy hs
    unfold checksumOf at hf ⊢
    rw [get_modifyNode_of_ne t f hne]
    exact hf
  total := h.total.trans (congrArg _ (sum_checksum_modify).symm)

theorem sum_checksum_update (hg : t.nodes.get x = some n) {k : Inode → XorWord 64} (hc : ∀ y, y ≠ x → k y = c y) :
    (t.nodes.sum fun id _ => k id) = (t.nodes.sum fun id _ => c id) - c x + k x := by
  have he (c : Inode → XorWord 64) : t.nodes.sum (fun id _ => c id) =
      ((t.nodes.erase x).sum fun id _ => c id) + c x := by
    rw [sum_erase _ hg, sub_add_cancel]
  rw [he, he c, add_sub_cancel_right]
  congr 1
  refine Finset.sum_congr rfl fun id hi => ?_
  dsimp only
  rw [hc id (Finset.ne_of_mem_erase hi)]

/-- **`fsnodes_update_checksum`** takes a node off the list -/
theorem InStepBut.update (h : t.InStepBut cfg (x :: S)) : (t.fsnodesUpdateChecksum cfg x).InStepBut cfg S where
  names := h.names
  lower := h.lower
  fresh := by
    intro y hy hs
    by_cases hyx : y = x
    · subst hyx
      obtain ⟨n, hn⟩ : ∃ n, t.nodes.get y = some n := isSome_iff_exists.1 hs
      change t.checksumOf cfg y = some (Function.update t.checksum y ((t.checksumOf cfg y).getD (t.checksum y)) y)
      rw [update_self]
      unfold checksumOf
      rw [hn]
      rfl
    · change t.checksumOf cfg y = some (Function.update t.checksum x _ y)
      rw [update_of_ne hyx]
      refine h.fresh y (fun hm => ?_) hs
      rcases List.mem_cons.1 hm with he | hm
      · exact hyx he
      · exact hy hm
  total := by
    change t.fsNodesChecksum - t.checksum x + (t.checksumOf cfg x).getD (t.checksum x) =
      nodeChecksumSeed + t.nodes.sum fun id _ =>
        Function.update t.checksum x ((t.checksumOf cfg x).getD (t.checksum x)) id
    cases hn : t.nodes.get x with
    | none =>
      have hno : t.checksumOf cfg x = none := by
        unfold checksumOf
        rw [hn]
        rfl
      rw [hno, getD_none, update_eq_self, sub_add_cancel]
      exact h.total
    | some n =>
      have hr := sum_checksum_update hn (c := t.checksum)
        (k := Function.update t.checksum x ((t.checksumOf cfg x).getD (t.checksum x)))
        fun y hy => update_of_ne hy _ _
      rw [update_self] at hr
      rw [hr, h.total, add_sub_assoc, add_assoc]

theorem InStepBut.placeNode (h : t.InStepBut cfg S) (hf : t.nodes.get x = none) (he : n.entries = []) :
    (t.placeNode x n).InStepBut cfg (x :: S) where
  names := by
    intro d hd
    change Function.update t.entriesHash x 0 d = namesHash cfg ((((t.nodes.set x n).get d).map FSNode.entries).getD [])
    rw [get_set]
    split_ifs with hdx
    · rw [hdx, update_self, Option.map_some, Option.getD_some, he]
      rfl
    · rw [update_of_ne hdx]
      refine h.names d ?_
      change (((t.nodes.set x n).get d).map FSNode.vertex |>.map Vertex.isDir).getD false = true at hd
      rwa [get_set_of_ne hdx] at hd
  lower := by
    intro d
    change (((t.fold.erase x).get d).getD ⟨false, [], 0⟩).hash =
      namesHash cfg (((t.fold.erase x).get d).getD ⟨false, [], 0⟩).lower
    rw [get_erase]
    split_ifs
    · rfl
    · exact h.lower d
  fresh := by
    intro y hy hs
    have hyx : y ≠ x := fun heq => hy (heq ▸ List.mem_cons_self)
    change (((t.nodes.set x n).get y).isSome) at hs
    rw [get_set_of_ne hyx] at hs
    have hfr := h.fresh y (fun hm => hy (List.mem_cons_of_mem _ hm)) hs
    change ((t.nodes.set x n).get y).map (fun n => n.fsnodesChecksum cfg y (Function.update t.entriesHash x 0 y)
      (((t.fold.erase x).get y).getD ⟨false, [], 0⟩).hash) = some (Function.update t.checksum x 0 y)
    rw [get_set_of_ne hyx, get_erase_of_ne hyx, update_of_ne hyx,
      update_of_ne hyx]
    exact hfr
  total := by
    change t.fsNodesChecksum = nodeChecksumSeed + (t.nodes.set x n).sum fun id _ => Function.update t.checksum x 0 id
    rw [sum_insert _ hf, update_self, add_zero, h.total]
    congr 1
    unfold sum
    refine Finset.sum_congr rfl fun id hi => ?_
    have hn : id ≠ x := by
      rintro rfl
      rw [FiniteTable.mem_keys, hf] at hi
      cases hi
    dsimp only
    rw [update_of_ne hn]

theorem InStepBut.dropNode (h : t.InStepBut cfg (x :: S)) (hg : t.nodes.get x = some n') :
    (t.dropNode x n).InStepBut cfg S where
  names := by
    intro d hd
    have hdx : d ≠ x := by
      rintro rfl
      change (((t.nodes.erase d).get d).map vertex |>.map Vertex.isDir).getD false = true at hd
      rw [get_erase_self] at hd
      cases hd
    change t.entriesHash d = namesHash cfg ((((t.nodes.erase x).get d).map FSNode.entries).getD [])
    change (((t.nodes.erase x).get d).map vertex |>.map Vertex.isDir).getD false = true at hd
    rw [get_erase_of_ne hdx] at hd ⊢
    exact h.names d hd
  lower := h.lower
  fresh := by
    intro y hy hs
    change ((t.nodes.erase x).get y).isSome at hs
    have hyx : y ≠ x := by
      rintro rfl
      rw [get_erase_self] at hs
      cases hs
    rw [get_erase_of_ne hyx] at hs
    have hf := h.fresh y (fun hm => (List.mem_cons.1 hm).elim hyx hy) hs
    unfold checksumOf at hf ⊢
    change ((t.nodes.erase x).get y).map _ = _
    rw [get_erase_of_ne hyx]
    exact hf
  total := by
    change t.fsNodesChecksum - t.checksum x = nodeChecksumSeed + (t.nodes.erase x).sum fun id _ => t.checksum id
    rw [sum_erase _ hg, h.total, add_sub_assoc]

theorem InStepBut.removeNode (h : t.InStepBut cfg S) : (t.fsnodesRemoveNode x).InStepBut cfg S := by
  unfold fsnodesRemoveNode
  split
  · exact h
  · rename_i n hn
    split_ifs
    · exact h
    · exact (h.weaken x).dropNode hn

theorem namesHash_erase (he : e ∈ es) : namesHash cfg (es.erase e) = namesHash cfg es - cfg.nameHash e.1 := by
  have hs := ((List.perm_cons_erase he).map fun e => cfg.nameHash e.1).sum_eq
  unfold namesHash
  rw [hs, List.map_cons, List.sum_cons, add_sub_cancel_left]

theorem namesHash_eraseP (h : ∃ e ∈ es, e.1 = name) :
    namesHash cfg (es.eraseP fun e => e.1 = name) = namesHash cfg es - cfg.nameHash name := by
  obtain ⟨e, he, hn⟩ := h
  obtain ⟨e', l₁, l₂, _, he', hes, her⟩ :=
    List.exists_of_eraseP he (p := fun e : Name × Inode => decide (e.1 = name)) (by simpa using hn)
  rw [her, hes]
  have hn' : e'.1 = name := by simpa using he'
  unfold namesHash
  simp only [List.map_append, List.sum_append, List.map_cons, List.sum_cons, hn']
  abel

theorem namesHash_insert : namesHash cfg (es.orderedInsert cfg.before e) = namesHash cfg es + cfg.nameHash e.1 := by
  unfold namesHash
  rw [((es.perm_orderedInsert cfg.before e).map _).sum_eq, List.map_cons, List.sum_cons, add_comm]

/-! ## Edges -/

theorem exists_lower_of_find (h : t.find d name = some e) (hi : (t.foldOf d).insensitive) :
    ∃ e ∈ (t.foldOf d).lower, e.1 = hstringToLowerCase name := by
  unfold find at h
  rw [if_pos hi] at h
  obtain ⟨e', he', _⟩ := bind_eq_some_iff.1 h
  exact ⟨e', List.mem_of_find?_eq_some he', by simpa using List.find?_some he'⟩

theorem InStepBut.eraseEntry (h : t.InStepBut cfg S) (hd : d ∈ S) (hf : t.find d name = some e) (hna : e.1 = name) :
    (t.eraseEntry cfg d name e).InStepBut cfg S := by
  have he (y : Inode) : (t.eraseEntry cfg d name e).entries y =
      if y = d then (t.entries d).erase e else t.entries y := by
    rw [← entries_graph, ← entries_graph, ← entries_graph, graph_eraseEntry, entries_mapEntries _ (Or.inl rfl)]
  refine ⟨fun y hy => ?_, fun y => ?_, fun y hy hs => ?_, ?_⟩
  · rw [graph_eraseEntry, isDir_mapEntries] at hy
    rw [he]
    change Function.update t.entriesHash d (t.entriesHash d - cfg.nameHash name) y = _
    split_ifs with hyd
    · subst hyd
      rw [update_self, namesHash_erase (mem_entries_of_find hf), h.names y hy, hna]
    · rw [update_of_ne hyd, h.names y hy]
  · rw [foldOf_eraseEntry]
    split_ifs with hyd
    · rw [namesHash_eraseP (exists_lower_of_find hf hyd.2), ← h.lower]
    · exact h.lower y
  · have hyd : y ≠ d := fun heq => hy (heq ▸ hd)
    have hn : (t.eraseEntry cfg d name e).nodes.get y = t.nodes.get y := get_modify_of_ne _ hyd
    have hha : (t.eraseEntry cfg d name e).entriesHash y = t.entriesHash y := update_of_ne hyd _ _
    have hfr := h.fresh y hy (hn ▸ hs)
    unfold checksumOf at hfr ⊢
    rw [foldOf_eraseEntry, if_neg fun hh => hyd hh.1, hn, hha]
    exact hfr
  · exact h.total.trans (congrArg _ (sum_checksum_modify).symm)

theorem foldOf_insertEntry : (t.insertEntry cfg d name x).foldOf y =
      if y = d ∧ (t.foldOf d).insensitive then
        { t.foldOf d with
          lower := (t.foldOf d).lower.orderedInsert cfg.before (hstringToLowerCase name, x)
          hash := (t.foldOf d).hash + cfg.nameHash (hstringToLowerCase name) }
      else t.foldOf y :=
  foldOf_modify t d y _

section

variable (h : t.InStepBut cfg S)
include h

theorem InStepBut.insertEntry (hd : d ∈ S) (hdi : t.graph.isDir d) (name : Name)
    (x : Inode) : (t.insertEntry cfg d name x).InStepBut cfg S := by
  refine ⟨fun y hy => ?_, fun y => ?_, fun y hy hs => ?_, ?_⟩
  · rw [graph_insertEntry hdi, isDir_mapEntries] at hy
    rw [entries_insertEntry hdi]
    change Function.update t.entriesHash d (t.entriesHash d + cfg.nameHash name) y = _
    split_ifs with hyd
    · subst hyd
      rw [update_self, namesHash_insert, h.names y hy]
    · rw [update_of_ne hyd, h.names y hy]
  · rw [foldOf_insertEntry]
    split_ifs
    · rw [namesHash_insert, ← h.lower]
    · exact h.lower y
  · have hyd : y ≠ d := fun heq => hy (heq ▸ hd)
    have hno : (t.insertEntry cfg d name x).nodes.get y = t.nodes.get y := get_modify_of_ne _ hyd
    have hha : (t.insertEntry cfg d name x).entriesHash y = t.entriesHash y := update_of_ne hyd _ _
    have hf := h.fresh y hy (hno ▸ hs)
    unfold checksumOf at hf ⊢
    rw [foldOf_insertEntry, if_neg fun hh => hyd hh.1, hno, hha]
    exact hf
  · exact h.total.trans (congrArg _ (sum_checksum_modify).symm)

theorem InStepBut.removeEdge (ts : UInt32) (x : Inode) (hf : t.find d name = some e)
    (hn : e.1 = name) : (t.fsnodesRemoveEdge cfg ts d name x).InStepBut cfg S := by
  have he := ((h.weaken x).weaken d).eraseEntry List.mem_cons_self hf hn
  unfold fsnodesRemoveEdge
  rw [hf]
  refine InStepBut.update (InStepBut.modifyNode (InStepBut.update (InStepBut.modifyNode ?_ List.mem_cons_self ?_ ?_))
    List.mem_cons_self ?_ ?_)
  · exact he.congr rfl
  all_goals exact fun _ => rfl

theorem InStepBut.link (ht : 0 < ts) (hd : t.graph.isDir d) (name : Name) (x : Inode) :
    (t.fsnodesLink cfg ts d x name).InStepBut cfg S := by
  have hi := ((h.weaken x).weaken d).insertEntry List.mem_cons_self hd name x
  have hp : ((t.insertEntry cfg d name x).modifyNode x fun n =>
      { n with parent := n.parent ++ [d] }).InStepBut cfg (d :: x :: S) := by
    refine hi.modifyNode (List.mem_cons_of_mem _ List.mem_cons_self) ?_ ?_ <;> exact fun _ => rfl
  unfold fsnodesLink
  rw [if_pos ht]
  refine InStepBut.update (InStepBut.modifyNode (InStepBut.update (InStepBut.modifyNode ?_ List.mem_cons_self ?_ ?_))
    List.mem_cons_self ?_ ?_)
  · exact hp.congr rfl
  all_goals exact fun _ => rfl

/-! ## Functions on nodes -/

theorem InStepBut.setFileState (hx : x ∈ S) (state : FileState) : (t.setFileState x state).InStepBut cfg S :=
  h.modifyNode hx (fun n => congrArg Vertex.entries (vertex_mapFile n _)) fun n =>
    congrArg Vertex.isDir (vertex_mapFile n _)

theorem InStepBut.setSessions (hx : x ∈ S) {k : List UInt32 → List UInt32} : (t.setSessions x k).InStepBut cfg S :=
  h.modifyNode hx (fun n => congrArg Vertex.entries (vertex_mapFile n _)) fun n =>
    congrArg Vertex.isDir (vertex_mapFile n _)

theorem InStepBut.setCtime (hx : x ∈ S) (ts : UInt32) : (t.setCtime x ts).InStepBut cfg S := by
  refine h.modifyNode hx ?_ ?_ <;> exact fun _ => rfl

theorem InStepBut.dropLastLink (path : Name) : (t.dropLastLink cfg ts x n path).InStepBut cfg S := by
  have hx := h.weaken x
  unfold Metadata.dropLastLink
  split
  · split_ifs
    · exact (((hx.setFileState List.mem_cons_self .trash).setCtime List.mem_cons_self ts).update).congr rfl
    · exact (hx.setFileState List.mem_cons_self .reserved).update.congr rfl
    · exact h.removeNode
  · exact h.removeNode

theorem InStepBut.unlink (ts : UInt32) (x : Inode) (hf : t.find d name = some e)
    (hn : e.1 = name) : (t.fsnodesUnlink cfg ts d name x).InStepBut cfg S := by
  have hc := h.removeEdge ts x hf hn
  unfold fsnodesUnlink
  dsimp only
  split
  · exact hc
  · split_ifs
    · exact hc
    · exact hc.dropLastLink _

end

theorem InStepBut.removed (h : t.InStepBut cfg (x :: S)) (hv : v.summed = t.summed) :
    (((v.setCtime x ts).fsnodesUpdateChecksum cfg x).fsnodesRemoveNode x).InStepBut cfg S :=
  ((h.congr hv).setCtime List.mem_cons_self ts).update.removeNode

theorem InStepBut.purge (h : t.InStepBut cfg S) (ts : UInt32) (x : Inode) :
    (t.fsnodesPurge cfg ts x).InStepBut cfg S := by
  have hx := h.weaken x
  unfold fsnodesPurge
  split
  · exact h
  · split
    · dsimp only
      split_ifs
      · split <;> exact (hx.setFileState List.mem_cons_self .reserved).update.congr rfl
      · exact hx.removed rfl
    · exact hx.removed rfl
    · exact h

theorem InStepBut.purge_reserved {sessionid : List UInt32} {chunks : List ℕ} (h : t.InStepBut cfg (x :: S))
    (hg : t.nodes.get x = some n) (hd : n.data = .file ⟨.reserved, length, sessionid, chunks⟩) :
    (t.fsnodesPurge cfg ts x).InStepBut cfg S := by
  unfold fsnodesPurge
  simp only [hg, hd]
  exact h.removed rfl

theorem InStepBut.create {parent inode : Inode} {type : NodeType} {mode umask : BitVec 16} {uid gid : UInt32}
    {copysgid : Bool} {inheritacl : AclInheritance} (h : t.InStepBut cfg S) (ht : 0 < ts) (hd : t.graph.isDir parent)
    (hc : t.fsnodesCreateNode cfg ts parent name type mode umask uid gid copysgid inheritacl inode = some u) :
    u.InStepBut cfg S := by
  obtain ⟨p, n, hp, _, hf, hn, rfl⟩ := fsnodesCreateNode_inv hc
  have hnew : n.entries = [] := by
    rw [hn]
    cases type <;> rfl
  have hne : parent ≠ inode := by
    rintro rfl
    rw [hf] at hp
    cases hp
  have hdi : (t.withNode cfg inode n).graph.isDir parent := by
    change (((t.nodes.set inode n).get parent).map vertex |>.map Vertex.isDir).getD false
    rw [get_set_of_ne hne]
    exact hd
  have hw : (t.withNode cfg inode n).InStepBut cfg S :=
    (InStepBut.placeNode (t := (t.adjust .nodes 1).countType n.data 1) (h.congr rfl) hf hnew).update
  exact (hw.link ht hdi name inode).congr rfl

theorem InStepBut.edit {id : Inode} (h : t.InStepBut cfg []) (he : Edit cfg lim t u id n n') : u.InStepBut cfg [] where
  names := by
    intro d hd
    rw [he.entriesHash, ← entries_graph, Edit.graph he, entries_graph]
    rw [Edit.graph he] at hd
    exact h.names d hd
  lower := by
    unfold foldOf
    rw [he.fold]
    exact h.lower
  fresh := by
    intro y hy hs
    by_cases hyi : y = id
    · rw [hyi]
      exact he.fresh
    · rw [he.nodes, get_set_of_ne hyi] at hs
      have hf := h.fresh y hy hs
      unfold checksumOf foldOf at hf ⊢
      rw [he.nodes, get_set_of_ne hyi, he.entriesHash, he.fold, he.checksum y hyi]
      exact hf
  total := by
    have hse : (t.nodes.set id n').sum (fun y _ => u.checksum y) = t.nodes.sum fun y _ => u.checksum y := by
      rw [sum_set _ he.get, sub_add_cancel]
    rw [he.nodes, hse, sum_checksum_update he.get he.checksum, ← add_assoc, ← add_sub_assoc, ← h.total,
      ← he.total, sub_add_cancel]

theorem InStepBut.undel (h : t.InStepBut cfg S) (ht : 0 < ts) (hd : t.graph.isDir d) :
    (t.undelNode cfg ts x n length d name).InStepBut cfg S := by
  have hx : InStepBut cfg { t with trash := t.trash.erase (n.trashPathKey x) } (x :: S) :=
    (h.weaken x).congr rfl
  have hb := ((hx.setFileState List.mem_cons_self .live).setCtime List.mem_cons_self ts).update
  have hg : ((({ t with trash := t.trash.erase (n.trashPathKey x) }.setFileState x .live).setCtime x
      ts).fsnodesUpdateChecksum cfg x).graph = t.graph :=
    (graph_setCtime _ _ _).trans (graph_setFileState _ _ _)
  exact (hb.link ht (by rwa [hg]) name x).congr rfl

theorem InStepBut.mark (h : t.InStepBut cfg S) {insensitive : Bool} :
    InStepBut cfg { t with fold := t.fold.set d { t.foldOf d with insensitive := insensitive } } S := by
  have hfo (y : Inode) : (foldOf { t with fold := t.fold.set d { t.foldOf d with insensitive := insensitive } } y) =
      if y = d then { t.foldOf d with insensitive := insensitive } else t.foldOf y := by
    unfold foldOf
    rw [get_set]
    split_ifs <;> rfl
  have hh (y : Inode) : (foldOf { t with fold := t.fold.set d { t.foldOf d with insensitive := insensitive } } y).hash =
      (t.foldOf y).hash := by
    rw [hfo]
    split_ifs with hyd
    · rw [hyd]
    · rfl
  refine ⟨h.names, fun y => ?_, fun y hy hs => ?_, h.total⟩
  · rw [hh, h.lower, hfo]
    split_ifs with hyd
    · rw [hyd]
    · rfl
  · have hf := h.fresh y hy hs
    unfold checksumOf at hf ⊢
    rw [hh]
    exact hf

/-! ## Whole runs -/

theorem Change.inStep (h : Change cfg lim t u) (hl : lim.names) (ht : t.InStepBut cfg []) : u.InStepBut cfg [] := by
  cases h with
  | fold d insensitive => exact ht.mark
  | create hts hd h => exact ht.create (hts hl) hd h
  | link hts hd => exact ht.link (hts hl) hd _ _
  | unlink ts hf hn => exact ht.unlink ts _ hf (hn hl)
  | move hts hf hn hd =>
    refine (ht.removeEdge _ _ hf (hn hl)).link (hts hl) ?_ _ _
    rwa [graph_fsnodesRemoveEdge cfg hf, isDir_cut]
  | undel hts _ _ hd => exact ht.undel (hts hl) hd
  | purge ts x => exact ht.purge ts x
  | @release x n length sessionid chunks ts k hg hda =>
    have hs : (t.setSessions x k).nodes.get x =
        some { n with data := .file ⟨.reserved, length, k sessionid, chunks⟩ } := by
      unfold setSessions
      rw [get_modifyNode, if_pos rfl, hg, map_some, hda]
      rfl
    exact ((ht.weaken x).setSessions List.mem_cons_self).purge_reserved hs rfl
  | edit h => exact ht.edit h
  | trashPath | forgetTrash | forgetReserved => exact ht.congr rfl

theorem inStep_fsNew : (fsNew cfg ts).InStepBut cfg [] := by
  have hn : noNodes.InStepBut cfg [] :=
    ⟨fun _ hd => Bool.noConfusion hd, fun _ => rfl, fun _ _ hs => Bool.noConfusion hs, (add_zero _).symm⟩
  have hr : (noNodes.placeNode rootInode (rootNode ts)).InStepBut cfg [rootInode] := hn.placeNode rfl rfl
  have hc : (((noNodes.placeNode rootInode (rootNode ts)).adjust .nodes 1).adjust .dirnodes 1).InStepBut cfg
      [rootInode] := hr.congr rfl
  exact hc.update.congr rfl

/-- **Checksums in step.** After every run in which entries are removed by their exact names, the checksum of all nodes
is the one computed anew, and the hash of a directory is that of the names in it. -/
theorem checksums_in_step (cfg : Config) (ts : UInt32) (ops : List Op)
    (hok : Stepwise.Along (step cfg) (fun t op => op.exactNames t) (fsNew cfg ts) ops) :
    (after cfg ts ops).fsNodesChecksum = (after cfg ts ops).recalculatedChecksum cfg ∧
      ∀ d, (after cfg ts ops).graph.isDir d →
        (after cfg ts ops).entriesHash d = namesHash cfg ((after cfg ts ops).entries d) := by
  have hstep : (after cfg ts ops).InStepBut cfg [] :=
    inv_run_of_changes (L := Limits.names) (P := fun t => t.InStepBut cfg [])
      (fun lim t u hlim h _ _ ht => Change.inStep h hlim ht) hok inStep_fsNew
  exact ⟨hstep.recalculated, hstep.names⟩

/-- a file called `F` is made in the root directory, and removed under another name; with a case-insensitive session the
root directory is marked before -/
def removeNamed (caseInsensitive : Bool) (name : Name) : List Op :=
  let c := { FsContext.admin 1 with session := some ⟨rootInode, false, false, false, false, caseInsensitive⟩ }
  [.lookup c rootInode [70], .mknod c rootInode [70] .file 0o644 0 0 2, .unlink c rootInode name]

theorem checksums_in_step_exact_name : (after .unlimited 1 (removeNamed false [70])).fsNodesChecksum =
        (after .unlimited 1 (removeNamed false [70])).recalculatedChecksum .unlimited ∧
      ∀ d, (after .unlimited 1 (removeNamed false [70])).graph.isDir d →
        (after .unlimited 1 (removeNamed false [70])).entriesHash d =
          namesHash .unlimited ((after .unlimited 1 (removeNamed false [70])).entries d) := by
  refine checksums_in_step .unlimited 1 (removeNamed false [70]) ⟨trivial, (by decide : (0 : UInt32) < 1), ?_, trivial⟩
  intro wd hwd e he
  obtain rfl := Except.ok.inj (hwd.symm.trans rfl : Except.ok wd = Except.ok rootInode)
  obtain rfl := some.inj (he.symm.trans rfl : some e = some ([70], 2))
  rfl

/-- **Removed under another spelling.** The root directory is empty again, but the hash of its names and the checksum of
all nodes are not those of an empty directory. -/
theorem checksum_after_unlink : (after .unlimited 1 (removeNamed true [102])).entries rootInode = [] ∧
      (after .unlimited 1 (removeNamed true [102])).entriesHash rootInode ≠ 0 ∧
      (after .unlimited 1 (removeNamed true [102])).fsNodesChecksum ≠
        (after .unlimited 1 (removeNamed true [102])).recalculatedChecksum .unlimited := by
  refine ⟨rfl, by decide, by decide⟩

end Metadata

end SaunaFS.Namespace
