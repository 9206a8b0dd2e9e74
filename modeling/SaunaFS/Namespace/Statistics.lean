/-
The records of the directories. An operation changes the record of every directory on the way up from the node it
changes (`fsnodes_add_stats`); the records are in step if each is the sum over the entries of the directory.
-/
import SaunaFS.Namespace.Changes

namespace SaunaFS.Namespace

open DirectoryTree ParentWalk FiniteTable Finset List Option FSNode Function Graph Prod

namespace Metadata

variable {cfg : Config} {lim : Limits} {t u v : Metadata} {x y d : Inode} {n n' : FSNode} {ts : UInt32} {name : Name}
  {e : Name × Inode} {P ds : List Inode} {fuel : ℕ}

/-! ## Walks -/

/-- how often a walk visits the directories in `y` -/
def meets (t : Metadata) (y : Inode) (P : List Inode) : ℕ :=
  ((t.entries y).map fun e => if t.graph.isDir e.2 then P.count e.2 else 0).sum

theorem meets_nil : t.meets y [] = 0 := by
  unfold meets
  simp

theorem meets_append (t : Metadata) (y : Inode) (P Q : List Inode) :
    t.meets y (P ++ Q) = t.meets y P + t.meets y Q := by
  unfold meets
  rw [← sum_map_add]
  congr 1
  refine map_congr_left fun e _ => ?_
  split_ifs
  · exact count_append
  · rfl

theorem meets_singleton (hd : t.graph.isDir d) : t.meets y [d] = ((t.entries y).map snd).count d := by
  unfold meets
  induction t.entries y with
  | nil => rfl
  | cons e es ih =>
    rw [List.map_cons, List.sum_cons, ih, List.map_cons, List.count_cons, add_comm]
    by_cases he : e.2 = d
    · simp [he, hd]
    · simp [he, Ne.symm he]

/-- the edges to a node are recorded at both ends -/
def Recorded (t : Metadata) (x : Inode) : Prop :=
  ∀ y, ((t.entries y).map snd).count x = (t.graph.parents x).count y

theorem ite_beq_comm (d y : Inode) : (if d == y then 1 else 0) = if y = d then 1 else 0 := by
  by_cases h : y = d
  · simp [h]
  · simp [h, Ne.symm h]

theorem count_walks {path : Inode → Option (List Inode)}
    (hp : ∀ d ∈ ds, ∀ P, path d = some P → (∀ x ∈ P, t.Recorded x) →
      ∀ y, P.count y = (if y = d then 1 else 0) + t.meets y P)
    {Ps : List (List Inode)} (h : ds.mapM path = some Ps) (hr : ∀ x ∈ Ps.flatten, t.Recorded x) (y : Inode) :
    Ps.flatten.count y = ds.count y + t.meets y Ps.flatten := by
  induction ds generalizing Ps with
  | nil =>
    obtain rfl : Ps = [] := by simpa using h.symm
    simp [meets_nil]
  | cons d ds ih =>
    rw [mapM_cons] at h
    simp only [Option.pure_def, Option.bind_eq_bind, Option.bind_eq_some_iff, Option.some.injEq] at h
    obtain ⟨P, hP, Qs, hQs, rfl⟩ := h
    rw [flatten_cons] at hr ⊢
    have hh := hp d mem_cons_self P hP (fun x hx => hr x (mem_append_left _ hx)) y
    have hta := ih (fun d hd => hp d (mem_cons_of_mem _ hd)) hQs
      fun x hx => hr x (mem_append_right _ hx)
    rw [count_append, hh, hta, meets_append, List.count_cons, ite_beq_comm]
    omega

/-- **A walk up visits a directory as often as the directories in it**, and once more where it starts -/
theorem count_statsPath (hro : t.graph.parents rootInode = [])
    (hup : ∀ x p, p ∈ t.graph.parents x → t.graph.isDir p) (hd : t.graph.isDir d)
    (h : statsPath t.nodes fuel d = some P) (hr : ∀ x ∈ P, t.Recorded x) (y : Inode) :
    P.count y = (if y = d then 1 else 0) + t.meets y P := by
  induction fuel generalizing d P y with
  | zero => cases h
  | succ fuel ih =>
    obtain ⟨n, hn⟩ := isSome_iff_exists.1 (isSome_graph.symm.trans (isSome_of_isDir hd))
    simp only [statsPath, hn] at h
    split_ifs at h with hi
    · obtain rfl := some.inj h
      have hno := hr d mem_cons_self y
      rw [hi, hro, ← hi, ← meets_singleton hd] at hno
      rw [hno, count_nil, add_zero, count_singleton, ite_beq_comm]
    · obtain ⟨Ps, hPs, rfl⟩ := map_eq_some_iff.1 h
      have hpa : t.graph.parents d = n.parent := parents_graph hn
      have hre := count_walks (t := t) (fun p hp P hP hrec => ih (hup d p (by rwa [hpa])) hP hrec) hPs
        (fun x hx => hr x (mem_cons_of_mem _ hx)) y
      have hs := hr d mem_cons_self y
      rw [← meets_singleton hd, hpa] at hs
      have hsp : t.meets y (d :: Ps.flatten) = t.meets y [d] + t.meets y Ps.flatten := meets_append t y [d] _
      rw [List.count_cons, hre, hsp, hs, ite_beq_comm]
      omega

theorem count_statsPaths (hro : t.graph.parents rootInode = [])
    (hup : ∀ x p, p ∈ t.graph.parents x → t.graph.isDir p) (hds : ∀ d ∈ ds, t.graph.isDir d)
    (h : t.statsPaths ds = some P) (hr : ∀ x ∈ P, t.Recorded x) : P.count y = ds.count y + t.meets y P := by
  obtain ⟨Ps, hPs, rfl⟩ := map_eq_some_iff.1 h
  exact count_walks (fun d hd P hP hre => count_statsPath hro hup (hds d hd) hP hre) hPs hr y

/-! ## Records and sums -/

/-- the record of a directory less the sum over its entries -/
def debt (cfg : Config) (t : Metadata) (d : Inode) : Stats :=
  t.stats d - ((t.entries d).map fun e => t.fsnodesGetStats cfg e.2).sum

theorem debt_updateParentStats (cfg : Config) (sr : Stats) (hro : t.graph.parents rootInode = [])
    (hup : ∀ x p, p ∈ t.graph.parents x → t.graph.isDir p) (hds : ∀ d ∈ ds, t.graph.isDir d)
    (h : t.statsPaths ds = some P) (hr : ∀ x ∈ P, t.Recorded x) (y : Inode) :
    (t.updateParentStats ds sr).debt cfg y = t.debt cfg y + ds.count y • sr := by
  have hs (d : Inode) : (t.updateParentStats ds sr).stats d = t.stats d + P.count d • sr := by
    unfold updateParentStats
    simp [h]
  have hg (x : Inode) : (t.updateParentStats ds sr).fsnodesGetStats cfg x =
      t.fsnodesGetStats cfg x + (if t.graph.isDir x then P.count x else 0) • sr := by
    have hno : (t.updateParentStats ds sr).nodes = t.nodes := rfl
    unfold fsnodesGetStats
    rw [hno]
    cases hn : t.nodes.get x with
    | none => simp [isDir, graph, hn]
    | some n =>
      rw [isDir_graph hn]
      cases hd : n.isDirectory with
      | true => simp [hd, hs, add_assoc]
      | false => simp [hd]
  have hsu : ((t.entries y).map fun e => (t.updateParentStats ds sr).fsnodesGetStats cfg e.2).sum =
      ((t.entries y).map fun e => t.fsnodesGetStats cfg e.2).sum + t.meets y P • sr := by
    unfold meets
    simp only [hg]
    rw [sum_map_add]
    congr 1
    induction t.entries y with
    | nil => simp
    | cons e es ih => rw [List.map_cons, List.sum_cons, ih, List.map_cons, List.sum_cons, add_smul]
  unfold debt
  change (t.updateParentStats ds sr).stats y - ((t.entries y).map _).sum = _
  rw [hs, hsu, count_statsPaths hro hup hds h hr, add_smul]
  abel

theorem debt_congr (he : u.entries y = t.entries y) (hs : u.stats y = t.stats y)
    (hg : ∀ e ∈ t.entries y, u.fsnodesGetStats cfg e.2 = t.fsnodesGetStats cfg e.2) : u.debt cfg y = t.debt cfg y := by
  unfold debt
  rw [he, hs]
  congr 2
  exact map_congr_left hg

theorem getStats_congr (hg : Rel Alike (t.nodes.get x) (u.nodes.get x)) (hs : u.stats x = t.stats x) :
    u.fsnodesGetStats cfg x = t.fsnodesGetStats cfg x := by
  unfold fsnodesGetStats
  rw [hs]
  generalize t.nodes.get x = o at hg
  generalize u.nodes.get x = o' at hg
  cases hg with
  | none => rfl
  | some ha => simp only [ha.ownStats cfg, ha.isDirectory]

theorem debt_modifyNode (t : Metadata) (x : Inode) {f : FSNode → FSNode} (hen : ∀ n, (f n).entries = n.entries)
    (hd : ∀ n, (f n).isDirectory = n.isDirectory) (ho : ∀ n, (f n).ownStats cfg = n.ownStats cfg) (y : Inode) :
    (t.modifyNode x f).debt cfg y = t.debt cfg y := by
  refine debt_congr ?_ rfl fun e _ => ?_
  · unfold entries Nodes.entries
    rw [get_modifyNode]
    split_ifs with hy
    · rw [hy, Option.map_map]
      congr 2
      funext n
      exact hen n
    · rfl
  · unfold fsnodesGetStats
    rw [get_modifyNode]
    split_ifs with he
    · rw [he]
      cases t.nodes.get x with
      | none => rfl
      | some n =>
        simp only [map_some, ho, hd]
        rfl
    · rfl

theorem debt_fsnodesUpdateChecksum (t : Metadata) (x y : Inode) :
    (t.fsnodesUpdateChecksum cfg x).debt cfg y = t.debt cfg y := rfl

variable {es : List (Name × Inode)} {f : Inode → Stats}

theorem sum_map_ite {delta : Stats} : (es.map fun e => f e.2 + if e.2 = x then delta else 0).sum =
      (es.map fun e => f e.2).sum + (es.map snd).count x • delta := by
  rw [sum_map_add]
  congr 1
  induction es with
  | nil => simp
  | cons e es ih =>
    rw [List.map_cons, List.sum_cons, ih, List.map_cons, List.count_cons, add_smul, add_comm]
    congr 1
    by_cases he : e.2 = x <;> simp [he]

/-! ## Ways up a tree -/

theorem recorded_of_tree (h : t.IsTree) (x : Inode) : t.Recorded x := by
  intro y
  rw [← entries_graph, h.edges]

theorem above_of_mem_statsPath (htr : t.IsTree) (hd : t.graph.isDir d) (h : statsPath t.nodes fuel d = some P)
    (hx : x ∈ P) : Above t.graph.up d x ∧ t.graph.isDir x := by
  induction fuel generalizing d P with
  | zero => cases h
  | succ fuel ih =>
    obtain ⟨n, hn⟩ := isSome_iff_exists.1 (isSome_graph.symm.trans (isSome_of_isDir hd))
    simp only [statsPath, hn] at h
    split_ifs at h with hro
    · obtain rfl := some.inj h
      obtain rfl := List.mem_singleton.1 hx
      exact ⟨.refl, hd⟩
    · obtain ⟨Ps, hPs, rfl⟩ := map_eq_some_iff.1 h
      obtain ⟨p, hp⟩ := length_eq_one_iff.1 (htr.single d hd hro)
      have hpa : n.parent = [p] := (parents_graph hn).symm.trans hp
      rw [hpa, mapM_cons, mapM_nil] at hPs
      simp only [Option.pure_def, Option.bind_eq_bind, Option.bind_some, Option.bind_eq_some_iff,
        some.injEq] at hPs
      obtain ⟨Q, hQ, rfl⟩ := hPs
      rcases mem_cons.1 hx with rfl | hx
      · exact ⟨.refl, hd⟩
      · have hpd := htr.toLedger.isDir_of_parent (hp ▸ mem_cons_self : p ∈ t.graph.parents d)
        have hr := ih hpd hQ (by simpa using hx)
        have hup : t.graph.up d = some p := by rw [up, if_pos hd, hp, head?_cons]
        exact ⟨.head hup hr.1, hr.2⟩

theorem not_mem_statsPath (htr : t.IsTree) (he : e ∈ t.entries d) (h : statsPath t.nodes fuel d = some P) :
    e.2 ∉ P := by
  intro hm
  have he' : e ∈ t.graph.entries d := by rwa [entries_graph]
  obtain ⟨ha, hd⟩ := above_of_mem_statsPath htr (htr.toLedger.isDir_of_entry he') h hm
  have hup : t.graph.up e.2 = some d := by rw [up, if_pos hd, htr.parents_eq he' hd, head?_cons]
  exact not_cycle_of_reaches htr.toLedger.up_root (htr.reaches e.2 hd) (Relation.TransGen.head' hup ha)

/-! ## Edges -/

theorem isSome_statsPaths (sr : Stats) (h : (t.updateParentStats ds sr).stopped = false) :
    ∃ P, t.statsPaths ds = some P := by
  change (t.stopped || (t.statsPaths ds).isNone) = false at h
  rw [Bool.or_eq_false_iff] at h
  exact isSome_iff_exists.1 (by simpa using h.2)

theorem entries_eraseEntry (cfg : Config) (t : Metadata) (d : Inode) (name : Name) (e : Name × Inode) (y : Inode) :
    (t.eraseEntry cfg d name e).entries y = if y = d then (t.entries d).erase e else t.entries y := by
  rw [← entries_graph, ← entries_graph, ← entries_graph, graph_eraseEntry, entries_mapEntries _ (Or.inl rfl)]

theorem rel_modify {k : FSNode → FSNode} (hk : ∀ n, Alike n (k n)) (x y : Inode) :
    Rel Alike (t.nodes.get y) ((t.nodes.modify x k).get y) := by
  rw [get_modify]
  split_ifs with hy
  · rw [hy]
    cases t.nodes.get x with
    | none => exact .none
    | some n => exact .some (hk n)
  · cases t.nodes.get y with
    | none => exact .none
    | some n => exact .some (Alike.refl n)

theorem alike_mapEntries (k : List (Name × Inode) → List (Name × Inode)) (n : FSNode) :
    Alike n { n with data := n.data.mapEntries k } :=
  ⟨⟨k, rfl⟩, rfl, rfl, rfl, rfl, rfl, rfl⟩

theorem alike_parent (k : List Inode → List Inode) (n : FSNode) : Alike n { n with parent := k n.parent } :=
  ⟨(Alike.refl n).data, rfl, rfl, rfl, rfl, rfl, rfl⟩

theorem debt_eraseEntry (cfg : Config) (t : Metadata) (d : Inode) (name : Name) (he : e ∈ t.entries d) (y : Inode) :
    (t.eraseEntry cfg d name e).debt cfg y = t.debt cfg y + if y = d then t.fsnodesGetStats cfg e.2 else 0 := by
  have hg (x : Inode) : (t.eraseEntry cfg d name e).fsnodesGetStats cfg x = t.fsnodesGetStats cfg x :=
    getStats_congr (rel_modify (alike_mapEntries _) d x) rfl
  by_cases hy : y = d
  · subst hy
    unfold debt
    rw [entries_eraseEntry, if_pos rfl, if_pos rfl]
    simp only [hg]
    have hs := ((List.perm_cons_erase he).map fun e => t.fsnodesGetStats cfg e.2).sum_eq
    rw [List.map_cons, List.sum_cons] at hs
    rw [hs]
    change t.stats y - _ = t.stats y - _ + _
    abel
  · rw [if_neg hy, add_zero]
    refine debt_congr ?_ rfl fun e _ => hg e.2
    rw [entries_eraseEntry, if_neg hy]

/-- **Removing an edge** keeps all records in step -/
theorem debt_fsnodesRemoveEdge (htr : t.IsTree) (hf : t.find d name = some e)
    (hru : (t.fsnodesRemoveEdge cfg ts d name e.2).stopped = false) (y : Inode) :
    (t.fsnodesRemoveEdge cfg ts d name e.2).debt cfg y = t.debt cfg y := by
  have he := mem_entries_of_find hf
  have he' : e ∈ t.graph.entries d := by rwa [entries_graph]
  have hg := graph_eraseEntry cfg t d name e
  have hpa (x : Inode) : (t.eraseEntry cfg d name e).graph.parents x = t.graph.parents x := by
    rw [hg, parents_mapEntries]
  have hd (x : Inode) : (t.eraseEntry cfg d name e).graph.isDir x = t.graph.isDir x := by rw [hg, isDir_mapEntries]
  unfold fsnodesRemoveEdge at hru ⊢
  simp only [hf] at hru ⊢
  obtain ⟨P, hP⟩ :=
    isSome_statsPaths (t := t.eraseEntry cfg d name e) (-(t.eraseEntry cfg d name e).fsnodesGetStats cfg e.2) hru
  have hge : (t.eraseEntry cfg d name e).fsnodesGetStats cfg e.2 = t.fsnodesGetStats cfg e.2 :=
    getStats_congr (rel_modify (alike_mapEntries _) d e.2) rfl
  -- the walk does not come to the node that is cut off, so the edges on the way are recorded at both ends
  have hn : e.2 ∉ P := by
    obtain ⟨Ps, hPs, rfl⟩ := map_eq_some_iff.1 hP
    rw [mapM_cons, mapM_nil] at hPs
    simp only [Option.pure_def, Option.bind_eq_bind, Option.bind_some, Option.bind_eq_some_iff,
      some.injEq] at hPs
    obtain ⟨Q, hQ, rfl⟩ := hPs
    have hsa : ∀ x, ((t.eraseEntry cfg d name e).nodes.get x).map parent = (t.nodes.get x).map parent := by
      intro x
      change ((t.nodes.modify d _).get x).map _ = _
      rw [get_modify]
      split_ifs with hx
      · rw [hx, Option.map_map]
        rfl
      · rfl
    rw [statsPath_congr hsa] at hQ
    simpa using not_mem_statsPath htr he hQ
  have hr : ∀ x ∈ P, (t.eraseEntry cfg d name e).Recorded x := by
    intro x hx y
    have hne : e.2 ≠ x := fun heq => hn (heq ▸ hx)
    rw [hpa, ← recorded_of_tree htr x y, entries_eraseEntry]
    split_ifs with hy
    · rw [hy, ((List.perm_cons_erase he).map Prod.snd).count_eq x, List.map_cons, List.count_cons_of_ne hne]
    · rfl
  have hu := debt_updateParentStats cfg (-(t.eraseEntry cfg d name e).fsnodesGetStats cfg e.2)
    (by rw [hpa, htr.root_parents]) (fun x p hp => by
      rw [hpa] at hp
      rw [hd, htr.toLedger.isDir_of_parent hp])
    (fun z hz => by
      obtain rfl := List.mem_singleton.1 hz
      rw [hd, htr.toLedger.isDir_of_entry he']) hP hr y
  rw [debt_eraseEntry cfg t d name he] at hu
  have hs : (t.eraseEntry cfg d name e).fsnodesAddStats d (-(t.eraseEntry cfg d name e).fsnodesGetStats cfg e.2) =
      (t.eraseEntry cfg d name e).updateParentStats [d] (-(t.eraseEntry cfg d name e).fsnodesGetStats cfg e.2) := rfl
  rw [hs]
  rw [debt_fsnodesUpdateChecksum, debt_modifyNode, debt_fsnodesUpdateChecksum, debt_modifyNode, hu, hge,
    count_singleton, ite_beq_comm]
  · split_ifs <;> simp
  all_goals exact fun _ => rfl

theorem debt_insertEntry (cfg : Config) (t : Metadata) (name : Name) (x : Inode) (hd : t.graph.isDir d) (y : Inode) :
    (t.insertEntry cfg d name x).debt cfg y = t.debt cfg y - if y = d then t.fsnodesGetStats cfg x else 0 := by
  have hg (x' : Inode) : (t.insertEntry cfg d name x).fsnodesGetStats cfg x' = t.fsnodesGetStats cfg x' :=
    getStats_congr (rel_modify (alike_mapEntries _) d x') rfl
  by_cases hy : y = d
  · subst hy
    unfold debt
    rw [entries_insertEntry hd, if_pos rfl, if_pos rfl]
    rw [(((t.entries y).perm_orderedInsert cfg.before (name, x)).map _).sum_eq]
    simp only [hg, List.map_cons, List.sum_cons]
    change t.stats y - _ = t.stats y - _ - _
    abel
  · rw [if_neg hy, sub_zero]
    refine debt_congr ?_ rfl fun e _ => hg e.2
    rw [entries_insertEntry hd, if_neg hy]

/-- the metadata in `fsnodes_link` when the edge is there, but not yet in the records -/
def withEdge (cfg : Config) (t : Metadata) (d x : Inode) (name : Name) : Metadata :=
  (t.insertEntry cfg d name x).modifyNode x fun n => { n with parent := n.parent ++ [d] }

theorem graph_withEdge (cfg : Config) (t : Metadata) (ts : UInt32) (d x : Inode) (name : Name) :
    (t.withEdge cfg d x name).graph = (t.fsnodesLink cfg ts d x name).graph := by
  symm
  unfold fsnodesLink
  split_ifs
  · rw [graph_fsnodesUpdateChecksum, graph_modifyNode_same, graph_fsnodesUpdateChecksum, graph_modifyNode_same]
    · rfl
    all_goals exact fun _ => rfl
  · rfl

theorem getStats_withEdge (cfg : Config) (t : Metadata) (d x : Inode) (name : Name) :
    (t.withEdge cfg d x name).fsnodesGetStats cfg x = t.fsnodesGetStats cfg x := by
  have hp : (t.withEdge cfg d x name).fsnodesGetStats cfg x = (t.insertEntry cfg d name x).fsnodesGetStats cfg x :=
    getStats_congr (rel_modify (alike_parent (· ++ [d])) x x) rfl
  exact hp.trans (getStats_congr (rel_modify (alike_mapEntries _) d x) rfl)

/-- **Making an edge** keeps all records in step, if the directories form a tree with it -/
theorem debt_fsnodesLink (hd : t.graph.isDir d) (htr : (t.fsnodesLink cfg ts d x name).IsTree)
    (hr : (t.fsnodesLink cfg ts d x name).stopped = false) (y : Inode) :
    (t.fsnodesLink cfg ts d x name).debt cfg y = t.debt cfg y := by
  have hv : (t.withEdge cfg d x name).IsTree := htr.congr (graph_withEdge cfg t ts d x name)
  have hde : (t.withEdge cfg d x name).debt cfg y = t.debt cfg y - if y = d then t.fsnodesGetStats cfg x else 0 := by
    unfold withEdge
    rw [debt_modifyNode, debt_insertEntry cfg t name x hd]
    all_goals exact fun _ => rfl
  rw [stopped_fsnodesLink_eq, Bool.or_eq_false_iff] at hr
  obtain ⟨P, hP⟩ : ∃ P, (t.withEdge cfg d x name).statsPaths [d] = some P :=
    isSome_iff_exists.1 (by simpa [withEdge] using hr.2)
  have hdi : ∀ z ∈ [d], (t.withEdge cfg d x name).graph.isDir z := by
    intro z hz
    obtain rfl := List.mem_singleton.1 hz
    rw [graph_withEdge cfg t ts, graph_fsnodesLink hd, isDir_attach, hd]
  have hu := debt_updateParentStats cfg ((t.withEdge cfg d x name).fsnodesGetStats cfg x) hv.root_parents
    (fun _ _ hp => hv.toLedger.isDir_of_parent hp) hdi hP (fun x _ => recorded_of_tree hv x) y
  have hs : (t.debt cfg y - if y = d then t.fsnodesGetStats cfg x else 0) +
      (if y = d then 1 else 0) • t.fsnodesGetStats cfg x = t.debt cfg y := by
    split_ifs <;> simp
  rw [hde, getStats_withEdge, count_singleton, ite_beq_comm, hs, ← getStats_withEdge cfg t d x name] at hu
  unfold fsnodesLink
  split_ifs
  · rw [debt_fsnodesUpdateChecksum, debt_modifyNode, debt_fsnodesUpdateChecksum, debt_modifyNode]
    · exact hu
    all_goals exact fun _ => rfl
  · exact hu

/-! ## Nodes that come and go -/

/-- every record is the sum over the entries of its directory -/
def StatsInStep (cfg : Config) (t : Metadata) : Prop :=
  ∀ d, t.graph.isDir d = true → t.stats d = ((t.entries d).map fun e => t.fsnodesGetStats cfg e.2).sum

theorem statsInStep_iff : t.StatsInStep cfg ↔ ∀ d, t.graph.isDir d → t.debt cfg d = 0 :=
  forall_congr' fun _ => imp_congr_right fun _ => sub_eq_zero.symm

theorem StatsInStep.of_debt (h : t.StatsInStep cfg) (hdi : ∀ d, u.graph.isDir d → t.graph.isDir d)
    (hde : ∀ d, u.debt cfg d = t.debt cfg d) : u.StatsInStep cfg :=
  statsInStep_iff.2 fun d hd => (hde d).trans (statsInStep_iff.1 h d (hdi d hd))

theorem debt_of_ne (hy : y ≠ x) (hn : ∀ z, z ≠ x → u.nodes.get z = t.nodes.get z)
    (hs : ∀ z, z ≠ x → u.stats z = t.stats z) (hno : ∀ e ∈ t.entries y, e.2 ≠ x) : u.debt cfg y = t.debt cfg y := by
  refine debt_congr ?_ (hs y hy) fun e he => ?_
  · unfold entries Nodes.entries
    rw [hn y hy]
  · unfold fsnodesGetStats
    rw [hn e.2 (hno e he), hs e.2 (hno e he)]

theorem ne_of_parents (hl : Ledger rootInode t.graph) (hpa : t.graph.parents x = []) : ∀ e ∈ t.entries y, e.2 ≠ x := by
  rintro e he rfl
  have hp := hl.parent_of_entry (by rwa [entries_graph] : e ∈ t.graph.entries y)
  rw [hpa] at hp
  cases hp

section

variable (h : t.StatsInStep cfg)
include h

theorem StatsInStep.withNode (hl : Ledger rootInode t.graph) (hf : t.nodes.get x = none)
    (he : n.entries = []) : (t.withNode cfg x n).StatsInStep cfg := by
  rw [statsInStep_iff] at h ⊢
  intro y hy
  by_cases hyx : y = x
  · subst hyx
    have hg : (t.withNode cfg y n).entries y = [] := by
      change (((t.nodes.set y n).get y).map FSNode.entries).getD [] = []
      rw [get_set_self]
      exact he
    unfold debt
    rw [hg]
    change update t.stats y 0 y - 0 = 0
    rw [update_self, sub_zero]
  · have hd : (t.withNode cfg x n).debt cfg y = t.debt cfg y := by
      refine debt_of_ne (x := x) hyx (fun z hz => get_set_of_ne hz) (fun z hz => update_of_ne hz _ _)
        (ne_of_parents hl ?_)
      simp [parents, graph, hf]
    rw [hd]
    refine h y ?_
    change (((t.nodes.set x n).get y).map vertex |>.map Vertex.isDir).getD false = true at hy
    rwa [get_set_of_ne hyx] at hy

theorem StatsInStep.dropNode (hl : Ledger rootInode t.graph) (hp : t.graph.parents x = []) :
    (t.dropNode x n).StatsInStep cfg := by
  rw [statsInStep_iff] at h ⊢
  intro y hy
  have hyx : y ≠ x := by
    rintro rfl
    change (((t.nodes.erase y).get y).map vertex |>.map Vertex.isDir).getD false = true at hy
    rw [get_erase_self] at hy
    cases hy
  have hd : (t.dropNode x n).debt cfg y = t.debt cfg y :=
    debt_of_ne (x := x) hyx (fun z hz => get_erase_of_ne hz) (fun _ _ => rfl) (ne_of_parents hl hp)
  rw [hd]
  refine h y ?_
  change (((t.nodes.erase x).get y).map vertex |>.map Vertex.isDir).getD false = true at hy
  rwa [get_erase_of_ne hyx] at hy

theorem StatsInStep.removeNode (hl : Ledger rootInode t.graph) : (t.fsnodesRemoveNode x).StatsInStep cfg := by
  unfold fsnodesRemoveNode
  split
  · exact h
  · rename_i n hn
    split_ifs with hp
    · exact h
    · exact h.dropNode hl ((parents_graph hn).trans (not_not.1 hp))

end

/-! ## Files that change their state -/

theorem debt_setFileState (t : Metadata) (x : Inode) (state : FileState) (y : Inode) :
    (t.setFileState x state).debt cfg y = t.debt cfg y := by
  refine debt_modifyNode t x (fun n => ?_) (fun n => ?_) (fun n => ?_) y
  · unfold FSNode.entries
    cases n.data <;> rfl
  · unfold isDirectory
    cases n.data <;> rfl
  · unfold ownStats
    cases n.data <;> rfl

theorem debt_setSessions {k : List UInt32 → List UInt32} : (t.setSessions x k).debt cfg y = t.debt cfg y := by
  refine debt_modifyNode t x (fun n => ?_) (fun n => ?_) (fun n => ?_) y
  · unfold FSNode.entries
    cases n.data <;> rfl
  · unfold isDirectory
    cases n.data <;> rfl
  · unfold ownStats
    cases n.data <;> rfl

theorem debt_setCtime (t : Metadata) (x : Inode) (ts : UInt32) (y : Inode) :
    (t.setCtime x ts).debt cfg y = t.debt cfg y := by
  unfold setCtime
  rw [debt_modifyNode]
  all_goals exact fun _ => rfl

section

variable (h : t.StatsInStep cfg)
include h

theorem StatsInStep.dropLastLink (hl : Ledger rootInode t.graph) (path : Name) :
    (t.dropLastLink cfg ts x n path).StatsInStep cfg := by
  unfold Metadata.dropLastLink
  split
  · split_ifs
    · refine h.of_debt (fun d hd => ?_) fun d => (debt_setCtime _ x ts d).trans (debt_setFileState t x .trash d)
      have hg : ((t.setFileState x .trash).setCtime x ts).graph = t.graph :=
        (graph_setCtime _ _ _).trans (graph_setFileState _ _ _)
      rw [← hg]
      exact hd
    · refine h.of_debt (fun d hd => ?_) fun d => debt_setFileState t x .reserved d
      rw [← graph_setFileState t x .reserved]
      exact hd
    · exact h.removeNode hl
  · exact h.removeNode hl

theorem StatsInStep.removed (hl : Ledger rootInode t.graph) (hg : v.graph = t.graph)
    (hde : ∀ d, v.debt cfg d = t.debt cfg d) :
    (((v.setCtime x ts).fsnodesUpdateChecksum cfg x).fsnodesRemoveNode x).StatsInStep cfg := by
  have hg' : ((v.setCtime x ts).fsnodesUpdateChecksum cfg x).graph = t.graph := (graph_setCtime v x ts).trans hg
  refine StatsInStep.removeNode (h.of_debt (fun d hd => ?_) fun d => (debt_setCtime v x ts d).trans (hde d))
    (by rwa [hg'])
  rw [← hg']
  exact hd

theorem StatsInStep.purge (hl : Ledger rootInode t.graph) : (t.fsnodesPurge cfg ts x).StatsInStep cfg := by
  have hr : StatsInStep cfg (t.setFileState x .reserved) := by
    refine h.of_debt (fun d hd => ?_) fun d => debt_setFileState t x .reserved d
    rwa [← graph_setFileState t x .reserved]
  unfold fsnodesPurge
  split
  · exact h
  · split
    · dsimp only
      split_ifs
      · split
        · exact hr
        · exact hr
      · exact h.removed hl rfl fun _ => rfl
    · exact h.removed hl rfl fun _ => rfl
    · exact h

end

/-! ## Edits -/

theorem debt_edit {id : Inode} (h : Edit cfg lim t u id n n') (htr : t.IsTree) (hr : u.stopped = false)
    (hl : lim.lengths) (y : Inode) : u.debt cfg y = t.debt cfg y := by
  have hen : u.entries y = t.entries y := by
    rw [← entries_graph, ← entries_graph, Edit.graph h]
  have hd : n'.isDirectory = n.isDirectory := congrArg Vertex.isDir h.vertex
  have hn (z : Inode) : u.nodes.get z = if z = id then some n' else t.nodes.get z := by
    rw [h.nodes, get_set]
  rcases h.stats hr hl with ⟨ho, hs⟩ | ⟨P, hP, hs⟩
  · refine debt_congr hen (by rw [hs]) fun e _ => ?_
    unfold fsnodesGetStats
    rw [hn]
    split_ifs with he
    · simp only [he, h.get, ho, hd, hs]
    · rw [hs]
  · have hpa : t.graph.parents id = n.parent := parents_graph h.get
    have hu := debt_updateParentStats cfg (n'.ownStats cfg - n.ownStats cfg) htr.root_parents
      (fun _ _ hp => htr.toLedger.isDir_of_parent hp)
      (fun p hp => htr.toLedger.isDir_of_parent (hpa ▸ hp : p ∈ t.graph.parents id)) hP
      (fun x _ => recorded_of_tree htr x) y
    have hs' : u.stats = (t.updateParentStats n.parent (n'.ownStats cfg - n.ownStats cfg)).stats := by
      rw [hs]
      unfold updateParentStats
      simp [hP]
    have hg (z : Inode) : u.fsnodesGetStats cfg z =
        (t.updateParentStats n.parent (n'.ownStats cfg - n.ownStats cfg)).fsnodesGetStats cfg z +
          if z = id then n'.ownStats cfg - n.ownStats cfg else 0 := by
      have hno : (t.updateParentStats n.parent (n'.ownStats cfg - n.ownStats cfg)).nodes = t.nodes := rfl
      unfold fsnodesGetStats
      rw [hn, hs', hno]
      split_ifs with hz
      · simp only [hz, h.get, hd]
        rw [add_right_comm, add_sub_cancel]
      · exact (add_zero _).symm
    have hc := recorded_of_tree htr id y
    rw [hpa] at hc
    unfold debt at hu ⊢
    simp only [hg, hen]
    rw [sum_map_ite, hc, hs', ← sub_sub]
    change (t.updateParentStats n.parent (n'.ownStats cfg - n.ownStats cfg)).stats y -
      ((t.entries y).map fun e => (t.updateParentStats n.parent (n'.ownStats cfg - n.ownStats cfg)).fsnodesGetStats cfg
        e.2).sum = _ at hu
    rw [hu, add_sub_cancel_right]

/-! ## Changes -/

section

variable (ht : t.StatsInStep cfg)
include ht

theorem StatsInStep.create {parent inode : Inode} {type : NodeType} {mode umask : BitVec 16} {uid gid : UInt32}
    {copysgid : Bool} {inheritacl : AclInheritance} (htr : t.IsTree) (hu : u.IsTree)
    (hr : u.stopped = false) (hd : t.graph.isDir parent)
    (h : t.fsnodesCreateNode cfg ts parent name type mode umask uid gid copysgid inheritacl inode = some u) :
    u.StatsInStep cfg := by
  obtain ⟨p, n, hp, _, hf, hn, rfl⟩ := fsnodesCreateNode_inv h
  have hnew : n.entries = [] := by
    rw [hn]
    cases type <;> rfl
  have hne : parent ≠ inode := by
    rintro rfl
    rw [hf] at hp
    cases hp
  have hdi : (t.withNode cfg inode n).graph.isDir parent := by
    change (((t.nodes.set inode n).get parent).map vertex |>.map Vertex.isDir).getD false
    rw [get_set_of_ne hne]
    exact hd
  refine StatsInStep.of_debt (ht.withNode htr.toLedger hf hnew) (fun d hd' => ?_) (debt_fsnodesLink hdi hu hr)
  have hd'' : ((t.withNode cfg inode n).fsnodesLink cfg ts parent inode name).graph.isDir d := hd'
  rwa [graph_fsnodesLink hdi, isDir_attach] at hd''

theorem StatsInStep.removeEdge (htr : t.IsTree) (hf : t.find d name = some e)
    (hr : (t.fsnodesRemoveEdge cfg ts d name e.2).stopped = false) :
    (t.fsnodesRemoveEdge cfg ts d name e.2).StatsInStep cfg := by
  refine ht.of_debt (fun d hd' => ?_) (debt_fsnodesRemoveEdge htr hf hr)
  rwa [graph_fsnodesRemoveEdge cfg hf, isDir_cut] at hd'

theorem StatsInStep.link (hd : t.graph.isDir d)
    (hu : (t.fsnodesLink cfg ts d x name).IsTree) (hr : (t.fsnodesLink cfg ts d x name).stopped = false) :
    (t.fsnodesLink cfg ts d x name).StatsInStep cfg := by
  refine ht.of_debt (fun d hd' => ?_) (debt_fsnodesLink hd hu hr)
  rwa [graph_fsnodesLink hd, isDir_attach] at hd'

theorem StatsInStep.unlink (htr : t.IsTree) (hf : t.find d name = some e)
    (hr : (t.fsnodesUnlink cfg ts d name e.2).stopped = false) :
    (t.fsnodesUnlink cfg ts d name e.2).StatsInStep cfg := by
  rw [stopped_fsnodesUnlink_eq] at hr
  have hc := ht.removeEdge htr hf hr
  have hl : Ledger rootInode (t.fsnodesRemoveEdge cfg ts d name e.2).graph := by
    rw [graph_fsnodesRemoveEdge cfg hf]
    refine htr.toLedger.cut ?_
    rw [entries_graph]
    exact mem_entries_of_find hf
  unfold fsnodesUnlink
  dsimp only
  split
  · exact hc
  · split_ifs
    · exact hc
    · exact hc.dropLastLink hl _

theorem StatsInStep.undel {length : ℕ} (hd : t.graph.isDir d)
    (hu : (t.undelNode cfg ts x n length d name).IsTree) (hr : (t.undelNode cfg ts x n length d name).stopped = false) :
    (t.undelNode cfg ts x n length d name).StatsInStep cfg := by
  have hg : (((({ t with trash := t.trash.erase (n.trashPathKey x) }.setFileState x .live).setCtime x
      ts).fsnodesUpdateChecksum cfg x)).graph = t.graph :=
    (graph_setCtime _ _ _).trans (graph_setFileState _ _ _)
  refine StatsInStep.link (ht.of_debt (fun d hd' => ?_) fun d => ?_) (by rwa [hg]) hu hr
  · rwa [hg] at hd'
  · exact (debt_setCtime _ x ts d).trans (debt_setFileState _ x .live d)

end

/-- **Every change keeps the records in step.** -/
theorem Change.statsInStep (h : Change cfg lim t u) (hl : lim.lengths) (hr : u.stopped = false) (htr : t.IsTree)
    (ht : t.StatsInStep cfg) : u.StatsInStep cfg := by
  have hu := Change.isTree h htr
  cases h with
  | fold | trashPath | forgetTrash | forgetReserved => exact ht
  | create _ hd h => exact ht.create htr hu hr hd h
  | link _ hd => exact ht.link hd hu hr
  | unlink ts hf => exact ht.unlink htr hf hr
  | @move ts swd dwd nameSrc nameDst e _ hf _ hd =>
    have hr' : (t.fsnodesRemoveEdge cfg ts swd nameSrc e.2).stopped = false := by
      by_contra hs
      rw [stopped_fsnodesLink (by simpa using hs)] at hr
      cases hr
    refine (ht.removeEdge htr hf hr').link ?_ hu hr
    rwa [graph_fsnodesRemoveEdge cfg hf, isDir_cut]
  | undel _ _ _ hd => exact ht.undel hd hu hr
  | purge ts x => exact ht.purge htr.toLedger
  | @release x n length sessionid chunks ts k hge hda =>
    have hg := graph_setSessions t x k
    refine StatsInStep.purge (ht.of_debt (fun d hd => ?_) fun d => debt_setSessions) (hg ▸ htr.toLedger)
    rwa [hg] at hd
  | edit h =>
    refine ht.of_debt (fun d hd => ?_) (debt_edit h htr hr hl)
    rwa [← Edit.graph h]

/-! ## The record of the root -/

def ownStatsOf (cfg : Config) (t : Metadata) (x : Inode) : Stats := (t.nodes.get x).elim 0 (ownStats cfg)

/-- the record of a directory, and nothing for other nodes -/
def recordOf (t : Metadata) (x : Inode) : Stats := if t.graph.isDir x then t.stats x else 0

theorem getStats_eq : t.fsnodesGetStats cfg x = t.ownStatsOf cfg x + t.recordOf x := by
  unfold fsnodesGetStats ownStatsOf recordOf
  cases hn : t.nodes.get x with
  | none => simp [isDir, graph, hn]
  | some n =>
    rw [isDir_graph hn]
    rfl

theorem sum_map_eq_sum_keys {K : Finset Inode} (hes : ∀ e ∈ es, e.2 ∈ K) :
    (es.map fun e => f e.2).sum = ∑ x ∈ K, (es.map snd).count x • f x := by
  have hl : (es.map fun e => f e.2) = (es.map Prod.snd).map f := by rw [List.map_map]; rfl
  rw [hl, sum_list_map_count]
  refine sum_subset (fun x hx => ?_) fun x _ hx => ?_
  · obtain ⟨e, he, rfl⟩ := mem_map.1 (mem_toFinset.1 hx)
    exact hes e he
  · rw [count_eq_zero.2 fun hm => hx (mem_toFinset.2 hm), zero_smul]

theorem mem_keys_of_entry (htr : t.IsTree) (he : e ∈ t.entries d) : e.2 ∈ t.nodes.keys := by
  have hp := htr.toLedger.parent_of_entry (by rwa [entries_graph] : e ∈ t.graph.entries d)
  rw [FiniteTable.mem_keys, ← isSome_graph]
  cases hx : t.graph e.2 with
  | none => simp [parents, hx] at hp
  | some => rfl

theorem sum_records (htr : t.IsTree) : ∑ d ∈ t.nodes.keys, ((t.entries d).map fun e => t.recordOf e.2).sum =
      ∑ x ∈ t.nodes.keys, t.recordOf x - t.recordOf rootInode := by
  have hr : rootInode ∈ t.nodes.keys := by
    rw [FiniteTable.mem_keys, ← isSome_graph]
    exact isSome_of_isDir htr.root_dir
  have hl (x : Inode) : ∑ d ∈ t.nodes.keys, ((t.entries d).map snd).count x = (t.graph.parents x).length := by
    have hp : ∀ d ∈ (t.graph.parents x : Multiset Inode), d ∈ t.nodes.keys := by
      intro d hd
      rw [FiniteTable.mem_keys, ← isSome_graph]
      exact isSome_of_isDir (htr.toLedger.isDir_of_parent (Multiset.mem_coe.1 hd))
    have hc := Multiset.sum_count_eq_card hp
    simp only [Multiset.coe_count, Multiset.coe_card] at hc
    rw [← hc]
    exact sum_congr rfl fun d _ => recorded_of_tree htr x d
  calc ∑ d ∈ t.nodes.keys, ((t.entries d).map fun e => t.recordOf e.2).sum
      = ∑ d ∈ t.nodes.keys, ∑ x ∈ t.nodes.keys, ((t.entries d).map snd).count x • t.recordOf x :=
        sum_congr rfl fun d _ => sum_map_eq_sum_keys (fun e he => mem_keys_of_entry htr he)
    _ = ∑ x ∈ t.nodes.keys, (t.graph.parents x).length • t.recordOf x := by
        rw [sum_comm]
        refine sum_congr rfl fun x _ => ?_
        rw [← Finset.sum_smul, hl]
    _ = ∑ x ∈ t.nodes.keys.erase rootInode, t.recordOf x := by
        rw [← sum_erase_add _ _ hr, htr.root_parents, length_nil, zero_smul, add_zero]
        refine sum_congr rfl fun x hx => ?_
        unfold recordOf
        split_ifs with hdi
        · rw [htr.single x hdi (ne_of_mem_erase hx), one_smul]
        · rw [smul_zero]
    _ = ∑ x ∈ t.nodes.keys, t.recordOf x - t.recordOf rootInode := by
        rw [← sum_erase_add _ _ hr, add_sub_cancel_right]

theorem stats_root (htr : t.IsTree) (h : t.StatsInStep cfg) :
    t.stats rootInode = ∑ d ∈ t.nodes.keys, ((t.entries d).map fun e => t.ownStatsOf cfg e.2).sum := by
  have hr (d : Inode) : t.recordOf d =
      ((t.entries d).map fun e => t.ownStatsOf cfg e.2).sum + ((t.entries d).map fun e => t.recordOf e.2).sum := by
    rw [← sum_map_add]
    simp only [← getStats_eq]
    unfold recordOf
    split_ifs with hd
    · exact h d hd
    · have he : t.entries d = [] := (entries_graph t d).symm.trans (htr.files d (by simpa using hd))
      rw [he]
      rfl
  have hs : ∑ d ∈ t.nodes.keys, t.recordOf d =
      ∑ d ∈ t.nodes.keys, ((t.entries d).map fun e => t.ownStatsOf cfg e.2).sum +
        (∑ x ∈ t.nodes.keys, t.recordOf x - t.recordOf rootInode) := by
    rw [← sum_records htr, ← sum_add_distrib]
    exact sum_congr rfl fun d _ => hr d
  have hro : t.recordOf rootInode = t.stats rootInode := by
    unfold recordOf
    rw [if_pos htr.root_dir]
  rw [← hro]
  have h' := sub_eq_zero.2 hs
  rw [← sub_eq_zero, ← h']
  abel

/-! ## Runs -/

theorem statsInStep_fsNew : (fsNew cfg ts).StatsInStep cfg := by
  intro d _
  have he : (fsNew cfg ts).entries d = [] := by
    change ((if d = rootInode then some (rootNode ts) else none).map FSNode.entries).getD [] = []
    split_ifs <;> rfl
  rw [he]
  change update (0 : Inode → Stats) rootInode 0 d = 0
  rw [update_apply]
  split_ifs <;> rfl

/-- **The records of the directories stay in step**, and that of the root is the sum over all entries. -/
theorem statistics_in_step (cfg : Config) (ts : UInt32) (ops : List Op)
    (hok : Stepwise.Along (step cfg) (fun t op => op.fittingLengths t) (fsNew cfg ts) ops) :
    (after cfg ts ops).StatsInStep cfg ∧ (after cfg ts ops).stats rootInode = ∑ d ∈ (after cfg ts ops).nodes.keys,
          (((after cfg ts ops).entries d).map fun e => (after cfg ts ops).ownStatsOf cfg e.2).sum := by
  have h : (after cfg ts ops).StatsInStep cfg :=
    inv_run_of_changes (L := Limits.lengths) (fun _ _ _ hlim h hrun htree ht =>
      Change.statsInStep h hlim hrun htree ht) hok
      statsInStep_fsNew
  exact ⟨h, stats_root (isTree_run cfg ts ops) h⟩

/-- a symbolic link with two links, and a snapshot of a longer one in its place -/
def snapshotOverSymlink : List Op :=
  [.symlink (.admin 1) rootInode [97] [120] 2, .mkdir (.admin 1) rootInode [100] 0o755 0 false 3,
    .link (.admin 1) 2 3 [98], .symlink (.admin 1) rootInode [99] [120, 120, 120] 4, .clone 2 4 4 rootInode [97] true 5]

theorem statistics_in_step_links : (after .unlimited 1 (snapshotOverSymlink.take 4)).StatsInStep .unlimited ∧
      (after .unlimited 1 (snapshotOverSymlink.take 4)).stats rootInode .length = 5 :=
  ⟨(statistics_in_step .unlimited 1 (snapshotOverSymlink.take 4)
    ⟨(by decide : 1 < 2 ^ 16), trivial, trivial, (by decide : 3 < 2 ^ 16), trivial⟩).1, rfl⟩

/-- **A clone in the place of a symbolic link with two links.** Only one of the two directories learns of the new
length. -/
theorem statistics_after_clone : (after .unlimited 1 snapshotOverSymlink).graph.isDir 3 ∧
      (after .unlimited 1 snapshotOverSymlink).stats 3 .length = 1 ∧
      (((after .unlimited 1 snapshotOverSymlink).entries 3).map fun e =>
        (after .unlimited 1 snapshotOverSymlink).fsnodesGetStats .unlimited e.2).sum .length = 3 :=
  ⟨rfl, rfl, rfl⟩

end Metadata

end SaunaFS.Namespace
