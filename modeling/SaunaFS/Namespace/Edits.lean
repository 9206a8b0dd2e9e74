/-
Changes of a single node. `Edit` says what such a change keeps in step, under the conditions `Limits`: the key in the
trash, the statistics above the node, the accounts, the checksum. Each function of the source that changes one node is
an `Edit`.
-/
import SaunaFS.Namespace.Graph
import SaunaFS.Namespace.References
import SaunaFS.Namespace.Run

namespace SaunaFS.Namespace

open DirectoryTree FiniteTable Function List Option NodeData FileData

/-! ## What is recorded about a node -/

/-- what a file that is not linked counts for -/
def FileData.stateCredit (f : FileData) : Account → ℤ :=
  match f.state with
  | .live => 0
  | .trash => credit .trashnodes 1 + credit .trashspace f.length
  | .reserved => credit .reservednodes 1 + credit .reservedspace f.length

/-- the accounts that do not depend on owners -/
def Account.isCounter : Account → Bool
  | .used _ _ => false
  | _ => true

namespace FSNode

variable (n : FSNode)

/-- what a node counts for in all accounts -/
def weight : Account → ℤ :=
  credit .nodes 1 + Metadata.typeCredit n.data 1 + n.usage .inodes 1 + n.usage .size n.size +
    (n.data.file?.map stateCredit).getD 0

def sessions : List UInt32 := (n.data.file?.map sessionid).getD []

/-- the permission bits are those of the list -/
def Agrees : Prop := ∀ acl, n.acl = some acl → n.mode &&& 0o777 = acl.getMode

end FSNode

/-- the conditions under which operations keep everything in step -/
structure Limits where
  names : Prop
  lengths : Prop
  owners : Prop
  modes : Prop

/-! ## Edits -/

/-- the index of the trash when a node in it gets another key -/
def Metadata.retrash (t : Metadata) (id : Inode) (n n' : FSNode) : FiniteTable TrashPathKey Name :=
  if n.type = .trash then rekey t.trash (n.trashPathKey id) (n'.trashPathKey id) else t.trash

/-- one node changes, and what is recorded about it but for the checksum -/
structure Rewrites (cfg : Config) (lim : Limits) (t u : Metadata) (id : Inode) (n n' : FSNode) : Prop where
  get : t.nodes.get id = some n
  nodes : u.nodes = t.nodes.set id n'
  vertex : n'.vertex = n.vertex
  type : n'.type = n.type
  sessions : n.type = .reserved → n.sessions ≠ [] → n'.sessions ≠ []
  trash : u.trash = t.retrash id n n'
  stopped : t.stopped = true → u.stopped = true
  stats : u.stopped = false → lim.lengths →
    n'.ownStats cfg = n.ownStats cfg ∧ u.stats = t.stats ∨
      ∃ path, t.statsPaths n.parent = some path ∧
        u.stats = fun d => t.stats d + path.count d • (n'.ownStats cfg - n.ownStats cfg)
  accounts : ∀ a, lim.owners ∨ a.isCounter = true → u.accounts a = t.accounts a + (n'.weight a - n.weight a)
  calls : Transfers t.calls u.calls n.refs n'.refs
  modes : lim.modes → n.Agrees → n'.Agrees

structure Edit (cfg : Config) (lim : Limits) (t u : Metadata) (id : Inode) (n n' : FSNode) : Prop
    extends Rewrites cfg lim t u id n n' where
  reserved : u.reserved = t.reserved
  fold : u.fold = t.fold
  entriesHash : u.entriesHash = t.entriesHash
  checksum : ∀ y, y ≠ id → u.checksum y = t.checksum y
  fresh : u.checksumOf cfg id = some (u.checksum id)
  total : u.fsNodesChecksum - u.checksum id = t.fsNodesChecksum - t.checksum id

/-- a change of a node that shows in no statistics and no account -/
structure Minor (cfg : Config) (n n' : FSNode) : Prop where
  vertex : n'.vertex = n.vertex
  type : n'.type = n.type
  sessions : n.type = .reserved → n.sessions ≠ [] → n'.sessions ≠ []
  own : n'.ownStats cfg = n.ownStats cfg
  weight : n'.weight = n.weight

namespace Metadata

variable {cfg : Config} {lim : Limits} {t u : Metadata} {id : Inode} {n n' : FSNode} {ts : UInt32}

theorem settled {P : Account → Prop} {x y : Account → ℤ} (h : x = y + (n'.weight - n.weight)) (a : Account) (_ : P a) :
    x a = y a + (n'.weight a - n.weight a) :=
  congrFun h a

theorem rekey_self {trash : FiniteTable TrashPathKey Name} {key : TrashPathKey} : rekey trash key key = trash := by
  unfold rekey
  cases h : trash.get key with
  | none => rfl
  | some path =>
    change (trash.erase key).set key path = trash
    rw [← set_eq_erase_set, set_self h]

/-- replace the checksum of a node, also in that of all nodes -/
def setChecksum (t : Metadata) (id : Inode) (c : XorWord 64) : Metadata :=
  { t with
    fsNodesChecksum := t.fsNodesChecksum - t.checksum id + c
    checksum := Function.update t.checksum id c }

variable {a b : XorWord 64} {l chunks : List ℕ} {i size : ℕ} {nchunkid : ℕ+} {ds : List Inode} {k : FSNode → FSNode}

theorem setChecksum_setChecksum : (t.setChecksum id a).setChecksum id b = t.setChecksum id b := by
  unfold setChecksum
  simp only [update_self, update_idem, add_sub_cancel_right]

variable {x y : Inode} {g : FileData} {indx : ℕ} {src : FSNode}

theorem setChecksum_comm (h : x ≠ y) : (t.setChecksum x a).setChecksum y b = (t.setChecksum y b).setChecksum x a := by
  unfold setChecksum
  simp only [update_of_ne h, update_of_ne h.symm, update_comm h]
  congr 1
  abel

theorem update_setChecksum (hget : (t.nodes.get id).isSome) (c : XorWord 64) :
    (t.setChecksum id c).fsnodesUpdateChecksum cfg id = t.fsnodesUpdateChecksum cfg id := by
  obtain ⟨n, hn⟩ := isSome_iff_exists.1 hget
  have hs (v : Metadata) (hv : v.nodes = t.nodes) (hh : v.entriesHash = t.entriesHash) (hf : v.fold = t.fold) :
      v.fsnodesUpdateChecksum cfg id =
        v.setChecksum id (n.fsnodesChecksum cfg id (t.entriesHash id) (t.foldOf id).hash) := by
    unfold fsnodesUpdateChecksum setChecksum checksumOf foldOf
    rw [hv, hn, hh, hf]
    rfl
  rw [hs (t.setChecksum id c) rfl rfl rfl, hs t rfl rfl rfl, setChecksum_setChecksum]

theorem update_setChecksum_of_ne (h : x ≠ id) {c : XorWord 64} :
    (t.setChecksum x c).fsnodesUpdateChecksum cfg id = (t.fsnodesUpdateChecksum cfg id).setChecksum x c := by
  change (t.setChecksum x c).setChecksum id ((t.checksumOf cfg id).getD (Function.update t.checksum x c id)) = _
  rw [update_of_ne h.symm, setChecksum_comm h]
  rfl

theorem checksumOf_update (hn : (t.nodes.get id).isSome) :
    (t.fsnodesUpdateChecksum cfg id).checksumOf cfg id = some ((t.fsnodesUpdateChecksum cfg id).checksum id) := by
  obtain ⟨n, hn⟩ := isSome_iff_exists.1 hn
  change t.checksumOf cfg id = some (Function.update t.checksum id ((t.checksumOf cfg id).getD _) id)
  rw [update_self, checksumOf, hn]
  rfl

theorem total_update : (t.fsnodesUpdateChecksum cfg id).fsNodesChecksum - (t.fsnodesUpdateChecksum cfg id).checksum id =
      t.fsNodesChecksum - t.checksum id := by
  change t.fsNodesChecksum - t.checksum id + _ - Function.update t.checksum id _ id = _
  rw [update_self, add_sub_cancel_right]

theorem checksum_update_of_ne (h : y ≠ id) : (t.fsnodesUpdateChecksum cfg id).checksum y = t.checksum y :=
  update_of_ne h ..

/-- the fields that an edit leaves alone until the checksum is updated -/
structure Aside (t v : Metadata) : Prop where
  reserved : v.reserved = t.reserved
  fold : v.fold = t.fold
  entriesHash : v.entriesHash = t.entriesHash
  checksum : v.checksum = t.checksum
  total : v.fsNodesChecksum = t.fsNodesChecksum

variable {v : Metadata}

theorem Edit.of_update (h : Rewrites cfg lim t v id n n') (ha : Aside t v) :
    Edit cfg lim t (v.fsnodesUpdateChecksum cfg id) id n n' :=
  { h with
    reserved := ha.reserved
    fold := ha.fold
    entriesHash := ha.entriesHash
    checksum := fun y hy => by rw [checksum_update_of_ne hy, ha.checksum]
    fresh := checksumOf_update (by rw [h.nodes, get_set_self]; rfl)
    total := by rw [total_update, ha.total, ha.checksum] }

variable {calls : List ChunkCall}

section

variable (hget : t.nodes.get id = some n)
include hget

theorem Edit.plain {f : FSNode → FSNode} (h : Minor cfg n (f n)) (hc : Transfers t.calls calls n.refs (f n).refs)
    (hk : n.type = .trash → (f n).trashPathKey id = n.trashPathKey id) (hm : lim.modes → n.Agrees → (f n).Agrees) :
    Edit cfg lim t (({ t with calls := calls }.modifyNode id f).fsnodesUpdateChecksum cfg id) id n (f n) := by
  refine Edit.of_update ⟨hget, modify_eq_set hget f, h.vertex, h.type, h.sessions, ?_, fun hs => hs,
    fun _ _ => .inl ⟨h.own, rfl⟩, settled ?_, hc, hm⟩ ⟨rfl, rfl, rfl, rfl, rfl⟩
  · unfold retrash
    split_ifs with ht
    · rw [hk ht, rekey_self]
      rfl
    · rfl
  · rw [h.weight, sub_self, add_zero]
    rfl

theorem trash_fsnodesUpdateCtime : (t.fsnodesUpdateCtime id ts).trash = t.retrash id n { n with ctime := ts } := by
  unfold fsnodesUpdateCtime retrash
  simp only [hget]
  by_cases ht : n.type = .trash
  · by_cases hts : n.ctime = ts
    · have hs : { n with ctime := ts }.trashPathKey id = n.trashPathKey id := by
        unfold FSNode.trashPathKey
        rw [hts]
      simp only [ht, hts, ne_eq, not_true_eq_false, and_false, if_false, if_true, hs, rekey_self]
    · simp only [ht, hts, ne_eq, not_false_eq_true, and_self, if_true]
  · simp only [ht, false_and, if_false]

theorem Edit.touch {f : FSNode → FSNode} (h : Minor cfg n (f n))
    (hr : (f n).refs = n.refs) (hc : (f n).ctime = n.ctime) (ht : (f n).trashtime = n.trashtime)
    (hm : lim.modes → n.Agrees → (f n).Agrees) :
    Edit cfg lim t (((t.modifyNode id f).fsnodesUpdateCtime id ts).fsnodesUpdateChecksum cfg id) id n
      { f n with ctime := ts } := by
  have hget' : (t.modifyNode id f).nodes.get id = some (f n) := by rw [get_modifyNode, if_pos rfl, hget, map_some]
  refine Edit.of_update ⟨hget, ?_, h.vertex, h.type, h.sessions, ?_, fun hs => hs, fun _ _ => .inl ⟨h.own, rfl⟩,
    settled ?_, transfers_same _ hr, hm⟩ ⟨rfl, rfl, rfl, rfl, rfl⟩
  · change (t.nodes.modify id f).modify id _ = _
    rw [modify_eq_set hget, modify_set]
  · have hk : (f n).trashPathKey id = n.trashPathKey id := by
      unfold FSNode.trashPathKey
      rw [hc, ht]
    rw [trash_fsnodesUpdateCtime hget', retrash, h.type, hk]
    rfl
  · have hw : { f n with ctime := ts }.weight = n.weight := h.weight
    rw [hw, sub_self, add_zero]
    rfl

end

theorem minor_of_data (hp : n'.parent = n.parent) (hda : n'.data = n.data) (hu : n'.uid = n.uid)
    (hgi : n'.gid = n.gid) (hg : n'.goal = n.goal ∨ n.isAnyFile = false) : Minor cfg n n' := by
  have hs : n'.size = n.size := by rw [FSNode.size, FSNode.size, hda]
  refine ⟨?_, ?_, ?_, ?_, ?_⟩
  · rw [FSNode.vertex, FSNode.vertex, FSNode.entries, FSNode.isDirectory, hp, hda]
    rfl
  · rw [FSNode.type, FSNode.type, hda]
  · intro _ hse
    rwa [FSNode.sessions, hda]
  · unfold FSNode.ownStats
    rw [hda]
    rcases hg with hg | hl
    · rw [hg]
    · cases hd : n.data with
      | file f => simp [FSNode.isAnyFile, hd, file?] at hl
      | _ => rfl
  · unfold FSNode.weight FSNode.usage
    rw [hda, hs, hu, hgi]

theorem modifyNode_id : t.modifyNode id (fun n => n) = t := by
  have hn : t.nodes.modify id (fun n => n) = t.nodes := by
    ext j : 1
    rw [get_modify]
    split_ifs with hj
    · rw [hj, Option.map_id']
    · rfl
  unfold modifyNode
  rw [hn]

theorem modifyNode_modifyNode (t : Metadata) (id : Inode) (f g : FSNode → FSNode) :
    (t.modifyNode id f).modifyNode id g = t.modifyNode id fun n => g (f n) := by
  unfold modifyNode
  simp only [modify_modify]

/-! ## Times, modes and lists -/

theorem minor_refl : Minor cfg n n := ⟨rfl, rfl, fun _ h => h, rfl, rfl⟩

theorem Minor.trans {n'' : FSNode} (h : Minor cfg n n') (h' : Minor cfg n' n'') : Minor cfg n n'' where
  vertex := h'.vertex.trans h.vertex
  type := h'.type.trans h.type
  sessions := fun hr ho => h'.sessions (h.type.trans hr) (h.sessions hr ho)
  own := h'.own.trans h.own
  weight := h'.weight.trans h.weight

section

variable (hget : t.nodes.get id = some n) (ts : UInt32)
include hget

theorem edit_fsnodesUpdateChecksum : Edit cfg lim t (t.fsnodesUpdateChecksum cfg id) id n n := by
  have h : Edit cfg lim t _ id n n :=
    Edit.plain (f := fun n => n) hget minor_refl (transfers_same t.calls rfl) (fun _ => rfl) fun _ h => h
  rwa [modifyNode_id] at h

theorem edit_fsnodesUpdateCtime :
    Edit cfg lim t ((t.fsnodesUpdateCtime id ts).fsnodesUpdateChecksum cfg id) id n { n with ctime := ts } := by
  have h : Edit cfg lim t _ id n { n with ctime := ts } :=
    Edit.touch (f := fun n => n) hget minor_refl rfl rfl rfl fun _ h => h
  rwa [modifyNode_id] at h

theorem edit_atime :
    Edit cfg lim t ((t.modifyNode id fun n => { n with atime := ts }).fsnodesUpdateChecksum cfg id) id n
      { n with atime := ts } :=
  Edit.plain hget (minor_of_data rfl rfl rfl rfl (.inl rfl)) (transfers_same t.calls rfl) (fun _ => rfl) fun _ h => h

theorem edit_touchFile : Edit cfg lim t (t.touchFile cfg id ts) id n { n with mtime := ts, ctime := ts } :=
  Edit.touch hget (minor_of_data rfl rfl rfl rfl (.inl rfl)) rfl rfl rfl fun _ h => h

theorem edit_directoryGoal (goal : ℕ) (hd : n.isAnyFile = false) : Edit cfg lim t
      (((t.modifyNode id fun n => { n with goal := goal }).fsnodesUpdateCtime id ts).fsnodesUpdateChecksum cfg id) id n
      { n with goal := goal, ctime := ts } :=
  Edit.touch hget (minor_of_data rfl rfl rfl rfl (.inr hd)) (FSNode.refs_of_data rfl (.inr hd)) rfl rfl fun _ h => h

theorem edit_setAcl {mode : BitVec 16} {acl : Option RichAcl}
    (ha : n.Agrees → ∀ a, acl = some a → mode &&& 0o777 = a.getMode) :
    Edit cfg lim t (t.setAcl cfg ts id mode acl) id n { n with mode := mode, acl := acl, ctime := ts } :=
  Edit.touch hget (minor_of_data rfl rfl rfl rfl (.inl rfl)) rfl rfl rfl fun _ h => ha h

end

theorem minor_setRdev (cfg : Config) (n : FSNode) (rdev : UInt32) :
    Minor cfg n { n with data := n.data.setRdev rdev } where
  vertex := by
    unfold FSNode.vertex FSNode.entries FSNode.isDirectory
    cases n.data <;> rfl
  type := by
    unfold FSNode.type
    cases n.data <;> rfl
  sessions := by
    unfold FSNode.sessions
    cases n.data <;> exact fun _ h => h
  own := by
    unfold FSNode.ownStats
    cases n.data <;> rfl
  weight := by
    unfold FSNode.weight FSNode.usage FSNode.size
    cases n.data <;> rfl

theorem edit_setRdev (rdev : UInt32) (hget : t.nodes.get id = some n) :
    Edit cfg lim t (t.setRdev cfg id rdev) id n { n with data := n.data.setRdev rdev } :=
  Edit.plain hget (minor_setRdev cfg n rdev) (transfers_same t.calls (FSNode.refs_setRdev n rdev))
    (fun _ => rfl) fun _ h => h

/-! ## Files -/

theorem type_eq_of_state {f : FileData} (hf : n.data = .file f) (hg : n'.data = .file g) (hs : g.state = f.state) :
    n'.type = n.type := by
  unfold FSNode.type
  rw [hf, hg]
  obtain ⟨state, _, _, _⟩ := f
  obtain ⟨state', _, _, _⟩ := g
  obtain rfl : state' = state := hs
  cases state' <;> rfl

/-- changes of a file that show in no statistics: sessions, chunks that take the place of others, holes at the end -/
theorem minor_of_file {f : FileData} (hf : n.data = .file f) (hp : n'.parent = n.parent) (hg : n'.data = .file g)
    (hu : n'.uid = n.uid) (hgi : n'.gid = n.gid) (hgo : n'.goal = n.goal) (hst : g.state = f.state)
    (hl : g.length = f.length) (hse : n.type = .reserved → f.sessionid ≠ [] → g.sessionid ≠ [])
    (hc : g.fileChunks = f.fileChunks) (hla : g.lastChunkNonempty = f.lastChunkNonempty) : Minor cfg n n' := by
  have hb : g.lastChunkBlocks = f.lastChunkBlocks := by
    unfold lastChunkBlocks lastByte
    rw [hl]
  have hs : g.fileSize = f.fileSize := by
    unfold fileSize
    rw [hc, hla, hb]
  have hr : g.fileRealsize cfg n.goal = f.fileRealsize cfg n.goal := by
    have hsl : g.sliceRealsize = f.sliceRealsize := by
      funext s
      cases s <;> simp only [sliceRealsize, hc, hla, hb, hs]
    unfold fileRealsize
    rw [hsl]
  refine ⟨?_, ?_, ?_, ?_, ?_⟩
  · simp [FSNode.vertex, FSNode.entries, FSNode.isDirectory, hf, hg, hp, NodeData.entries, NodeData.isDirectory]
  · exact type_eq_of_state hf hg hst
  · intro hre ho
    simp only [FSNode.sessions, hf, hg, file?, map_some, getD_some] at ho ⊢
    exact hse hre ho
  · unfold FSNode.ownStats
    rw [hf, hg]
    simp only [hgo, hc, hl, hs, hr]
  · have hw : g.stateCredit = f.stateCredit := by
      unfold stateCredit
      rw [hst, hl]
    unfold FSNode.weight FSNode.usage FSNode.size
    simp only [hf, hg, file?, map_some, getD_some, hs, hu, hgi, hw, typeCredit]

variable {f : FileData}

theorem edit_setSessions {k : List UInt32 → List UInt32} (hget : t.nodes.get id = some n)
    (hf : n.data = .file f) (hk : n.type = .reserved → f.sessionid ≠ [] → k f.sessionid ≠ []) :
    Edit cfg lim t ((t.setSessions id k).fsnodesUpdateChecksum cfg id) id n
      { n with data := n.data.mapFile fun f => { f with sessionid := k f.sessionid } } := by
  refine Edit.plain hget ?_ (transfers_same t.calls ?_) (fun _ => rfl) fun _ h => h
  · refine minor_of_file (g := { f with sessionid := k f.sessionid }) hf rfl ?_ rfl rfl rfl rfl rfl hk rfl rfl
    simp [hf, mapFile]
  · simp [FSNode.refs, hf, mapFile, file?]

theorem getD_append_zeros {m : ℕ} : (l ++ List.replicate m 0).getD i 0 = l.getD i 0 := by
  simp only [getD_eq_getElem?_getD]
  by_cases h : i < l.length
  · rw [getElem?_append_left h]
  · rw [getElem?_append_right (by omega), getElem?_replicate, getElem?_eq_none (by omega)]
    split_ifs <;> rfl

theorem lastChunkNonempty_resize :
    { f with chunks := resizeChunks f.chunks size }.lastChunkNonempty = f.lastChunkNonempty := by
  unfold lastChunkNonempty lastChunk lastByte resizeChunks
  simp only [getD_append_zeros]

theorem fileChunks_resize : { f with chunks := resizeChunks f.chunks size }.fileChunks = f.fileChunks := by
  simp [fileChunks, resizeChunks, countP_append, countP_replicate]

theorem getD_set {j a : ℕ} : (l.set i a).getD j 0 = if i = j ∧ i < l.length then a else l.getD j 0 := by
  by_cases hi : i = j
  · subst hi
    by_cases hl : i < l.length
    · simp [hl]
    · simp [hl]
  · simp [hi]

theorem lastChunkNonempty_set (h : 0 < f.chunks.getD indx 0) :
    { f with chunks := f.chunks.set indx nchunkid }.lastChunkNonempty = f.lastChunkNonempty := by
  unfold lastChunkNonempty lastChunk lastByte
  simp only [getD_set]
  split_ifs with hl
  · rw [← hl.1]
    have hp := nchunkid.pos
    simp only [ne_eq, decide_eq_decide]
    omega
  · rfl

theorem countP_set_of_pos {p : ℕ → Bool} {a b : ℕ} (ha : l[i]? = some a) (hp : p a)
    (hq : p b) : (l.set i b).countP p = l.countP p := by
  obtain ⟨hl, rfl⟩ := List.getElem?_eq_some_iff.1 ha
  rw [countP_set hl, hp, hq]
  have hpo : 0 < l.countP p := countP_pos_iff.2 ⟨_, getElem_mem hl, hp⟩
  simp only [if_true]
  omega

theorem fileChunks_set (h : 0 < f.chunks.getD indx 0) :
    { f with chunks := f.chunks.set indx nchunkid }.fileChunks = f.fileChunks := by
  cases hc : f.chunks[indx]? with
  | none => simp [getD_eq_getElem?_getD, hc] at h
  | some a =>
    have ha : 0 < a := by simpa [getD_eq_getElem?_getD, hc] using h
    exact countP_set_of_pos hc (by simp only [ne_eq, decide_eq_true_eq]; omega) (by simp)

/-! ## Statistics and sizes of files -/

section

variable (h : ∀ x, (u.nodes.get x).map FSNode.parent = (t.nodes.get x).map FSNode.parent)
include h

theorem statsPath_congr (fuel : ℕ) (d : Inode) : statsPath u.nodes fuel d = statsPath t.nodes fuel d := by
  induction fuel generalizing d with
  | zero => rfl
  | succ fuel ih =>
    have hd := h d
    unfold statsPath
    cases ht : t.nodes.get d with
    | none =>
      rw [ht, map_none, map_eq_none_iff] at hd
      rw [hd]
    | some n =>
      rw [ht] at hd
      obtain ⟨n', hn', hp⟩ := map_eq_some_iff.1 hd
      rw [hn']
      simp only [hp]
      rw [funext ih]

theorem statsPaths_congr : u.statsPaths ds = t.statsPaths ds := by
  have hk : u.nodes.keys = t.nodes.keys := by
    ext x
    rw [FiniteTable.mem_keys, FiniteTable.mem_keys, ← isSome_map (f := FSNode.parent), h, isSome_map]
  unfold statsPaths
  rw [hk, funext (statsPath_congr h _)]

end

theorem statsPaths_set (hget : t.nodes.get id = some n) (hn : u.nodes = t.nodes.set id n')
    (hp : n'.parent = n.parent) : u.statsPaths ds = t.statsPaths ds := by
  refine statsPaths_congr (fun x => ?_)
  rw [hn, get_set]
  split_ifs with hx
  · rw [hx, hget, map_some, map_some, hp]
  · rfl

theorem getStats_file (hget : t.nodes.get id = some n) (hf : n.data = .file f) :
    t.fsnodesGetStats cfg id = n.ownStats cfg := by
  unfold fsnodesGetStats
  simp [hget, FSNode.isDirectory, hf, isDirectory]

theorem ownStats_size (hf : n.data = .file f) : n.ownStats cfg .size = n.size := by
  simp [FSNode.ownStats, FSNode.size, hf, file?]

/-- a change that shows in the statistics is complete when the directories `ps` have been told and the checksum is
updated -/
theorem Edit.restat {ps : List Inode} {sr : Stats} {accounts : Account → ℤ}
    (hget : t.nodes.get id = some n) (hn : v.nodes = t.nodes.set id n') (ha : Aside t v) (hv : n'.vertex = n.vertex)
    (hty : n'.type = n.type) (hse : n.type = .reserved → n.sessions ≠ [] → n'.sessions ≠ [])
    (ht : v.trash = t.retrash id n n') (hsta : v.stats = t.stats) (hst : v.stopped = t.stopped)
    (hsr : lim.lengths → ps = n.parent ∧ sr = n'.ownStats cfg - n.ownStats cfg ∨
      sr = 0 ∧ n'.ownStats cfg = n.ownStats cfg)
    (hac : accounts = t.accounts + (n'.weight - n.weight)) (hc : Transfers t.calls calls n.refs n'.refs)
    (hm : lim.modes → n.Agrees → n'.Agrees) : Edit cfg lim t
      ({ v.updateParentStats ps sr with accounts := accounts, calls := calls }.fsnodesUpdateChecksum cfg id) id n
        n' := by
  have hp : v.statsPaths ps = t.statsPaths ps := statsPaths_set hget hn (congrArg Vertex.parent hv)
  refine Edit.of_update ⟨hget, hn, hv, hty, hse, ht, ?_, ?_, settled hac, hc, hm⟩ { ha with }
  · intro hs
    change (v.stopped || _)
    rw [hst, hs, Bool.true_or]
  · intro hr hl
    change (v.stopped || (v.statsPaths ps).isNone) = false at hr
    rw [hp, Bool.or_eq_false_iff] at hr
    obtain ⟨path, hpa⟩ := isSome_iff_exists.1 (isNone_eq_false_iff.1 hr.2)
    have hne : (v.updateParentStats ps sr).stats = fun d => t.stats d + path.count d • sr := by
      change (fun d => v.stats d + ((v.statsPaths ps).getD []).count d • sr) = _
      rw [hp, hpa, hsta, getD_some]
    rcases hsr hl with ⟨rfl, rfl⟩ | ⟨rfl, ho⟩
    · exact .inr ⟨path, hpa, hne⟩
    · refine .inl ⟨ho, hne.trans ?_⟩
      funext d
      rw [smul_zero, add_zero]

theorem weight_sub_of_file (hf : n.data = .file f) (hg : n'.data = .file g) (hs : g.state = f.state)
    (hu : n'.uid = n.uid) (hgi : n'.gid = n.gid) :
    n'.weight - n.weight = spaceCredit f.state ((g.length : ℤ) - f.length) + n.usage .size (n'.size - n.size) := by
  unfold FSNode.weight FSNode.usage stateCredit spaceCredit credit
  simp only [hf, hg, file?, map_some, getD_some, hu, hgi, hs, typeCredit, credit, Pi.single_sub]
  cases f.state <;> simp only <;> abel

theorem Edit.recount {psr : Stats} (hget : t.nodes.get id = some n) (hf : n.data = .file f)
    (hg : n'.data = .file g) (hn : v.nodes = t.nodes.set id n') (hp : n'.parent = n.parent)
    (hst : g.state = f.state) (hs : g.sessionid = f.sessionid) (hasi : Aside t v)
    (ht : v.trash = t.retrash id n n') (hsta : v.stats = t.stats) (hsto : v.stopped = t.stopped)
    (ha : v.accounts = t.accounts + spaceCredit f.state ((g.length : ℤ) - f.length))
    (hps : psr = n.ownStats cfg) (hu : n'.uid = n.uid) (hgi : n'.gid = n.gid)
    (hc : Transfers t.calls v.calls (chunkRefs n.goal f.chunks) (chunkRefs n'.goal g.chunks))
    (hm : lim.modes → n.Agrees → n'.Agrees) :
    Edit cfg lim t ((v.recountFile cfg id n n.parent psr).fsnodesUpdateChecksum cfg id) id n n' := by
  have hget' : v.nodes.get id = some n' := by rw [hn, get_set_self]
  have hns : v.fsnodesGetStats cfg id = n'.ownStats cfg := getStats_file hget' hg
  have hv : n'.vertex = n.vertex := by
    simp [FSNode.vertex, FSNode.entries, FSNode.isDirectory, hf, hg, hp, NodeData.entries, NodeData.isDirectory]
  refine Edit.restat hget hn hasi hv (type_eq_of_state hf hg hst) ?_ ht hsta hsto
    (fun _ => .inl ⟨rfl, by rw [hns, hps]⟩) ?_ (by rwa [FSNode.refs_file hf, FSNode.refs_file hg]) hm
  · intro _ ho
    simpa [FSNode.sessions, hf, hg, file?, hs] using ho
  · change v.accounts + n.usage .size (v.fsnodesGetStats cfg id .size - psr .size) = _
    rw [hns, hps, ownStats_size hf, ownStats_size hg, ha, weight_sub_of_file hf hg hst hu hgi, add_assoc]

theorem accounts_kept : t.accounts = t.accounts + spaceCredit f.state ((f.length : ℤ) - f.length) := by
  cases f.state <;> simp [spaceCredit, credit]

theorem modify_file (k : FileData → FileData) (hget : t.nodes.get id = some n) (hf : n.data = .file f) :
    (t.setFile id k).nodes = t.nodes.set id { n with data := .file (k f) } := by
  change t.nodes.modify id _ = _
  rw [modify_eq_set hget, hf]
  rfl

theorem trash_same (hk : n'.trashPathKey id = n.trashPathKey id) : t.trash = t.retrash id n n' := by
  rw [retrash, hk, rekey_self, ite_self]

theorem trash_of_ne (hn : n.type ≠ .trash) : t.trash = t.retrash id n n' := (if_neg hn).symm

theorem edit_fsnodesSetlength (length : ℕ) (hget : t.nodes.get id = some n) (hf : n.data = .file f) :
    Edit cfg lim t (t.fsnodesSetlength cfg id n f length) id n
      { n with data := .file { f with length := length, chunks := f.chunks.take (chunksOfLength length) } } :=
  Edit.recount hget hf rfl (modify_file _ hget hf) rfl rfl rfl ⟨rfl, rfl, rfl, rfl, rfl⟩ (trash_same rfl) rfl rfl rfl
    (getStats_file hget hf) rfl rfl (transfers_truncate t.calls n.goal f.chunks _) fun _ h => h

theorem isSome_modifyNode : ((t.modifyNode x k).nodes.get y).isSome = (t.nodes.get y).isSome := by
  rw [get_modifyNode]
  split_ifs with h
  · rw [h, isSome_map]
  · rfl

theorem update_modify_absorb {cfg : Config} (hs : (t.nodes.get id).isSome) :
    ((t.fsnodesUpdateChecksum cfg id).modifyNode id k).fsnodesUpdateChecksum cfg id =
      (t.modifyNode id k).fsnodesUpdateChecksum cfg id :=
  update_setChecksum (t := t.modifyNode id k) (by rwa [isSome_modifyNode]) _

theorem update_modify_comm (h : x ≠ y) : ((t.modifyNode y k).fsnodesUpdateChecksum cfg y).fsnodesUpdateChecksum cfg x =
      ((t.fsnodesUpdateChecksum cfg x).modifyNode y k).fsnodesUpdateChecksum cfg y := by
  have hx : ((t.modifyNode y k).fsnodesUpdateChecksum cfg y).checksumOf cfg x = t.checksumOf cfg x := by
    change ((t.modifyNode y k).nodes.get x).map _ = _
    rw [get_modifyNode, if_neg h]
    rfl
  change ((t.modifyNode y k).fsnodesUpdateChecksum cfg y).setChecksum x (Option.getD _ _) =
    ((t.modifyNode y k).setChecksum x _).fsnodesUpdateChecksum cfg y
  rw [update_setChecksum_of_ne h, hx, checksum_update_of_ne h]
  rfl

theorem fsnodesAppendchunks_edits {dst src : Inode} {s : FSNode} (cfg : Config) (lim : Limits)
    (ts : UInt32) (hget : t.nodes.get dst = some n) (hf : n.data = .file f) (hs : t.nodes.get src = some s)
    (hne : dst ≠ src) : ∃ v w n₁ n₂, Edit cfg lim t v dst n n₁ ∧ Edit cfg lim v w dst n₁ n₂ ∧
      Edit cfg lim w (t.fsnodesAppendchunks cfg ts dst src n f g) src s { s with atime := ts } := by
  set length := appendedLength f g with hl
  set n₁ : FSNode := { n with data := .file { f with length := length, chunks := appendedChunks f g } } with hn₁
  -- the new contents, not yet with the new times
  let a : Metadata := (((t.addCalls (chunkCalls (.add · n.goal) (g.chunks.take g.chunkCount))).adjustSpace f
    length).setFile
    dst fun f => { f with length := length, chunks := appendedChunks f g }).recountFile cfg dst n n.parent
      (t.fsnodesGetStats cfg dst)
  have hc : Edit cfg lim t (a.fsnodesUpdateChecksum cfg dst) dst n n₁ :=
    Edit.recount hget hf rfl (modify_file _ hget hf) rfl rfl rfl ⟨rfl, rfl, rfl, rfl, rfl⟩ (trash_same rfl) rfl rfl rfl
      (getStats_file hget hf) rfl rfl (by
        rw [chunkRefs_appended]
        exact transfers_adds t.calls n.goal _ (chunkRefs_nonneg _ _)) fun _ h => h
  have hget₁ : (a.fsnodesUpdateChecksum cfg dst).nodes.get dst = some n₁ := by
    rw [hc.nodes, get_set_self]
  let m : FSNode → FSNode := fun n => { n with mtime := ts, atime := ts }
  have ht : Edit cfg lim (a.fsnodesUpdateChecksum cfg dst)
      (((a.fsnodesUpdateChecksum cfg dst).modifyNode dst m).fsnodesUpdateChecksum cfg dst) dst n₁ (m n₁) :=
    Edit.plain hget₁ (minor_of_data rfl rfl rfl rfl (.inl rfl)) (transfers_same _ rfl) (fun _ => rfl) fun _ h => h
  have hget₂ : (((a.fsnodesUpdateChecksum cfg dst).modifyNode dst m).fsnodesUpdateChecksum cfg dst).nodes.get src =
      some s := by
    rw [ht.nodes, hc.nodes, get_set_of_ne hne.symm, get_set_of_ne hne.symm, hs]
  refine ⟨_, _, _, _, hc, ht, ?_⟩
  have hat : Edit cfg lim _ _ src s { s with atime := ts } := edit_atime hget₂ ts
  -- checksums are updated at the end, that of the source first
  have ha : ((a.fsnodesUpdateChecksum cfg dst).modifyNode dst m).fsnodesUpdateChecksum cfg dst =
      (a.modifyNode dst m).fsnodesUpdateChecksum cfg dst :=
    update_modify_absorb (t := a) (isSome_of_eq_some hget₁)
  rw [ha, ← update_modify_comm hne] at hat
  rw [ha]
  exact hat

theorem edit_truncatedChunk (nchunkid : ℕ+)
    (hget : t.nodes.get id = some n) (hf : n.data = .file f) (h : 0 < f.chunks.getD indx 0) : Edit cfg lim t
      (((t.addCalls [.modify (f.chunks.getD indx 0) n.goal nchunkid]).setFile id
        fun f => { f with chunks := f.chunks.set indx nchunkid }).fsnodesUpdateChecksum cfg id) id n
          { n with data := n.data.mapFile fun f => { f with chunks := f.chunks.set indx nchunkid } } := by
  have hfi : (n.data.mapFile fun f => { f with chunks := f.chunks.set indx nchunkid }) =
      .file { f with chunks := f.chunks.set indx nchunkid } := by rw [hf]; rfl
  have hi : indx < f.chunks.length := by
    by_contra hl
    simp [getD_eq_getElem?_getD, getElem?_eq_none (not_lt.1 hl)] at h
  refine Edit.plain hget ?_ ?_ (fun _ => rfl) fun _ h => h
  · exact minor_of_file hf rfl hfi rfl rfl rfl rfl rfl (fun _ h => h) (fileChunks_set h)
      (lastChunkNonempty_set h)
  · rw [FSNode.refs_file hf, FSNode.refs_file hfi]
    exact transfers_modify t.calls n.goal nchunkid.pos hi

theorem edit_resizedChunks (size : ℕ) (hget : t.nodes.get id = some n) (hf : n.data = .file f) : Edit cfg lim t
      ((t.setFile id fun f => { f with chunks := resizeChunks f.chunks size }).fsnodesUpdateChecksum cfg id)
      id n { n with data := n.data.mapFile fun f => { f with chunks := resizeChunks f.chunks size } } := by
  have hfi : (n.data.mapFile fun f => { f with chunks := resizeChunks f.chunks size }) =
      .file { f with chunks := resizeChunks f.chunks size } := by rw [hf]; rfl
  refine Edit.plain hget ?_ (transfers_same t.calls ?_) (fun _ => rfl) fun _ h => h
  · exact minor_of_file hf rfl hfi rfl rfl rfl rfl rfl (fun _ h => h) fileChunks_resize
      lastChunkNonempty_resize
  · rw [FSNode.refs_file hf, FSNode.refs_file hfi]
    exact chunkRefs_resize n.goal f.chunks size

theorem Edit.touchFile (h : Edit cfg lim t (u.fsnodesUpdateChecksum cfg id) id n n') (ts : UInt32) :
    Edit cfg lim (u.fsnodesUpdateChecksum cfg id)
      (u.touchFile cfg id ts) id n' { n' with mtime := ts, ctime := ts } := by
  have hget : (u.fsnodesUpdateChecksum cfg id).nodes.get id = some n' := by rw [h.nodes, get_set_self]
  have hs : (((u.modifyNode id fun n => { n with mtime := ts }).fsnodesUpdateCtime id ts).nodes.get id).isSome := by
    change (((u.modifyNode id fun n => { n with mtime := ts }).modifyNode id _).nodes.get id).isSome
    rw [isSome_modifyNode, isSome_modifyNode]
    exact isSome_of_eq_some hget
  have ha : (u.fsnodesUpdateChecksum cfg id).touchFile cfg id ts = u.touchFile cfg id ts := update_setChecksum hs _
  rw [← ha]
  exact edit_touchFile hget ts

section

variable (hget : t.nodes.get id = some n) (hf : n.data = .file f)
include hget hf

theorem edit_writtenChunk (nchunkid : ℕ+) (hi : indx < max f.chunks.length size) : Edit cfg lim t
      (((((t.setFile id fun f => { f with chunks := resizeChunks f.chunks size }).addCalls
        [.modify (f.chunks.getD indx 0) n.goal nchunkid]).setFile id
        fun f => { f with chunks := f.chunks.set indx nchunkid }).recountFile cfg id n n.parent
          (t.fsnodesGetStats cfg id)).fsnodesUpdateChecksum cfg id) id n
      { n with data := .file { f with chunks := (resizeChunks f.chunks size).set indx nchunkid } } := by
  have hc : Transfers t.calls (t.calls ++ [.modify (f.chunks.getD indx 0) n.goal nchunkid])
      (chunkRefs n.goal f.chunks) (chunkRefs n.goal ((resizeChunks f.chunks size).set indx nchunkid)) := by
    have hl : indx < (resizeChunks f.chunks size).length := by
      rw [resizeChunks, length_append, length_replicate]
      omega
    have h := transfers_modify t.calls n.goal nchunkid.pos hl
    rwa [chunkRefs_resize, resizeChunks, getD_append_zeros] at h
  refine Edit.recount hget hf rfl ?_ rfl rfl rfl ⟨rfl, rfl, rfl, rfl, rfl⟩ (trash_same rfl) rfl rfl ?_
    (getStats_file hget hf) rfl rfl hc fun _ h => h
  · change ((t.nodes.modify id _).modify id _) = _
    rw [modify_eq_set hget, modify_set, hf]
    rfl
  · exact accounts_kept

theorem edit_repairedChunks (ts : UInt32) (k : FileData → FileData) (hk : k f = { f with chunks := chunks })
    (hc : Transfers t.calls (t.calls ++ calls) (chunkRefs n.goal f.chunks) (chunkRefs n.goal chunks)) :
    Edit cfg lim t
      ((((((t.addCalls calls).setFile id k).modifyNode id fun n => { n with mtime := ts }).fsnodesUpdateCtime id
        ts).recountFile cfg id n n.parent (t.fsnodesGetStats cfg id)).fsnodesUpdateChecksum cfg id) id n
      { n with data := .file { f with chunks := chunks }, mtime := ts, ctime := ts } := by
  have hget' : (((t.addCalls calls).setFile id k).modifyNode id fun n => { n with mtime := ts }).nodes.get id =
      some { n with data := .file { f with chunks := chunks }, mtime := ts } := by
    rw [get_modifyNode, if_pos rfl]
    change ((t.setFile id k).nodes.get id).map _ = _
    rw [modify_file k hget hf, get_set_self, hk]
    rfl
  refine Edit.recount (g := { f with chunks := chunks }) hget hf rfl ?_ rfl rfl rfl
    ⟨rfl, rfl, rfl, rfl, rfl⟩ ?_ rfl rfl ?_
    (getStats_file hget hf) rfl rfl hc fun _ h => h
  · change ((t.setFile id k).nodes.modify id _).modify id _ = _
    rw [modify_file k hget hf, modify_set, modify_set, hk]
  · have ht : { n with data := .file { f with chunks := chunks }, mtime := ts }.type = n.type :=
      type_eq_of_state hf rfl rfl
    rw [trash_fsnodesUpdateCtime hget', retrash, ht]
    rfl
  · exact accounts_kept

theorem edit_keptChunks (k : FileData → FileData) (hk : k f = { f with chunks := chunks })
    (hc : Transfers t.calls (t.calls ++ calls) (chunkRefs n.goal f.chunks) (chunkRefs n.goal chunks)) :
    Edit cfg lim t
      ((((t.addCalls calls).setFile id k).recountFile cfg id n n.parent
        (t.fsnodesGetStats cfg id)).fsnodesUpdateChecksum cfg id) id n
      { n with data := .file { f with chunks := chunks } } := by
  refine Edit.recount (g := { f with chunks := chunks }) hget hf rfl ?_ rfl rfl rfl ⟨rfl, rfl, rfl, rfl, rfl⟩
    (trash_same rfl) rfl rfl ?_ (getStats_file hget hf) rfl rfl hc fun _ h => h
  · rw [← hk]
    exact modify_file (t := t.addCalls calls) k hget hf
  · exact accounts_kept

theorem edit_fsnodesChangefilegoal (goal : ℕ) :
    Edit cfg lim t (t.fsnodesChangefilegoal cfg id n f goal) id n { n with goal := goal } := by
  have hn : (t.modifyNode id fun n => { n with goal := goal }).nodes = t.nodes.set id { n with goal := goal } :=
    modify_eq_set hget _
  have hget' : (t.modifyNode id fun n => { n with goal := goal }).nodes.get id = some { n with goal := goal } := by
    rw [hn, get_set_self]
  have hw : { n with goal := goal }.weight = n.weight := rfl
  have hc : Transfers t.calls (t.calls ++ chunkCalls (.change · n.goal goal) f.chunks) n.refs
      { n with goal := goal }.refs := by
    have h := transfers_changes t.calls goal (le_refl (chunkRefs n.goal f.chunks))
    rwa [sub_self, zero_add, ← FSNode.refs_file hf, ← FSNode.refs_file (n := { n with goal := goal }) hf] at h
  exact Edit.restat hget hn ⟨rfl, rfl, rfl, rfl, rfl⟩ rfl rfl (fun _ h => h) (trash_same rfl) rfl rfl
    (fun _ => .inl ⟨rfl, by rw [getStats_file hget hf, getStats_file hget' hf]⟩)
    (by rw [hw, sub_self, add_zero]; rfl) hc fun _ h => h

end

/-! ## Owners, trash time, links -/

theorem edit_setAttributes {mode : BitVec 16} {acl : Option RichAcl} {chown : Bool} {uid gid : UInt32}
    (ts atime mtime : UInt32) (hget : t.nodes.get id = some n) (hk : chown = false → uid = n.uid ∧ gid = n.gid)
    (ha : n.Agrees → ∀ a, acl = some a → mode &&& 0o777 = a.getMode) :
    Edit cfg lim t (t.setAttributes cfg ts id n mode acl chown uid gid atime mtime) id n
      { n with
        mode := mode, acl := acl, uid := uid, gid := gid, atime := atime, mtime := mtime, ctime := ts } := by
  cases chown with
  | false =>
    obtain ⟨rfl, rfl⟩ := hk rfl
    have ht : Edit cfg lim t _ id n
        { n with mode := mode, acl := acl, atime := atime, mtime := mtime, ctime := ts } :=
      Edit.touch (f := fun n => { n with mode := mode, acl := acl, atime := atime, mtime := mtime }) hget
        (minor_of_data rfl rfl rfl rfl (.inl rfl)) rfl rfl rfl fun _ h => ha h
    unfold setAttributes
    simp only [Bool.false_eq_true, if_false, modifyNode_modifyNode]
    exact ht
  | true =>
    let n₁ : FSNode := { n with mode := mode, acl := acl, uid := uid, gid := gid, atime := atime, mtime := mtime }
    have hn : (((t.modifyNode id fun n => { n with mode := mode, acl := acl }).fsnodesChangeUidGid id n uid
        gid).modifyNode id fun n => { n with atime := atime, mtime := mtime }).nodes = t.nodes.set id n₁ := by
      change ((t.nodes.modify id _).modify id _).modify id _ = _
      rw [modify_eq_set hget, modify_set, modify_set]
    refine Edit.of_update ⟨hget, ?_, rfl, rfl, fun _ h => h, ?_, fun h => h, fun _ _ => .inl ⟨rfl, rfl⟩, settled ?_,
      transfers_same _ rfl, fun _ h => ha h⟩ ⟨rfl, rfl, rfl, rfl, rfl⟩
    · change modify _ id _ = _
      rw [if_pos rfl, hn, modify_set]
    · rw [trash_fsnodesUpdateCtime (n := n₁) (by rw [if_pos rfl, hn, get_set_self])]
      rfl
    · change t.accounts + n.usage .inodes (-1) + n.usage .size (-n.size) + n₁.usage .inodes 1 +
        n₁.usage .size n.size = _
      unfold FSNode.weight FSNode.usage credit
      simp only [Pi.single_neg]
      abel

theorem edit_changeTrashtime (ts trashtime : UInt32) (hget : t.nodes.get id = some n) :
    Edit cfg lim t (t.changeTrashtime cfg ts id n trashtime) id n { n with trashtime := trashtime, ctime := ts } := by
  have hn : (t.modifyNode id fun n => { n with trashtime := trashtime, ctime := ts }).nodes =
      t.nodes.set id { n with trashtime := trashtime, ctime := ts } := modify_eq_set hget _
  have hac : t.accounts = t.accounts + ({ n with trashtime := trashtime, ctime := ts }.weight - n.weight) :=
    (add_eq_left.2 (sub_self _)).symm
  unfold changeTrashtime
  by_cases ht : n.type = .trash
  · simp only [if_pos ht]
    refine Edit.of_update ⟨hget, hn, rfl, rfl, fun _ h => h, ?_, ?_, fun _ _ => .inl ⟨rfl, rfl⟩, settled hac,
      transfers_same _ rfl, fun _ h => h⟩ ⟨rfl, rfl, rfl, rfl, rfl⟩
    · rw [retrash, if_pos ht]
      rfl
    · intro hs
      change (t.stopped || _)
      rw [hs, Bool.true_or]
  · simp only [if_neg ht]
    exact Edit.of_update ⟨hget, hn, rfl, rfl, fun _ h => h, trash_of_ne ht, fun h => h, fun _ _ => .inl ⟨rfl, rfl⟩,
      settled hac, transfers_same _ rfl, fun _ h => h⟩ ⟨rfl, rfl, rfl, rfl, rfl⟩

theorem ownStats_symlink {path : Name} (h : n.data = .symlink path) : n.ownStats cfg = fun
      | .inodes | .links => 1
      | .length => (path.length % 2 ^ 16 : ℕ)
      | _ => 0 := by
  funext field
  cases field <;> simp only [FSNode.ownStats, h]

section

variable (hget : t.nodes.get id = some n)
include hget

variable {path : Name}

theorem getStats_symlink (hd : n.data = .symlink path) : t.fsnodesGetStats cfg id = n.ownStats cfg := by
  unfold fsnodesGetStats
  simp [hget, FSNode.isDirectory, hd, isDirectory]

theorem edit_symlink {path' : Name} {ps : List Inode} {sr : Stats}
    (hd : n.data = .symlink path) (hd' : n'.data = .symlink path') (hp : n'.parent = n.parent)
    (hno : v.nodes = t.nodes.set id n') (hasi : Aside t v) (ht : v.trash = t.trash) (hst : v.stats = t.stats)
    (hs : v.stopped = t.stopped) (ha : v.accounts = t.accounts)
    (hsr : lim.lengths → ps = n.parent ∧ sr = n'.ownStats cfg - n.ownStats cfg ∨
      sr = 0 ∧ n'.ownStats cfg = n.ownStats cfg) (hu : n'.uid = n.uid) (hg : n'.gid = n.gid) (hc : v.calls = t.calls)
    (hm : lim.modes → n.Agrees → n'.Agrees) :
    Edit cfg lim t ((v.updateParentStats ps sr).fsnodesUpdateChecksum cfg id) id n n' := by
  have hty : n'.type = n.type := by rw [FSNode.type, FSNode.type, hd, hd']; rfl
  have hn : n.type ≠ .trash := by simp [FSNode.type, hd, type]
  refine Edit.restat hget hno hasi ?_ hty ?_ ?_ hst hs hsr ?_ ?_ hm
  · simp [FSNode.vertex, FSNode.entries, FSNode.isDirectory, hd, hd', hp, NodeData.entries,
      isDirectory]
  · intro hr
    simp [FSNode.type, hd, type] at hr
  · rw [ht, trash_of_ne hn]
  · have hw : n'.weight = n.weight := by
      simp [FSNode.weight, FSNode.usage, FSNode.size, hd, hd', hu, hg, file?, typeCredit]
    rw [hw, sub_self, add_zero, ha]
  · rw [hc]
    exact transfers_same _ (by simp [FSNode.refs, hd, hd', file?])

theorem edit_setSymlinkPath {wd : Inode} (hd : n.data = .symlink [])
    (hp : n.parent = [wd]) (hl : lim.lengths → path.length < 2 ^ 16) :
    Edit cfg lim t (t.setSymlinkPath cfg wd id path) id n { n with data := .symlink path } := by
  refine edit_symlink (v := t.modifyNode id fun n => { n with data := .symlink path }) hget hd rfl rfl
    (modify_eq_set hget _) ⟨rfl, rfl, rfl, rfl, rfl⟩ rfl rfl rfl rfl ?_ rfl rfl rfl fun _ h => h
  intro hli
  refine .inl ⟨hp.symm, ?_⟩
  rw [ownStats_symlink hd, ownStats_symlink (n := { n with data := .symlink path }) rfl]
  have hlt := hl hli
  funext field
  cases field with
  | length =>
    simp only [length_nil, Pi.sub_apply]
    omega
  | _ => rfl

end

/-! ## Clones -/

theorem weight_of_isCounter {a : Account} (h : a.isCounter) : n.weight a =
      (credit .nodes 1 + typeCredit n.data 1 + (n.data.file?.map stateCredit).getD 0) a := by
  have hu (r : QuotaResource) (amount : ℤ) : n.usage r amount a = 0 := by
    unfold FSNode.usage credit
    cases a with
    | used owner resource => cases h
    | _ => simp
  unfold FSNode.weight
  simp only [Pi.add_apply, hu]
  ring

theorem edit_cloneAttributes {ts : UInt32} (hget : t.nodes.get id = some n) (ht : n.type ≠ .trash)
    (ho : lim.owners → src.uid = n.uid ∧ src.gid = n.gid)
    (hm : lim.modes → ∀ acl, n.acl = some acl → src.mode &&& 0o777 = acl.getMode) :
    Edit cfg lim t ((t.cloneAttributes ts src id).fsnodesUpdateChecksum cfg id) id n
      { n with
        mode := src.mode, uid := src.uid, gid := src.gid, atime := src.atime, mtime := src.mtime, ctime := ts } := by
  refine Edit.of_update ⟨hget, modify_eq_set hget _, rfl, rfl, fun _ h => h, trash_of_ne ht, fun h => h,
    fun _ _ => .inl ⟨rfl, rfl⟩, fun a hco => ?_, transfers_same _ rfl, fun hl _ => hm hl⟩ ⟨rfl, rfl, rfl, rfl, rfl⟩
  have hw : { n with mode := src.mode, uid := src.uid, gid := src.gid, atime := src.atime, mtime := src.mtime,
                          ctime := ts }.weight a = n.weight a := by
    rcases hco with hl | hc
    · obtain ⟨hu, hg⟩ := ho hl
      simp only [hu, hg]
      rfl
    · rw [weight_of_isCounter hc, weight_of_isCounter hc]
  rw [hw, sub_self, add_zero]
  rfl

/-- the attributes that a clone gets when it is created -/
def cloneInto (src n : FSNode) : FSNode :=
  { n with goal := src.goal, trashtime := src.trashtime, mode := src.mode, atime := src.atime, mtime := src.mtime }

theorem ownStats_emptyFile (h : n.data = .file ⟨.live, 0, [], []⟩) : n.ownStats cfg = fun
      | .inodes | .files => 1
      | _ => 0 := by
  have hr : fileRealsize cfg n.goal ⟨.live, 0, [], []⟩ = 0 := by
    refine sum_eq_zero fun x hx => ?_
    obtain ⟨slice, _, rfl⟩ := mem_map.1 hx
    cases slice <;>
      simp [sliceRealsize, fileSize, fileChunks, lastChunkNonempty]
  unfold FSNode.ownStats
  rw [h]
  funext field
  cases field with
  | realsize => exact hr
  | size => simp [fileSize, fileChunks, lastChunkNonempty]
  | _ => rfl

variable {parentDst : Inode}

/-- the contents of a file for an empty one, whose attributes may have changed before -/
theorem edit_cloneChunkData (src : FSNode) (f : FileData) (hget : t.nodes.get id = some n)
    (hd : n.data = .file ⟨.live, 0, [], []⟩) (hp : n.parent = [parentDst])
    (hk : (k n).data = n.data ∧ (k n).parent = n.parent ∧ (k n).uid = n.uid ∧ (k n).gid = n.gid)
    (hm : lim.modes → n.Agrees → (k n).Agrees) :
    Edit cfg lim t (((t.modifyNode id k).cloneChunkData cfg src f id parentDst).fsnodesUpdateChecksum cfg id) id n
      { k n with
        goal := src.goal
        trashtime := src.trashtime
        data := .file ⟨.live, f.length, [], f.chunks⟩ } := by
  obtain ⟨hkd, hkp, hku, hkg⟩ := hk
  have hget' : (t.modifyNode id k).nodes.get id = some (k n) := by rw [get_modifyNode, if_pos rfl, hget]; rfl
  have hd' : (k n).data = .file ⟨.live, 0, [], []⟩ := hkd.trans hd
  have hn : n.type ≠ .trash := by simp [FSNode.type, hd, type]
  have hr (v : Metadata) (ps : List Inode) (psr : Stats) :
      v.recountFile cfg id (k n) ps psr = v.recountFile cfg id n ps psr := by
    unfold recountFile fsnodesQuotaUpdate FSNode.usage
    rw [hku, hkg]
  unfold cloneChunkData
  simp only [hget', ← hp, hr]
  refine Edit.recount hget hd rfl ?_ hkp rfl rfl ⟨rfl, rfl, rfl, rfl, rfl⟩ (trash_of_ne hn) rfl rfl ?_ ?_ hku hkg ?_ hm
  · change (t.nodes.modify id k).modify id _ = _
    rw [modify_eq_set hget, modify_set, hd']
    rfl
  · change t.accounts = t.accounts + 0
    rw [add_zero]
  · rw [getStats_file hget' hd', ownStats_emptyFile hd, ownStats_emptyFile hd']
  · have h := transfers_adds t.calls src.goal f.chunks (le_refl 0)
    rwa [zero_add] at h

theorem type_create (type : NodeType) (h : type ≠ .trash ∧ type ≠ .reserved) : (create type).type = type := by
  cases type <;> simp_all [create, type]

theorem minor_cloneInto (cfg : Config) (hd : n.data = .create src.type)
    (hl : src.type ≠ .trash ∧ src.type ≠ .reserved) : Minor cfg n (cloneInto src n) := by
  by_cases hf : src.type = .file
  · have he : n.data = .file ⟨.live, 0, [], []⟩ := by rw [hd, hf]; rfl
    refine ⟨rfl, rfl, fun _ h => h, ?_, rfl⟩
    rw [ownStats_emptyFile he, ownStats_emptyFile (n := cloneInto src n) he]
  · refine minor_of_data rfl rfl rfl rfl (.inr ?_)
    rw [FSNode.isAnyFile, hd]
    revert hf hl
    cases src.type <;> simp [create, file?]

theorem edit_cloneNewData (cfg : Config) (lim : Limits) (src : FSNode)
    (hget : t.nodes.get id = some n) (hd : n.data = .create src.type)
    (hli : src.type ≠ .trash ∧ src.type ≠ .reserved) (hac : n.acl = none) (hp : n.parent = [parentDst]) :
    ∃ n', Edit cfg lim t ((t.cloneNewData cfg src id parentDst).fsnodesUpdateChecksum cfg id) id n n' := by
  set v := t.modifyNode id (cloneInto src) with hv
  have hget₁ : v.nodes.get id = some (cloneInto src n) := by rw [hv, get_modifyNode, if_pos rfl, hget]; rfl
  have hi := minor_cloneInto cfg hd hli
  have hr : (cloneInto src n).refs = n.refs := by
    unfold FSNode.refs
    change (n.data.file?.map _).getD 0 = _
    rw [hd]
    cases src.type <;> rfl
  have ha {n' : FSNode} (hn' : n'.acl = n.acl) : n'.Agrees := by
    intro acl h
    rw [hn', hac] at h
    cases h
  have hno : n.type ≠ .trash := by rw [FSNode.type, hd, type_create _ hli]; exact hli.1
  have hin : (t.modifyNode id fun n => { n with
      goal := src.goal, trashtime := src.trashtime, mode := src.mode, atime := src.atime, mtime := src.mtime }) =
      v := rfl
  simp only [cloneNewData, hin]
  cases hs : src.data with
  | file f =>
    have ht : src.type = .file := by
      revert hli
      unfold FSNode.type
      rw [hs]
      obtain ⟨state, _, _, _⟩ := f
      cases state <;> simp [type]
    have he : n.data = .file ⟨.live, 0, [], []⟩ := by rw [hd, ht]; rfl
    exact ⟨_, edit_cloneChunkData src f hget he hp ⟨rfl, rfl, rfl, rfl⟩ fun _ _ => ha rfl⟩
  | symlink path =>
    have ht : src.type = .symlink := by rw [FSNode.type, hs]; rfl
    have hl : n.data = .symlink [] := by rw [hd, ht]; rfl
    have hnod : (v.modifyNode id fun n => { n with data := .symlink path }).nodes =
        t.nodes.set id { cloneInto src n with data := .symlink path } := by
      change (t.nodes.modify id (cloneInto src)).modify id _ = _
      rw [modify_eq_set hget, modify_set]
    simp only [cloneData, hs, cloneSymlinkData]
    refine ⟨{ cloneInto src n with data := .symlink path }, ?_⟩
    refine edit_symlink hget hl rfl rfl hnod ⟨rfl, rfl, rfl, rfl, rfl⟩ rfl rfl rfl rfl
      (fun _ => .inl ⟨hp.symm, ?_⟩) rfl rfl rfl fun _ _ => ha rfl
    rw [getStats_symlink hget₁ hl, getStats_symlink (by rw [hnod, get_set_self]) rfl,
      ownStats_symlink hl, ownStats_symlink (n := cloneInto src n) hl]
  | blockDev rdev | charDev rdev =>
    simp only [cloneData, hs]
    rw [hv, modifyNode_modifyNode]
    exact ⟨_, Edit.plain hget (Minor.trans hi (minor_setRdev cfg _ rdev))
      (transfers_same t.calls ((FSNode.refs_setRdev _ rdev).trans hr)) (absurd · hno) fun _ _ => ha rfl⟩
  | _ =>
    simp only [cloneData, hs]
    exact ⟨_, Edit.plain hget hi (transfers_same t.calls hr) (absurd · hno) fun _ _ => ha rfl⟩

theorem cloneOnto_edits (cfg : Config) (lim : Limits) (ts : UInt32) (parentDst : Inode)
    (hget : t.nodes.get id = some n) (ht : n.type = src.type) (hliv : src.type ≠ .trash ∧ src.type ≠ .reserved)
    (ho : lim.owners → src.uid = n.uid ∧ src.gid = n.gid)
    (hm : lim.modes → ∀ acl, n.acl = some acl → src.mode &&& 0o777 = acl.getMode)
    (hl : lim.lengths → ∀ p q, n.data = .symlink p → src.data = .symlink q →
      n.parent = [parentDst] ∨ p.length % 2 ^ 16 = q.length % 2 ^ 16) : ∃ v n₁ n₂, Edit cfg lim t v id n n₁ ∧
      Edit cfg lim v (((t.cloneData cfg src id parentDst).cloneAttributes ts src id).fsnodesUpdateChecksum cfg id) id
        n₁ n₂ := by
  -- the contents, then the attributes; the checksum is updated only in the end
  suffices hf : ∃ n₁, Edit cfg lim t ((t.cloneData cfg src id parentDst).fsnodesUpdateChecksum cfg id) id n n₁ ∧
      n₁.acl = n.acl ∧ n₁.uid = n.uid ∧ n₁.gid = n.gid by
    obtain ⟨n₁, he, hac, hu, hg⟩ := hf
    have hget₁ : (t.cloneData cfg src id parentDst).nodes.get id = some n₁ :=
      (congrArg (·.get id) he.nodes).trans get_set_self
    have ha := @edit_cloneAttributes cfg lim ((t.cloneData cfg src id parentDst).fsnodesUpdateChecksum cfg id) id
      n₁ src ts hget₁ (by rw [he.type, ht]; exact hliv.1) (by rw [hu, hg]; exact ho) (by rw [hac]; exact hm)
    rw [cloneAttributes, update_modify_absorb (isSome_of_eq_some hget₁)] at ha
    exact ⟨_, _, _, he, ha⟩
  unfold cloneData
  cases hs : src.data with
  | symlink path =>
    have hli : ∃ old, n.data = .symlink old := by
      rw [FSNode.type, FSNode.type, hs] at ht
      cases hn : n.data with
      | symlink old => exact ⟨old, rfl⟩
      | file f =>
        obtain ⟨state, _, _, _⟩ := f
        rw [hn] at ht
        cases state <;> cases ht
      | _ =>
        rw [hn] at ht
        cases ht
    obtain ⟨old, hold⟩ := hli
    have hno : (t.modifyNode id fun n => { n with data := .symlink path }).nodes =
        t.nodes.set id { n with data := .symlink path } := modify_eq_set hget _
    refine ⟨{ n with data := .symlink path }, ?_, rfl, rfl, rfl⟩
    refine edit_symlink hget hold rfl rfl hno ⟨rfl, rfl, rfl, rfl, rfl⟩ rfl rfl rfl rfl (fun hlim => ?_)
      rfl rfl rfl fun _ h => h
    rw [getStats_symlink hget hold, getStats_symlink (by rw [hno, get_set_self]) rfl]
    rcases hl hlim old path hold hs with hp | hle
    · exact .inl ⟨hp.symm, rfl⟩
    · have how : { n with data := .symlink path }.ownStats cfg = n.ownStats cfg := by
        rw [ownStats_symlink hold, ownStats_symlink (n := { n with data := .symlink path }) rfl, hle]
      exact .inr ⟨by rw [how, sub_self], how⟩
  | blockDev rdev | charDev rdev =>
    exact ⟨_, Edit.plain hget (minor_setRdev cfg n rdev) (transfers_same t.calls (FSNode.refs_setRdev n rdev))
      (fun _ => rfl) fun _ h => h, rfl, rfl, rfl⟩
  | _ => exact ⟨n, edit_fsnodesUpdateChecksum hget, rfl, rfl, rfl⟩

theorem replaced_edits (cfg : Config) (lim : Limits) (ts : UInt32) (src : FSNode) (f : FileData)
    (hget : t.nodes.get id = some n) (hd : n.data = .file ⟨.live, 0, [], []⟩) (hp : n.parent = [parentDst])
    (hac : n.acl = none) (ho : lim.owners → src.uid = n.uid ∧ src.gid = n.gid) : ∃ v n₁ n₂, Edit cfg lim t v id n n₁ ∧
      Edit cfg lim v (((t.cloneChunkData cfg src f id parentDst).cloneAttributes ts src id).fsnodesUpdateChecksum
        cfg id) id n₁ n₂ := by
  have he : Edit cfg lim t _ id n _ :=
    edit_cloneChunkData (k := fun n => n) src f hget hd hp ⟨rfl, rfl, rfl, rfl⟩ fun _ h => h
  rw [modifyNode_id] at he
  have hget₁ := (congrArg (·.get id) he.nodes).trans get_set_self
  have ha := @edit_cloneAttributes cfg lim
    ((t.cloneChunkData cfg src f id parentDst).fsnodesUpdateChecksum cfg id) id _ src ts hget₁
    (by simp [FSNode.type, type]) ho (by simp [hac])
  rw [cloneAttributes, update_modify_absorb (t := t.cloneChunkData cfg src f id parentDst)
    (isSome_of_eq_some hget₁)] at ha
  exact ⟨_, _, _, he, ha⟩

/-! ## Extra attributes -/

section Seteattr

variable {uid : UInt32} {eattr : BitVec 16} {smode : SMode} {recursive : Bool}

/-- one edit after the other -/
def Edits (cfg : Config) (lim : Limits) : Metadata → Metadata → Prop :=
  Relation.ReflTransGen fun t u => ∃ id n n', Edit cfg lim t u id n n'

theorem setChecksum_self (id : Inode) : t.setChecksum id (t.checksum id) = t := by
  unfold setChecksum
  rw [update_eq_self, sub_add_cancel]

theorem seteattrNode_setChecksum {c : XorWord 64} : (t.setChecksum x c).seteattrNode ts uid eattr smode id =
    (t.seteattrNode ts uid eattr smode id).setChecksum x c := by
  have hn : (t.setChecksum x c).nodes.get id = t.nodes.get id := rfl
  unfold seteattrNode
  rw [hn]
  cases t.nodes.get id with
  | none => rfl
  | some n =>
    dsimp only
    split_ifs <;> rfl

theorem update_setChecksum_exists (cfg : Config) (t : Metadata) (x id : Inode) (c : XorWord 64) :
    ∃ c', (t.setChecksum x c).fsnodesUpdateChecksum cfg id = (t.fsnodesUpdateChecksum cfg id).setChecksum x c' := by
  by_cases hx : x = id
  · subst hx
    exact ⟨((t.checksumOf cfg x).getD c), by
      change (t.setChecksum x c).setChecksum x ((t.checksumOf cfg x).getD (Function.update t.checksum x c x)) =
        (t.setChecksum x _).setChecksum x _
      rw [setChecksum_setChecksum, setChecksum_setChecksum, update_self]⟩
  · exact ⟨c, update_setChecksum_of_ne hx⟩

variable {F : Metadata → Inode → Metadata}

theorem foldl_setChecksum
    (hF : ∀ t id c, ∃ c', F (t.setChecksum x c) id = (F t id).setChecksum x c') (ids : List Inode) (t : Metadata)
    (c : XorWord 64) : ∃ c', ids.foldl F (t.setChecksum x c) = (ids.foldl F t).setChecksum x c' := by
  induction ids generalizing t c with
  | nil => exact ⟨c, rfl⟩
  | cons id ids ih =>
    obtain ⟨c', hc'⟩ := hF t id c
    rw [foldl_cons, hc']
    exact ih (F t id) c'

theorem seteattr_setChecksum (cfg : Config) (depth : ℕ) (t : Metadata) (x id : Inode) (c : XorWord 64) :
    ∃ c', fsnodesSeteattrRecursive cfg ts uid eattr smode recursive depth (t.setChecksum x c) id =
      (fsnodesSeteattrRecursive cfg ts uid eattr smode recursive depth t id).setChecksum x c' := by
  induction depth generalizing t id c with
  | zero => exact ⟨c, rfl⟩
  | succ depth ih =>
    simp only [fsnodesSeteattrRecursive, seteattrNode_setChecksum]
    cases recursive with
    | false => exact update_setChecksum_exists cfg _ x id c
    | true =>
      obtain ⟨c', hc'⟩ := foldl_setChecksum (fun t id c => ih t id c)
        (((t.seteattrNode ts uid eattr smode id).entries id).map Prod.snd) (t.seteattrNode ts uid eattr smode id) c
      change ∃ c'', ((((t.seteattrNode ts uid eattr smode id).entries id).map Prod.snd).foldl _
        ((t.seteattrNode ts uid eattr smode id).setChecksum x c)).fsnodesUpdateChecksum cfg id = _
      rw [hc']
      exact update_setChecksum_exists cfg _ x id c'

theorem edit_seteattrNode (lim : Limits) (uid : UInt32) (eattr : BitVec 16) (smode : SMode)
    (hget : t.nodes.get id = some n) :
    ∃ n', Edit cfg lim t ((t.seteattrNode ts uid eattr smode id).fsnodesUpdateChecksum cfg id) id n n' := by
  unfold seteattrNode
  rw [hget]
  dsimp only
  -- only a bit outside the permissions is left out
  obtain ⟨keep, hk, hp⟩ : ∃ keep, (if n.isDirectory then 0 else eattrNoecache) = keep ∧
      n.mode &&& ~~~keep &&& 0o777 = n.mode &&& 0o777 := by
    refine ⟨_, rfl, ?_⟩
    split_ifs <;> rw [BitVec.and_assoc] <;> rfl
  rw [hk]
  split_ifs
  · exact ⟨n, edit_fsnodesUpdateChecksum hget⟩
  · -- the list follows the new mode
    refine ⟨_, Edit.touch hget (minor_of_data rfl rfl rfl rfl (.inl rfl)) rfl rfl rfl fun _ _ acl ha => ?_⟩
    obtain ⟨old, _, rfl⟩ := map_eq_some_iff.1 ha
    exact (RichAcl.getMode_setMode ..).symm
  · refine ⟨_, Edit.plain hget (minor_of_data rfl rfl rfl rfl (.inl rfl)) (transfers_same t.calls rfl) (fun _ => rfl)
      fun _ hag acl ha => ?_⟩
    exact hp.trans (hag acl ha)

theorem seteattr_stopped (cfg : Config) (depth : ℕ) (t : Metadata) (id : Inode) (h : t.stopped) :
    (fsnodesSeteattrRecursive cfg ts uid eattr smode recursive depth t id).stopped := by
  induction depth generalizing t id with
  | zero => rfl
  | succ depth ih =>
    have hn : (t.seteattrNode ts uid eattr smode id).stopped := by
      unfold seteattrNode
      split
      · exact h
      · dsimp only
        split_ifs <;> exact h
    cases recursive with
    | false => exact hn
    | true => exact foldlRecOn _ _ (motive := fun v => v.stopped) hn fun v hv id _ => ih v id hv

theorem Edits.isSome (h : Edits cfg lim t u) (x : Inode) : (u.nodes.get x).isSome = (t.nodes.get x).isSome := by
  induction h with
  | refl => rfl
  | tail _ he ih =>
    obtain ⟨id, n, n', he⟩ := he
    rw [← ih, he.nodes, get_set]
    split_ifs with hx
    · rw [hx, he.get]
      rfl
    · rfl

theorem foldl_edits (hF : ∀ t id, (F t id).stopped = false → Edits cfg lim t (F t id))
    (hs : ∀ t id, t.stopped → (F t id).stopped) (ids : List Inode) (t : Metadata)
    (hr : (ids.foldl F t).stopped = false) : Edits cfg lim t (ids.foldl F t) := by
  induction ids generalizing t with
  | nil => exact .refl
  | cons id ids ih =>
    have hm : (F t id).stopped = false := by
      by_contra hn
      have ha : (ids.foldl F (F t id)).stopped :=
        foldlRecOn _ _ (motive := fun v => v.stopped) (by simpa using hn) fun v hv id _ => hs v id hv
      rw [foldl_cons, ha] at hr
      cases hr
    exact (hF t id hm).trans (ih (F t id) hr)

/-- **Extra attributes.** The recursion goes through one node after the other; the checksum of a directory is updated
when all that is in it has been done, but could as well be updated before. -/
theorem seteattr_edits (cfg : Config) (lim : Limits) (depth : ℕ) (t : Metadata) (id : Inode)
    (hr : (fsnodesSeteattrRecursive cfg ts uid eattr smode recursive depth t id).stopped = false) :
    Edits cfg lim t (fsnodesSeteattrRecursive cfg ts uid eattr smode recursive depth t id) := by
  induction depth generalizing t id with
  | zero => cases hr
  | succ depth ih =>
    set F := fsnodesSeteattrRecursive cfg ts uid eattr smode recursive depth with hF
    set t₁ := t.seteattrNode ts uid eattr smode id with ht₁
    set ids := if recursive then (t₁.entries id).map Prod.snd else [] with hi
    have hre : fsnodesSeteattrRecursive cfg ts uid eattr smode recursive (depth + 1) t id =
        (ids.foldl F t₁).fsnodesUpdateChecksum cfg id := by
      change (if recursive then ((t₁.entries id).map Prod.snd).foldl F t₁ else t₁).fsnodesUpdateChecksum cfg id = _
      rw [hi]
      split_ifs <;> rfl
    rw [hre] at hr ⊢
    cases hget : t.nodes.get id with
    | none =>
      have hs : t₁ = t := by rw [ht₁, seteattrNode, hget]
      have hn : ids = [] := by
        rw [hi, hs, entries, Nodes.entries, hget]
        split_ifs <;> rfl
      have hu : t.fsnodesUpdateChecksum cfg id = t := by
        change t.setChecksum id ((t.checksumOf cfg id).getD (t.checksum id)) = t
        rw [checksumOf, hget]
        exact setChecksum_self id
      rw [hn, hs, foldl_nil, hu]
      exact .refl
    | some n =>
      obtain ⟨n', he⟩ := edit_seteattrNode lim uid eattr smode hget
      -- the same rounds with the checksum of the directory updated before
      obtain ⟨c, hc⟩ := foldl_setChecksum (x := id) (F := F)
        (fun t y c => seteattr_setChecksum cfg depth t id y c) ids t₁
        ((t₁.checksumOf cfg id).getD (t₁.checksum id))
      have hr' : (ids.foldl F (t₁.fsnodesUpdateChecksum cfg id)).stopped = false := by
        change (ids.foldl F (t₁.setChecksum id _)).stopped = false
        rw [hc]
        exact hr
      have hlo : Edits cfg lim _ _ :=
        foldl_edits (fun t id => ih t id) (fun t id => seteattr_stopped cfg depth t id) ids _ hr'
      obtain ⟨m, hm⟩ := isSome_iff_exists.1 ((Edits.isSome hlo id).trans
        (by rw [he.nodes, get_set_self]; rfl))
      have hl : Edit cfg lim _ _ id m m := edit_fsnodesUpdateChecksum hm
      have hf : (ids.foldl F (t₁.fsnodesUpdateChecksum cfg id)).fsnodesUpdateChecksum cfg id =
          (ids.foldl F t₁).fsnodesUpdateChecksum cfg id := by
        change (ids.foldl F (t₁.setChecksum id _)).fsnodesUpdateChecksum cfg id = _
        rw [hc]
        refine update_setChecksum ?_ c
        have hso := isSome_of_eq_some hm
        change ((ids.foldl F (t₁.setChecksum id _)).nodes.get id).isSome = true at hso
        rwa [hc] at hso
      rw [hf] at hl
      exact (Relation.ReflTransGen.single ⟨id, n, n', he⟩).trans (hlo.tail ⟨id, m, m, hl⟩)

end Seteattr

end Metadata

end SaunaFS.Namespace
