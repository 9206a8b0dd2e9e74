/-
What the nodes say and what is kept about them beside them agrees.

- `quota_in_step`: the used inodes and sizes, in runs whose snapshot steps give no node to another owner
  (`quota_after_clone`).
- `trash_in_step`: the trash, the reserved files and the counters of nodes.
- `links_in_step`: the entries of directories and the parents of nodes.
- `mode_acl_agree`: the permission bits of a node and its access control list, in runs whose snapshot steps overwrite
  the mode of no node with a list that says otherwise (`mode_acl_after_clone`).
- `references_in_step`: the chunks of the files and the calls into the chunk table.
-/
import SaunaFS.Namespace.Postings

namespace SaunaFS.Namespace

open FiniteTable FSNode Option Stepwise Metadata

namespace Metadata

variable {cfg : Config} {lim : Limits} {t u : Metadata} {x : Inode} {n n' : FSNode}

/-! ## Sums over the nodes -/

section Sums

variable {M : Type*} [AddCommGroup M] (f : FSNode → M)

theorem Shift.sum {o o' : Option FSNode} (h : Shift t u x o o') :
    u.nodes.sum (fun _ => f) = t.nodes.sum (fun _ => f) + (o'.elim 0 f - o.elim 0 f) := by
  have hold := h.old
  cases ho' : o' with
  | none =>
    have hn : u.nodes = t.nodes.erase x := by
      ext y : 1
      rw [h.get, ho', get_erase]
    cases ho : o with
    | none =>
      have hs : t.nodes.erase x = t.nodes := by
        ext y : 1
        rw [get_erase]
        split_ifs with hy
        · rw [hy, hold, ho]
        · rfl
      rw [hn, hs]
      simp
    | some n =>
      rw [hn, sum_erase _ (hold.trans ho)]
      simp [sub_eq_add_neg]
  | some n' =>
    have hn : u.nodes = t.nodes.set x n' := by
      ext y : 1
      rw [h.get, ho', get_set]
    cases ho : o with
    | none =>
      rw [hn, sum_insert _ (hold.trans ho)]
      simp
    | some n =>
      rw [hn, sum_set _ (hold.trans ho), elim_some, elim_some]
      abel

theorem Relinked.sum (h : Relinked t u) (hf : ∀ n n', Alike n n' → f n' = f n) :
    u.nodes.sum (fun _ => f) = t.nodes.sum (fun _ => f) := by
  have hr {o o' : Option FSNode} (h : Rel Alike o o') : o'.elim 0 f = o.elim 0 f ∧ o'.isSome = o.isSome := by
    cases h with
    | none => exact ⟨rfl, rfl⟩
    | some ha => exact ⟨hf _ _ ha, rfl⟩
  exact sum_congr_get _ (fun y => (hr (h.get y)).1) fun y => (hr (h.get y)).2

theorem Edit.sum {id : Inode} (h : Edit cfg lim t u id n n') :
    u.nodes.sum (fun _ => f) = t.nodes.sum (fun _ => f) + (f n' - f n) := by
  rw [h.nodes, sum_set _ h.get]
  abel

end Sums

/-! ## Accounts -/

/-- an account less what the nodes count for -/
def owed (t : Metadata) : Account → ℤ := t.accounts - t.nodes.sum fun _ n => n.weight

variable {a : Account}

theorem Posting.owed (h : Posting cfg lim t u) (ha : lim.owners ∨ a.isCounter) : u.owed a = t.owed a := by
  cases h with
  | shift h =>
    unfold Metadata.owed
    rw [h.sum weight, h.accounts]
    change (t.accounts + (weightOf _ - weightOf _) - (_ + (weightOf _ - weightOf _))) a = _
    rw [add_sub_add_right_eq_sub]
  | relink h =>
    unfold Metadata.owed
    rw [h.sum weight fun _ _ => Alike.weight, h.beside.accounts]
  | note h =>
    unfold Metadata.owed
    rw [h.nodes, h.accounts]
  | edit h =>
    unfold Metadata.owed
    rw [Edit.sum weight h, Pi.sub_apply, Pi.sub_apply, Pi.add_apply, h.accounts a ha, Pi.sub_apply,
      add_sub_add_right_eq_sub]

theorem owed_fsNew {ts : UInt32} : (fsNew cfg ts).owed = 0 := by
  change 0 + credit .nodes 1 + credit .dirnodes 1 + (rootNode ts).usage .inodes 1 -
    (empty.set rootInode (rootNode ts)).sum (fun _ n => n.weight) = 0
  rw [sum_insert _ rfl, sum_empty]
  have hw : (rootNode ts).weight =
      credit .nodes 1 + credit .dirnodes 1 + (rootNode ts).usage .inodes 1 + (rootNode ts).usage .size 0 + 0 := rfl
  have hs : (rootNode ts).usage .size 0 = 0 := by
    unfold usage credit
    rw [Pi.single_zero, Pi.single_zero, add_zero]
  rw [hw, hs]
  abel

theorem account_eq_sum (h : t.owed a = 0) : t.accounts a = t.nodes.sum fun _ n => n.weight a := by
  have hs : t.nodes.sum (fun _ n => n.weight) a = t.nodes.sum fun _ n => n.weight a := by
    unfold sum
    rw [Finset.sum_apply]
    refine Finset.sum_congr rfl fun y _ => ?_
    cases t.nodes.get y <;> rfl
  rw [← hs, ← sub_eq_zero]
  exact h

end Metadata

/-! ## Quotas -/

def QuotaOwner.owns : QuotaOwner → FSNode → Bool
  | user uid, n => n.uid = uid
  | group gid, n => n.gid = gid

variable {n : FSNode}

theorem FSNode.weight_used {owner : QuotaOwner} {r : QuotaResource} :
    n.weight (.used owner r) = if owner.owns n then (match r with | .inodes => 1 | .size => n.size) else 0 := by
  have hs : ((n.data.file?.map FileData.stateCredit).getD 0) (.used owner r) = 0 := by
    cases n.data.file? with
    | none => rfl
    | some f =>
      obtain ⟨state, length, sessionid, chunks⟩ := f
      cases state <;> simp [FileData.stateCredit, credit]
  have ht : typeCredit n.data 1 (.used owner r) = 0 := by
    unfold typeCredit
    cases n.data <;> simp [credit]
  unfold weight usage
  simp only [Pi.add_apply, hs, ht, credit]
  cases owner <;> cases r <;> simp [QuotaOwner.owns, Pi.single_apply, eq_comm]

namespace Metadata

variable {cfg : Config} {lim : Limits} {t u : Metadata} {x : Inode} {n n' : FSNode}

/-- the used inodes of an owner are the nodes that it owns, and the used size is that of its files -/
def QuotaInStep (cfg : Config) (t : Metadata) : Prop :=
  ∀ owner : QuotaOwner,
    t.accounts (.used owner .inodes) = t.nodes.sum (fun _ n => if owner.owns n then (1 : ℤ) else 0) ∧
      t.accounts (.used owner .size) =
        t.nodes.sum fun id n => if owner.owns n && n.isAnyFile then t.fsnodesGetStats cfg id .size else 0

theorem quotaInStep_of_owed (h : t.owed = 0) : t.QuotaInStep cfg := by
  intro owner
  rw [account_eq_sum (congrFun h _), account_eq_sum (congrFun h _)]
  refine ⟨by simp only [weight_used], ?_⟩
  simp only [weight_used]
  refine Finset.sum_congr rfl fun id _ => ?_
  cases hg : t.nodes.get id with
  | none => rfl
  | some n =>
    simp only [Option.elim_some]
    unfold fsnodesGetStats size isAnyFile ownStats isDirectory
    rw [hg]
    cases owner.owns n <;> cases hd : n.data <;> simp [hd, NodeData.file?, NodeData.isDirectory]

/-- **Quotas in step.** What an owner or a directory is charged with is what its nodes and files come to, after every
run in which no step of a snapshot changes an owner. -/
theorem quota_in_step (cfg : Config) (ts : UInt32) (ops : List Op)
    (hok : Along (step cfg) (fun t op => op.sameOwners t) (fsNew cfg ts) ops) : (after cfg ts ops).QuotaInStep cfg := by
  refine quotaInStep_of_owed (inv_run_of_postings (L := Limits.owners) (P := fun t => t.owed = 0)
    (fun lim t u hlim h ht => ?_)
    hok owed_fsNew).2
  funext a
  rw [Posting.owed h (Or.inl hlim), ht]

/-- a file of the user 0, one of the user `uid`, and a snapshot of the first one in the place of the other -/
def snapshotOverFile (uid : UInt32) : List Op :=
  [.mknod (.admin 1) rootInode [97] .file 0o644 0 0 2,
    .mknod { FsContext.admin 1 with uid := uid, gid := uid } rootInode [98] .file 0o644 0 0 3,
    .clone 2 2 2 rootInode [98] true 4]

theorem quota_in_step_same_owner : (after .unlimited 1 (snapshotOverFile 0)).QuotaInStep .unlimited := by
  refine quota_in_step .unlimited 1 (snapshotOverFile 0) ⟨trivial, trivial, ?_, trivial⟩
  rintro src p dst n ⟨hsrc, -, hfound, hdst⟩
  obtain rfl := some.inj (hfound.symm.trans rfl : some dst = some 3)
  obtain rfl := some.inj hsrc
  obtain rfl := some.inj hdst
  exact ⟨rfl, rfl⟩

/-- **A clone in the place of a node.** The user who loses the file is still charged for it. -/
theorem quota_after_clone : (after .unlimited 1 (snapshotOverFile 5)).accounts (.used (.user 5) .inodes) = 1 ∧
      (after .unlimited 1 (snapshotOverFile 5)).nodes.sum (fun _ n => if (QuotaOwner.user 5).owns n
        then (1 : ℤ) else 0) = 0 :=
  ⟨rfl, rfl⟩

end Metadata

/-! ## Trash, reserved files and counters -/

def FSNode.length (n : FSNode) : ℕ := (n.data.file?.map FileData.length).getD 0

namespace Metadata

/-- **Links stay in step.** A directory lists a node as often as the node names it as its parent, and what is listed
exists and is neither in the trash nor reserved. -/
theorem links_in_step (cfg : Config) (ts : UInt32) (ops : List Op) : let t := after cfg ts ops
    (∀ d x n, t.nodes.get x = some n → ((t.entries d).map Prod.snd).count x = n.parent.count d) ∧
      ∀ d, ∀ e ∈ t.entries d, ∃ n, t.nodes.get e.2 = some n ∧ n.IsLive := by
  have ht := isTree_run cfg ts ops
  have hf := (inv_run_of_postings (L := fun _ => True) (P := fun _ => True) (fun _ _ _ _ _ => id)
    (along_of_forall (fun _ _ => trivial) (fsNew cfg ts) ops) trivial).1
  refine ⟨fun d x n hn => ?_, fun d e he => ?_⟩
  · rw [← parents_graph hn, ← entries_graph]
    exact ht.edges d x
  · have hp := ht.toLedger.parent_of_entry (entries_graph _ d ▸ he)
    cases hg : (after cfg ts ops).nodes.get e.2 with
    | none => simp [DirectoryTree.Graph.parents, graph, hg] at hp
    | some n => exact ⟨n, rfl, isLive_of_entry ht (hf e.2) he n hg⟩

/-! ## Modes and lists -/

variable {cfg : Config} {lim : Limits} {t u : Metadata}

/-- the permission bits of every node with a list are those of the list -/
def ModesAgree (t : Metadata) : Prop :=
  ∀ id n acl, t.nodes.get id = some n → n.acl = some acl → n.mode &&& 0o777 = acl.getMode

theorem Posting.modesAgree (h : Posting cfg lim t u) (hl : lim.modes) (ht : t.ModesAgree) : u.ModesAgree := by
  intro y m acl hm ha
  cases h with
  | @shift x o o' h =>
    rw [h.get] at hm
    split_ifs at hm with hy
    · exact h.agrees (fun n hn acl => ht x n acl (h.old.trans hn)) m hm acl ha
    · exact ht y m acl hm ha
  | relink h =>
    have hr := h.get y
    rw [hm] at hr
    cases hn : t.nodes.get y with
    | none =>
      rw [hn] at hr
      cases hr
    | some n =>
      rw [hn] at hr
      cases hr with
      | some hal => exact hal.agrees (fun acl => ht y n acl hn) acl ha
  | note h =>
    rw [h.nodes] at hm
    exact ht y m acl hm ha
  | @edit id n n' h =>
    rw [h.nodes, FiniteTable.get_set] at hm
    split_ifs at hm with hy
    · obtain rfl := some.inj hm
      exact h.modes hl (fun acl => ht id n acl h.get) acl ha
    · exact ht y m acl hm ha

/-- **Modes and lists agree.** The permission bits of a node with a list are those that the list comes to, after every
run in which no step of a snapshot overwrites a mode that its list does not have. -/
theorem mode_acl_agree (cfg : Config) (ts : UInt32) (ops : List Op)
    (hok : Along (step cfg) (fun t op => op.sameModes t) (fsNew cfg ts) ops) : (after cfg ts ops).ModesAgree := by
  refine (inv_run_of_postings (L := Limits.modes) (fun lim t u hlim h => Posting.modesAgree h hlim) hok ?_).2
  intro id n acl hn hacl
  have hroot : (fsNew cfg ts).nodes.get id = if id = rootInode then some (rootNode ts) else none := rfl
  rw [hroot] at hn
  split_ifs at hn
  obtain rfl := some.inj hn
  cases hacl

/-- a file with this mode, one with a list that lets the user 7 write, and a snapshot of the first one in the place of
the other -/
def snapshotOverList (mode : BitVec 16) : List Op :=
  [.mknod (.admin 1) rootInode [97] .file mode 0 0 2, .mknod (.admin 1) rootInode [98] .file 0o664 0 0 3,
    .setPosixAcl (.admin 1) 3 false ⟨[⟨namedUser, 7, 6⟩], 6, 4, 4, 6⟩, .clone 2 2 2 rootInode [98] true 4]

theorem mode_acl_agree_same_mode : (after .unlimited 1 (snapshotOverList 0o664)).ModesAgree := by
  refine mode_acl_agree .unlimited 1 (snapshotOverList 0o664) ⟨trivial, trivial, trivial, ?_, trivial⟩
  rintro src p dst n acl ⟨hsrc, -, hfound, hdst⟩ - hacl
  obtain rfl := some.inj (hfound.symm.trans rfl : some dst = some 3)
  obtain rfl := some.inj hsrc
  obtain rfl := some.inj hdst
  obtain rfl := some.inj hacl
  decide

/-- **A clone in the place of a node with a list.** The node takes over the mode and keeps its list. -/
theorem mode_acl_after_clone :
    ∃ n acl, (after .unlimited 1 (snapshotOverList 0o600)).nodes.get 3 = some n ∧ n.acl = some acl ∧
      n.mode &&& 0o777 = 0o600 ∧ acl.getMode = 0o664 :=
  ⟨_, _, rfl, rfl, by decide, by decide⟩

/-! ## References to chunks -/

open ChunkCall

variable {calls calls' : List ChunkCall} {r r' r'' s : Refs}

theorem honoured_append (h : Honoured calls r r') (h' : Honoured calls' r' r'') : Honoured (calls ++ calls') r r'' := by
  induction calls generalizing r with
  | nil => exact (h : r' = r) ▸ h'
  | cons call calls ih => exact ⟨h.1, ih h.2⟩

theorem honoured_add (h : Honoured calls r r') (hs : 0 ≤ s) : Honoured calls (r + s) (r' + s) := by
  induction calls generalizing r with
  | nil => exact congrArg (· + s) h
  | cons call calls ih =>
    refine ⟨h.1.trans (le_add_of_nonneg_right hs), ?_⟩
    rw [add_sub_right_comm, add_right_comm]
    exact ih h.2

/-- the references that all files hold together -/
def refs (t : Metadata) : Refs := t.nodes.sum fun _ n => n.refs

theorem refsOf_le (t : Metadata) (x : Inode) : refsOf (t.nodes.get x) ≤ t.refs := by
  have hn (o : Option FSNode) : 0 ≤ refsOf o := by
    obtain _ | n := o
    · exact le_rfl
    · change 0 ≤ (n.data.file?.map _).getD 0
      cases n.data.file?
      · exact le_rfl
      · exact chunkRefs_nonneg _ _
  by_cases hx : x ∈ t.nodes.keys
  · exact Finset.single_le_sum (fun y _ => hn (t.nodes.get y)) hx
  · rw [t.nodes.mem_keys, not_isSome_iff_eq_none] at hx
    rw [hx]
    exact Finset.sum_nonneg fun y _ => hn _

theorem Posting.honoured (h : Posting cfg lim t u) (ht : Honoured t.calls 0 t.refs) : Honoured u.calls 0 u.refs := by
  -- the node behind one number changes, and the calls are about its references
  have hp {x : Inode} {r' : Refs} (hc : Transfers t.calls u.calls (refsOf (t.nodes.get x)) r')
      (hu : u.refs = t.refs + (r' - refsOf (t.nodes.get x))) : Honoured u.calls 0 u.refs := by
    obtain ⟨new, hn, hh⟩ := hc
    have hf := honoured_add hh (sub_nonneg.2 (refsOf_le t x))
    rw [add_sub_cancel] at hf
    rw [hn, hu, add_sub_left_comm]
    exact honoured_append ht hf
  cases h with
  | shift h => exact hp (h.old ▸ h.calls) (h.old ▸ h.sum FSNode.refs)
  | relink h =>
    have hs : u.refs = t.refs := h.sum FSNode.refs fun n n' ha => by
      obtain ⟨k, hk⟩ := ha.data
      rw [FSNode.refs, FSNode.refs, hk, ha.goal]
      cases n.data <;> rfl
    rwa [hs, h.beside.calls]
  | note h => rwa [refs, h.nodes, h.calls]
  | @edit id n n' h =>
    have hr : refsOf (t.nodes.get id) = n.refs := by
      rw [h.get]
      rfl
    exact hp (hr ▸ h.calls) (hr ▸ Edit.sum FSNode.refs h)

/-- **Chunk references stay in step.** The calls into the chunk table take away only references that are there, and give
each chunk the references that files hold to it. -/
theorem references_in_step (cfg : Config) (ts : UInt32) (ops : List Op) :
    Honoured (after cfg ts ops).calls 0 (after cfg ts ops).refs := by
  refine (inv_run_of_postings (L := fun _ => True) (fun _ _ _ _ h => Posting.honoured h)
    (along_of_forall (fun _ _ => trivial) _ ops) ?_).2
  change (fsNew cfg ts).refs = 0
  exact (sum_insert _ rfl).trans (add_zero _)

end Metadata

end SaunaFS.Namespace
