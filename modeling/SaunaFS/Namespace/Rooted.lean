/-
The directories form a tree in every state of a run, and `fs_rename` does not move a directory below itself.
-/
import SaunaFS.Namespace.Changes

namespace SaunaFS.Namespace

open ParentWalk Changelog DirectoryTree

namespace Metadata

variable {cfg : Config} {t : Metadata} {c : FsContext} {parentSrc parentDst inode swd dwd d : Inode}
    {nameSrc nameDst : Name}
  {n : FSNode}

/-! ## The tree as the source sees it -/

/-- `parent[0]` of a node -/
def parent0 (t : Metadata) (d : Inode) : Option Inode := (t.nodes.get d).bind fun n => n.parent.head?

/-- every directory but the root has one parent, which lists it, and the walk along `parent[0]` comes to the root -/
structure Rooted (t : Metadata) : Prop where
  root : ∃ n, t.nodes.get rootInode = some n ∧ n.isDirectory = true
  parent : ∀ d n, t.nodes.get d = some n → n.isDirectory = true → d ≠ rootInode →
    ∃ p, n.parent = [p] ∧ ∃ name, (name, d) ∈ t.entries p
  reaches : ∀ d n, t.nodes.get d = some n → n.isDirectory = true → Above t.parent0 d rootInode

theorem up_eq_parent0 (hd : t.graph.isDir d) : t.graph.up d = t.parent0 d := by
  obtain ⟨n, hn⟩ := Option.isSome_iff_exists.1 (isSome_graph.symm.trans (isSome_of_isDir hd))
  rw [DirectoryTree.Graph.up, if_pos hd, parents_graph hn, parent0, hn]
  rfl

theorem IsTree.rooted (h : t.IsTree) : t.Rooted where
  root := by
    obtain ⟨n, hn⟩ := Option.isSome_iff_exists.1 (isSome_graph.symm.trans (isSome_of_isDir h.root_dir))
    exact ⟨n, hn, (isDir_graph hn).symm.trans h.root_dir⟩
  parent := by
    intro d n hn hd hro
    obtain ⟨p, hp⟩ := List.length_eq_one_iff.1 (h.single d ((isDir_graph hn).trans hd) hro)
    have hc := h.edges p d
    rw [hp, List.count_singleton_self, entries_graph] at hc
    obtain ⟨e, he, rfl⟩ := List.mem_map.1 (List.count_pos_iff.1 (hc ▸ Nat.one_pos))
    exact ⟨p, (parents_graph hn).symm.trans hp, e.1, he⟩
  reaches := by
    intro d n hn hd
    have hr := h.reaches d ((isDir_graph hn).trans hd)
    induction hr generalizing n with
    | root => exact .refl
    | @up d p hup _ ih =>
      have hpd := h.toLedger.isDir_of_parent (mem_parents_of_up hup)
      obtain ⟨m, hm⟩ := Option.isSome_iff_exists.1 (isSome_graph.symm.trans (isSome_of_isDir hpd))
      rw [up_eq_parent0 ((isDir_graph hn).trans hd)] at hup
      exact .head hup (ih m hm ((isDir_graph hm).symm.trans hpd))

theorem IsTree.above_of_parent0 (h : t.IsTree) (hd : t.graph.isDir dwd) (ha : Above t.parent0 dwd d) :
    Above t.graph.up dwd d := by
  induction ha using Relation.ReflTransGen.head_induction_on with
  | refl => exact .refl
  | @head x y hx _ ih =>
    have hup : t.graph.up x = some y := (up_eq_parent0 hd).trans hx
    exact .head hup (ih (h.toLedger.isDir_of_parent (mem_parents_of_up hup)))

/-! ## Refusals of `fs_rename` -/

theorem bind_eq_stop {α β : Type} {x : Except Failure α} {f : α → Except Failure β} (h : (x >>= f) = .error .stop) :
    x = .error .stop ∨ ∃ a, x = .ok a ∧ f a = .error .stop := by
  cases x with
  | error e => exact Or.inl (congrArg Except.error (Except.error.inj h))
  | ok a => exact Or.inr ⟨a, rfl, h⟩

theorem require_ne_stop {p : Bool} {s : Status} : require p s ≠ .error .stop := by
  unfold require
  split_ifs <;> simp

theorem forOperation_ne_stop {x : Except Status (Inode × FSNode)} : forOperation x ≠ .error .stop := by
  cases x <;> simp [forOperation]

theorem nodeOf_ne_stop : t.nodeOf d ≠ .error .stop := by
  unfold nodeOf
  cases t.nodes.get d <;> simp

theorem childOf_ne_stop : t.childOf d nameSrc ≠ .error .stop := by
  unfold childOf
  split
  · simp
  · intro h
    rcases bind_eq_stop h with h | ⟨_, _, h⟩
    · exact nodeOf_ne_stop h
    · cases h

theorem replaceable_ne_stop {de : Option Inode} : t.replaceable c n de ≠ .error .stop := by
  unfold replaceable
  split
  · simp
  · intro h
    rcases bind_eq_stop h with h | ⟨_, _, h⟩
    · exact nodeOf_ne_stop h
    · rcases bind_eq_stop h with h | ⟨_, _, h⟩ <;> exact require_ne_stop h

theorem fsRename_ne_stop : t.fsRename cfg c parentSrc nameSrc parentDst nameDst inode ≠ .error .stop := by
  intro h
  obtain ⟨_, _, h⟩ := (bind_eq_stop h).resolve_left require_ne_stop
  obtain ⟨⟨_, _⟩, _, h⟩ := (bind_eq_stop h).resolve_left forOperation_ne_stop
  obtain ⟨⟨_, _⟩, _, h⟩ := (bind_eq_stop h).resolve_left forOperation_ne_stop
  obtain ⟨_, _, h⟩ := (bind_eq_stop h).resolve_left require_ne_stop
  obtain ⟨⟨_, _⟩, _, h⟩ := (bind_eq_stop h).resolve_left childOf_ne_stop
  obtain ⟨_, _, h⟩ := (bind_eq_stop h).resolve_left require_ne_stop
  obtain ⟨_, _, h⟩ := (bind_eq_stop h).resolve_left require_ne_stop
  obtain ⟨_, _, h⟩ := (bind_eq_stop h).resolve_left require_ne_stop
  obtain ⟨_, _, h⟩ := (bind_eq_stop h).resolve_left require_ne_stop
  dsimp only at h
  split_ifs at h
  obtain ⟨_, _, h⟩ := (bind_eq_stop h).resolve_left replaceable_ne_stop
  obtain ⟨_, _, h⟩ := (bind_eq_stop h).resolve_left require_ne_stop
  cases h

theorem IsTree.fsRename_refuses (h : t.IsTree) (hs : t.resolve c parentSrc = .ok swd)
    (hds : t.resolve c parentDst = .ok dwd) (hf : t.fsnodesLookup swd nameSrc = some d)
    (hg : t.nodes.get d = some n) (hdi : n.isDirectory) (hb : Above t.parent0 dwd d) (hn : dwd ≠ d) :
    ∃ s, t.fsRename cfg c parentSrc nameSrc parentDst nameDst inode = .error (.status s) := by
  cases hr : t.fsRename cfg c parentSrc nameSrc parentDst nameDst inode with
  | error f =>
    cases f with
    | status s => exact ⟨s, rfl⟩
    | stop => exact absurd hr fsRename_ne_stop
  | ok r =>
    obtain ⟨-, dwd', dn, hd, swd', sn, hsw, -, se, m, hse, -, -, ha, -⟩ := fsRename_eq_ok.1 hr
    obtain rfl : dwd' = dwd := Except.ok.inj ((resolve_of_operation hd).symm.trans hds)
    obtain rfl : swd' = swd := Except.ok.inj ((resolve_of_operation hsw).symm.trans hs)
    obtain ⟨hl, hm⟩ := childOf_eq_ok.1 hse
    obtain rfl : se = d := Option.some.inj (hl.symm.trans hf)
    obtain rfl : m = n := Option.some.inj (hm.symm.trans hg)
    obtain ⟨hdn, hc⟩ := getNodeForOperation_inv hd
    have hab := h.above_of_parent0 (isDir_of_operation hd) hb
    rw [hdi, isancestor_of_above h hdn (ExpectedNodeType.check_directory.1 hc) hn.symm hab] at ha
    cases ha

/-! ## Runs -/

/-- **The directories form a tree.** So they do after every run. Then `fs_rename`, on the master or on a shadow, refuses
to move a directory into a directory below it. -/
theorem directories_form_tree (cfg : Config) (ts : UInt32) (ops : List Op) : (after cfg ts ops).Rooted ∧
      ∀ (c : FsContext) (parentSrc parentDst inode : Inode) (nameSrc nameDst : Name) (swd dwd d : Inode) (n : FSNode),
        (after cfg ts ops).resolve c parentSrc = .ok swd → (after cfg ts ops).resolve c parentDst = .ok dwd →
        (after cfg ts ops).fsnodesLookup swd nameSrc = some d → (after cfg ts ops).nodes.get d = some n →
        n.isDirectory → Above (after cfg ts ops).parent0 dwd d → dwd ≠ d →
        ∃ s, (after cfg ts ops).fsRename cfg c parentSrc nameSrc parentDst nameDst inode = .error (.status s) := by
  have htree := isTree_run cfg ts ops
  refine ⟨htree.rooted, ?_⟩
  intro c parentSrc parentDst inode nameSrc nameDst swd dwd d n hsrc hdst hfound hget hdir hbelow hne
  exact htree.fsRename_refuses hsrc hdst hfound hget hdir hbelow hne

/-- two directories, one in the other -/
def nestedDirectories : List Op :=
  [.mkdir (.admin 1) rootInode [97] 0o755 0 false 2, .mkdir (.admin 1) 2 [98] 0o755 0 false 3]

theorem directories_form_tree_nested :
    ∃ s, (after .unlimited 1 nestedDirectories).fsRename .unlimited (.admin 1) rootInode [97] 3 [99] 0 =
      .error (.status s) :=
  (directories_form_tree .unlimited 1 nestedDirectories).2 (.admin 1) rootInode 3 0 [97] [99]
    rootInode 3 2 _ rfl rfl rfl
    rfl rfl (.single rfl) (by decide)

/-- **A directory is moved into itself.** It becomes its own parent, and the walk up from it does not come to an end. -/
theorem moved_into_itself :
    (∃ u log, (after .unlimited 1 nestedDirectories).fsRename .unlimited (.admin 1) rootInode [97] 2 [99]
    0 = .ok (u, log) ∧
      (u.nodes.get 2).map FSNode.parent = some [2]) ∧
      (after .unlimited 1 nestedDirectories).exec .unlimited (.rename (.admin 1) rootInode [97] 2 [99]) =
        .error .stop :=
  ⟨⟨_, _, rfl, rfl⟩, rfl⟩

end Metadata

end SaunaFS.Namespace
