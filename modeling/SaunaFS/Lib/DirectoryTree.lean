/-
Directory graphs: vertices that list their children under labels and remember their parents.

`Tree` says that the directories form a tree, `Hanging` the same with one directory cut off, as in the middle of a move.
The two edge operations are `cut` and `attach`.
-/
import SaunaFS.Lib.ParentWalk

namespace DirectoryTree

open ParentWalk List Option

/-- a vertex; only directories have entries -/
structure Vertex (α β : Type*) where
  parent : List α
  entries : List (β × α)
  isDir : Bool

abbrev Graph (α β : Type*) := α → Option (Vertex α β)

section Graph

variable {α β : Type*}

namespace Graph

def parents (g : Graph α β) (x : α) : List α := ((g x).map Vertex.parent).getD []

def entries (g : Graph α β) (x : α) : List (β × α) := ((g x).map Vertex.entries).getD []

def isDir (g : Graph α β) (x : α) : Bool := ((g x).map Vertex.isDir).getD false

def up (g : Graph α β) (x : α) : Option α := if g.isDir x then (g.parents x).head? else none

end Graph

open DirectoryTree.Graph

variable [DecidableEq α]

/-- set or remove one vertex -/
def put (g : Graph α β) (x : α) (o : Option (Vertex α β)) : Graph α β := Function.update g x o

/-- change one vertex -/
def alter (g : Graph α β) (x : α) (f : Vertex α β → Vertex α β) : Graph α β := put g x ((g x).map f)

def mapEntries (k : List (β × α) → List (β × α)) (v : Vertex α β) : Vertex α β := { v with entries := k v.entries }

def mapParent (k : List α → List α) (v : Vertex α β) : Vertex α β := { v with parent := k v.parent }

/-- take an entry out of `d`, and `d` out of the parents of `x` -/
def cut [BEq (β × α)] (g : Graph α β) (d : α) (e : β × α) (x : α) : Graph α β :=
  alter (alter g d (mapEntries (·.erase e))) x (mapParent (·.erase d))

/-- put an entry for `x` into `d`, whose entries have an order, and `d` among the parents of `x` -/
def attach (r : β × α → β × α → Prop) [DecidableRel r] (g : Graph α β) (d : α) (label : β) (x : α) : Graph α β :=
  alter (alter g d (mapEntries (·.orderedInsert r (label, x)))) x (mapParent (· ++ [d]))

/-- entries and parents record the same edges, and the root is a directory without parents -/
structure Ledger (root : α) (g : Graph α β) : Prop where
  root_dir : g.isDir root = true
  root_parents : g.parents root = []
  edges : ∀ d x, ((g.entries d).map Prod.snd).count x = (g.parents x).count d
  files : ∀ d, g.isDir d = false → g.entries d = []

structure Tree (root : α) (g : Graph α β) : Prop extends Ledger root g where
  single : ∀ d, g.isDir d = true → d ≠ root → (g.parents d).length = 1
  reaches : ∀ d, g.isDir d = true → Reaches g.up root d

/-- a tree from which the directory `x` has been cut off -/
structure Hanging (root : α) (g : Graph α β) (x : α) : Prop extends Ledger root g where
  single : ∀ d, g.isDir d = true → d ≠ root → d ≠ x → (g.parents d).length = 1
  ne_root : x ≠ root
  dir : g.isDir x = true
  loose : g.parents x = []
  reaches : ∀ d, g.isDir d = true → Reaches g.up root d ∨ Above g.up d x

/-! ## The edge operations -/

variable {root d x y : α} {e : β × α} {label : β} {g : Graph α β} {o : Option (Vertex α β)} {k : List α → List α}
  {r : β × α → β × α → Prop} [DecidableRel r]

@[simp] theorem put_apply : put g x o y = if y = x then o else g y := Function.update_apply ..

theorem entries_put : (put g x o).entries y = if y = x then (o.map Vertex.entries).getD [] else g.entries y := by
  unfold entries
  rw [put_apply]
  split_ifs <;> rfl

theorem parents_put : (put g x o).parents y = if y = x then (o.map Vertex.parent).getD [] else g.parents y := by
  unfold parents
  rw [put_apply]
  split_ifs <;> rfl

theorem isDir_put : (put g x o).isDir y = if y = x then (o.map Vertex.isDir).getD false else g.isDir y := by
  unfold isDir
  rw [put_apply]
  split_ifs <;> rfl

theorem entries_mapEntries (k : List (β × α) → List (β × α)) (hk : k [] = [] ∨ (g x).isSome) :
    (alter g x (mapEntries k)).entries y = if y = x then k (g.entries x) else g.entries y := by
  rw [alter, entries_put, Option.map_map]
  unfold entries
  cases hv : g x with
  | none =>
    rw [hv] at hk
    simp [hk.resolve_right (by simp)]
  | some v => rfl

@[simp] theorem entries_mapParent : (alter g x (mapParent k)).entries y = g.entries y := by
  rw [alter, entries_put, Option.map_map]
  split_ifs with h
  · rw [h]
    rfl
  · rfl

theorem parents_mapParent (hk : k [] = [] ∨ (g x).isSome) :
    (alter g x (mapParent k)).parents y = if y = x then k (g.parents x) else g.parents y := by
  rw [alter, parents_put, Option.map_map]
  unfold parents
  cases hv : g x with
  | none =>
    rw [hv] at hk
    simp [hk.resolve_right (by simp)]
  | some v => rfl

@[simp] theorem parents_mapEntries {k : List (β × α) → List (β × α)} :
    (alter g x (mapEntries k)).parents y = g.parents y := by
  rw [alter, parents_put, Option.map_map]
  split_ifs with h
  · rw [h]
    rfl
  · rfl

@[simp] theorem isDir_mapEntries {k : List (β × α) → List (β × α)} :
    (alter g x (mapEntries k)).isDir y = g.isDir y := by
  rw [alter, isDir_put, Option.map_map]
  split_ifs with h
  · rw [h]
    rfl
  · rfl

@[simp] theorem isDir_mapParent : (alter g x (mapParent k)).isDir y = g.isDir y := by
  rw [alter, isDir_put, Option.map_map]
  split_ifs with h
  · rw [h]
    rfl
  · rfl

theorem isSome_alter {f : Vertex α β → Vertex α β} : (alter g x f y).isSome = (g y).isSome := by
  rw [alter, put_apply]
  split_ifs with h
  · rw [h, isSome_map]
  · rfl

omit [DecidableEq α] in
theorem isSome_of_isDir (hd : g.isDir d) : (g d).isSome := by
  unfold isDir at hd
  cases hv : g d with
  | none => simp [hv] at hd
  | some v => rfl

@[simp] theorem entries_cut [BEq (β × α)] :
    (cut g d e x).entries y = if y = d then (g.entries d).erase e else g.entries y := by
  rw [cut, entries_mapParent, entries_mapEntries _ (Or.inl rfl)]

@[simp] theorem parents_cut [BEq (β × α)] :
    (cut g d e x).parents y = if y = x then (g.parents x).erase d else g.parents y := by
  rw [cut, parents_mapParent (Or.inl rfl), parents_mapEntries, parents_mapEntries]

@[simp] theorem isDir_cut [BEq (β × α)] : (cut g d e x).isDir y = g.isDir y := by
  rw [cut, isDir_mapParent, isDir_mapEntries]

theorem entries_attach (hd : g.isDir d) :
    (attach r g d label x).entries y = if y = d then (g.entries d).orderedInsert r (label, x) else g.entries y := by
  rw [attach, entries_mapParent, entries_mapEntries _ (Or.inr (isSome_of_isDir hd))]

theorem parents_attach (hx : (g x).isSome) :
    (attach r g d label x).parents y = if y = x then g.parents x ++ [d] else g.parents y := by
  rw [attach, parents_mapParent (Or.inr (by rwa [isSome_alter])), parents_mapEntries, parents_mapEntries]

@[simp] theorem isDir_attach : (attach r g d label x).isDir y = g.isDir y := by
  rw [attach, isDir_mapParent, isDir_mapEntries]

/-! ## The ledger of edges -/

namespace Ledger

section

variable (h : Ledger root g)
include h

theorem isDir_of_parent (hp : d ∈ g.parents x) : g.isDir d := by
  by_contra hd
  have hc : 0 < (g.parents x).count d := count_pos_iff.2 hp
  rw [← h.edges, h.files d (by simpa using hd)] at hc
  simp at hc

section

variable (he : e ∈ g.entries d)
include he

theorem parent_of_entry : d ∈ g.parents e.2 := by
  have hc : 0 < ((g.entries d).map Prod.snd).count e.2 := count_pos_iff.2 (mem_map_of_mem he)
  rw [h.edges] at hc
  exact count_pos_iff.1 hc

theorem isDir_of_entry : g.isDir d := h.isDir_of_parent (h.parent_of_entry he)

theorem ne_root_of_entry : e.2 ≠ root := by
  intro hr
  have hp := h.parent_of_entry he
  rw [hr, h.root_parents] at hp
  cases hp

theorem cut [BEq (β × α)] [LawfulBEq (β × α)] : Ledger root (cut g d e e.2) where
  root_dir := by rw [isDir_cut, h.root_dir]
  root_parents := by rw [parents_cut, if_neg (h.ne_root_of_entry he).symm, h.root_parents]
  files := by
    intro y hy
    rw [isDir_cut] at hy
    have hn : y ≠ d := fun heq => by simp [heq, h.isDir_of_entry he] at hy
    rw [entries_cut, if_neg hn, h.files y hy]
  edges := by
    intro d' x
    have hc := h.edges d' x
    rw [entries_cut, parents_cut]
    by_cases hd : d' = d
    · subst hd
      by_cases hx : x = e.2
      · subst hx
        have hp := (perm_cons_erase he).map Prod.snd
        rw [if_pos rfl, if_pos rfl, count_erase_self, ← hc, hp.count_eq, map_cons,
          count_cons_self, Nat.add_sub_cancel]
      · have hp := (perm_cons_erase he).map Prod.snd
        rw [if_pos rfl, if_neg hx, ← hc, hp.count_eq, map_cons, count_cons_of_ne (Ne.symm hx)]
    · rw [if_neg hd, hc]
      split_ifs with hx
      · rw [hx, count_erase_of_ne hd]
      · rfl

end

theorem attach (hd : g.isDir d) (hx : (g x).isSome) (hr : x ≠ root) : Ledger root (attach r g d label x) where
  root_dir := by rw [isDir_attach, h.root_dir]
  root_parents := by rw [parents_attach hx, if_neg hr.symm, h.root_parents]
  files := by
    intro y hy
    rw [isDir_attach] at hy
    have hn : y ≠ d := fun heq => by simp [heq, hd] at hy
    rw [entries_attach hd, if_neg hn, h.files y hy]
  edges := by
    intro d' y
    have hc := h.edges d' y
    have hi := (((g.entries d).perm_orderedInsert r (label, x)).map Prod.snd).count_eq y
    rw [entries_attach hd, parents_attach hx]
    by_cases hd' : d' = d <;> by_cases hy : y = x
    · subst hd' hy
      simp [hi, hc]
    · subst hd'
      simp [hi, hc, hy, Ne.symm hy]
    · subst hy
      simp [hc, hd', Ne.symm hd']
    · simp [hc, hd', hy]

theorem erase (hp : g.parents x = []) (he : g.entries x = []) (hr : x ≠ root) : Ledger root (put g x none) where
  root_dir := by rw [isDir_put, if_neg hr.symm, h.root_dir]
  root_parents := by rw [parents_put, if_neg hr.symm, h.root_parents]
  files := by
    intro y hy
    rw [isDir_put] at hy
    rw [entries_put]
    split_ifs with hyx
    · rfl
    · exact h.files y (by rwa [if_neg hyx] at hy)
  edges := by
    intro d y
    have hen : (put g x none).entries d = g.entries d := by
      rw [entries_put]
      split_ifs with hd
      · rw [hd, he, map_none, getD_none]
      · rfl
    have hpa : (put g x none).parents y = g.parents y := by
      rw [parents_put]
      split_ifs with hy
      · rw [hy, hp, map_none, getD_none]
      · rfl
    rw [hen, hpa, h.edges]

theorem add (hn : g x = none) (b : Bool) : Ledger root (put g x (some ⟨[], [], b⟩)) where
  root_dir := by
    have hr : root ≠ x := fun heq => by simpa [isDir, heq, hn] using h.root_dir
    rw [isDir_put, if_neg hr, h.root_dir]
  root_parents := by
    rw [parents_put]
    split_ifs
    · rfl
    · exact h.root_parents
  files := by
    intro y hy
    rw [isDir_put] at hy
    rw [entries_put]
    split_ifs with hyx
    · rfl
    · exact h.files y (by rwa [if_neg hyx] at hy)
  edges := by
    intro d y
    have hen : (put g x (some ⟨[], [], b⟩)).entries d = g.entries d := by
      rw [entries_put]
      split_ifs with hd
      · simp [entries, hd, hn]
      · rfl
    have hp : (put g x (some ⟨[], [], b⟩)).parents y = g.parents y := by
      rw [parents_put]
      split_ifs with hy
      · simp [parents, hy, hn]
      · rfl
    rw [hen, hp, h.edges]

end

end Ledger

/-! ## Trees -/

omit [DecidableEq α] in
theorem up_congr {g' : Graph α β} (hd : g'.isDir y = g.isDir y)
    (hp : g.isDir y → g'.parents y = g.parents y) : g'.up y = g.up y := by
  unfold up
  rw [hd]
  split_ifs with h
  · rw [hp h]
  · rfl

omit [DecidableEq α] in
theorem mem_parents_of_up (h : g.up x = some d) : d ∈ g.parents x := by
  unfold up at h
  split_ifs at h
  exact mem_of_mem_head? h

theorem Ledger.up_root (h : Ledger root g) : g.up root = none := by
  simp [up, h.root_parents]

theorem Ledger.not_above_of_empty (h : Ledger root g) (he : g.entries x = []) (hn : y ≠ x) : ¬ Above g.up y x := by
  intro ha
  rcases Relation.ReflTransGen.cases_tail ha with heq | ⟨z, _, hz⟩
  · exact hn heq.symm
  · have hc : 0 < (g.parents z).count x := count_pos_iff.2 (mem_parents_of_up hz)
    rw [← h.edges, he] at hc
    simp at hc

namespace Tree

section

variable (h : Tree root g)
include h

theorem of_ledger {g' : Graph α β} (hl : Ledger root g')
    (hd : ∀ y, g'.isDir y = g.isDir y) (hp : ∀ y, g.isDir y → g'.parents y = g.parents y) :
    Tree root g' ∧ g'.up = g.up := by
  have hup : g'.up = g.up := funext fun y => up_congr (hd y) (hp y)
  refine ⟨{ hl with single := ?_, reaches := ?_ }, hup⟩
  · intro y hy hr
    rw [hd] at hy
    rw [hp y hy, h.single y hy hr]
  · intro y hy
    rw [hd] at hy
    rw [hup]
    exact h.reaches y hy

theorem cut_leaf [BEq (β × α)] [LawfulBEq (β × α)] (he : e ∈ g.entries d) (hl : g.isDir e.2 = false) :
    Tree root (cut g d e e.2) ∧ (cut g d e e.2).up = g.up := by
  refine h.of_ledger (h.toLedger.cut he) (fun _ => isDir_cut) fun y hy => ?_
  have hn : y ≠ e.2 := fun heq => by simp [heq, hl] at hy
  rw [parents_cut, if_neg hn]

theorem attach_leaf (hd : g.isDir d) (hx : (g x).isSome) (hl : g.isDir x = false) :
    Tree root (attach r g d label x) := by
  have hr : x ≠ root := fun heq => by simp [heq, h.root_dir] at hl
  refine (h.of_ledger (h.toLedger.attach hd hx hr) (fun _ => isDir_attach) fun y hy => ?_).1
  have hn : y ≠ x := fun heq => by simp [heq, hl] at hy
  rw [parents_attach hx, if_neg hn]

theorem erase_leaf (hp : g.parents x = []) (hl : g.isDir x = false) :
    Tree root (put g x none) ∧ (put g x none).up = g.up := by
  have hr : x ≠ root := fun heq => by simp [heq, h.root_dir] at hl
  refine h.of_ledger (h.toLedger.erase hp (h.files x hl) hr) (fun y => ?_) fun y hy => ?_
  · rw [isDir_put]
    split_ifs with hyx
    · rw [hyx, hl]
      rfl
    · rfl
  · have hn : y ≠ x := fun heq => by simp [heq, hl] at hy
    rw [parents_put, if_neg hn]

theorem parents_eq (he : e ∈ g.entries d) (hd : g.isDir e.2) : g.parents e.2 = [d] := by
  obtain ⟨p, hp⟩ := length_eq_one_iff.1 (h.single e.2 hd (h.toLedger.ne_root_of_entry he))
  have hm := h.toLedger.parent_of_entry he
  rw [hp] at hm ⊢
  rw [mem_singleton.1 hm]

theorem cut_dir [BEq (β × α)] [LawfulBEq (β × α)] (he : e ∈ g.entries d) (hd : g.isDir e.2) :
    Hanging root (cut g d e e.2) e.2 where
  toLedger := h.toLedger.cut he
  single := by
    intro y hy hr hn
    rw [isDir_cut] at hy
    rw [parents_cut, if_neg hn, h.single y hy hr]
  ne_root := h.toLedger.ne_root_of_entry he
  dir := by rw [isDir_cut, hd]
  loose := by rw [parents_cut, if_pos rfl, h.parents_eq he hd, erase_cons_head]
  reaches := by
    intro y hy
    rw [isDir_cut] at hy
    refine (h.reaches y hy).above_or fun z hz => up_congr isDir_cut fun _ => ?_
    rw [parents_cut, if_neg hz]

end

end Tree

namespace Hanging

section

variable (h : Hanging root g x)
include h

theorem up_eq_none : g.up x = none := by
  simp [up, h.loose]

theorem not_above (hd : Reaches g.up root d) : ¬ Above g.up d x := by
  intro ha
  induction hd with
  | root =>
    rcases Relation.ReflTransGen.cases_head ha with heq | ⟨w, hw, _⟩
    · exact h.ne_root heq.symm
    · simp [Up, h.toLedger.up_root] at hw
  | @up z w hz _ ih =>
    rcases Relation.ReflTransGen.cases_head ha with heq | ⟨v, hv, hr⟩
    · simp [heq, h.up_eq_none] at hz
    · obtain rfl : v = w := Option.some.inj (hv.symm.trans hz)
      exact ih hr

/-- **Attaching.** A directory that was cut off makes a tree again below any directory that reaches the root. -/
theorem attach (hd : g.isDir d) (hr : Reaches g.up root d) : Tree root (attach r g d label x) := by
  have hs : (g x).isSome := isSome_of_isDir h.dir
  have hp : (DirectoryTree.attach r g d label x).parents x = [d] := by
    rw [parents_attach hs, if_pos rfl, h.loose, nil_append]
  refine { h.toLedger.attach hd hs h.ne_root with single := ?_, reaches := ?_ }
  · intro y hy hro
    rw [isDir_attach] at hy
    by_cases hyx : y = x
    · rw [hyx, hp, length_singleton]
    · rw [parents_attach hs, if_neg hyx, h.single y hy hro hyx]
  · intro y hy
    rw [isDir_attach] at hy
    refine Reaches.move (h.reaches y hy) (fun z hz => up_congr isDir_attach fun _ => ?_) ?_ hr (h.not_above hr)
    · rw [parents_attach hs, if_neg hz]
    · rw [up, isDir_attach, h.dir, if_pos rfl, hp, head?_cons]

theorem erase (he : g.entries x = []) : Tree root (put g x none) := by
  refine { h.toLedger.erase h.loose he h.ne_root with single := ?_, reaches := ?_ }
  all_goals
    intro y hy
    rw [isDir_put] at hy
    have hn : y ≠ x := fun heq => by simp [heq] at hy
    rw [if_neg hn] at hy
  · intro hr
    rw [parents_put, if_neg hn, h.single y hy hr hn]
  · have ha := h.toLedger.not_above_of_empty he hn
    refine ((h.reaches y hy).resolve_right ha).of_not_above (fun z hz => up_congr ?_ fun _ => ?_) ha
    · rw [isDir_put, if_neg hz]
    · rw [parents_put, if_neg hz]

end

end Hanging

theorem Tree.add (h : Tree root g) (hn : g x = none) (hd : g.isDir d) (b : Bool) :
    Tree root (DirectoryTree.attach r (put g x (some ⟨[], [], b⟩)) d label x) := by
  have hold (y : α) (hy : g.isDir y) : y ≠ x := fun heq => by simp [isDir, heq, hn] at hy
  have hdx := hold d hd
  have hl := h.toLedger.add hn b
  have hp (y : α) (hy : y ≠ x) : (put g x (some ⟨[], [], b⟩)).parents y = g.parents y := by
    rw [parents_put, if_neg hy]
  have hdi (y : α) (hy : y ≠ x) : (put g x (some ⟨[], [], b⟩)).isDir y = g.isDir y := by
    rw [isDir_put, if_neg hy]
  have hs : (put g x (some ⟨[], [], b⟩)).isDir x = b := by
    rw [isDir_put, if_pos rfl]
    rfl
  cases b with
  | false =>
    refine Tree.attach_leaf (h.of_ledger hl (fun y => ?_) fun y hy => hp y (hold y hy)).1
      ((hdi d hdx).trans hd) (by simp) hs
    by_cases hy : y = x
    · rw [hy, hs, isDir, hn]
      rfl
    · exact hdi y hy
  | true =>
    have hr (y : α) (hy : g.isDir y) : Reaches (put g x (some ⟨[], [], true⟩)).up root y := by
      refine (h.reaches y hy).mono fun z p hz => ?_
      have hzx : z ≠ x := fun heq => by simp [up, isDir, heq, hn] at hz
      rw [up_congr (hdi z hzx) fun _ => hp z hzx, hz]
    have hro : x ≠ root := fun heq => hold root h.root_dir heq.symm
    refine Hanging.attach { hl with
      ne_root := hro, dir := hs, loose := ?_, single := ?_, reaches := ?_ } ((hdi d hdx).trans hd) (hr d hd)
    · intro y hy hyr hyx
      rw [hdi y hyx] at hy
      rw [hp y hyx, h.single y hy hyr]
    · rw [parents_put, if_pos rfl]
      rfl
    · intro y hy
      by_cases hyx : y = x
      · exact Or.inr (hyx ▸ .refl)
      · exact Or.inl (hr y (by rwa [hdi y hyx] at hy))

end Graph

end DirectoryTree
