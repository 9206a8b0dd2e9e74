/-
The tree of address ranges of the network topology (`master/itree.cc`).

- `itreeFind_run`: `itree_find` returns the id of the last interval that covers the address.

Bounds are 32-bit numbers, and `pred` and `succ` wrap around; `Ordered` shows that they never do.
-/
import Mathlib.Tactic

namespace SaunaFS.IntervalTree

/-! ## Trees -/

/-- the fields `from`, `to` and `id` of `itnode` -/
structure Interval where
  first : ℕ
  last : ℕ
  id : ℕ
deriving DecidableEq

inductive Itree where
  | nil
  | node (n : Interval) (left right : Itree)
deriving DecidableEq

open Itree

def succ (x : ℕ) : ℕ := (x + 1) % 2 ^ 32

def pred (x : ℕ) : ℕ := (x + (2 ^ 32 - 1)) % 2 ^ 32

def itreeFind (v : ℕ) : Itree → ℕ
  | nil => 0
  | node n l r => if n.first ≤ v ∧ v ≤ n.last then n.id else if v < n.first then itreeFind v l else itreeFind v r

/-! ## Additions and deletions -/

/-- the nodes on the way to the right; `itree_remove` counts them without the first one, on both sides -/
def rightLength : Itree → ℕ
  | nil => 0
  | node _ _ r => rightLength r + 1

def leftLength : Itree → ℕ
  | nil => 0
  | node _ l _ => leftLength l + 1

/-- unlinks the leftmost node of the tree with the root `n` -/
def takeFirst (n : Interval) : Itree → Itree → Interval × Itree
  | nil, r => (n, r)
  | node m l' r', r => ((takeFirst m l' r').1, node n (takeFirst m l' r').2 r)

/-- unlinks the rightmost node -/
def takeLast (n : Interval) (l : Itree) : Itree → Interval × Itree
  | nil => (n, l)
  | node m l' r' => ((takeLast m l' r').1, node n l (takeLast m l' r').2)

/-- `itree_remove` of the node `n`: a node from the longer side takes its place -/
def itreeRemove (n : Interval) : Itree → Itree → Itree
  | nil, r => r
  | l, nil => l
  | node a l l', node b r r' =>
    let left := rightLength l'
    let left := if left = leftLength r then left + (n.first ^^^ n.last) % 2 else left
    if left < leftLength r then node (takeFirst b r r').1 (node a l l') (takeFirst b r r').2
    else node (takeLast a l l').1 (takeLast a l l').2 (node b r r')

mutual

def itreeDelete (f t : ℕ) : Itree → Itree
  | nil => nil
  | node n l r =>
    if t < n.first then node n (itreeDelete f t l) r
    else if n.last < f then node n l (itreeDelete f t r)
    else if f ≤ n.first ∧ n.last ≤ t then
      itreeRemove n (if f < n.first then itreeDelete f (pred n.first) l else l)
        (if n.last < t then itreeDelete (succ n.last) t r else r)
    else if n.first ≤ f ∧ t ≤ n.last then
      if f = n.first then node { n with first := succ t } l r
      else if t = n.last then node { n with last := pred f } l r
      else if (t ^^^ f) % 2 ≠ 0 then node { n with last := pred f } l (itreeAdd (succ t) n.last n.id r)
      else node { n with first := succ t } (itreeAdd n.first (pred f) n.id l) r
    else if f < n.first then node { n with first := succ t } (itreeDelete f t l) r
    else if n.last < t then node { n with last := pred f } l (itreeDelete f t r)
    else node n l r

def itreeAdd (f t id : ℕ) : Itree → Itree
  | nil => node ⟨f, t, id⟩ nil nil
  | node n l r =>
    if t < n.first then node n (itreeAdd f t id l) r
    else if n.last < f then node n l (itreeAdd f t id r)
    else if f ≤ n.first ∧ n.last ≤ t then
      node ⟨f, t, id⟩ (if f < n.first then itreeDelete f (pred n.first) l else l)
        (if n.last < t then itreeDelete (succ n.last) t r else r)
    else if n.first ≤ f ∧ t ≤ n.last then
      node ⟨f, t, id⟩ (if n.first < f then itreeAdd n.first (pred f) n.id l else l)
        (if t < n.last then itreeAdd (succ t) n.last n.id r else r)
    else if f < n.first then node { n with first := succ t } (itreeAdd f t id l) r
    else if n.last < t then node { n with last := pred f } l (itreeAdd f t id r)
    else node n l r

end

def itreeAddInterval (f t id : ℕ) (root : Itree) : Itree :=
  if id = 0 then if t < f then itreeDelete t f root else itreeDelete f t root
  else if t < f then itreeAdd t f id root
  else itreeAdd f t id root

/-! ## Rebalancing -/

/-- the nodes in order; the source links them through their left pointers -/
def itreeTolist : Itree → List Interval
  | nil => []
  | node n l r => itreeTolist l ++ n :: itreeTolist r

/-- merges neighbours with the same id -/
def itreeSimplify (n : Interval) : List Interval → List Interval
  | [] => [n]
  | m :: rest =>
    if n.id = m.id ∧ succ n.last = m.first then itreeSimplify { n with last := m.last } rest
    else n :: itreeSimplify m rest

/-- the node in the middle becomes the root -/
def itreeTotree (l : List Interval) : Itree :=
  match h : l.drop (l.length / 2) with
  | [] => nil
  | n :: rest => node n (itreeTotree (l.take (l.length / 2))) (itreeTotree rest)
termination_by l.length
decreasing_by
  all_goals
    have hlength := congrArg List.length h
    simp at hlength ⊢
    omega

def itreeRebalance (root : Itree) : Itree :=
  match itreeTolist root with
  | [] => nil
  | n :: rest => itreeTotree (itreeSimplify n rest)

/-! ## Ordered trees -/

/-- the intervals are apart, and what can be found in a child is on its side of the node -/
def Itree.Ordered : Itree → Prop
  | nil => True
  | node n l r => n.first ≤ n.last ∧ n.last < 2 ^ 32 ∧ n.id ≠ 0 ∧ l.Ordered ∧ r.Ordered ∧
      ∀ v, (itreeFind v l ≠ 0 → v < n.first) ∧ (itreeFind v r ≠ 0 → n.last < v)

variable {l r : Itree} {a b x : ℕ} {n : Interval}

theorem itreeFind_node (v : ℕ) (n : Interval) : itreeFind v (node n l r) =
      if n.first ≤ v ∧ v ≤ n.last then n.id else if v < n.first then itreeFind v l else itreeFind v r := rfl

@[simp] theorem itreeFind_nil {v : ℕ} : itreeFind v nil = 0 := rfl

/-- the tree `n'` is in order, and what can be found in it is given -/
def Finds (n' : Itree) (found : ℕ → ℕ) : Prop := n'.Ordered ∧ ∀ v, itreeFind v n' = found v

/-- the same can be found in the tree `n'` as in the tree `n` -/
def Keeps (n n' : Itree) : Prop := n'.Ordered ∧ ∀ v, itreeFind v n' = itreeFind v n

theorem Finds.node {i : ℕ} {fl fr found : ℕ → ℕ} (hl : Finds l fl) (hr : Finds r fr)
    (ha : a ≤ b) (hb : b < 2 ^ 32) (hi : i ≠ 0) (h : ∀ v, (fl v ≠ 0 → v < a) ∧ (fr v ≠ 0 → b < v) ∧
      (if a ≤ v ∧ v ≤ b then i else if v < a then fl v else fr v) = found v) : Finds (node ⟨a, b, i⟩ l r) found := by
  simp only [← hl.2, ← hr.2] at h
  exact ⟨⟨ha, hb, hi, hl.1, hr.1, fun v => ⟨(h v).1, (h v).2.1⟩⟩, fun v => (h v).2.2⟩

/-! ## Lists of nodes -/

/-- a list of nodes as a tree without left children -/
def spine : List Interval → Itree
  | [] => nil
  | n :: rest => node n nil (spine rest)

/-- a list is the same as a node in its middle with the halves as its children -/
theorem spine_append {l₁ : List Interval} {l₂ : List Interval} :
    ((spine (l₁ ++ n :: l₂)).Ordered ↔ (node n (spine l₁) (spine l₂)).Ordered) ∧
      ((node n (spine l₁) (spine l₂)).Ordered →
        ∀ v, itreeFind v (spine (l₁ ++ n :: l₂)) = itreeFind v (node n (spine l₁) (spine l₂))) := by
  induction l₁ with
  | nil => exact ⟨Iff.rfl, fun _ _ => rfl⟩
  | cons m l₁ ih =>
    obtain ⟨ihord, ihfind⟩ := ih
    simp only [List.cons_append, spine]
    generalize spine (l₁ ++ n :: l₂) = whole, spine l₁ = l, spine l₂ = r at *
    -- the node `m` is in front of all others
    have hl (h : (node n (node m nil l) r).Ordered) : (node n l r).Ordered ∧ m.last < n.first := by
      obtain ⟨g1, g2, gid, ⟨h1, h2, hi, -, gl, hs⟩, gr, gside⟩ := h
      refine ⟨⟨g1, g2, gid, gl, gr, fun v => ?_⟩, (gside m.last).1 (by rwa [itreeFind_node, if_pos ⟨h1, le_rfl⟩])⟩
      have := hs v
      have := gside v
      simp only [itreeFind_node, itreeFind_nil] at *
      split_ifs at * <;> omega
    refine ⟨⟨fun h => ?_, fun h => ?_⟩, fun h v => ?_⟩
    · obtain ⟨h1, h2, hi, -, hw, hs⟩ := h
      have hn := ihord.1 hw
      have ⟨g1, g2, gid, gl, gr, gside⟩ := hn
      simp only [ihfind hn] at hs
      have hm : m.last < n.first := (hs n.first).2 (by rwa [itreeFind_node, if_pos ⟨le_rfl, g1⟩])
      refine ⟨g1, g2, gid, ⟨h1, h2, hi, trivial, gl, fun v => ?_⟩, gr, fun v => ?_⟩
      all_goals
        have := hs v
        have := gside v
        simp only [itreeFind_node, itreeFind_nil] at *
        split_ifs at * <;> omega
    all_goals
      obtain ⟨hn, hm⟩ := hl h
      obtain ⟨g1, g2, gid, ⟨h1, h2, hi, -, gl, hs⟩, gr, gside⟩ := h
    · refine ⟨h1, h2, hi, trivial, ihord.2 hn, fun v => ?_⟩
      rw [ihfind hn]
      have := hs v
      simp only [itreeFind_node, itreeFind_nil] at *
      split_ifs at * <;> omega
    · rw [itreeFind_node, ihfind hn]
      simp only [itreeFind_node, itreeFind_nil] at *
      split_ifs at * <;> omega

theorem itreeTolist_spec {n : Itree} : ((spine (itreeTolist n)).Ordered ↔ n.Ordered) ∧
      (n.Ordered → ∀ v, itreeFind v (spine (itreeTolist n)) = itreeFind v n) := by
  induction n with
  | nil => exact ⟨Iff.rfl, fun _ _ => rfl⟩
  | node n l r ihl ihr =>
    obtain ⟨hol, hfl⟩ := ihl
    obtain ⟨hor, hfr⟩ := ihr
    obtain ⟨ho, hf⟩ := spine_append
    have hn : (node n (spine (itreeTolist l)) (spine (itreeTolist r))).Ordered ↔ (node n l r).Ordered := by
      simp only [Ordered, hol, hor]
      grind
    refine ⟨ho.trans hn, fun h v => ?_⟩
    obtain ⟨-, -, -, hl, hr, -⟩ := id h
    rw [itreeTolist, hf (hn.2 h), itreeFind_node, hfl hl, hfr hr, itreeFind_node]

/-- the shape of a tree does not matter -/
theorem keeps_of_tolist {n n' : Itree} (h : n.Ordered) (he : itreeTolist n' = itreeTolist n) : Keeps n n' := by
  have hn : n'.Ordered := by rwa [← itreeTolist_spec.1, he, itreeTolist_spec.1]
  refine ⟨hn, fun v => ?_⟩
  rw [← itreeTolist_spec.2 hn, he, itreeTolist_spec.2 h]

theorem takeFirst_spec (h : (node n l r).Ordered) :
    Keeps (node n l r) (node (takeFirst n l r).1 nil (takeFirst n l r).2) := by
  refine keeps_of_tolist h ?_
  clear h
  induction l generalizing n r with
  | nil => rfl
  | node m l' r' ih _ => simpa [takeFirst, itreeTolist] using congrArg (· ++ n :: itreeTolist r) (ih (n := m) (r := r'))

theorem takeLast_spec (h : (node n l r).Ordered) :
    Keeps (node n l r) (node (takeLast n l r).1 (takeLast n l r).2 nil) := by
  refine keeps_of_tolist h ?_
  clear h
  induction r generalizing n l with
  | nil => rfl
  | node m l' r' _ ih => simpa [takeLast, itreeTolist] using ih (n := m) (l := l')

theorem itreeRemove_spec {fl fr : ℕ → ℕ} (hl : Finds l fl) (hr : Finds r fr) (hab : a ≤ b)
    (hs : ∀ v, (fl v ≠ 0 → v < a) ∧ (fr v ≠ 0 → b < v)) :
    Finds (itreeRemove n l r) fun v => if v < a then fl v else fr v := by
  unfold itreeRemove
  split
  · refine ⟨hr.1, fun v => ?_⟩
    have := hs v
    have := hl.2 v
    rw [hr.2]
    simp only [itreeFind_nil] at *
    split_ifs <;> omega
  · refine ⟨hl.1, fun v => ?_⟩
    have := hs v
    have := hr.2 v
    rw [hl.2]
    simp only [itreeFind_nil] at *
    split_ifs <;> omega
  · rename_i m l l' k r r'
    dsimp only
    generalize (if rightLength l' = _ then _ else _) = left
    split
    · have hsp := takeFirst_spec hr.1
      generalize takeFirst k r r' = taken at *
      obtain ⟨⟨x, y, i⟩, rest⟩ := taken
      obtain ⟨⟨g1, g2, gid, -, grest, gside⟩, gfind⟩ := hsp
      simp only [hr.2] at gfind
      have ha : b < x := by
        have hf := gfind x
        rw [itreeFind_node, if_pos ⟨le_rfl, g1⟩] at hf
        exact (hs _).2 (ne_of_eq_of_ne hf.symm gid)
      refine hl.node ⟨grest, fun _ => rfl⟩ g1 g2 gid fun v => ?_
      have := hs v
      have := gside v
      have hv := gfind v
      rw [itreeFind_node, itreeFind_nil] at hv
      dsimp only at *
      split_ifs at hv ⊢ <;> omega
    · have hsp := takeLast_spec hl.1
      generalize takeLast m l l' = taken at *
      obtain ⟨⟨x, y, i⟩, rest⟩ := taken
      obtain ⟨⟨g1, g2, gid, grest, -, gside⟩, gfind⟩ := hsp
      simp only [hl.2] at gfind
      have hb : y < a := by
        have hla := gfind y
        rw [itreeFind_node, if_pos ⟨g1, le_rfl⟩] at hla
        exact (hs _).1 (ne_of_eq_of_ne hla.symm gid)
      refine Finds.node ⟨grest, fun _ => rfl⟩ hr g1 g2 gid fun v => ?_
      have := hs v
      have := gside v
      have hv := gfind v
      rw [itreeFind_node, itreeFind_nil] at hv
      dsimp only at *
      split_ifs at hv ⊢ <;> omega

theorem pred_add_one (h : 0 < x) (hx : x ≤ 2 ^ 32) : pred x + 1 = x := by
  unfold pred
  omega

theorem succ_eq (h : x + 1 < 2 ^ 32) : succ x = x + 1 := Nat.mod_eq_of_lt h

/-- `itree_delete` and `itree_add` set what can be found in a range -/
def Works (n : Itree) : Prop :=
  ∀ ⦃f t⦄, n.Ordered → f ≤ t → t < 2 ^ 32 →
    Finds (itreeDelete f t n) (fun v => if f ≤ v ∧ v ≤ t then 0 else itreeFind v n) ∧
    ∀ id, id ≠ 0 → Finds (itreeAdd f t id n) fun v => if f ≤ v ∧ v ≤ t then id else itreeFind v n

section Node

variable {n : Interval} {l r : Itree} {f t a b i id : ℕ}

/-- the two functions on a range that ends below `a` or begins above `b`, if there is one -/
theorem Works.below (hw : Works l) (hl : l.Ordered) (ha : a ≤ 2 ^ 32) :
    Finds (if f < a then itreeDelete f (pred a) l else l) (fun v => if f ≤ v ∧ v < a then 0 else itreeFind v l) ∧
    (i ≠ 0 → Finds (if f < a then itreeAdd f (pred a) i l else l)
      fun v => if f ≤ v ∧ v < a then i else itreeFind v l) := by
  by_cases hlt : f < a
  · have hp := pred_add_one (x := a) (by omega) ha
    obtain ⟨hd, had⟩ := hw hl (f := f) (t := pred a) (by omega) (by omega)
    simp only [if_pos hlt, ← Nat.lt_succ_iff, Nat.succ_eq_add_one, hp] at hd had ⊢
    exact ⟨hd, had i⟩
  · have hn (v : ℕ) : ¬ (f ≤ v ∧ v < a) := by omega
    simp only [if_neg hlt, hn, if_false]
    exact ⟨⟨hl, fun v => rfl⟩, fun _ => ⟨hl, fun v => rfl⟩⟩

theorem Works.above (hw : Works r) (hr : r.Ordered) (ht : t < 2 ^ 32) :
    Finds (if b < t then itreeDelete (succ b) t r else r) (fun v => if b < v ∧ v ≤ t then 0 else itreeFind v r) ∧
    (i ≠ 0 → Finds (if b < t then itreeAdd (succ b) t i r else r)
      fun v => if b < v ∧ v ≤ t then i else itreeFind v r) := by
  by_cases hl : b < t
  · obtain ⟨hd, ha⟩ := hw hr (f := b + 1) (t := t) (by omega) ht
    simp only [if_pos hl, succ_eq (show b + 1 < 2 ^ 32 by omega)]
    exact ⟨hd, ha i⟩
  · have hn (v : ℕ) : ¬ (b < v ∧ v ≤ t) := by omega
    simp only [if_neg hl, hn, if_false]
    exact ⟨⟨hr, fun v => rfl⟩, fun _ => ⟨hr, fun v => rfl⟩⟩

/-- the cases of both functions differ in the children and the bounds of the new node; what can be found in it then
follows from the order of the old one -/
theorem Works.node (hwl : Works l) (hwr : Works r) : Works (node n l r) := by
  intro f t h hft ht
  have ⟨h1, h2, hi, hl, hr, hs⟩ := h
  have hkl : Finds l fun v => itreeFind v l := ⟨hl, fun _ => rfl⟩
  have hkr : Finds r fun v => itreeFind v r := ⟨hr, fun _ => rfl⟩
  obtain ⟨hcl, hil⟩ := hwl hl hft ht
  obtain ⟨hcr, hir⟩ := hwr hr hft ht
  have hsu : t < n.last → succ t = t + 1 := fun hlt => succ_eq (by omega)
  have hpr : n.first < f → pred f + 1 = f := fun hlt => pred_add_one (by omega) (by omega)
  have hdl := (hwl.below (f := f) (a := n.first) (i := 0) hl (by omega)).1
  have hdr := (hwr.above (b := n.last) (i := 0) hr ht).1
  have hal := (hwl.below (f := n.first) (a := f) (i := n.id) hl (by omega)).2 hi
  have har := (hwr.above (b := t) (i := n.id) hr h2).2 hi
  rw [itreeDelete]
  simp only [itreeAdd]
  generalize (if f < n.first then itreeDelete f (pred n.first) l else l) = l' at *
  generalize (if n.last < t then itreeDelete (succ n.last) t r else r) = r' at *
  refine ⟨?_, fun id hi' => ?_⟩
  · split_ifs with hle hri hin har' hfi hla hod hb hab
    on_goal 1 => refine hcl.node hkr h1 h2 hi fun v => ?_
    on_goal 2 => refine hkl.node hcr h1 h2 hi fun v => ?_
    on_goal 3 =>
      obtain ⟨ho, hf⟩ := itreeRemove_spec (n := n) hdl hdr h1 fun v => by
        have := hs v
        split_ifs <;> omega
      refine ⟨ho, fun v => ?_⟩
      rw [hf]
    on_goal 4 =>
      rw [hsu (by omega)]
      refine hkl.node hkr (by omega) h2 hi fun v => ?_
    on_goal 5 =>
      have hp := hpr (by omega)
      refine hkl.node hkr (by omega) (by omega) hi fun v => ?_
    on_goal 6 =>
      have hp := hpr (by omega)
      rw [if_pos (by omega)] at har
      refine hkl.node har (by omega) (by omega) hi fun v => ?_
    on_goal 7 =>
      rw [hsu (by omega)]
      rw [if_pos (by omega)] at hal
      refine hal.node hkr (by omega) h2 hi fun v => ?_
    on_goal 8 =>
      rw [hsu (by omega)]
      refine hcl.node hkr (by omega) h2 hi fun v => ?_
    on_goal 9 =>
      have hp := hpr (by omega)
      refine hkl.node hcr (by omega) (by omega) hi fun v => ?_
    on_goal 10 => omega
    all_goals
      have := hs v
      simp only [itreeFind_node]
      split_ifs <;> omega
  · generalize (if n.first < f then itreeAdd n.first (pred f) n.id l else l) = l'' at *
    generalize (if t < n.last then itreeAdd (succ t) n.last n.id r else r) = r'' at *
    split_ifs with hle hri hin haro hb hab
    on_goal 1 => refine (hil id hi').node hkr h1 h2 hi fun v => ?_
    on_goal 2 => refine hkl.node (hir id hi') h1 h2 hi fun v => ?_
    on_goal 3 => refine hdl.node hdr hft ht hi' fun v => ?_
    on_goal 4 => refine hal.node har hft ht hi' fun v => ?_
    on_goal 5 =>
      rw [hsu (by omega)]
      refine (hil id hi').node hkr (by omega) h2 hi fun v => ?_
    on_goal 6 =>
      have hp := hpr (by omega)
      refine hkl.node (hir id hi') (by omega) (by omega) hi fun v => ?_
    on_goal 7 => omega
    all_goals
      have := hs v
      simp only [itreeFind_node]
      split_ifs <;> omega

end Node

theorem works {n : Itree} : Works n := by
  induction n with
  | nil =>
    intro f t _ hft ht
    refine ⟨⟨trivial, fun v => ?_⟩, fun id hi => ⟨⟨hft, ht, hi, trivial, trivial, by simp⟩, fun v => ?_⟩⟩
    · simp [itreeDelete]
    · simp [itreeAdd, itreeFind]
  | node n l r ihl ihr => exact ihl.node ihr

theorem itreeAddInterval_spec {n : Itree} (h : n.Ordered) {f t : ℕ} (hf : f < 2 ^ 32) (ht : t < 2 ^ 32) {id : ℕ} :
    Finds (itreeAddInterval f t id n) fun v => if min f t ≤ v ∧ v ≤ max f t then id else itreeFind v n := by
  unfold itreeAddInterval
  rcases lt_or_ge t f with hlt | hl
  · rw [if_pos hlt, if_pos hlt, min_eq_right hlt.le, max_eq_left hlt.le]
    obtain ⟨hd, ha⟩ := works h hlt.le hf
    split_ifs with hi
    · exact hi ▸ hd
    · exact ha id hi
  · rw [if_neg hl.not_gt, if_neg hl.not_gt, min_eq_left hl, max_eq_right hl]
    obtain ⟨hd, ha⟩ := works h hl ht
    split_ifs with hi
    · exact hi ▸ hd
    · exact ha id hi

/-! ## Rebalanced trees -/

theorem itreeSimplify_spec {l : List Interval} (h : (spine (n :: l)).Ordered) :
    Keeps (spine (n :: l)) (spine (itreeSimplify n l)) := by
  induction l generalizing n with
  | nil => exact ⟨h, fun v => rfl⟩
  | cons m l ih =>
    obtain ⟨h1, h2, hi, -, ⟨g1, g2, gid, -, hr, gside⟩, hs⟩ := h
    rw [itreeSimplify]
    split_ifs with hm
    · have hmn : n.last + 1 = m.first := by
        have hl : n.last < m.first := (hs m.first).2 (by rwa [spine, itreeFind_node, if_pos ⟨le_rfl, g1⟩])
        rw [← hm.2, succ_eq (by omega)]
      obtain ⟨ho, hf⟩ := ih (n := { n with last := m.last })
        ⟨by dsimp only; omega, g2, hi, trivial, hr, fun v => ⟨fun h => absurd rfl h, (gside v).2⟩⟩
      refine ⟨ho, fun v => ?_⟩
      rw [hf]
      simp only [spine, itreeFind_node, itreeFind_nil, hm.1]
      split_ifs <;> omega
    · obtain ⟨ho, hf⟩ := ih (n := m) ⟨g1, g2, gid, trivial, hr, gside⟩
      refine ⟨⟨h1, h2, hi, trivial, ho, fun v => ?_⟩, fun v => ?_⟩
      · rw [hf]
        exact hs v
      · rw [spine, itreeFind_node, hf]
        rfl

theorem itreeTolist_totree {l : List Interval} : itreeTolist (itreeTotree l) = l := by
  fun_induction itreeTotree l with
  | case1 l hd =>
    have hle := congrArg List.length hd
    rw [List.length_drop, List.length_nil] at hle
    exact (List.length_eq_zero_iff.1 (by omega)).symm
  | case2 l n rest hd ihl ihr => rw [itreeTolist, ihl, ihr, ← hd, List.take_append_drop]

theorem itreeRebalance_spec {n : Itree} (h : n.Ordered) : Keeps n (itreeRebalance n) := by
  obtain ⟨ho, hf⟩ := itreeTolist_spec (n := n)
  unfold itreeRebalance
  split
  · rename_i hn
    rw [hn] at hf
    exact ⟨trivial, hf h⟩
  · rename_i m l hl
    rw [hl] at ho hf
    obtain ⟨ho', hf'⟩ := itreeSimplify_spec (ho.2 h)
    obtain ⟨ht, hft⟩ := itreeTolist_spec (n := itreeTotree (itreeSimplify m l))
    rw [itreeTolist_totree] at ht hft
    exact ⟨ht.1 ho', fun v => ((hft (ht.1 ho') v).symm.trans (hf' v)).trans (hf h v)⟩

/-! ## Runs -/

inductive Op where
  | add (f t id : UInt32)
  | rebalance

def step (root : Itree) : Op → Itree
  | .add f t id => itreeAddInterval f.toNat t.toNat id.toNat root
  | .rebalance => itreeRebalance root

/-- the id of the last interval that covers the address; bounds in the wrong order are exchanged -/
def lastCovering (v id : ℕ) : Op → ℕ
  | .add f t id' => if min f.toNat t.toNat ≤ v ∧ v ≤ max f.toNat t.toNat then id'.toNat else id
  | .rebalance => id

/-- **The interval tree is an interval map.** After any calls a value is found under the number of the last range that
was added over it, in whatever shape the tree is. -/
theorem itreeFind_run (ops : List Op) (v : ℕ) : itreeFind v (ops.foldl step nil) = ops.foldl (lastCovering v) 0 := by
  suffices h : Finds (ops.foldl step nil) fun v => ops.foldl (lastCovering v) 0 from h.2 v
  induction ops using List.reverseRecOn with
  | nil => exact ⟨trivial, fun v => rfl⟩
  | append_singleton ops op ih =>
    obtain ⟨hord, hfind⟩ := ih
    simp only [List.foldl_append, List.foldl_cons, List.foldl_nil]
    cases op with
    | add f t id =>
      obtain ⟨hord', hfind'⟩ := itreeAddInterval_spec hord f.toNat_lt t.toNat_lt
      refine ⟨hord', fun v => ?_⟩
      simp only [step, hfind', lastCovering, hfind]
    | rebalance =>
      obtain ⟨hord', hfind'⟩ := itreeRebalance_spec hord
      exact ⟨hord', fun v => (hfind' v).trans (hfind v)⟩

/-- **Reversed ranges.** The range from 5 to 3 covers the addresses 3, 4 and 5. -/
theorem reversed_range_covers : itreeFind 4 ([Op.add 5 3 1].foldl step nil) = 1 := by decide

end SaunaFS.IntervalTree
