/-
Which parts of a chunk are missing, which are too many, and which may be removed: `ChunkCopiesCalculator` of
`common/chunk_copies_calculator.cc` over the goals of `common/goal.h`. The assignment that `optimize` gets from the
auction is a parameter.
-/
import Mathlib.Data.List.GetD
import SaunaFS.Chunks.ChunkPart

namespace SaunaFS.Chunks

open Finset List ChunkPartType List Prod

/-! ## Goals -/

/-- `MediaLabel`: the handle of a label -/
abbrev MediaLabel := UInt16

/-- `MediaLabel::kWildcard`, the highest handle -/
def wildcard : MediaLabel := 0xFFFF

/-- `Goal::Slice::Labels`: copies by label, in increasing order of the labels -/
abbrev Labels := List (MediaLabel × ℕ)

def countLabels (labels : Labels) : ℕ := (labels.map snd).sum

structure Slice where
  type : ℕ
  parts : List Labels
deriving DecidableEq

/-- `Goal`: the slices in increasing order of their types -/
abbrev Goal := List Slice

namespace Slice

def empty (t : ℕ) : Slice := ⟨t, replicate (expectedParts t) []⟩

/-- `operator[]` -/
def part (s : Slice) (i : ℕ) : Labels := s.parts.getD i []

def getExpectedCopies (s : Slice) : ℕ := (s.parts.map countLabels).sum

def evalRedundancyLevel (s : Slice) : ℤ :=
  if isStandard s.type then ((s.parts.map countLabels).sum : ℤ) - 1
  else if isXor s.type || isEC s.type then
    ((s.parts.map countLabels).countP (0 < ·) : ℤ) - getNumberOfDataParts s.type
  else -1

end Slice

open Slice

/-- `labels[label]++` -/
def incrementLabel (label : MediaLabel) : Labels → Labels
  | [] => [(label, 1)]
  | (a, n) :: rest =>
    if a = label then (a, n + 1) :: rest
    else if label < a then (label, 1) :: (a, n) :: rest
    else (a, n) :: incrementLabel label rest

/-- `--(ilabel->second)`, if the label is there -/
def decrementLabel (label : MediaLabel) : Labels → Labels
  | [] => []
  | (a, n) :: rest => if a = label then (a, n - 1) :: rest else (a, n) :: decrementLabel label rest

namespace Goal

def find (g : Goal) (t : ℕ) : Option Slice := find? (fun s => s.type == t) g

/-- change the labels of a part, in a new slice if there is none of its type -/
def alterPart (t i : ℕ) (f : Labels → Labels) : Goal → Goal
  | [] => [⟨t, (empty t).parts.modify i f⟩]
  | s :: rest =>
    if s.type = t then ⟨t, s.parts.modify i f⟩ :: rest
    else if t < s.type then ⟨t, (empty t).parts.modify i f⟩ :: s :: rest
    else s :: alterPart t i f rest

def addPart (t i : ℕ) (label : MediaLabel) : Goal → Goal := alterPart t i (incrementLabel label)

def evalRedundancyLevel (g : Goal) : ℤ := (g.map fun s => max (s.evalRedundancyLevel + 1) 0).sum - 1

end Goal

open Goal

/-! ## The calculator -/

structure CopiesCalculator where
  available : Goal
  target : Goal
deriving DecidableEq

/-- a part that is on hand, and the label of its server -/
abbrev LabelledPart := ChunkPartType × MediaLabel

def availableGoal (parts : List LabelledPart) : Goal :=
  parts.foldl (fun g p => addPart p.1.sliceType p.1.slicePart p.2 g) []

/-- `isSkippable`: all parts ask for the same: any permutation is as good -/
def isSkippable (s : Slice) : Bool := s.parts.all fun labels => decide (labels = s.part 0)

/-- `optimize`: the parts of a target slice are rearranged as the auction says -/
def optimize (useLinearAssignmentOptimizer : Bool) (assignment : ℕ → ℕ → ℕ) (available target : Goal) :
    CopiesCalculator where
  available := available
  target := target.map fun s =>
    if !useLinearAssignmentOptimizer || (find available s.type).isNone ||
      decide (s.parts.length ≤ 1) || isSkippable s
    then s
    else { s with parts := (List.range s.parts.length).map fun k => s.part (assignment s.type k) }

namespace CopiesCalculator

/-- `operationCount`, the first loop: `(isrc, missing, extra, wcount)`; wildcards are used up by what would be extra -/
def passOver (upTo : MediaLabel → Bool) : Labels → ℕ → ℕ → Labels × ℕ × ℕ
  | [], extra, wcount => ([], extra, wcount)
  | (a, n) :: src, extra, wcount =>
    if upTo a then passOver upTo src (extra + (n - min wcount n)) (wcount - min wcount n)
    else ((a, n) :: src, extra, wcount)

/-- `operationCount`: how many copies are missing, and how many are too many -/
def countOperations : Labels → Labels → ℕ → ℕ → ℕ → ℕ × ℕ
  | dst, src, missing, extra, wcount =>
    match dst with
    | [] => finish src missing extra wcount
    | (label, n) :: dst =>
      if label = wildcard then finish src missing extra wcount
      else
        let r := passOver (fun a => decide (a < label)) src extra wcount
        match r.1 with
        | [] => countOperations dst [] (missing + n) r.2.1 r.2.2
        | (a, m) :: src =>
          if a = label then
            if n < m then
              countOperations dst src missing (r.2.1 + ((m - n) - min r.2.2 (m - n))) (r.2.2 - min r.2.2 (m - n))
            else countOperations dst src (missing + (n - m)) r.2.1 r.2.2
          else countOperations dst ((a, m) :: src) (missing + n) r.2.1 r.2.2
where
  finish (src : Labels) (missing extra wcount : ℕ) : ℕ × ℕ :=
    let r := passOver (fun _ => true) src extra wcount
    (missing + r.2.2, r.2.1)

/-- the number of copies that may be anywhere -/
def wildcardCount (labels : Labels) : ℕ := ((labels.find? fun l => l.1 == wildcard).map snd).getD 0

def operationCount (src dst : Labels) : ℕ × ℕ := countOperations dst src 0 0 (wildcardCount dst)

variable (k : CopiesCalculator)

/-- `countPartsToMove`: an entry of `slice_operation_count_` -/
def countPartsToMove (t i : ℕ) : ℕ × ℕ :=
  match find k.available t, find k.target t with
  | some src, some dst => operationCount (src.part i) (dst.part i)
  | none, some dst => (countLabels (dst.part i), 0)
  | some src, none => (0, countLabels (src.part i))
  | none, none => (0, 0)

def countPartsToRecover : ℕ :=
  (k.target.map fun s => ((List.range s.parts.length).map fun i => (k.countPartsToMove s.type i).1).sum).sum

/-- `getRemovePool`, the loop over the labels of the target: the pool, the copies in it, and the wildcard copies -/
def collectPool : Labels → Labels → List MediaLabel → ℕ → List MediaLabel × ℕ × ℕ
  | dst, src, pool, wcount =>
    match dst with
    | [] => (pool ++ src.map fst, wcount + countLabels src, 0)
    | (label, n) :: dst =>
      if label = wildcard then (pool ++ src.map fst, wcount + countLabels src, n)
      else
        let before := src.takeWhile fun a => decide (a.1 < label)
        let pool := pool ++ before.map fst
        let wcount := wcount + countLabels before
        match src.dropWhile fun a => decide (a.1 < label) with
        | [] => collectPool dst [] pool wcount
        | (a, m) :: src =>
          if a = label then
            if n < m then collectPool dst src (pool ++ [label]) (wcount + (m - n)) else collectPool dst src pool wcount
          else collectPool dst ((a, m) :: src) pool wcount

/-- `getRemovePool`: the labels of the copies of which one may go -/
def getRemovePool (t i : ℕ) : List MediaLabel :=
  match find k.available t, find k.target t with
  | none, _ => []
  | some src, none => (src.part i).map fst
  | some src, some dst =>
    let r := collectPool (dst.part i) (src.part i) [] 0
    if r.2.1 ≤ r.2.2 then [] else r.1

def safeCount : ℕ := k.available.countP fun s => decide (0 < s.evalRedundancyLevel)

def endangeredCount : ℕ := k.available.countP fun s => decide (s.evalRedundancyLevel = 0)

/-- `removePartBasicTest`: the result, or none if more tests have to be performed -/
def removePartBasicTest (t : ℕ) : Option Bool :=
  if k.target = [] then some true
  else
    match find k.available t with
    | none => some false
    | some s =>
      if Goal.evalRedundancyLevel k.available < 1 then some false
      else if 2 < 2 * k.safeCount + k.endangeredCount then some true
      else if s.evalRedundancyLevel < 0 then some true
      else if k.safeCount ≠ 1 then some false
      else none

def canRemovePart (t i : ℕ) (label : MediaLabel) : Bool :=
  match k.removePartBasicTest t with
  | some result => result
  | none =>
    match find k.available t with
    | none => false
    | some s =>
      let s : Slice := { s with parts := s.parts.modify i (decrementLabel label) }
      match find k.target t with
      | some dst =>
        if dst.getExpectedCopies = 1 ∧ 1 ≤ s.getExpectedCopies then true else decide (0 < s.evalRedundancyLevel)
      | none => decide (0 < s.evalRedundancyLevel)

end CopiesCalculator

/-! ## One part less -/

section Without

variable {parts rest : List ChunkPartType} {p : ChunkPartType} {t : ℕ}

def contribution (parts : List ChunkPartType) (t : ℕ) : ℤ := max (evalSliceRedundancyLevel parts t + 1) 0

theorem contribution_nonneg (parts : List ChunkPartType) (t : ℕ) : 0 ≤ contribution parts t := le_max_right _ _

theorem partCopies_of_notMem (h : t ∉ parts.map sliceType) :
    partCopies t parts = replicate (expectedParts t) 0 := by
  refine eq_replicate_iff.2 ⟨by simp [partCopies], fun n hn => ?_⟩
  obtain ⟨i, -, rfl⟩ := mem_map.1 hn
  exact count_eq_zero.2 fun hm => h (mem_map_of_mem hm)

theorem contribution_of_notMem (h : t ∉ parts.map sliceType) : contribution parts t = 0 := by
  have hpo := getNumberOfDataParts_pos t
  unfold contribution evalSliceRedundancyLevel
  rw [partCopies_of_notMem h]
  simp only [sum_replicate, smul_zero, countP_replicate, lt_self_iff_false, decide_false]
  split_ifs <;> simp_all

theorem evalRedundancyLevel_eq_sum (parts : List ChunkPartType) {F : Finset ℕ} (h : ∀ t ∈ parts.map sliceType, t ∈ F) :
    evalRedundancyLevel parts + 1 = ∑ t ∈ F, contribution parts t := by
  have hsu : ∑ t ∈ (slices parts).toFinset, contribution parts t = ((slices parts).map (contribution parts)).sum :=
    sum_toFinset _ (nodup_dedup _)
  have hs : (slices parts).toFinset ⊆ F := fun t ht =>
    h t (mem_dedup.1 (mem_toFinset.1 ht))
  rw [← sum_subset hs, hsu]
  · unfold evalRedundancyLevel contribution
    omega
  · intro t _ ht
    exact contribution_of_notMem fun hm => ht (mem_toFinset.2 (mem_dedup.2 hm))

theorem contribution_le (parts : List ChunkPartType) (t : ℕ) :
    contribution parts t ≤ evalRedundancyLevel parts + 1 := by
  rw [evalRedundancyLevel_eq_sum _ (F := insert t (parts.map sliceType).toFinset)
    fun u hu => Finset.mem_insert_of_mem (mem_toFinset.2 hu)]
  exact single_le_sum (f := contribution parts) (fun u _ => contribution_nonneg parts u) (mem_insert_self _ _)

theorem partCopies_of_ne (h : parts.Perm (p :: rest)) (ht : t ≠ p.sliceType) :
    partCopies t parts = partCopies t rest := by
  refine map_congr_left fun i _ => ?_
  have hn : p ≠ ⟨t, i⟩ := fun he => ht (by rw [he])
  rw [h.count_eq, count_cons_of_ne hn]

theorem evalRedundancyLevel_without (h : parts.Perm (p :: rest)) :
    evalRedundancyLevel rest + contribution parts p.sliceType =
      evalRedundancyLevel parts + contribution rest p.sliceType := by
  have hm : p.sliceType ∈ (parts.map sliceType).toFinset :=
    mem_toFinset.2 (mem_map_of_mem (h.mem_iff.2 mem_cons_self))
  have hpa : evalRedundancyLevel parts + 1 = ∑ t ∈ (parts.map sliceType).toFinset, contribution parts t :=
    evalRedundancyLevel_eq_sum _ fun t ht => mem_toFinset.2 ht
  have hre : evalRedundancyLevel rest + 1 = ∑ t ∈ (parts.map sliceType).toFinset, contribution rest t :=
    evalRedundancyLevel_eq_sum _ fun t ht =>
      mem_toFinset.2 ((h.map _).mem_iff.2 (mem_cons_of_mem _ ht))
  have ho : ∑ t ∈ (parts.map sliceType).toFinset.erase p.sliceType, contribution parts t =
      ∑ t ∈ (parts.map sliceType).toFinset.erase p.sliceType, contribution rest t := by
    refine sum_congr rfl fun t ht => ?_
    unfold contribution evalSliceRedundancyLevel
    rw [partCopies_of_ne h (ne_of_mem_erase ht)]
  rw [← add_sum_erase _ _ hm] at hpa hre
  omega

/-- the last copy of its part, or a copy of the whole chunk -/
def IsSpare (parts : List ChunkPartType) (p : ChunkPartType) : Prop :=
  isStandard p.sliceType = true ∨ parts.count p = 1

instance (parts : List ChunkPartType) (p : ChunkPartType) : Decidable (IsSpare parts p) := instDecidableOr

section

variable (h : parts.Perm (p :: rest))
include h

theorem partCopies_without :
    partCopies p.sliceType parts = (partCopies p.sliceType rest).modify p.slicePart (· + 1) := by
  refine ext_getElem (by simp [partCopies]) fun i _ _ => ?_
  simp only [partCopies, getElem_map, getElem_range, getElem_modify, h.count_eq, count_cons]
  by_cases hi : p.slicePart = i
  · simp [← hi]
  · have hn : p ≠ ⟨p.sliceType, i⟩ := fun he => hi (congrArg slicePart he)
    simp [hi, hn]

theorem evalSliceRedundancyLevel_without (hr : p.slicePart < expectedParts p.sliceType)
    (hl : 0 ≤ evalSliceRedundancyLevel parts p.sliceType) : evalSliceRedundancyLevel rest p.sliceType =
      evalSliceRedundancyLevel parts p.sliceType - if IsSpare parts p then 1 else 0 := by
  have hle : (partCopies p.sliceType rest).length = expectedParts p.sliceType := by simp [partCopies]
  obtain ⟨before, n, after, hs, hb, hm⟩ := exists_of_modify (· + 1) (hle ▸ hr)
  have hn : rest.count p = n := by
    have hg : (partCopies p.sliceType rest)[p.slicePart]? = some n := by simp [hs, ← hb]
    simpa [partCopies, hr] using hg
  have hsp : IsSpare parts p ↔ isStandard p.sliceType ∨ n = 0 := by
    unfold IsSpare
    rw [h.count_eq, count_cons_self, hn, Nat.add_eq_right]
  unfold evalSliceRedundancyLevel at *
  rw [partCopies_without h, hm] at hl ⊢
  rw [hs]
  simp only [List.sum_append, List.sum_cons, List.countP_append, List.countP_cons] at hl ⊢
  split_ifs at hl ⊢ <;> simp_all <;> omega

end

end Without

/-! ## The parts on hand -/

def labelCount (label : MediaLabel) (labels : Labels) : ℕ := ((labels.find? fun l => l.1 == label).map snd).getD 0

variable {label : MediaLabel} {labels : Labels}

@[simp] theorem countLabels_incrementLabel : countLabels (incrementLabel label labels) = countLabels labels + 1 := by
  induction labels with
  | nil => rfl
  | cons l rest ih =>
    unfold incrementLabel
    unfold countLabels at ih ⊢
    split_ifs <;> simp_all <;> omega

theorem countLabels_decrementLabel (h : 0 < labelCount label labels) :
    countLabels (decrementLabel label labels) + 1 = countLabels labels := by
  induction labels with
  | nil => simp [labelCount] at h
  | cons l rest ih =>
    unfold decrementLabel
    unfold countLabels labelCount at *
    rw [find?_cons] at h
    by_cases hl : l.1 = label
    · simp_all
      omega
    · rw [show (l.1 == label) = false from beq_eq_false_iff_ne.2 hl] at h
      simp only [if_neg hl, List.map_cons, List.sum_cons]
      have := ih h
      omega

theorem labelCount_incrementLabel_self : 0 < labelCount label (incrementLabel label labels) := by
  induction labels with
  | nil => simp [incrementLabel, labelCount]
  | cons l rest ih =>
    unfold incrementLabel
    unfold labelCount at ih ⊢
    split_ifs <;> simp_all

theorem labelCount_incrementLabel_of_ne {other : MediaLabel} (h : other ≠ label) :
    labelCount other (incrementLabel label labels) = labelCount other labels := by
  induction labels with
  | nil => simp [incrementLabel, labelCount, h.symm]
  | cons l rest ih =>
    unfold incrementLabel
    unfold labelCount at ih ⊢
    split_ifs with hl hlt
    · simp [hl, h.symm]
    · simp [find?_cons, h.symm]
    · rw [find?_cons, find?_cons]
      cases l.1 == other <;> simp_all

namespace Goal

variable {g : Goal} {s : Slice} {t i : ℕ} {f : Labels → Labels}

/-- the slices are in increasing order of their types -/
def Sorted (g : Goal) : Prop := (g.map type).Pairwise (· < ·)

theorem find_eq_some (h : Sorted g) : find g t = some s ↔ s ∈ g ∧ s.type = t := by
  constructor
  · intro hs
    exact ⟨mem_of_find?_eq_some hs, by simpa using find?_some hs⟩
  · rintro ⟨hs, rfl⟩
    induction g with
    | nil => cases hs
    | cons a rest ih =>
      obtain ⟨ha, hre⟩ := pairwise_cons.1 h
      unfold find at ih ⊢
      rcases mem_cons.1 hs with rfl | hs
      · simp
      · have hn : a.type ≠ s.type := (ha s.type (mem_map_of_mem hs)).ne
        rw [find?_cons, beq_eq_false_iff_ne.2 hn]
        exact ih hre hs

theorem find_eq_none : find g t = none ↔ t ∉ g.map type := by
  simp [find, find?_eq_none]

/-- the slice that `alterPart` changes, or an empty one -/
def slice (g : Goal) (t : ℕ) : Slice := (find g t).getD (empty t)

theorem mem_alterPart (h : Sorted g) :
    s ∈ alterPart t i f g ↔ s ∈ g ∧ s.type ≠ t ∨ s = ⟨t, (slice g t).parts.modify i f⟩ := by
  induction g with
  | nil => simp [alterPart, slice, find]
  | cons a rest ih =>
    obtain ⟨ha, hre⟩ := pairwise_cons.1 h
    have hrest_ne : ∀ b ∈ rest, a.type < b.type := fun b hb => ha b.type (mem_map_of_mem hb)
    unfold alterPart
    by_cases hat : a.type = t
    · have hsl : slice (a :: rest) t = a := by simp [slice, find, hat]
      have hn : s ∈ rest → s.type ≠ t := fun hs => hat ▸ (hrest_ne s hs).ne'
      rw [if_pos hat, hsl, List.mem_cons, List.mem_cons]
      constructor
      · rintro (rfl | hs)
        · exact .inr rfl
        · exact .inl ⟨.inr hs, hn hs⟩
      · rintro (⟨rfl | hs, hn⟩ | rfl)
        · exact absurd hat hn
        · exact .inr hs
        · exact .inl rfl
    · have hsl : slice (a :: rest) t = slice rest t := by simp [slice, find, hat]
      rw [if_neg hat, hsl]
      by_cases hl : t < a.type
      · have hno : find rest t = none := find_eq_none.2 fun hm => by
          obtain ⟨b, hb, rfl⟩ := mem_map.1 hm
          exact absurd (hrest_ne b hb) hl.le.not_gt
        have hn : s ∈ a :: rest → s.type ≠ t := fun hs => by
          rcases mem_cons.1 hs with rfl | hs
          · exact hat
          · exact (hl.trans (hrest_ne s hs)).ne'
        rw [if_pos hl, slice, hno, Option.getD_none, List.mem_cons]
        constructor
        · rintro (rfl | hs)
          · exact .inr rfl
          · exact .inl ⟨hs, hn hs⟩
        · rintro (⟨hs, -⟩ | rfl)
          · exact .inr hs
          · exact .inl rfl
      · rw [if_neg hl, List.mem_cons, List.mem_cons, ih hre]
        constructor
        · rintro (rfl | ⟨hs, hn⟩ | rfl)
          · exact .inl ⟨.inl rfl, hat⟩
          · exact .inl ⟨.inr hs, hn⟩
          · exact .inr rfl
        · rintro (⟨rfl | hs, hn⟩ | rfl)
          · exact .inl rfl
          · exact .inr (.inl ⟨hs, hn⟩)
          · exact .inr (.inr rfl)

theorem type_mem_alterPart (h : Sorted g) {u : ℕ} :
    u ∈ (alterPart t i f g).map type ↔ u ∈ g.map type ∨ u = t := by
  simp only [List.mem_map, mem_alterPart h]
  constructor
  · rintro ⟨s, ⟨hs, -⟩ | rfl, rfl⟩
    · exact .inl ⟨s, hs, rfl⟩
    · exact .inr rfl
  · rintro (⟨s, hs, rfl⟩ | rfl)
    · by_cases hst : s.type = t
      · exact ⟨_, .inr rfl, hst.symm⟩
      · exact ⟨s, .inl ⟨hs, hst⟩, rfl⟩
    · exact ⟨_, .inr rfl, rfl⟩

theorem sorted_alterPart (h : Sorted g) : Sorted (alterPart t i f g) := by
  induction g with
  | nil => simp [alterPart, Sorted]
  | cons a rest ih =>
    obtain ⟨ha, hre⟩ := pairwise_cons.1 h
    unfold alterPart
    split_ifs with hat hl
    · exact pairwise_cons.2 ⟨by simpa [hat] using ha, hre⟩
    · refine pairwise_cons.2 ⟨fun u hu => ?_, h⟩
      rcases mem_cons.1 hu with rfl | hu
      · exact hl
      · exact hl.trans (ha u hu)
    · refine pairwise_cons.2 ⟨fun u hu => ?_, ih hre⟩
      rcases (type_mem_alterPart hre).1 hu with hu | rfl
      · exact ha u hu
      · exact lt_of_le_of_ne (not_lt.1 hl) hat

end Goal

/-- a goal that has exactly these parts -/
structure Collects (parts : List LabelledPart) (g : Goal) : Prop where
  sorted : Sorted g
  types : ∀ t, t ∈ g.map type ↔ t ∈ (parts.map fst).map sliceType
  copies : ∀ s ∈ g, s.parts.map countLabels = partCopies s.type (parts.map fst)
  labels : ∀ p ∈ parts, p.1.slicePart < expectedParts p.1.sliceType → ∀ s ∈ g, s.type = p.1.sliceType →
    0 < labelCount p.2 (s.part p.1.slicePart)

variable {s : Slice}

namespace Collects

variable {parts : List LabelledPart} {g : Goal}

theorem nil : Collects [] [] := ⟨Pairwise.nil, by simp, by simp, by simp⟩

section

variable (h : Collects parts g)
include h

theorem copies_slice (t : ℕ) : (slice g t).parts.map countLabels = partCopies t (parts.map fst) := by
  unfold Goal.slice
  cases hf : find g t with
  | none =>
    rw [partCopies_of_notMem fun hm => find_eq_none.1 hf ((h.types t).2 hm)]
    simp [empty, countLabels]
  | some s =>
    obtain ⟨hs, rfl⟩ := (find_eq_some h.sorted).1 hf
    exact h.copies s hs

theorem length_slice (t : ℕ) : (slice g t).parts.length = expectedParts t := by
  have := congrArg length (h.copies_slice t)
  simpa [partCopies] using this

variable {p : LabelledPart}

theorem labels_slice (hp : p ∈ parts) (hr : p.1.slicePart < expectedParts p.1.sliceType) :
    0 < labelCount p.2 ((slice g p.1.sliceType).part p.1.slicePart) := by
  have hm : p.1.sliceType ∈ g.map type := (h.types _).2 (mem_map_of_mem (mem_map_of_mem hp))
  unfold Goal.slice
  cases hf : find g p.1.sliceType with
  | none => exact absurd hm (find_eq_none.1 hf)
  | some s =>
    obtain ⟨hs, hst⟩ := (find_eq_some h.sorted).1 hf
    exact h.labels p hp hr s hs hst

theorem addPart : Collects (parts ++ [p]) (addPart p.1.sliceType p.1.slicePart p.2 g) where
  sorted := sorted_alterPart h.sorted
  types t := by
    unfold Goal.addPart
    rw [type_mem_alterPart h.sorted, h.types t]
    simp
  copies s hs := by
    have hperm : ((parts ++ [p]).map fst).Perm (p.1 :: parts.map fst) := by
      rw [map_append]
      exact perm_append_singleton _ _
    rcases (mem_alterPart h.sorted).1 hs with ⟨hs, hn⟩ | rfl
    · rw [h.copies s hs, partCopies_of_ne hperm hn]
    · rw [partCopies_without hperm, ← h.copies_slice]
      refine ext_getElem (by simp) fun i _ _ => ?_
      simp only [getElem_map, getElem_modify]
      split_ifs <;> simp
  labels q hq hr s hs hst := by
    rcases (mem_alterPart h.sorted).1 hs with ⟨hs, hn⟩ | rfl
    · rcases mem_append.1 hq with hq | hq
      · exact h.labels q hq hr s hs hst
      · rw [List.mem_singleton] at hq
        subst hq
        exact absurd hst hn
    · change p.1.sliceType = q.1.sliceType at hst
      have hl : q.1.slicePart < (slice g p.1.sliceType).parts.length := by
        rw [h.length_slice, hst]
        exact hr
      have hb : q ∈ parts → 0 < labelCount q.2 ((slice g p.1.sliceType).part q.1.slicePart) :=
        fun hq => hst ▸ h.labels_slice hq hr
      simp only [part] at hb ⊢
      rw [getD_eq_getElem _ _ hl] at hb
      rw [getD_eq_getElem _ _ (by simpa using hl), getElem_modify]
      by_cases hsa : p.1.slicePart = q.1.slicePart ∧ q.2 = p.2
      · rw [if_pos hsa.1, hsa.2]
        exact labelCount_incrementLabel_self
      · -- another label or another part: it was on hand before
        have hq : q ∈ parts := (List.mem_append.1 hq).resolve_right fun hqp => by
          rw [List.mem_singleton] at hqp
          exact hsa (by simp [hqp])
        split_ifs with hpa
        · rw [labelCount_incrementLabel_of_ne fun hla => hsa ⟨hpa, hla⟩]
          exact hb hq
        · exact hb hq

theorem level_eq (hs : s ∈ g) : s.evalRedundancyLevel = evalSliceRedundancyLevel (parts.map fst) s.type := by
  unfold Slice.evalRedundancyLevel evalSliceRedundancyLevel
  rw [h.copies s hs]

theorem evalRedundancyLevel_eq : Goal.evalRedundancyLevel g = evalRedundancyLevel (parts.map fst) := by
  have hperm : (g.map type).Perm (slices (parts.map fst)) := by
    refine (perm_ext_iff_of_nodup (h.sorted.imp ne_of_lt) (nodup_dedup _)).2 fun t => ?_
    rw [h.types t]
    exact mem_dedup.symm
  have hm : g.map (fun s => max (s.evalRedundancyLevel + 1) 0) =
      (g.map type).map fun t => max (evalSliceRedundancyLevel (parts.map fst) t + 1) 0 := by
    rw [List.map_map]
    exact map_congr_left fun s hs => by rw [h.level_eq hs]; rfl
  unfold Goal.evalRedundancyLevel evalRedundancyLevel
  rw [hm, (hperm.map _).sum_eq]

end

end Collects

theorem collects_availableGoal (parts : List LabelledPart) : Collects parts (availableGoal parts) := by
  have hf : ∀ (rest before : List LabelledPart) (g : Goal), Collects before g →
      Collects (before ++ rest) (rest.foldl (fun g p => addPart p.1.sliceType p.1.slicePart p.2 g) g) := by
    intro rest
    induction rest with
    | nil => intro before g h; simpa using h
    | cons p rest ih =>
      intro before g h
      simpa using ih (before ++ [p]) _ h.addPart
  exact hf parts [] [] Collects.nil

/-! ## What is given away -/

namespace CopiesCalculator

variable {k : CopiesCalculator} {parts : List LabelledPart}

theorem counts_le (g : Goal) : 2 * ((g.countP fun s => decide (0 < s.evalRedundancyLevel) : ℕ) : ℤ) +
      ((g.countP fun s => decide (s.evalRedundancyLevel = 0) : ℕ) : ℤ) ≤ Goal.evalRedundancyLevel g + 1 := by
  unfold Goal.evalRedundancyLevel
  induction g with
  | nil => simp
  | cons s g ih =>
    simp only [List.countP_cons, List.map_cons, List.sum_cons, decide_eq_true_eq]
    split_ifs <;> push_cast <;> omega

theorem level_decrement (h : Collects parts k.available) {p : LabelledPart} {rest : List ChunkPartType} (hp : p ∈ parts)
    (hr : p.1.slicePart < expectedParts p.1.sliceType) (hperm : (parts.map fst).Perm (p.1 :: rest))
    (hs : s ∈ k.available) (hst : s.type = p.1.sliceType) :
    (s.parts.modify p.1.slicePart (decrementLabel p.2)).map countLabels = partCopies p.1.sliceType rest := by
  have hc := h.copies s hs
  have hla := h.labels p hp hr s hs hst
  have hl : s.parts.length = expectedParts p.1.sliceType := by
    have := congrArg length hc
    simpa [partCopies, hst] using this
  rw [hst, partCopies_without hperm] at hc
  refine ext_getElem (by simp [partCopies, hl]) fun i hi _ => ?_
  have hg := congrArg (fun l : List ℕ => l[i]?) hc
  have hi' : i < s.parts.length := by simpa using hi
  have hi'' : i < (partCopies p.1.sliceType rest).length := by simpa [partCopies, hl] using hi'
  simp only [getElem?_map, getElem?_modify, getElem?_eq_getElem hi', getElem?_eq_getElem hi'',
    Option.map_eq_map, Option.map_some, Option.some.injEq] at hg
  simp only [getElem_map, getElem_modify]
  split_ifs with hpa
  · rw [part, hpa, getD_eq_getElem _ _ hi'] at hla
    rw [if_pos hpa] at hg
    have := countLabels_decrementLabel hla
    omega
  · simpa [hpa] using hg

/-- the part is the last spare one, and the goal asks for a single copy of its slice -/
def LastSpare (k : CopiesCalculator) (parts : List ChunkPartType) (p : ChunkPartType) : Prop :=
  ((find k.target p.sliceType).map getExpectedCopies = some 1 ∧ evalRedundancyLevel parts = 1 ∧
    evalSliceRedundancyLevel parts p.sliceType = 1) ∧ IsSpare parts p

instance (k : CopiesCalculator) (parts : List ChunkPartType) (p : ChunkPartType) : Decidable (k.LastSpare parts p) :=
  instDecidableAnd

section CanRemove

variable {p : LabelledPart} {rest : List ChunkPartType} (h : Collects parts k.available) (htarget : k.target ≠ [])
  (hp : p ∈ parts) (hr : p.1.slicePart < expectedParts p.1.sliceType) (hperm : (parts.map fst).Perm (p.1 :: rest))
include h htarget

/-- the cases in which a part is given away: the chunk is safe whatever goes, the slice is of no use, a safe slice stays
safe, or the goal asks for a single copy of a safe slice -/
theorem canRemovePart_cases (hf : find k.available p.1.sliceType = some s)
    (hre : k.canRemovePart p.1.sliceType p.1.slicePart p.2) : 1 ≤ evalRedundancyLevel (parts.map fst) ∧
      (2 ≤ evalRedundancyLevel (parts.map fst) ∨ s.evalRedundancyLevel < 0 ∨ 0 < s.evalRedundancyLevel ∧
          (0 < (⟨s.type, s.parts.modify p.1.slicePart (decrementLabel p.2)⟩ : Slice).evalRedundancyLevel ∨
            (find k.target p.1.sliceType).map getExpectedCopies = some 1)) := by
  have hc := counts_le k.available
  rw [h.evalRedundancyLevel_eq] at hc
  unfold canRemovePart removePartBasicTest at hre
  rw [if_neg htarget, hf] at hre
  simp only [h.evalRedundancyLevel_eq] at hre
  by_cases hl : evalRedundancyLevel (parts.map fst) < 1
  · simp [hl] at hre
  refine ⟨not_lt.1 hl, ?_⟩
  rw [if_neg hl] at hre
  by_cases hm : 2 < 2 * k.safeCount + k.endangeredCount
  · left
    unfold safeCount endangeredCount at hm
    omega
  rw [if_neg hm] at hre
  by_cases hlo : s.evalRedundancyLevel < 0
  · exact .inr (.inl hlo)
  rw [if_neg hlo] at hre
  by_cases hs : k.safeCount ≠ 1
  · simp [hs] at hre
  rw [if_neg hs] at hre
  -- the only safe slice leaves no room for an endangered one, so it is this one
  have hpo : 0 < s.evalRedundancyLevel := by
    refine lt_of_le_of_ne (not_lt.1 hlo) fun hz => ?_
    have he : 0 < k.endangeredCount := countP_pos_iff.2 ⟨s, mem_of_find?_eq_some hf, by simp [← hz]⟩
    omega
  refine .inr (.inr ⟨hpo, ?_⟩)
  cases hd : find k.target p.1.sliceType with
  | none =>
    rw [hd] at hre
    exact .inl (by simpa using hre)
  | some dst =>
    rw [hd] at hre
    simp only at hre
    split_ifs at hre with hsi
    · exact .inr (congrArg some hsi.1)
    · exact .inl (by simpa using hre)

include hp hr hperm

/-- **What is given away.** A recoverable chunk stays recoverable, and one level of redundancy is left unless the part
is the last spare one of a slice with a single copy in the goal. -/
theorem canRemovePart_spec (hre : k.canRemovePart p.1.sliceType p.1.slicePart p.2) :
    0 ≤ evalRedundancyLevel rest ∧ (1 ≤ evalRedundancyLevel rest ↔ ¬k.LastSpare (parts.map fst) p.1) := by
  have hm : p.1.sliceType ∈ k.available.map type := (h.types _).2 (mem_map_of_mem (mem_map_of_mem hp))
  obtain ⟨s, hs, hst⟩ := mem_map.1 hm
  have hf := (find_eq_some h.sorted).2 ⟨hs, hst⟩
  obtain ⟨hl, hca⟩ := canRemovePart_cases h htarget hf hre
  have hsl := h.level_eq hs
  have hd : (⟨s.type, s.parts.modify p.1.slicePart (decrementLabel p.2)⟩ : Slice).evalRedundancyLevel =
      evalSliceRedundancyLevel rest p.1.sliceType := by
    unfold Slice.evalRedundancyLevel evalSliceRedundancyLevel
    rw [level_decrement h hp hr hperm hs hst, hst]
  rw [hd, hsl, hst] at hca
  have hw := evalRedundancyLevel_without hperm
  have hspa := evalSliceRedundancyLevel_without hperm hr
  have ho := contribution_le rest p.1.sliceType
  unfold LastSpare
  unfold contribution at hw ho
  by_cases hsp : IsSpare (parts.map fst) p.1
  · simp only [hsp, if_true, and_true] at hspa ⊢
    constructor
    · omega
    · constructor
      · rintro h1 ⟨-, h3, h4⟩
        omega
      · intro hn
        by_contra hlt
        refine hn ?_
        have h3 : evalRedundancyLevel (parts.map fst) = 1 := by omega
        have h4 : evalSliceRedundancyLevel (parts.map fst) p.1.sliceType = 1 := by omega
        refine ⟨?_, h3, h4⟩
        rcases hca with hc | hc | ⟨-, hc | hc⟩
        · omega
        · omega
        · omega
        · exact hc
  · simp only [hsp, if_false, and_false, not_false_eq_true, iff_true] at hspa ⊢
    omega

end CanRemove

end CopiesCalculator

end SaunaFS.Chunks
