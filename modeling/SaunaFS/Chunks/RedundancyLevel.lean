/-
The redundancy level that `ChunkCopiesCalculator` keeps up to date (`common/chunk_copies_calculator.cc`).
-/
import SaunaFS.Chunks.CopiesCalculator
import SaunaFS.Lib.ModifyFirst
import SaunaFS.Lib.Stepwise

namespace SaunaFS.Chunks

open List Option ModifyFirst Goal Slice

/-! ## The calculator -/

/-- the copies of a label are counted in 16 bits -/
def cutLabels (labels : Labels) : Labels := labels.map fun l => (l.1, l.2 % 2 ^ 16)

/-- `--(ilabel->second)`, and the label goes with its last copy -/
def removeLabel (label : MediaLabel) : Labels → Labels
  | [] => []
  | (a, n) :: rest =>
    if a = label then if n = 1 then rest else (a, (n + (2 ^ 16 - 1)) % 2 ^ 16) :: rest
    else (a, n) :: removeLabel label rest

namespace LevelCalculator

def addPart (p : LabelledPart) (g : Goal) : Goal :=
  alterPart p.1.sliceType p.1.slicePart (fun labels => cutLabels (incrementLabel p.2 labels)) g

def removePart (p : LabelledPart) (g : Goal) : Goal :=
  modifyFirst (·.type == p.1.sliceType)
    (fun s => { s with parts := s.parts.modify p.1.slicePart (removeLabel p.2) }) g

end LevelCalculator

open LevelCalculator

/-- what `ChunkCopiesCalculator` has to keep the level up to date; reading an entry that `slice_redundancy_level_` does
not have makes one of 0 -/
structure LevelCalculator where
  available : Goal
  redundancyLevel : ℤ
  sliceRedundancyLevel : ℕ → Option ℤ

inductive PartChange where
  | addPart (part : LabelledPart)
  | removePart (part : LabelledPart)

namespace LevelCalculator

variable (k : LevelCalculator)

def evalRedundancyLevel : LevelCalculator where
  available := k.available
  redundancyLevel := Goal.evalRedundancyLevel k.available
  sliceRedundancyLevel t := ((find k.available t).map Slice.evalRedundancyLevel).or (k.sliceRedundancyLevel t)

def updateRedundancyLevel (t : ℕ) : LevelCalculator :=
  match find k.available t with
  | none => k
  | some s =>
    { k with
      redundancyLevel :=
        k.redundancyLevel + (max s.evalRedundancyLevel (-1) - max ((k.sliceRedundancyLevel t).getD 0) (-1))
      sliceRedundancyLevel := Function.update k.sliceRedundancyLevel t (some s.evalRedundancyLevel) }

/-- a part is added or removed, and the level of its slice updated -/
def step : PartChange → LevelCalculator
  | .addPart p =>
    { k with available := addPart p k.available }.updateRedundancyLevel p.1.sliceType
  | .removePart p => { k with available := removePart p k.available }.updateRedundancyLevel p.1.sliceType

/-- the calculator of some parts after its `evalRedundancyLevel` -/
def start (parts : List LabelledPart) : LevelCalculator :=
  evalRedundancyLevel ⟨parts.foldl (fun g p => addPart p g) [], -2 ^ 31, fun _ => none⟩

/-- `getRedundancyLevel` gives what it would after another `evalRedundancyLevel` -/
def UpToDate : Prop := k.redundancyLevel = k.evalRedundancyLevel.redundancyLevel

/-- the slice type of a part that is added is not new -/
def Known : PartChange → Prop
  | .addPart p => p.1.sliceType ∈ k.available.map type
  | .removePart _ => True

end LevelCalculator

/-! ## What the level means -/

namespace Slice

variable (s : Slice)

end Slice

namespace Goal

variable {g : Goal} {t i : ℕ} {label : MediaLabel}

theorem alterPart_of_mem {f : Labels → Labels} (h : Sorted g) (ht : t ∈ g.map type) : alterPart t i f g =
    modifyFirst (·.type == t) (fun s => { s with parts := s.parts.modify i f }) g := by
  induction g with
  | nil => cases ht
  | cons s g ih =>
    obtain ⟨hl, hr⟩ := pairwise_cons.1 h
    unfold alterPart modifyFirst
    by_cases hs : s.type = t
    · simp [hs]
    · have ht : t ∈ g.map type := (List.mem_cons.1 ht).resolve_left (Ne.symm hs)
      simp [hs, (hl t ht).not_gt, ih hr ht]

end Goal

/-! ## Fewer copies -/

section Removal

variable {parts rest : List ChunkPartType} {p : ChunkPartType}

end Removal

/-! ## Counting in 16 bits -/

namespace LevelCalculator

end LevelCalculator

/-! ## Keeping the level -/

namespace LevelCalculator

variable {k : LevelCalculator}

/-- the level of every slice is on record, and so is the level of the chunk -/
structure Follows (k : LevelCalculator) : Prop where
  sorted : Sorted k.available
  recorded : ∀ t, k.sliceRedundancyLevel t = (find k.available t).map Slice.evalRedundancyLevel
  upToDate : k.UpToDate

theorem Follows.modify (h : Follows k) {t : ℕ} (ht : t ∈ k.available.map Slice.type) {f : Slice → Slice}
    (hf : ∀ s, (f s).type = s.type) :
    Follows ({ k with available := modifyFirst (·.type == t) f k.available }.updateRedundancyLevel t) := by
  obtain ⟨s, hs⟩ := ne_none_iff_exists'.1 (mt Goal.find_eq_none.1 (not_not.2 ht))
  obtain ⟨hst, before, after, hsp, hb⟩ := find?_eq_some_iff_append.1 hs
  have hm : modifyFirst (·.type == t) f k.available = before ++ f s :: after := by
    rw [hsp]
    exact modifyFirst_append_cons (fun s hs => by simpa using hb s hs) hst
  have hfi (u : ℕ) : Goal.find (before ++ f s :: after) u = if u = t then some (f s) else Goal.find k.available u := by
    have hst : s.type = t := by simpa using hst
    unfold Goal.find
    rw [hsp, find?_append, find?_append, find?_cons, find?_cons, hf, hst]
    split_ifs with hu
    · subst hu
      rw [find?_eq_none.2 fun s hs => by simpa using hb s hs]
      simp
    · rw [beq_false_of_ne (Ne.symm hu)]
  have hl := h.upToDate
  unfold updateRedundancyLevel
  simp only [hm, hfi, if_true, h.recorded, hs, map_some, getD_some]
  refine ⟨?_, fun u => ?_, ?_⟩
  · have hso := h.sorted
    rw [Goal.Sorted, hsp] at hso
    simpa [Goal.Sorted, hf] using hso
  · by_cases hu : u = t
    · simp [hu, hfi]
    · simp [hu, hfi, h.recorded]
  · simp only [UpToDate, evalRedundancyLevel, Goal.evalRedundancyLevel, hsp, map_append, map_cons, sum_append,
      sum_cons] at hl ⊢
    omega

theorem Follows.step (h : Follows k) {c : PartChange} (hc : k.Known c) : Follows (k.step c) := by
  cases c with
  | addPart p =>
    have ha : addPart p k.available = _ := alterPart_of_mem h.sorted hc
    simp only [LevelCalculator.step, ha]
    exact h.modify hc fun _ => rfl
  | removePart p =>
    by_cases ht : p.1.sliceType ∈ k.available.map type
    · exact h.modify ht fun _ => rfl
    · have hsa : removePart p k.available = k.available :=
        modifyFirst_eq_self fun s hs => beq_false_of_ne fun hst => ht (hst ▸ mem_map_of_mem hs)
      simpa only [LevelCalculator.step, hsa, updateRedundancyLevel, find_eq_none.2 ht] using h

end LevelCalculator

end SaunaFS.Chunks
