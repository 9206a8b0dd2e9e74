/-
Applying changelog entries in order: `restore` of `master/restore.cc` and the loops that call it, which stop at the
first error. What a single entry does is `restore_line`, a parameter here.
-/
import SaunaFS.Lib.Stepwise
import SaunaFS.Status

namespace SaunaFS.Changelog

open List

/-! ## Model -/

inductive RestoreRigor where
  | ignoreParseErrors
  | dontIgnoreAnyErrors
deriving DecidableEq

structure Call (L : Type) where
  newLogVersion : UInt64
  line : L
  rigor : RestoreRigor
deriving DecidableEq

/-- the metadata as `restore` sees it: its version, and `restore_line` -/
structure FileSystem (M L : Type) where
  getversion : M → UInt64
  restoreLine : M → L → Option (M × Status)

structure Counters where
  nextFsVersion : UInt64
  currentFsVersion : UInt64
deriving DecidableEq

def restoreReset : Counters := ⟨0, 0⟩

namespace FileSystem

variable {M L : Type} (fs : FileSystem M L) (m : M)

/-- the counters that a call works with: the first call takes them from the metadata -/
def counters (v : Counters) : Counters :=
  if v.currentFsVersion = 0 ∨ v.nextFsVersion = 0 then ⟨fs.getversion m, fs.getversion m - 1⟩ else v

def restore (v : Counters) (c : Call L) : M × Counters × Status :=
  let v := fs.counters m v
  if c.newLogVersion < v.currentFsVersion then (m, v, .ok)
  else if v.nextFsVersion ≤ c.newLogVersion then
    if c.newLogVersion = v.currentFsVersion then (m, { v with currentFsVersion := c.newLogVersion }, .ok)
    else if v.currentFsVersion + 1 < c.newLogVersion then (m, v, .changeloginconsistent)
    else
      match fs.restoreLine m c.line with
      | none => (m, v, if c.rigor = .ignoreParseErrors then .ok else .parse)
      | some (m', s) =>
        if s ≠ .ok then (m', v, s)
        else if c.newLogVersion + 1 ≠ fs.getversion m' then
          (m', { v with nextFsVersion := fs.getversion m' }, .metadataversionmismatch)
        else (m', ⟨fs.getversion m', c.newLogVersion⟩, .ok)
  else (m, { v with currentFsVersion := c.newLogVersion }, .ok)

/-- the loop around `restore`: the metadata in the end, and the first error -/
def restoreAll : M → Counters → List (Call L) → M × Status
  | m, _, [] => (m, .ok)
  | m, v, c :: cs =>
    match fs.restore m v c with
    | (m', v', .ok) => restoreAll m' v' cs
    | (m', _, s) => (m', s)

/-! ## Looking at the metadata alone -/

/-- what is to become of an entry -/
inductive Verdict (M : Type) where
  | skipped
  | applied (m : M)
  | refused (m : M) (s : Status)

/-- an entry is compared with the version of the metadata -/
def judge (c : Call L) : Verdict M :=
  if c.newLogVersion < fs.getversion m then .skipped
  else if fs.getversion m < c.newLogVersion then .refused m .changeloginconsistent
  else
    match fs.restoreLine m c.line with
    | none => if c.rigor = .ignoreParseErrors then .skipped else .refused m .parse
    | some (m', s) =>
      if s ≠ .ok then .refused m' s
      else if fs.getversion m' = fs.getversion m + 1 then .applied m'
      else .refused m' .metadataversionmismatch

/-- the entries that are applied, the metadata in the end, and the first error -/
def inOrder : M → List (Call L) → List (Call L) × M × Status
  | m, [] => ([], m, .ok)
  | m, c :: cs =>
    match fs.judge m c with
    | .skipped => inOrder m cs
    | .applied m' => (c :: (inOrder m' cs).1, (inOrder m' cs).2)
    | .refused m' s => ([], m', s)

/-- the metadata that an entry leaves, if it succeeds -/
def applied (c : Call L) : Option M :=
  match fs.restoreLine m c.line with
  | some (m', .ok) => some m'
  | _ => none

/-! ## The counters follow the metadata -/

/-- the counters have not been set yet, or say what the metadata say -/
def Synchronized (v : Counters) : Prop :=
  v = restoreReset ∨ (v.nextFsVersion = fs.getversion m ∧ v.currentFsVersion = fs.getversion m - 1)

variable {fs}

theorem counters_eq {m : M} {v : Counters} (h : fs.Synchronized m v) :
    fs.counters m v = ⟨fs.getversion m, fs.getversion m - 1⟩ := by
  unfold counters
  split_ifs with hz
  · rfl
  · rcases h with rfl | ⟨hn, hc⟩
    · exact absurd (Or.inl rfl) hz
    · rw [← hc, ← hn]

theorem restore_eq_judge {m : M} {v : Counters} {c : Call L} (h : fs.Synchronized m v) (hm : fs.getversion m ≠ 0) :
    match fs.judge m c with
    | .skipped => ∃ v', fs.restore m v c = (m, v', .ok) ∧ fs.Synchronized m v'
    | .applied m' =>
      ∃ v', fs.restore m v c = (m', v', .ok) ∧ fs.Synchronized m' v' ∧ c.newLogVersion = fs.getversion m ∧
        fs.getversion m' = fs.getversion m + 1 ∧ fs.applied m c = some m'
    | .refused m' s => s ≠ .ok ∧ ∃ v', fs.restore m v c = (m', v', s) := by
  have hsy : fs.Synchronized m ⟨fs.getversion m, fs.getversion m - 1⟩ := .inr ⟨rfl, rfl⟩
  have hsu : fs.getversion m - 1 + 1 = fs.getversion m := by grind
  unfold restore judge
  simp only [counters_eq h, hsu]
  by_cases hlt : c.newLogVersion < fs.getversion m
  · -- an entry that is not new: the counters stay as they are
    have hl : ¬ fs.getversion m ≤ c.newLogVersion := by grind
    simp only [hlt, hl, if_true, if_false]
    split_ifs with hold
    · exact ⟨_, rfl, hsy⟩
    · have hla : c.newLogVersion = fs.getversion m - 1 := by grind
      exact ⟨_, rfl, by rwa [hla]⟩
  have hold : ¬ c.newLogVersion < fs.getversion m - 1 := by grind
  have hl : fs.getversion m ≤ c.newLogVersion := by grind
  have hn : ¬ c.newLogVersion = fs.getversion m - 1 := by grind
  simp only [hlt, hold, hl, hn, if_true, if_false]
  by_cases hg : fs.getversion m < c.newLogVersion
  · simp only [hg, if_true]
    exact ⟨by decide, _, rfl⟩
  have he : c.newLogVersion = fs.getversion m := by grind
  simp only [he, UInt64.lt_irrefl, if_false]
  cases hli : fs.restoreLine m c.line with
  | none =>
    simp only
    split_ifs with hr
    · exact ⟨_, rfl, hsy⟩
    · exact ⟨by decide, _, rfl⟩
  | some r =>
    obtain ⟨m', s⟩ := r
    by_cases hs : s = .ok
    · subst hs
      by_cases hv : fs.getversion m' = fs.getversion m + 1
      · simp only [hv, ne_eq, not_true_eq_false, if_true, if_false]
        refine ⟨_, rfl, .inr ⟨hv.symm, ?_⟩, trivial, trivial, by rw [applied, hli]⟩
        grind
      · simp only [hv, Ne.symm hv, ne_eq, not_true_eq_false, not_false_eq_true, if_true, if_false]
        exact ⟨by decide, _, rfl⟩
    · simp only [ne_eq, hs, not_false_eq_true, if_true]
      exact ⟨trivial, _, rfl⟩

/-! ## The loop -/

theorem restoreAll_eq_inOrder (m : M) (v : Counters) (calls : List (Call L)) (h : fs.Synchronized m v)
    (hm : fs.getversion m ≠ 0) (hl : ∀ c ∈ calls, c.newLogVersion + 1 ≠ 0) :
    fs.restoreAll m v calls = (fs.inOrder m calls).2 := by
  induction calls generalizing m v with
  | nil => rfl
  | cons c cs ih =>
    have hj := restore_eq_judge (c := c) h hm
    have hl' : ∀ c ∈ cs, c.newLogVersion + 1 ≠ 0 := fun c' hc' => hl c' (mem_cons_of_mem _ hc')
    unfold restoreAll inOrder
    cases hv : fs.judge m c with
    | skipped =>
      rw [hv] at hj
      obtain ⟨v', hr, hsy⟩ := hj
      rw [hr]
      exact ih m v' hsy hm hl'
    | applied m' =>
      rw [hv] at hj
      obtain ⟨v', hr, hsy, he, hve, -⟩ := hj
      rw [hr]
      refine ih m' v' hsy ?_ hl'
      rw [hve, ← he]
      exact hl c mem_cons_self
    | refused m' s =>
      rw [hv] at hj
      obtain ⟨hs, v', hr⟩ := hj
      rw [hr]
      cases s <;> first | rfl | exact absurd rfl hs

/-- **Changelog entries are applied once, in order.** The loop around `restore` compares each entry with the version of
the metadata: an older one changes nothing, a newer one or one that fails is refused. The entries applied have the
numbers from the first version on, each once, and nothing is applied after a refusal. -/
theorem changelog_applied_in_order (fs : FileSystem M L) (m : M) (calls : List (Call L)) (hm : fs.getversion m ≠ 0)
    (hlast : ∀ c ∈ calls, c.newLogVersion + 1 ≠ 0) :
    fs.restoreAll m restoreReset calls = (fs.inOrder m calls).2 ∧ (fs.inOrder m calls).1.Sublist calls ∧
      ((fs.inOrder m calls).1.map Call.newLogVersion =
        (List.range (fs.inOrder m calls).1.length).map fun i => fs.getversion m + UInt64.ofNat i) ∧
      ∃ m', Stepwise.replay fs.applied m (fs.inOrder m calls).1 = some m' ∧
        fs.getversion m' = fs.getversion m + UInt64.ofNat (fs.inOrder m calls).1.length ∧
        ((fs.inOrder m calls).2.2 = .ok → (fs.inOrder m calls).2.1 = m') ∧
        ((fs.inOrder m calls).2.2 ≠ .ok →
          ∃ c ∈ calls, fs.judge m' c = .refused (fs.inOrder m calls).2.1 (fs.inOrder m calls).2.2) := by
  refine ⟨restoreAll_eq_inOrder m restoreReset calls (.inl rfl) hm hlast, ?_⟩
  induction calls generalizing m with
  | nil => exact ⟨.slnil, rfl, m, rfl, by simp [inOrder], fun _ => rfl, fun h => absurd rfl h⟩
  | cons c cs ih =>
    have hl' : ∀ c ∈ cs, c.newLogVersion + 1 ≠ 0 := fun c' hc' => hlast c' (mem_cons_of_mem _ hc')
    have hj := restore_eq_judge (v := restoreReset) (c := c) (.inl rfl) hm
    unfold inOrder
    cases hv : fs.judge m c with
    | skipped =>
      obtain ⟨hsu, hn, m', hre, hve, ho, hr⟩ := ih m hm hl'
      refine ⟨hsu.cons _, hn, m', hre, hve, ho, fun hs => ?_⟩
      obtain ⟨c', hc', h'⟩ := hr hs
      exact ⟨c', mem_cons_of_mem _ hc', h'⟩
    | applied m1 =>
      rw [hv] at hj
      obtain ⟨-, -, -, he, hne, ha⟩ := hj
      have hm1 : fs.getversion m1 ≠ 0 := by
        rw [hne, ← he]
        exact hlast c mem_cons_self
      obtain ⟨hsu, hn, m', hre, hve, ho, hr⟩ := ih m1 hm1 hl'
      -- the numbers after the first one are those after the next version
      have hsh (i : ℕ) : fs.getversion m1 + UInt64.ofNat i = fs.getversion m + UInt64.ofNat (i + 1) := by
        rw [hne, UInt64.ofNat_add]
        grind
      refine ⟨hsu.cons_cons _, ?_, m', ?_, ?_, ho, fun hs => ?_⟩
      · simp only [map_cons, length_cons, range_succ_eq_map, map_map, hn, he]
        refine congrArg₂ List.cons (by simp) (map_congr_left fun i _ => hsh i)
      · rw [Stepwise.replay, ha]
        exact hre
      · rw [hve, hsh]
        rfl
      · obtain ⟨c', hc', h'⟩ := hr hs
        exact ⟨c', mem_cons_of_mem _ hc', h'⟩
    | refused m1 s =>
      rw [hv] at hj
      refine ⟨nil_sublist _, rfl, m, rfl, by simp, fun hs => absurd hs hj.1, fun _ => ?_⟩
      exact ⟨c, mem_cons_self, hv⟩

/-- a file system that is nothing but its version, with lines that cannot be parsed, fail or succeed -/
def versionOnly : FileSystem UInt64 (Option Status) := ⟨id, fun m line => line.map fun s => (m + 1, s)⟩

theorem changelog_applied_in_order_overlap : versionOnly.restoreAll 5 restoreReset
        [⟨4, some .ok, .dontIgnoreAnyErrors⟩, ⟨5, some .ok, .dontIgnoreAnyErrors⟩,
          ⟨5, some .ok, .dontIgnoreAnyErrors⟩, ⟨7, some .ok, .dontIgnoreAnyErrors⟩] =
      (6, .changeloginconsistent) :=
  (changelog_applied_in_order versionOnly 5
    [⟨4, some .ok, .dontIgnoreAnyErrors⟩, ⟨5, some .ok, .dontIgnoreAnyErrors⟩, ⟨5, some .ok, .dontIgnoreAnyErrors⟩,
      ⟨7, some .ok, .dontIgnoreAnyErrors⟩] (by decide) (by decide)).1

/-- an entry with the version of the metadata that cannot be parsed is accepted, and the version stays; and a call after
one that was refused for a gap is applied -/
theorem unparsable_entry_accepted :
    versionOnly.restore 5 restoreReset ⟨5, none, .ignoreParseErrors⟩ = (5, ⟨5, 4⟩, .ok) ∧
      versionOnly.restore 5 restoreReset ⟨7, some .ok, .dontIgnoreAnyErrors⟩ = (5, ⟨5, 4⟩, .changeloginconsistent) ∧
      versionOnly.restore 5 ⟨5, 4⟩ ⟨5, some .ok, .dontIgnoreAnyErrors⟩ = (6, ⟨6, 5⟩, .ok) := by
  decide

end FileSystem

end SaunaFS.Changelog
