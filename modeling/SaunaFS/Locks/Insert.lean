/-
`LockRanges::insert` realises per-owner POSIX locks.

`visit_cases` says what a pass of the loop can do. By induction over the passes, whatever the loop still appends denotes
the rest of the table with the rest of the range assigned on top (`insertLoop_spec`), and the loop ends
(`insertLoop_ended`).
-/
import SaunaFS.Lib.Stepwise
import SaunaFS.Locks.Modes

namespace SaunaFS.Locks

open SortedSearch List LockRange Valid Modes Stepwise

/-! ## One pass -/

variable {other : LockRange}

theorem visit_cases {range : LockRange} (hr : range.start < range.end_) (ho : other.start < other.end_) :
    ((range.start = other.end_ ∨ other.start = range.end_) ∧ sameOwners range.owners other.owners ∧
      range.type = other.type ∧ visit range other =
        .next { range with start := min range.start other.start, end_ := max range.end_ other.end_ }
          other.markUnlocking) ∨
    (range.end_ ≤ other.start ∧ visit range other = .leave) ∨
    (other.end_ ≤ range.start ∧ visit range other = .next range other) ∨
    (range.start < other.start ∧ other.start < range.end_ ∧ visit range other =
      .again { range with start := other.start } { range with end_ := other.start } other) ∨
    (range.start = other.start ∧ range.end_ < other.end_ ∧ visit range other =
      .again { range with start := other.end_ } (absorb range { other with end_ := range.end_ })
        { other with start := range.end_ }) ∨
    (range.start = other.start ∧ other.end_ ≤ range.end_ ∧ visit range other =
      .next { range with start := other.end_ } (absorb range other)) ∨
    (other.start < range.start ∧ range.start < other.end_ ∧ visit range other =
      .again range { other with end_ := range.start } { other with start := range.start }) := by
  unfold visit
  split_ifs with h1 h2 h3 h4 h5 h6 <;>
    simp only [sticks, overlaps, Bool.and_eq_true, Bool.or_eq_true, decide_eq_true_eq, beq_iff_eq,
      Bool.not_eq_true', Bool.and_eq_false_imp, decide_eq_false_iff_not, not_and, not_lt] at *
  · exact .inl ⟨h1.1.1, h1.1.2, h1.2, trivial⟩
  · exact .inr (.inl ⟨h2, trivial⟩)
  · exact .inr (.inr (.inl ⟨by omega, trivial⟩))
  · exact .inr (.inr (.inr (.inl ⟨h4, by omega, trivial⟩)))
  · exact .inr (.inr (.inr (.inr (.inl ⟨h5, h6, trivial⟩))))
  · exact .inr (.inr (.inr (.inr (.inr (.inl ⟨h5, by omega, trivial⟩)))))
  · exact .inr (.inr (.inr (.inr (.inr (.inr ⟨by omega, by omega, trivial⟩)))))

/-! ## Termination -/

theorem visit_again {range range' tmp other' : LockRange} (h : visit range other = .again range' tmp other') :
    (range.start ≠ other.start ∧ range'.start = other'.start) ∨ range'.end_ < range'.start := by
  unfold visit at h
  split_ifs at h with h1 h2 h3 h4 h5 h6
  · cases h
    exact .inl ⟨h4.ne, rfl⟩
  · cases h
    exact .inr h6
  · cases h
    exact .inl ⟨h5, rfl⟩

theorem insertLoop_ended (fuel : ℕ) (range : LockRange) (rest : List LockRange)
    (h : 2 * rest.length + 1 ≤ fuel ∨ (range.end_ ≤ range.start ∧ 0 < fuel) ∨
      ∃ other tl, rest = other :: tl ∧ range.start = other.start ∧ 2 * rest.length ≤ fuel) :
    (insertLoop fuel range rest).ended := by
  induction fuel generalizing range rest with
  | zero =>
    rcases h with h | ⟨-, h⟩ | ⟨other, tl, rfl, -, h⟩ <;> simp at h
  | succ fuel ih =>
    cases rest with
    | nil => rfl
    | cons other tl =>
      simp only [insertLoop]
      split_ifs with hn
      · have hf : 2 * tl.length + 1 ≤ fuel := by
          rcases h with h | h | ⟨_, _, _, _, h⟩
          · simp only [length_cons] at h
            omega
          · omega
          · simp only [length_cons] at h
            omega
        split
        · exact ih _ _ (.inl hf)
        · rename_i range' tmp other' hv
          refine ih _ _ ?_
          rcases visit_again hv with ⟨ha, ha'⟩ | he
          · refine .inr (.inr ⟨other', tl, rfl, ha', ?_⟩)
            rcases h with h | h | ⟨o, t, heq, hs, h⟩
            · simp only [length_cons] at h ⊢
              omega
            · omega
            · cases heq
              exact absurd hs ha
          · exact .inr (.inl ⟨he.le, by omega⟩)
        · rfl
      · rfl

theorem insertWindow_ended {data : List LockRange} {range : LockRange} : (insertWindow data range).ended :=
  insertLoop_ended _ _ _ (.inl (by omega))

/-! ## The covered piece -/

/-- the ranges that the final `remove_if` keeps -/
def live (data : List LockRange) : List LockRange := data.filter fun r => !r.unlocking

variable {data : List LockRange}

theorem live_eq_self (h : Valid data) : live data = data := by
  refine filter_eq_self.2 fun r hr => ?_
  simp [(h.wf r hr).not_unlocking]

variable {x : LockRange} {l out rest : List LockRange} {t : LockType}

variable {k : ℕ ×ₗ ℕ}

theorem mode_live_cons {p : ℕ} : mode (live (x :: l)) p k =
      if x.unlocking = false ∧ x.covers p ∧ k ∈ x.keys then some x.type else mode (live l) p k := by
  cases hx : x.unlocking with
  | true => simp [live, hx]
  | false => simp [live, hx, mode_cons]

variable {r : LockRange}

theorem keys_eraseOwner (h : r.keys.Pairwise (· < ·)) (c : Owner) :
    (r.eraseOwner c).keys = r.keys.filter fun k => decide (k ≠ c.key) := by
  have hs : r.owners.Pairwise fun a b => a.key < b.key := pairwise_map.1 h
  simp only [LockRange.keys, eraseOwner, eraseBy_eq_filter Owner.key hs, filter_map]
  rfl

variable {o : Owner}

theorem mem_keys_addOwners : k ∈ (r.addOwners [o]).keys ↔ k ∈ r.keys ∨ k = o.key := by
  simp only [LockRange.keys, addOwners, mem_map_uniqueBy_mergeBy, map_cons, map_nil, mem_singleton]

theorem sorted_addOwners (h : r.keys.Pairwise (· < ·)) : (r.addOwners [o]).keys.Pairwise (· < ·) := by
  refine pairwise_map.2 (sorted_uniqueBy_mergeBy Owner.key (pairwise_map.1 h) ?_)
  exact pairwise_singleton _ _

/-- what a range may meet: its owner's own locks, shared locks if it is shared, anything if it unlocks -/
def Meets (range other : LockRange) : Prop :=
  sameOwners range.owners other.owners = true ∨ (range.type = .shared ∧ other.type = .shared) ∨ range.type = .unlock

structure Absorbed (o : Owner) (t : LockType) (other y : LockRange) : Prop where
  start : y.start = other.start
  end_ : y.end_ = other.end_
  wf : y.unlocking = false → y.WF
  keys : ∀ k, (if y.unlocking = false ∧ k ∈ y.keys then some y.type else none) =
    if k = o.key then t.held else if k ∈ other.keys then some other.type else none

variable {o : Owner}

theorem absorb_spec {range : LockRange} (ho : range.owners = [o])
    (hty : range.type ≠ .invalid) (hw : other.WF) (hm : Meets range other) :
    Absorbed o range.type other (absorb range other) := by
  by_cases hs : sameOwners range.owners other.owners
  · -- the owner's own range takes the new type
    have hk : other.keys = [o.key] := by
      have := (sameOwners_iff _ _).1 hs
      simpa [ho, LockRange.keys] using this.symm
    have hl : other.owners.length = 1 := by simpa [LockRange.keys] using congrArg List.length hk
    have ha : absorb range other = { other with type := range.type } := by simp [absorb, hs]
    have hke : ({ other with type := range.type } : LockRange).keys = [o.key] := hk
    have hun : ({ other with type := range.type } : LockRange).unlocking = decide (range.type = .unlock) := by
      simp [unlocking, hw.owned]
    rw [ha]
    refine ⟨rfl, rfl, fun h => ?_, fun k => ?_⟩
    · rw [hun, decide_eq_false_iff_not] at h
      refine ⟨hw.nonempty, hw.sorted, hw.owned, ?_, fun _ => hl⟩
      cases ht : range.type <;> simp_all
    · rw [hun, hke, hk]
      by_cases hu : range.type = .unlock
      · simp [hu, LockType.held]
      · by_cases hko : k = o.key <;> simp [hu, hko, LockType.held]
  · by_cases hu : range.type = .unlock
    · -- another's range loses the owner, if it was one of several
      have ha : absorb range other = other.eraseOwner o := by
        rw [absorb, if_neg hs]
        simp [ho, unlocking, hu]
      have hke := keys_eraseOwner hw.sorted o
      have hn : (other.eraseOwner o).keys ≠ [] := by
        intro hni
        rw [hke, filter_eq_nil_iff] at hni
        have hal : ∀ k' ∈ other.keys, k' ≠ o.key → LockType.exclusive = .shared ∧ other.type = .shared := by
          intro k' hk' hn
          exact absurd (by simpa using hn) (hni k' hk')
        rcases (WF_compatible_iff hw o.key .exclusive).2 hal with h | h
        · simp at h
        · exact hs ((sameOwners_iff _ _).2 (by simpa [ho, LockRange.keys] using h.symm))
      have hun : (other.eraseOwner o).unlocking = false := by
        have h1 := hw.not_unlocking
        simp only [unlocking, Bool.or_eq_false_iff] at h1 ⊢
        refine ⟨h1.1, ?_⟩
        simpa [LockRange.keys] using hn
      rw [ha]
      refine ⟨rfl, rfl, fun _ => ⟨hw.nonempty, ?_, by simpa [LockRange.keys] using hn, hw.locked, fun h => ?_⟩,
        fun k => ?_⟩
      · rw [hke]
        exact hw.sorted.filter _
      · have h1 := hw.alone h
        have h2 : (other.eraseOwner o).keys.length ≤ other.keys.length := by
          rw [hke]
          exact length_filter_le _ _
        have h3 := length_pos_of_ne_nil hn
        simp only [LockRange.keys, length_map] at h2 h3
        omega
      · rw [hke, hun, hu]
        by_cases hko : k = o.key <;> simp [hko, LockType.held, eraseOwner]
    · -- both are shared, and the owner joins
      obtain ⟨h1, h2⟩ : range.type = .shared ∧ other.type = .shared := by
        rcases hm with h | h | h
        · exact absurd h hs
        · exact h
        · exact absurd h hu
      have ha : absorb range other = other.addOwners [o] := by
        rw [absorb, if_neg hs]
        simp [ho, unlocking, hu]
      have hme : o.key ∈ (other.addOwners [o]).keys := (mem_keys_addOwners).2 (.inr rfl)
      have hn : (other.addOwners [o]).owners ≠ [] := by
        intro hni
        simp [LockRange.keys, hni] at hme
      have hty' : (other.addOwners [o]).type = .shared := h2
      have hun : (other.addOwners [o]).unlocking = false := by
        simp [unlocking, hty', hn]
      rw [ha]
      refine ⟨rfl, rfl, fun _ => ⟨hw.nonempty, sorted_addOwners hw.sorted, hn, .inl hty', fun h => ?_⟩,
        fun k => ?_⟩
      · rw [hty'] at h
        cases h
      · simp only [hun, true_and, mem_keys_addOwners, h1, h2, hty']
        by_cases hko : k = o.key <;> simp [hko, LockType.held]

/-! ## The loop -/

/-- a range under way through the loop, and the elements it has still to pass -/
structure Ready (o : Owner) (range : LockRange) (rest : List LockRange) : Prop where
  owners : range.owners = [o]
  typed : range.type ≠ .invalid
  valid : Valid rest
  meets : ∀ x ∈ rest, range.overlaps x = true → Meets range x

/-- the elements `out` the loop leaves in `[lo, hi)` hold the locks of `rest` with the range assigned on top -/
structure Placed (lo hi : ℕ) (o : Owner) (range : LockRange) (rest out : List LockRange) : Prop where
  valid : Valid (live out)
  lower : ∀ x ∈ live out, lo ≤ x.start
  upper : ∀ x ∈ live out, x.end_ ≤ hi
  modes : mode (live out) = (mode rest).assign range.start range.end_ o.key range.type

theorem valid_live_cons {mid : ℕ} (hw : x.unlocking = false → x.WF)
    (he : x.end_ ≤ mid) (ho : Valid (live out)) (hm : ∀ y ∈ live out, mid ≤ y.start) : Valid (live (x :: out)) := by
  cases hx : x.unlocking with
  | true => simpa [live, hx] using ho
  | false =>
    have hc : live (x :: out) = x :: live out := by simp [live, hx]
    rw [hc]
    exact cons_iff.2 ⟨hw hx, fun y hy => he.trans (hm y hy), ho⟩

theorem forall_live_cons {P : LockRange → Prop} (hx : P x) (ho : ∀ y ∈ live out, P y) : ∀ y ∈ live (x :: out), P y := by
  intro y hy
  simp only [live, filter_cons] at hy
  split_ifs at hy
  · rcases mem_cons.1 hy with rfl | hy
    · exact hx
    · exact ho y hy
  · exact ho y hy

theorem Ready.wf {range : LockRange} (h : Ready o range rest)
    (hn : range.start < range.end_) (hu : range.unlocking = false) : range.WF := by
  have hl : range.owners.length = 1 := by simp [h.owners]
  refine ⟨hn, by simp [LockRange.keys, h.owners], by simp [h.owners], ?_, fun _ => hl⟩
  have h1 := h.typed
  cases ht : range.type <;> simp_all [unlocking]

theorem Ready.unlocking_iff {range : LockRange} (h : Ready o range rest) :
    range.unlocking = false ↔ range.type ≠ .unlock := by
  simp [unlocking, h.owners]

theorem Ready.keys {range : LockRange} (h : Ready o range rest) : range.keys = [o.key] := by
  simp [LockRange.keys, h.owners]

theorem Ready.visitAsserts {range : LockRange} {tl : List LockRange}
    (h : Ready o range (other :: tl)) : visitAsserts range other := by
  have hl : range.owners.length = 1 := by simp [h.owners]
  unfold Locks.visitAsserts
  split_ifs with h1 h2 h3
  · rfl
  · rfl
  · rfl
  · have ho : range.overlaps other := by simpa using h3
    have hm := h.meets other (by simp) ho
    simp only [hl, decide_true, Bool.or_true, Bool.and_true, Bool.or_eq_true, Bool.and_eq_true,
      isShared, decide_eq_true_eq, unlocking]
    rcases hm with h4 | h4 | h4
    · exact .inl (.inl h4)
    · exact .inl (.inr h4)
    · exact .inr (.inl h4)

theorem mode_below {lo p : ℕ} (h : ∀ x ∈ l, lo ≤ x.start) (hp : p < lo) : mode l p k = none := by
  refine mode_eq_none (fun x hx hc => ?_) k
  have h1 := h x hx
  have h2 := hc.1
  omega

section Shapes

variable {o : Owner} {range other : LockRange} {tl rest out : List LockRange} {lo hi : ℕ}

theorem Ready.tail (h : Ready o range (other :: tl)) (s e : ℕ)
    (hs : ∀ x ∈ tl, x.start < x.end_ → other.end_ ≤ x.start → s < x.end_ → x.start < e →
      range.start < x.end_ ∧ x.start < range.end_) : Ready o { range with start := s, end_ := e } tl := by
  obtain ⟨-, ht, hv⟩ := cons_iff.1 h.valid
  refine ⟨h.owners, h.typed, hv, fun x hx ho => h.meets x (by simp [hx]) ?_⟩
  simp only [overlaps, Bool.and_eq_true, decide_eq_true_eq] at ho ⊢
  exact hs x hx (hv.wf x hx).nonempty (ht x hx) ho.1 ho.2

theorem Ready.again (h : Ready o range (other :: tl)) (s c : ℕ) (hc : other.start ≤ c ∧ c < other.end_)
    (hs : ∀ x ∈ { other with start := c } :: tl, x.start < x.end_ → c ≤ x.start → s < x.end_ →
      x.start < range.end_ → range.start < x.end_) :
    Ready o { range with start := s } ({ other with start := c } :: tl) := by
  obtain ⟨hw, ht, hv⟩ := cons_iff.1 h.valid
  have hw' : ({ other with start := c } : LockRange).WF := ⟨hc.2, hw.sorted, hw.owned, hw.locked, hw.alone⟩
  refine ⟨h.owners, h.typed, cons_iff.2 ⟨hw', ht, hv⟩, fun x hx ho => ?_⟩
  simp only [overlaps, Bool.and_eq_true, decide_eq_true_eq] at ho
  rcases mem_cons.1 hx with rfl | hx'
  · have h1 := hs _ hx hc.2 le_rfl ho.1 ho.2
    refine h.meets other (by simp) ?_
    have h2 : c < range.end_ := ho.2
    simp only [overlaps, Bool.and_eq_true, decide_eq_true_eq]
    exact ⟨h1, by omega⟩
  · have h1 := ht x hx'
    refine h.meets x (by simp [hx']) ?_
    simp only [overlaps, Bool.and_eq_true, decide_eq_true_eq]
    exact ⟨hs x hx (hv.wf x hx').nonempty (by omega) ho.1 ho.2, ho.2⟩

theorem placed_empty (h : Valid rest) (hn : range.end_ ≤ range.start) (hlo : ∀ x ∈ rest, lo ≤ x.start)
    (hh : ∀ x ∈ rest, x.end_ ≤ hi) : Placed lo hi o range rest rest := by
  have hl := live_eq_self h
  refine ⟨by rw [hl]; exact h, by rwa [hl], by rwa [hl], ?_⟩
  · rw [hl]
    funext p k
    have hp : ¬ (range.start ≤ p ∧ p < range.end_ ∧ k = o.key) := by omega
    simp [assign, hp]

/-- the loop appends an element and leaves the rest to later passes -/
theorem Placed.cons {y range' : LockRange} {rest' : List LockRange} {mid : ℕ} (hp : Placed mid hi o range' rest' out)
    (hw : y.unlocking = false → y.WF) (hl : lo ≤ y.start) (hm : lo ≤ mid) (he : y.end_ ≤ mid) (hh : y.end_ ≤ hi)
    (h : ∀ p k, (if y.unlocking = false ∧ y.covers p ∧ k ∈ y.keys then some y.type
        else (mode rest').assign range'.start range'.end_ o.key range'.type p k) =
      (mode rest).assign range.start range.end_ o.key range.type p k) : Placed lo hi o range rest (y :: out) where
  valid := valid_live_cons hw he hp.valid hp.lower
  lower := forall_live_cons hl fun x hx => hm.trans (hp.lower x hx)
  upper := forall_live_cons hh hp.upper
  modes := by
    funext p k
    rw [mode_live_cons, hp.modes, h]

/-- the part of the range in front of all elements is inserted -/
theorem placed_piece (h : Ready o range rest) {c : ℕ} (h1 : range.start < c) (h2 : c ≤ range.end_)
    (hf : ∀ x ∈ rest, c ≤ x.start) (hl : lo ≤ range.start) (hh : range.end_ ≤ hi)
    (hp : Placed c hi o { range with start := c } rest out) :
    Placed lo hi o range rest ({ range with end_ := c } :: out) := by
  have hr : Ready o { range with end_ := c } [] := ⟨h.owners, h.typed, Valid.nil, by simp⟩
  refine hp.cons (hr.wf h1) hl (hl.trans h1.le) le_rfl (h2.trans hh) fun p k => ?_
  have hn : p < c → mode rest p k = none := fun hp => mode_below hf hp
  simp only [hr.unlocking_iff, hr.keys, mem_singleton, covers, assign, LockType.held]
  grind

theorem placed_front (h : Ready o range rest) (hn : range.start < range.end_) (hf : ∀ x ∈ rest, range.end_ ≤ x.start)
    (hlo : lo ≤ range.start) (hh : range.end_ ≤ hi) (hh' : ∀ x ∈ rest, x.end_ ≤ hi) :
    Placed lo hi o range rest (range :: rest) :=
  placed_piece h hn le_rfl hf hlo hh
    (placed_empty h.valid le_rfl hf hh')

section

variable (h : Ready o range (other :: tl))
include h

theorem placed_merge (hn : range.start < range.end_) (hst : range.start = other.end_ ∨ other.start = range.end_)
    (hs : sameOwners range.owners other.owners) (ht : range.type = other.type)
    (hp : Placed lo hi o { range with start := min range.start other.start, end_ := max range.end_ other.end_ } tl
    out) :
    Placed lo hi o range (other :: tl) (other.markUnlocking :: out) := by
  have hw := h.valid.wf other (by simp)
  have hl : live (other.markUnlocking :: out) = live out := by
    simp [live, unlocking, markUnlocking]
  have hke : other.keys = [o.key] := by
    have := (sameOwners_iff _ _).1 hs
    simpa [h.owners, LockRange.keys] using this.symm
  have hh : range.type.held = some other.type := by rw [ht, hw.held]
  refine ⟨by rw [hl]; exact hp.valid, by rw [hl]; exact hp.lower, by rw [hl]; exact hp.upper, ?_⟩
  rw [hl, hp.modes]
  funext p k
  simp only [Modes.assign, mode_cons, hke, hh, covers, mem_singleton]
  by_cases hk : k = o.key
  · simp only [hk, and_true]
    split_ifs <;> first | rfl | omega
  · simp [hk]

theorem placed_skip (hb : other.end_ ≤ range.start) (hl : lo ≤ other.start)
    (hh : other.end_ ≤ hi) (hp : Placed other.end_ hi o range tl out) :
    Placed lo hi o range (other :: tl) (other :: out) := by
  have hw := h.valid.wf other (by simp)
  refine hp.cons (fun _ => hw) hl (hl.trans hw.nonempty.le) le_rfl hh fun p k => ?_
  simp only [assign, mode_cons, hw.not_unlocking, covers]
  grind

/-- the range ends inside the element it is aligned with: the front of the element is absorbed, the rest stays -/
theorem placed_inner (hn : range.start < range.end_) (h1 : range.start = other.start)
    (h2 : range.end_ < other.end_) (hl : lo ≤ range.start) (hh : range.end_ ≤ hi)
    (hp : Placed range.end_ hi o { range with start := other.end_ } ({ other with start := range.end_ } :: tl) out) :
    Placed lo hi o range (other :: tl) (absorb range { other with end_ := range.end_ } :: out) := by
  have hw := h.valid.wf other (by simp)
  have hw' : ({ other with end_ := range.end_ } : LockRange).WF :=
    ⟨by simp only; omega, hw.sorted, hw.owned, hw.locked, hw.alone⟩
  have ho : range.overlaps other := by
    simp only [overlaps, Bool.and_eq_true, decide_eq_true_eq]
    omega
  have ha := absorb_spec h.owners h.typed hw' (h.meets other (by simp) ho)
  refine hp.cons ha.wf (by rw [ha.start]; exact h1 ▸ hl) (hl.trans hn.le) ha.end_.le (ha.end_.trans_le hh) fun p k => ?_
  have hk := ha.keys k
  have hs := ha.start
  have he := ha.end_
  have ht : p < other.end_ → mode tl p k = none := fun hp => mode_below (cons_iff.1 h.valid).2.1 hp
  simp only [assign, Locks.mode_cons, covers, LockRange.keys] at hk hs he ⊢
  grind

/-- the range reaches to the end of the element it is aligned with, or beyond it -/
theorem placed_cover (hn : range.start < range.end_) (h1 : range.start = other.start)
    (h2 : other.end_ ≤ range.end_) (hl : lo ≤ range.start) (hh : other.end_ ≤ hi)
    (hp : Placed other.end_ hi o { range with start := other.end_ } tl out) :
    Placed lo hi o range (other :: tl) (absorb range other :: out) := by
  have hw := h.valid.wf other (by simp)
  have hno := hw.nonempty
  have ho : range.overlaps other := by
    simp only [overlaps, Bool.and_eq_true, decide_eq_true_eq]
    omega
  have ha := absorb_spec h.owners h.typed hw (h.meets other (by simp) ho)
  refine hp.cons ha.wf (by rwa [ha.start, ← h1]) (by omega) ha.end_.le (ha.end_.trans_le hh) fun p k => ?_
  have hk := ha.keys k
  have hs := ha.start
  have he := ha.end_
  have ht : p < other.end_ → mode tl p k = none := fun hp => mode_below (cons_iff.1 h.valid).2.1 hp
  simp only [assign, Locks.mode_cons, covers]
  grind

/-- the range starts inside the element: the element is cut there, and its second part meets the range aligned -/
theorem placed_split (h1 : other.start < range.start) (h2 : range.start < other.end_)
    (hl : lo ≤ other.start) (hh : other.end_ ≤ hi)
    (hp : Placed range.start hi o range ({ other with start := range.start } :: tl) out) :
    Placed lo hi o range (other :: tl) ({ other with end_ := range.start } :: out) := by
  have hw := h.valid.wf other (by simp)
  have hw' : ({ other with end_ := range.start } : LockRange).WF := ⟨h1, hw.sorted, hw.owned, hw.locked, hw.alone⟩
  refine hp.cons (fun _ => hw') hl (hl.trans h1.le) le_rfl (h2.le.trans hh) fun p k => ?_
  simp only [assign, mode_cons, covers, LockRange.keys, hw'.not_unlocking]
  grind

end

end Shapes

theorem insertLoop_spec (fuel : ℕ) (range : LockRange) (rest : List LockRange) (lo hi : ℕ)
    (h : Ready o range rest) (he : (insertLoop fuel range rest).ended)
    (hl : lo ≤ range.start ∧ ∀ x ∈ rest, lo ≤ x.start) (hh : range.end_ ≤ hi ∧ ∀ x ∈ rest, x.end_ ≤ hi) :
    Placed lo hi o range rest (insertLoop fuel range rest).data ∧ (insertLoop fuel range rest).asserts := by
  induction fuel generalizing range rest lo with
  | zero => simp [insertLoop] at he
  | succ fuel ih =>
    cases rest with
    | nil =>
      by_cases hn : range.start < range.end_
      · have hp := placed_front h hn (by simp) hl.1 hh.1 (by simp)
        simpa [insertLoop, hn] using hp
      · have hp : Placed lo hi o range [] [] := placed_empty h.valid (not_lt.1 hn) (by simp) (by simp)
        simpa [insertLoop, hn] using hp
    | cons other tl =>
      by_cases hn : range.start < range.end_
      · obtain ⟨hw, ht, hvt⟩ := cons_iff.1 h.valid
        have ho := hw.nonempty
        have hass := h.visitAsserts
        have hl' := hl.2 other (by simp)
        have hh' := hh.2 other (by simp)
        have hhi : ∀ x ∈ tl, x.end_ ≤ hi := fun x hx => hh.2 x (by simp [hx])
        have hcu : ∀ c, c ≤ other.end_ → ∀ x ∈ { other with start := c } :: tl, c ≤ x.start := by
          intro c hc x hx
          rcases mem_cons.1 hx with rfl | hx
          · exact le_rfl
          · exact hc.trans (ht x hx)
        have hcu' : ∀ c, ∀ x ∈ { other with start := c } :: tl, x.end_ ≤ hi := by
          intro c x hx
          rcases mem_cons.1 hx with rfl | hx
          · exact hh'
          · exact hhi x hx
        rcases visit_cases hn ho with ⟨h1, h2, h3, hv⟩ | ⟨h1, hv⟩ | ⟨h1, hv⟩ | ⟨h1, h2, hv⟩ | ⟨h1, h2, hv⟩ |
            ⟨h1, h2, hv⟩ | ⟨h1, h2, hv⟩ <;> simp only [insertLoop, hn, ↓reduceIte, hv, hass, Bool.true_and] at he ⊢
        · have hr := h.tail (min range.start other.start) (max range.end_ other.end_) (by intros; omega)
          obtain ⟨hp, ha⟩ := ih _ tl lo hr he ⟨le_min hl.1 hl', fun x hx => hl.2 x (by simp [hx])⟩
            ⟨max_le hh.1 hh', hhi⟩
          exact ⟨placed_merge h hn h1 h2 h3 hp, ha⟩
        · refine ⟨placed_front h hn (fun x hx => ?_) hl.1 hh.1 hh.2, trivial⟩
          exact h1.trans (hcu _ ho.le x hx)
        · have hr := h.tail range.start range.end_ (by intros; omega)
          obtain ⟨hp, ha⟩ := ih _ tl other.end_ hr he ⟨h1, ht⟩ ⟨hh.1, hhi⟩
          exact ⟨placed_skip h h1 hl' hh' hp, ha⟩
        · have hr := h.again other.start other.start ⟨le_rfl, ho⟩ (by intros; omega)
          obtain ⟨hp, ha⟩ := ih _ (other :: tl) other.start hr he ⟨le_rfl, hcu _ ho.le⟩ hh
          exact ⟨placed_piece h h1 h2.le (hcu _ ho.le) hl.1 hh.1 hp, ha⟩
        · have hr := h.again other.end_ range.end_ ⟨by omega, h2⟩ (by intros; omega)
          obtain ⟨hp, ha⟩ := ih _ _ range.end_ hr he ⟨h2.le, hcu _ h2.le⟩ ⟨hh.1, hcu' _⟩
          exact ⟨placed_inner h hn h1 h2 hl.1 hh.1 hp, ha⟩
        · have hr := h.tail other.end_ range.end_ (by intros; omega)
          obtain ⟨hp, ha⟩ := ih _ tl other.end_ hr he ⟨le_rfl, ht⟩ ⟨hh.1, hhi⟩
          exact ⟨placed_cover h hn h1 h2 hl.1 hh' hp, ha⟩
        · have hr := h.again range.start range.start ⟨h1.le, h2⟩ (by intros; omega)
          obtain ⟨hp, ha⟩ := ih _ _ range.start hr he ⟨le_rfl, hcu _ h2.le⟩ ⟨hh.1, hcu' _⟩
          exact ⟨placed_split h h1 h2 hl' hh' hp, ha⟩
      · have hp := placed_empty (o := o) h.valid (not_lt.1 hn) hl.2 hh.2
        simpa [insertLoop, hn] using hp

/-! ## The whole insertion -/

theorem Valid.sublist {l' : List LockRange} (h : Valid l) (hl : l'.Sublist l) : Valid l' :=
  ⟨fun r hr => h.wf r (hl.subset hr), h.apart.sublist hl⟩

variable {s e : ℕ}

section

variable (h : Valid data)
include h

theorem ready_of_fits (ht : t ≠ .invalid) (hf : fits data (.single t s e o)) :
    Ready o (.single t s e o) (window start data s e).inside := by
  have hsu : (window start data s e).inside.Sublist data := (drop_sublist _ _).trans (take_sublist _ _)
  refine ⟨rfl, ht, h.sublist hsu, fun x hx ho => ?_⟩
  by_cases hu : t = .unlock
  · exact .inr (.inr hu)
  · have hun : (single t s e o).unlocking = false := by simp [unlocking, hu]
    rcases (collides_eq_false_iff _ _).1 ((fits_iff_inside hun).1 hf x hx) ho with hsh | hs
    · exact .inr (.inl hsh)
    · exact .inl ((sameOwners_iff _ _).2 hs.symm)

theorem exists_window_lower (hse : s ≤ e) : ∃ lo, (∀ x ∈ (window start data s e).before, x.end_ ≤ lo) ∧ lo ≤ s ∧
      ∀ x ∈ (window start data s e).inside, lo ≤ x.start := by
  by_cases hb : (window start data s e).before = []
  · exact ⟨0, by simp [hb], Nat.zero_le _, fun _ _ => Nat.zero_le _⟩
  · obtain ⟨y, ys, hins, hy⟩ := inside_cons_of_before start data hse hb
    have hp := h
    rw [← window_append start data (.of_le hse), append_assoc] at hp
    obtain ⟨-, hin, hc⟩ := append_iff.1 hp
    refine ⟨y.start, fun x hx => hc x hx y (by simp [hins]), hy.le, fun x hx => ?_⟩
    have hs := (append_iff.1 hin).1.sorted
    rw [hins, pairwise_cons] at hs
    rw [hins] at hx
    rcases mem_cons.1 hx with rfl | hx
    · exact le_rfl
    · exact (hs.1 x hx).le

theorem exists_window_upper (hs : s ≤ e) : ∃ hi, e ≤ hi ∧ (∀ x ∈ (window start data s e).inside, x.end_ ≤ hi) ∧
      ∀ x ∈ (window start data s e).after, hi ≤ x.start := by
  have hp := h
  rw [← window_append start data (.of_le hs)] at hp
  obtain ⟨-, hv, hc⟩ := append_iff.1 hp
  cases ha : (window start data s e).after with
  | nil =>
    refine ⟨e + ((window start data s e).inside.map end_).sum, by omega, fun x hx => ?_, by simp⟩
    have := le_sum_of_mem (mem_map_of_mem hx (f := end_))
    omega
  | cons z zs =>
    have hz : e < z.start := after_key start (h.sorted.imp le_of_lt) s e z (by simp [ha])
    rw [ha] at hv hc
    refine ⟨z.start, hz.le, fun x hx => hc x (by simp [hx]) z (by simp), fun x hx => ?_⟩
    rcases mem_cons.1 hx with rfl | hx
    · exact le_rfl
    · exact ((pairwise_cons.1 hv.sorted).1 x hx).le

theorem insert_spec (o : Owner) (hs : s < e) (ht : t ≠ .invalid) (hf : fits data (.single t s e o)) :
    Valid (insert data (.single t s e o)) ∧ mode (insert data (.single t s e o)) = (mode data).assign s e o.key t ∧
      (insertWindow data (.single t s e o)).asserts := by
  obtain ⟨lo, hb, hl, hlo⟩ := exists_window_lower h hs.le
  obtain ⟨hi, he, hh, ha⟩ := exists_window_upper h hs.le
  obtain ⟨hp, hass⟩ := insertLoop_spec _ _ _ lo hi (ready_of_fits h ht hf) insertWindow_ended ⟨hl, hlo⟩ ⟨he, hh⟩
  have hpw := h
  rw [← window_append start data (.of_le hs.le)] at hpw
  obtain ⟨hbi, hv, hcr⟩ := append_iff.1 hpw
  obtain ⟨hvb, hvi, hbi⟩ := append_iff.1 hbi
  refine ⟨?_, ?_, hass⟩
  · refine append_iff.2 ⟨append_iff.2 ⟨hvb, hp.valid, fun x hx y hy => ?_⟩, hv, fun x hx y hy => ?_⟩
    · exact (hb x hx).trans (hp.lower y hy)
    · rcases mem_append.1 hx with hx | hx
      · exact (hb x hx).trans (hl.trans (hs.le.trans (he.trans (ha y hy))))
      · exact (hp.upper x hx).trans (ha y hy)
  · funext p k
    have hold : mode data p k = ((mode (window start data s e).before p k).or
        (mode (window start data s e).inside p k)).or (mode (window start data s e).after p k) := by
      conv_lhs => rw [← window_append start data (.of_le hs.le)]
      rw [mode_append, mode_append]
    have hm : mode (live (insertWindow data (.single t s e o)).data) p k =
        (mode (window start data s e).inside).assign s e o.key t p k := congrFun (congrFun hp.modes p) k
    have hn : mode (insert data (.single t s e o)) p k = ((mode (window start data s e).before p k).or
        (mode (live (insertWindow data (.single t s e o)).data) p k)).or
          (mode (window start data s e).after p k) := by
      rw [← mode_append, ← mode_append]
      rfl
    rw [hn, hm, assign, assign, hold]
    split_ifs with hc
    · have h1 : mode (window start data s e).before p k = none := by
        refine mode_eq_none (fun x hx hco => ?_) k
        have h2 := hb x hx
        have h3 := hco.2
        omega
      have h2 : mode (window start data s e).after p k = none := mode_below ha (by omega)
      simp [h1, h2]
    · rfl

end

/-! ## Main result -/

/-- an argument of `insert`: a nonempty range of one owner, locking or unlocking -/
structure Request where
  type : LockType
  start : ℕ
  end_ : ℕ
  owner : Owner
  nonempty : start < end_
  typed : type ≠ .invalid

def Request.range (q : Request) : LockRange := .single q.type q.start q.end_ q.owner

theorem valid_run {reqs : List Request} (hf : Along (fun d q => insert d q.range) (fun d q => fits d q.range) [] reqs) :
    Valid (run (fun d q => insert d q.range) [] reqs) :=
  inv_run (P := Valid) (fun _ q hq hd => (insert_spec hd q.owner q.nonempty q.typed hq).1) [] reqs hf Valid.nil

/-- **`LockRanges` realises POSIX locks.** After every run of insertions from the empty table, each made after `fits`
returned true, the ranges are in order and exclusive ones have one owner. The next such insertion sets the mode of its
owner over its range, changes no other mode, passes every assertion and ends its loop. -/
theorem insert_realises_posix (reqs : List Request)
    (hfits : Along (fun d q => insert d q.range) (fun d q => fits d q.range) [] reqs) :
    let d := run (fun d q => insert d q.range) [] reqs
    (d.Pairwise (fun a b => a.start < b.start) ∧ d.Pairwise (fun a b => a.end_ ≤ b.start) ∧
      ∀ r ∈ d, r.start < r.end_ ∧ r.keys.Pairwise (· < ·) ∧ r.owners ≠ [] ∧ (r.type = .shared ∨ r.type = .exclusive) ∧
        (r.type = .exclusive → r.owners.length = 1)) ∧
    ∀ q : Request, fits d q.range → (∀ p k, mode (insert d q.range) p k =
        if q.start ≤ p ∧ p < q.end_ ∧ k = q.owner.key then (if q.type = .unlock then none else some q.type)
        else mode d p k) ∧
      (insertWindow d q.range).asserts ∧ (insertWindow d q.range).ended := by
  intro d
  have hd : Valid d := valid_run hfits
  refine ⟨⟨hd.sorted, hd.apart, fun r hr => ?_⟩, fun q hq => ?_⟩
  · have hwf := hd.wf r hr
    exact ⟨hwf.nonempty, hwf.sorted, hwf.owned, hwf.locked, hwf.alone⟩
  · obtain ⟨-, hmode, hass⟩ := insert_spec hd q.owner q.nonempty q.typed hq
    refine ⟨fun p k => ?_, hass, insertWindow_ended⟩
    exact congrFun (congrFun hmode p) k

/-- two owners share `[0, 10)`, one of them extends its lock exclusively over `[10, 20)` and gives up `[5, 12)` -/
theorem insert_realises_posix_shared_run : let o₁ : Owner := ⟨7, 1, 0, 0⟩
    let o₂ : Owner := ⟨8, 1, 0, 0⟩
    let reqs : List Request := [⟨.shared, 0, 10, o₁, by decide, by decide⟩, ⟨.shared, 0, 10, o₂, by decide, by decide⟩,
      ⟨.exclusive, 10, 20, o₁, by decide, by decide⟩]
    let q : Request := ⟨.unlock, 5, 12, o₁, by decide, by decide⟩
    let d := run (fun d q => insert d q.range) [] reqs
    insert d q.range = [⟨.shared, 0, 5, [o₁, o₂]⟩, ⟨.shared, 5, 10, [o₂]⟩, ⟨.exclusive, 12, 20, [o₁]⟩] ∧
      mode (insert d q.range) 11 o₁.key = none ∧ (insertWindow d q.range).asserts := by
  intro o₁ o₂ reqs q d
  have h := insert_realises_posix reqs ⟨by decide, by decide, by decide, trivial⟩
  obtain ⟨hmode, hass, -⟩ := h.2 q (by decide)
  exact ⟨by decide, by rw [hmode]; decide, hass⟩

end SaunaFS.Locks
