/-
`ReadaheadRequests::continuousOffsetRequested` (`mount/readdata.cc`): how far the pending requests of an open file
reach.
-/
import SaunaFS.Mount.Readahead

namespace SaunaFS.Mount.Readahead

/-! ## The function -/

/-- the test of the loop -/
def Entry.Covers (e : Entry) (offset : ℕ) : Prop := e.offset ≤ offset ∧ offset < e.endOffset

instance (e : Entry) (offset : ℕ) : Decidable (e.Covers offset) := inferInstanceAs (Decidable (_ ∧ _))

/-- what the loop leaves: the offset reached, the entries added to the result and the request visited last -/
structure Walked where
  offset : ℕ
  added : List Entry
  visited : Option Entry
deriving DecidableEq

/-- the loop over the pending requests. Its test looks at the first request in every round, its body at the one that the
round visits. -/
def walk (front : Entry) (endOffset : ℕ) : List Entry → ℕ → Option Entry → Walked
  | [], offset, visited => ⟨offset, [], visited⟩
  | e :: pending, offset, visited =>
    if offset < endOffset then
      if front.Covers offset then
        let w := walk front endOffset pending e.endOffset (some e)
        { w with added := e :: w.added }
      else walk front endOffset pending offset (some e)
    else ⟨offset, [], visited⟩

/-- what the call returns, adds to the result and leaves in `rcvpPtr` -/
structure Requested where
  offset : ℕ
  added : List Entry
  rcvp : Option Entry
deriving DecidableEq

/-- `none`: the iterator is moved in front of the first request -/
def continuousOffsetRequested (pending : List Entry) (offset endOffset : ℕ) : Option Requested :=
  match pending with
  | [] => some ⟨offset, [], none⟩
  | front :: _ =>
    let w := walk front endOffset pending offset none
    if w.offset < endOffset then some ⟨w.offset, w.added, none⟩
    else w.visited.map fun e => ⟨endOffset, w.added, some e⟩

/-! ## Runs of requests -/

/-- a run of pending requests from an offset on that cannot be made longer: each one covers the offset where the one
before it ends, and no pending request covers the end of the run, or the range asked for is used up there -/
inductive IsRun (pending : List Entry) (endOffset : ℕ) : ℕ → List Entry → ℕ → Prop
  | done (offset : ℕ) (h : offset < endOffset → ∀ e ∈ pending, ¬e.Covers offset) :
      IsRun pending endOffset offset [] offset
  | step (offset : ℕ) (e : Entry) (run : List Entry) (last : ℕ) (hlt : offset < endOffset) (hmem : e ∈ pending)
      (hcov : e.Covers offset) (h : IsRun pending endOffset e.endOffset run last) :
      IsRun pending endOffset offset (e :: run) last

variable {pending rest : List Entry} {front : Entry} {offset endOffset : ℕ} {last : ℕ}

theorem isRun_nil : IsRun pending endOffset offset [] last ↔
    offset = last ∧ (offset < endOffset → ∀ e ∈ pending, ¬e.Covers offset) := by
  constructor
  · rintro ⟨⟩
    exact ⟨rfl, by assumption⟩
  · rintro ⟨rfl, h⟩
    exact .done offset h

theorem isRun_cons {e : Entry} {run : List Entry} : IsRun pending endOffset offset (e :: run) last ↔
    (offset < endOffset ∧ e ∈ pending ∧ e.Covers offset) ∧ IsRun pending endOffset e.endOffset run last := by
  constructor
  · rintro ⟨⟩
    exact ⟨⟨by assumption, by assumption, by assumption⟩, by assumption⟩
  · rintro ⟨⟨hl, hm, hc⟩, h⟩
    exact .step offset e run last hl hm hc h

/-- what the call owes its caller -/
def Requested.IsRun (r : Requested) (pending : List Entry) (offset endOffset : ℕ) : Prop :=
  ∃ last, Readahead.IsRun pending endOffset offset r.added last ∧ r.offset = min last endOffset

theorem not_covers_endOffset (e : Entry) : ¬e.Covers e.endOffset := fun h => lt_irrefl _ h.2

/-- a front that does not cover the offset never will: no round adds anything -/
theorem walk_of_not_covers (endOffset : ℕ) (h : ¬front.Covers offset) (pending : List Entry) (visited : Option Entry) :
    ∃ e, walk front endOffset pending offset visited = ⟨offset, [], e⟩ ∧ (visited.isSome → e.isSome) := by
  induction pending generalizing visited with
  | nil => exact ⟨visited, rfl, id⟩
  | cons e pending ih =>
    by_cases hl : offset < endOffset
    · obtain ⟨x, hx, hs⟩ := ih (some e)
      exact ⟨x, by rw [walk, if_pos hl, if_neg h, hx], fun _ => hs rfl⟩
    · exact ⟨visited, by rw [walk, if_neg hl], id⟩

/-- the offset that the first request leaves to the others -/
def afterFront (front : Entry) (offset : ℕ) : ℕ := if front.Covers offset then front.endOffset else offset

def takenFront (front : Entry) (offset : ℕ) : List Entry := if front.Covers offset then [front] else []

/-- only the first request is ever taken over -/
theorem walk_front (front : Entry) (rest : List Entry) (hl : offset < endOffset) :
    ∃ e, walk front endOffset (front :: rest) offset none =
      ⟨afterFront front offset, takenFront front offset, some e⟩ := by
  by_cases h : front.Covers offset
  · obtain ⟨e, he, hs⟩ := walk_of_not_covers endOffset (not_covers_endOffset front) rest (some front)
    obtain ⟨x, rfl⟩ := Option.isSome_iff_exists.1 (hs rfl)
    exact ⟨x, by rw [walk, if_pos hl, if_pos h, he, afterFront, takenFront, if_pos h, if_pos h]⟩
  · obtain ⟨e, he, hs⟩ := walk_of_not_covers endOffset h rest (some front)
    obtain ⟨x, rfl⟩ := Option.isSome_iff_exists.1 (hs rfl)
    exact ⟨x, by rw [walk, if_pos hl, if_neg h, he, afterFront, takenFront, if_neg h, if_neg h]⟩

theorem continuousOffsetRequested_cons (front : Entry) (rest : List Entry) (hl : offset < endOffset) :
    ∃ r, continuousOffsetRequested (front :: rest) offset endOffset = some r ∧
      r.offset = min (afterFront front offset) endOffset ∧ r.added = takenFront front offset := by
  obtain ⟨e, he⟩ := walk_front front rest hl
  simp only [continuousOffsetRequested, he]
  split
  · next h => exact ⟨_, rfl, (min_eq_left h.le).symm, rfl⟩
  · next h => exact ⟨_, rfl, (min_eq_right (not_lt.1 h)).symm, rfl⟩

theorem takenFront_isRun_iff (hl : offset < endOffset) :
    IsRun (front :: rest) endOffset offset (takenFront front offset) last ↔ last = afterFront front offset ∧
        (afterFront front offset < endOffset → ∀ e ∈ rest, ¬e.Covers (afterFront front offset)) := by
  by_cases h : front.Covers offset
  · simp [takenFront, afterFront, h, isRun_cons, isRun_nil, hl, not_covers_endOffset, @eq_comm _ last]
  · simp [takenFront, afterFront, h, isRun_nil, hl, @eq_comm _ last]

/-- **How far the pending requests reach.** The call returns the end of a maximal run and adds its entries exactly if
nothing is pending and nothing asked for beyond the end, or something is asked for and no request behind the first
covers the offset that the first leaves, unless that is the end. -/
theorem continuousOffset_isRun_iff (pending : List Entry) (offset endOffset : ℕ) :
    (∃ r, continuousOffsetRequested pending offset endOffset = some r ∧ r.IsRun pending offset endOffset) ↔
      (pending = [] ∧ offset ≤ endOffset) ∨ (offset < endOffset ∧ ∀ front rest, pending = front :: rest →
        afterFront front offset < endOffset → ∀ e ∈ rest, ¬e.Covers (afterFront front offset)) := by
  cases pending with
  | nil =>
    simp [continuousOffsetRequested, Requested.IsRun, isRun_nil]
    omega
  | cons front rest =>
    by_cases hlt : offset < endOffset
    · obtain ⟨r, hr, hoffset, hadded⟩ := continuousOffsetRequested_cons front rest hlt
      simp [hr, Requested.IsRun, hoffset, hadded, takenFront_isRun_iff hlt, hlt]
    · -- the loop makes no round, and the iterator is moved in front of the list
      simp [continuousOffsetRequested, walk, hlt]

/-- two requests of one block each: together they cover the two blocks asked for, and the call reaches the first -/
theorem second_request_missed :
    let pending : List Entry := [⟨0, blockSize, .reading⟩, ⟨blockSize, blockSize, .queued⟩]
    continuousOffsetRequested pending 0 (2 * blockSize) = some ⟨blockSize, [⟨0, blockSize, .reading⟩], none⟩ ∧
      IsRun pending (2 * blockSize) 0 pending (2 * blockSize) ∧
      ¬∃ r, continuousOffsetRequested pending 0 (2 * blockSize) = some r ∧ r.IsRun pending 0 (2 * blockSize) := by
  refine ⟨by decide, ?_, ?_⟩
  · refine .step _ _ _ _ (by decide) (by decide) (by decide) ?_
    refine .step _ _ _ _ (by decide) (by decide) (by decide) ?_
    exact .done _ (by decide)
  · rintro ⟨r, hr, last, hrun, -⟩
    obtain rfl : ⟨blockSize, [⟨0, blockSize, .reading⟩], none⟩ = r :=
      Option.some.inj ((by decide : _ = _).symm.trans hr)
    have h := (isRun_nil.1 (isRun_cons.1 hrun).2).2
    revert h
    decide

end SaunaFS.Mount.Readahead
