/-
Readahead hands out complete data. Pending requests are notified from the front, and an error is handed on to all
requests behind the one that failed. So a call that waits for a request needs its result to consist of filled entries,
of entries pending before that request, and of its own.
-/
import SaunaFS.Mount.Readahead

namespace SaunaFS.Mount.Readahead

open Function List Entry

/-! ## What a query finds -/

def Entry.Reaches (e : Entry) (byte : ℕ) : Prop := e.offset ≤ byte ∧ byte < e.offset + e.asked

theorem scan_spec (heap : Heap) (expired : ℕ → Bool) (ids : List ℕ) (offset bytesLeft : ℕ) :
    (∀ x ∈ (scan heap expired ids offset bytesLeft).added, x ∈ ids ∧ (heap x).IsFilled) ∧
      (scan heap expired ids offset bytesLeft).offset + (scan heap expired ids offset bytesLeft).bytesLeft =
        offset + bytesLeft ∧
      ∀ byte, offset ≤ byte → byte < (scan heap expired ids offset bytesLeft).offset →
        ∃ x ∈ (scan heap expired ids offset bytesLeft).added, ∃ bytes, (heap x).status = .filled bytes ∧
          (heap x).offset ≤ byte ∧ byte < (heap x).offset + bytes := by
  induction ids generalizing offset bytesLeft with
  | nil => exact ⟨by simp [scan], rfl, fun byte hl hh => absurd hh (not_lt.2 hl)⟩
  | cons id ids ih =>
    -- the entry is passed over, with or without being erased
    have hs := ih offset bytesLeft
    have hs' : ∀ x ∈ (scan heap expired ids offset bytesLeft).added, x ∈ id :: ids ∧ (heap x).IsFilled :=
      fun x hx => ⟨mem_cons_of_mem id (hs.1 x hx).1, (hs.1 x hx).2⟩
    unfold scan
    split_ifs with hsto
    · exact ⟨by simp, rfl, fun byte hl hh => absurd hh (not_lt.2 hl)⟩
    · split
      · exact ⟨hs', hs.2⟩
      · next bytes hst =>
        split_ifs with he hi
        · exact ⟨hs', hs.2⟩
        · have ht := ih (offset + min (bytes - (offset - (heap id).offset)) bytesLeft)
            (bytesLeft - min (bytes - (offset - (heap id).offset)) bytesLeft)
          refine ⟨?_, ?_, ?_⟩
          · intro x hx
            rcases mem_cons.1 hx with rfl | hx
            · exact ⟨mem_cons_self, bytes, hst⟩
            · exact ⟨mem_cons_of_mem id (ht.1 x hx).1, (ht.1 x hx).2⟩
          · have := ht.2.1
            simp only at this ⊢
            omega
          · intro byte hl hh
            by_cases hhe : byte < offset + min (bytes - (offset - (heap id).offset)) bytesLeft
            · refine ⟨id, mem_cons_self, bytes, hst, ?_, ?_⟩ <;> omega
            · obtain ⟨x, hx, hc⟩ := ht.2.2 byte (not_lt.1 hhe) hh
              exact ⟨x, mem_cons_of_mem id hx, hc⟩
        · exact ⟨hs', hs.2⟩
      · exact ⟨hs', hs.2⟩

theorem splitAtOffset_append (heap : Heap) (offset : ℕ) (ids : List ℕ) :
    (splitAtOffset heap offset ids).1 ++ (splitAtOffset heap offset ids).2 = ids := by
  fun_induction splitAtOffset heap offset ids with
  | case1 => rfl
  | case2 x => rfl
  | case3 x y ids h rest ih => simpa using ih
  | case4 x y ids h => rfl

variable {heap : Heap} {ids : List ℕ}

theorem clearCollisions_subset {startOffset : ℕ} : clearCollisions heap startOffset ids ⊆ ids := by
  induction ids with
  | nil => exact List.Subset.refl _
  | cons id ids ih =>
    unfold clearCollisions
    split_ifs
    · exact fun x hx => mem_cons_of_mem id (ih hx)
    · exact cons_subset_cons id ih
    · exact List.Subset.refl _

theorem mem_insertByOffset {id x : ℕ} (h : x ∈ insertByOffset heap id ids) : x = id ∨ x ∈ ids := by
  induction ids with
  | nil => simpa [insertByOffset] using h
  | cons y ids ih =>
    unfold insertByOffset at h
    split_ifs at h
    · simpa using h
    · rcases mem_cons.1 h with rfl | h
      · exact .inr mem_cons_self
      · exact (ih h).imp (fun h => h) (mem_cons_of_mem y)

namespace ReadRecord

/-! ## The record grows -/

structure WF (s : ReadRecord) : Prop where
  cached_lt : ∀ id ∈ s.cached, id < s.nextId
  pending_lt : ∀ id ∈ s.pending, id < s.nextId
  pending_nodup : s.pending.Nodup
  unnotified : ∀ id ∈ s.pending, s.notified id = false
  requested : ∀ id ∈ s.pending, (s.heap id).status ≠ .inserted
  fresh : ∀ id, s.nextId ≤ id → s.notified id = false ∧ (s.heap id).status = .inserted
  finished_filled : ∀ id, s.finished id = true → (s.heap id).IsFilled
  filled_le : ∀ id bytes, (s.heap id).status = .filled bytes → bytes ≤ (s.heap id).asked

variable {id t cachedOffset : ℕ} {s s' : ReadRecord} {result : List ℕ} {c : Call} {expired garbage : ℕ → Bool}

theorem WF.lt_of_filled (hs : s.WF) (h : (s.heap id).IsFilled) : id < s.nextId := by
  by_contra hg
  obtain ⟨bytes, h⟩ := h
  rw [(hs.fresh id (not_lt.1 hg)).2] at h
  cases h

/-- entries keep their place, and filled ones their data -/
structure Frame (s s' : ReadRecord) : Prop where
  nextId_le : s.nextId ≤ s'.nextId
  offset_eq : ∀ id < s.nextId, (s'.heap id).offset = (s.heap id).offset
  asked_eq : ∀ id < s.nextId, (s'.heap id).asked = (s.heap id).asked
  filled : ∀ id < s.nextId, (s.heap id).IsFilled → (s'.heap id).IsFilled
  requested : ∀ id < s.nextId, (s.heap id).status ≠ .inserted → (s'.heap id).status ≠ .inserted

theorem frame_of_heap (hh : s'.heap = s.heap) (hn : s'.nextId = s.nextId) : s.Frame s' :=
  ⟨hn.ge, fun _ _ => by rw [hh], fun _ _ => by rw [hh], fun _ _ h => by rwa [hh], fun _ _ h => by rwa [hh]⟩

variable {u : ReadRecord} {offset size : ℕ} {ending unreferenced : ℕ → Bool} {rcvp : Option ℕ}

theorem Frame.trans {s t : ReadRecord} (h1 : s.Frame t) (h2 : t.Frame u) : s.Frame u where
  nextId_le := h1.nextId_le.trans h2.nextId_le
  offset_eq := fun id h => (h2.offset_eq id (h.trans_le h1.nextId_le)).trans (h1.offset_eq id h)
  asked_eq := fun id h => (h2.asked_eq id (h.trans_le h1.nextId_le)).trans (h1.asked_eq id h)
  filled := fun id h hf => h2.filled id (h.trans_le h1.nextId_le) (h1.filled id h hf)
  requested := fun id h hr => h2.requested id (h.trans_le h1.nextId_le) (h1.requested id h hr)

theorem Frame.reaches (h : s.Frame s') (hi : id < s.nextId) {byte : ℕ}
    (hr : (s.heap id).Reaches byte) : (s'.heap id).Reaches byte := by
  unfold Reaches at hr ⊢
  rwa [h.offset_eq id hi, h.asked_eq id hi]

/-- what a call does to the record besides its result: entries are inserted and erased, and requests appended -/
structure Grows (s s' : ReadRecord) : Prop where
  frame : s.Frame s'
  same : ∀ id, id < s.nextId ∨ s'.nextId ≤ id → s'.heap id = s.heap id
  no_filled : ∀ id bytes, (s'.heap id).status = .filled bytes → s'.heap id = s.heap id
  cached_lt : ∀ id ∈ s'.cached, id < s'.nextId
  pending_eq : ∃ new, s'.pending = s.pending ++ new ∧ new.Nodup ∧
    ∀ id ∈ new, s.nextId ≤ id ∧ id < s'.nextId ∧ (s'.heap id).status ≠ .inserted
  errorCode_eq : s'.errorCode = s.errorCode
  notified_eq : s'.notified = s.notified
  finished_eq : s'.finished = s.finished
  call_eq : s'.call = s.call
  answers_eq : s'.answers = s.answers

theorem Grows.trans {s t : ReadRecord} (h1 : s.Grows t) (h2 : t.Grows u) : s.Grows u where
  frame := h1.frame.trans h2.frame
  same := fun id h => by
    have hle1 := h1.frame.nextId_le
    have hle2 := h2.frame.nextId_le
    rw [h2.same id (by omega), h1.same id (by omega)]
  no_filled := fun id bytes h => by
    have h' := h2.no_filled id bytes h
    rw [h'] at h ⊢
    exact h1.no_filled id bytes h
  cached_lt := h2.cached_lt
  pending_eq := by
    obtain ⟨new1, hp1, hn1, hl1⟩ := h1.pending_eq
    obtain ⟨new2, hp2, hn2, hl2⟩ := h2.pending_eq
    refine ⟨new1 ++ new2, by rw [hp2, hp1, append_assoc], ?_, ?_⟩
    · refine nodup_append.2 ⟨hn1, hn2, ?_⟩
      rintro x hx y hy rfl
      exact absurd (hl1 x hx).2.1 (not_lt.2 (hl2 x hy).1)
    · intro id hi
      rcases mem_append.1 hi with h | h
      · obtain ⟨hg, hl, hr⟩ := hl1 id h
        exact ⟨hg, hl.trans_le h2.frame.nextId_le, h2.frame.requested id hl hr⟩
      · exact ⟨h1.frame.nextId_le.trans (hl2 id h).1, (hl2 id h).2⟩
  errorCode_eq := h2.errorCode_eq.trans h1.errorCode_eq
  notified_eq := h2.notified_eq.trans h1.notified_eq
  finished_eq := h2.finished_eq.trans h1.finished_eq
  call_eq := h2.call_eq.trans h1.call_eq
  answers_eq := h2.answers_eq.trans h1.answers_eq

theorem grows_cached {cached : List ℕ} (h : ∀ id ∈ cached, id < s.nextId) : s.Grows { s with cached := cached } :=
  ⟨frame_of_heap rfl rfl, fun _ _ => rfl, fun _ _ _ => rfl, h, ⟨[], by simp⟩, rfl, rfl, rfl, rfl, rfl⟩

theorem Grows.wf (h : s.Grows s') (hs : s.WF) : s'.WF := by
  obtain ⟨new, hp, hn, hl⟩ := h.pending_eq
  have hm : ∀ id ∈ s'.pending, id ∈ s.pending ∨
      s.nextId ≤ id ∧ id < s'.nextId ∧ (s'.heap id).status ≠ .inserted := fun id hi => by
    rw [hp, mem_append] at hi
    exact hi.imp (fun h => h) (hl id)
  exact
    { cached_lt := h.cached_lt
      pending_lt := fun id hi => (hm id hi).elim
        (fun h' => (hs.pending_lt id h').trans_le h.frame.nextId_le) fun h' => h'.2.1
      pending_nodup := by
        rw [hp]
        refine nodup_append.2 ⟨hs.pending_nodup, hn, ?_⟩
        rintro x hx y hy rfl
        exact absurd (hs.pending_lt x hx) (not_lt.2 (hl x hy).1)
      unnotified := fun id hi => by
        rw [h.notified_eq]
        exact (hm id hi).elim (hs.unnotified id) fun h' => (hs.fresh id h'.1).1
      requested := fun id hi => (hm id hi).elim
        (fun h' => h.frame.requested id (hs.pending_lt id h') (hs.requested id h')) fun h' => h'.2.2
      fresh := fun id hi => by
        rw [h.notified_eq, h.same id (.inr hi)]
        exact hs.fresh id (h.frame.nextId_le.trans hi)
      finished_filled := fun id hi => by
        rw [h.finished_eq] at hi
        have hf := hs.finished_filled id hi
        exact h.frame.filled id (hs.lt_of_filled hf) hf
      filled_le := fun id bytes hi => by
        have he := h.no_filled id bytes hi
        rw [he] at hi ⊢
        exact hs.filled_le id bytes hi }

theorem grows_collectGarbage (hs : s.WF) (garbage : ℕ → Bool) : s.Grows (s.collectGarbage garbage) :=
  grows_cached fun id hi => hs.cached_lt id (mem_filter.1 hi).1

theorem grows_query (hs : s.WF) (offset size : ℕ) (expired garbage : ℕ → Bool) :
    s.Grows (s.query offset size expired garbage).1 :=
  grows_cached fun id hi => hs.cached_lt id (mem_filter.1 (mem_filter.1 hi).1).1

theorem insert_cached_lt (hs : ∀ id ∈ s.cached, id < s.nextId) :
    ∀ id ∈ (s.insert offset size).cached, id < s.nextId + 1 := by
  intro id hi
  rcases mem_insertByOffset hi with rfl | hi
  · exact Nat.lt_succ_self _
  · refine (hs id ?_).trans (Nat.lt_succ_self _)
    rw [← splitAtOffset_append (Function.update s.heap s.nextId ⟨offset, size, .inserted⟩) offset s.cached]
    rcases mem_append.1 hi with h | h
    · exact mem_append_left _ h
    · exact mem_append_right _ (clearCollisions_subset h)

variable (s)

@[simp] theorem insert_nextId : (s.insert offset size).nextId = s.nextId + 1 := rfl

@[simp] theorem insert_heap :
    (s.insert offset size).heap = Function.update s.heap s.nextId ⟨offset, size, .inserted⟩ := rfl

@[simp] theorem insert_pending : (s.insert offset size).pending = s.pending := rfl

variable {s}

theorem frame_update (hn : s'.nextId = s.nextId + 1) (h : ∀ id ≠ s.nextId, s'.heap id = s.heap id) : s.Frame s' := by
  have hs : ∀ id < s.nextId, s'.heap id = s.heap id := fun id hi => h id hi.ne
  exact
    { nextId_le := by omega
      offset_eq := fun id hi => by rw [hs id hi]
      asked_eq := fun id hi => by rw [hs id hi]
      filled := fun id hi hf => by rwa [hs id hi]
      requested := fun id hi hr => by rwa [hs id hi] }

theorem grows_insert (hs : ∀ id ∈ s.cached, id < s.nextId) (offset size : ℕ) : s.Grows (s.insert offset size) := by
  have hh : ∀ id ≠ s.nextId, (s.insert offset size).heap id = s.heap id := fun id hi => by simp [hi]
  have hne : (s.insert offset size).nextId = s.nextId + 1 := rfl
  refine ⟨frame_update rfl hh, fun id hi => hh id (by omega), fun id bytes hi => ?_,
    insert_cached_lt hs, ⟨[], by simp⟩, rfl, rfl, rfl, rfl, rfl⟩
  by_cases hn : id = s.nextId
  · subst hn
    simp at hi
  · exact hh id hn

theorem grows_insert_addRequest (hs : ∀ id ∈ s.cached, id < s.nextId) (offset size : ℕ) :
    s.Grows ((s.insert offset size).addRequest s.nextId) := by
  have hh : ∀ id ≠ s.nextId, ((s.insert offset size).addRequest s.nextId).heap id = s.heap id := fun id hi => by
    simp [addRequest, setStatus, hi]
  have hne : ((s.insert offset size).addRequest s.nextId).nextId = s.nextId + 1 := rfl
  refine ⟨frame_update rfl hh, fun id hi => hh id (by omega), fun id bytes hi => ?_,
    insert_cached_lt hs, ⟨[s.nextId], rfl, nodup_singleton _, ?_⟩, rfl, rfl, rfl, rfl, rfl⟩
  · by_cases hn : id = s.nextId
    · subst hn
      simp [addRequest, setStatus] at hi
    · exact hh id hn
  · intro id hi
    rw [mem_singleton.1 hi]
    exact ⟨le_refl _, Nat.lt_succ_self _, by simp [addRequest, setStatus]⟩

theorem grows_find (hs : s.WF) (offset : ℕ) : s.Grows (s.find offset).1 := by
  unfold find
  split
  · exact grows_cached hs.cached_lt
  · split_ifs
    · exact grows_cached fun id hi => hs.cached_lt id (mem_of_mem_erase hi)
    · exact grows_cached hs.cached_lt

theorem grows_extraLoop (hs : s.WF) (garbage : ℕ → Bool) (limit satisfyingSize fuel start : ℕ) :
    s.Grows (s.extraLoop garbage limit satisfyingSize fuel start) := by
  induction fuel generalizing s start with
  | zero => exact grows_cached hs.cached_lt
  | succ fuel ih =>
    unfold extraLoop
    split_ifs
    · have hf := grows_find hs start
      split
      · next s' id he =>
        rw [he] at hf
        exact hf.trans (ih (hf.wf hs) _)
      · next s' he =>
        rw [he] at hf
        have hw := hf.wf hs
        have hg := grows_collectGarbage hw garbage
        have ha := hg.trans (grows_insert_addRequest (hg.wf hw).cached_lt start (toSize satisfyingSize))
        exact hf.trans (ha.trans (ih (ha.wf hw) _))
    · exact grows_cached hs.cached_lt

theorem grows_addExtraRequests (hs : s.WF) (garbage : ℕ → Bool) (advice : Advice)
    (currentOffset satisfyingSize maximumRequestedOffset : ℕ) :
    s.Grows (s.addExtraRequests garbage advice currentOffset satisfyingSize maximumRequestedOffset) :=
  grows_extraLoop hs _ _ _ _ _

theorem query_spec (hs : s.WF) (offset size : ℕ) (expired garbage : ℕ → Bool) :
    let f := (s.query offset size expired garbage).2
    (∀ x ∈ f.added, x < s.nextId ∧ (s.heap x).IsFilled) ∧ f.offset + f.bytesLeft = offset + size ∧
      ∀ byte, offset ≤ byte → byte < f.offset → ∃ x ∈ f.added, (s.heap x).Reaches byte := by
  intro f
  obtain ⟨ha, hsu, hc⟩ := scan_spec (s.collectGarbage garbage).heap expired
    (splitAtOffset s.heap offset (s.collectGarbage garbage).cached).2 offset size
  refine ⟨fun x hx => ⟨hs.cached_lt x ?_, (ha x hx).2⟩, hsu, fun byte hl hh => ?_⟩
  · have hm := mem_append_right (splitAtOffset s.heap offset (s.collectGarbage garbage).cached).1 (ha x hx).1
    rw [splitAtOffset_append] at hm
    exact (mem_filter.1 hm).1
  · obtain ⟨x, hx, bytes, hst, hx1, hx2⟩ := hc byte hl hh
    exact ⟨x, hx, hx1, hx2.trans_le (Nat.add_le_add_left (hs.filled_le x bytes hst) _)⟩

/-- the second query: what it adds reaches as far as it was asked for; it consists of filled entries, and of a new one
at the end if something was left -/
theorem queryInsert_spec (hs : s.WF) :
    let r := s.queryInsert offset size expired garbage
    s.Grows r.1 ∧ r.1.pending = s.pending ∧
      (∀ byte, offset ≤ byte → byte < offset + size → ∃ x ∈ r.2, (r.1.heap x).Reaches byte) ∧
      (∀ x ∈ r.2, x < r.1.nextId) ∧
      (((s.query offset size expired garbage).2.bytesLeft = 0 ∧ ∀ x ∈ r.2, (r.1.heap x).IsFilled) ∨
        ∃ added, r.2 = added ++ [s.nextId] ∧ (∀ x ∈ added, (r.1.heap x).IsFilled) ∧
          (r.1.heap s.nextId).status = .inserted) := by
  obtain ⟨ha, hsu, hc⟩ := query_spec hs offset size expired garbage
  have hg := grows_query hs offset size expired garbage
  unfold queryInsert
  simp only
  generalize hr : s.query offset size expired garbage = r at *
  split_ifs with hle
  · have hh : ∀ x ∈ r.2.added, r.1.heap x = s.heap x := fun x hx => hg.same x (.inl (ha x hx).1)
    refine ⟨hg, ?_, fun byte hl hhi => ?_, fun x hx => ?_, .inl ⟨hle, fun x hx => ?_⟩⟩
    · rw [← hr]; rfl
    · obtain ⟨x, hx, hre⟩ := hc byte hl (by omega)
      exact ⟨x, hx, by rwa [hh x hx]⟩
    · exact (ha x hx).1.trans_le hg.frame.nextId_le
    · rw [hh x hx]
      exact (ha x hx).2
  · set t : ReadRecord :=
      { r.1 with cached := r.1.cached.filter fun id => decide ((r.1.heap id).offset ≠ r.2.offset) } with ht
    have hn : t.nextId = s.nextId := by rw [ht, ← hr]; rfl
    have hg' : s.Grows t := hg.trans
      (grows_cached fun id hid => (hg.wf hs).cached_lt id (mem_filter.1 hid).1)
    have hi := hg'.trans (grows_insert (hg'.wf hs).cached_lt r.2.offset r.2.bytesLeft)
    have hh : ∀ x ∈ r.2.added, (t.insert r.2.offset r.2.bytesLeft).heap x = s.heap x := fun x hx =>
      hi.same x (.inl (ha x hx).1)
    rw [hn]
    refine ⟨hi, ?_, fun byte hl hhi => ?_, fun x hx => ?_, .inr ⟨r.2.added, rfl, fun x hx => ?_, ?_⟩⟩
    · rw [insert_pending, ht, ← hr]; rfl
    · by_cases hf : byte < r.2.offset
      · obtain ⟨x, hx, hre⟩ := hc byte hl hf
        exact ⟨x, mem_append_left _ hx, by rwa [hh x hx]⟩
      · refine ⟨s.nextId, by simp, ?_⟩
        simp only [insert_heap, hn, update_self, Reaches]
        omega
    · rcases mem_append.1 hx with hx | hx
      · exact (ha x hx).1.trans_le hi.frame.nextId_le
      · rw [mem_singleton.1 hx, insert_nextId, hn]
        exact Nat.lt_succ_self _
    · rw [hh x hx]
      exact (ha x hx).2
    · simp [hn]

/-! ## What holds of an answer -/

/-- the result is filled when the request is notified without an error: an error is there, or what is missing is
pending up to the request, or the request was dropped and is never notified, or nothing is missing -/
def Waiting (s : ReadRecord) (result : List ℕ) (t : ℕ) : Prop :=
  s.errorCode t = true ∨
    (∃ before after, s.pending = before ++ t :: after ∧ ∀ x ∈ result, (s.heap x).IsFilled ∨ x ∈ before ∨ x = t) ∨
    (t ∉ s.pending ∧ s.notified t = false) ∨
    ∀ x ∈ result, (s.heap x).IsFilled

structure Held (s : ReadRecord) (a : Answer) : Prop where
  result_lt : ∀ x ∈ a.result, x < s.nextId
  reached : ∀ byte, a.offset ≤ byte → byte < a.offset + a.size → ∃ x ∈ a.result, (s.heap x).Reaches byte
  wait : a.mustWait = true →
    ∃ t, a.rcvp = some t ∧ t < s.nextId ∧ (s.heap t).status ≠ .inserted ∧ s.Waiting a.result t
  ready : a.mustWait = false → ∀ x ∈ a.result, (s.heap x).IsFilled

variable {a : Answer}

theorem Held.complete (h : s.Held a) (hf : ∀ x ∈ a.result, (s.heap x).IsFilled) : s.Complete a := by
  refine ⟨hf, fun byte hl hh => ?_⟩
  obtain ⟨x, hx, hr⟩ := h.reached byte hl hh
  obtain ⟨bytes, hb⟩ := hf x hx
  refine ⟨x, hx, bytes, hb, hr.1, ?_⟩
  have hlt := hr.2
  omega

theorem Held.kept (hs : s.WF) (h : s.Held a) : s.Kept a := by
  unfold Kept
  split_ifs with hwa
  · obtain ⟨t, hr, -, -, hw⟩ := h.wait hwa
    refine ⟨t, hr, fun hno he => h.complete ?_⟩
    rcases hw with hw | ⟨before, after, hp, -⟩ | ⟨-, hn⟩ | hf
    · rw [he] at hw
      cases hw
    · rw [hs.unnotified t (by simp [hp])] at hno
      cases hno
    · rw [hn] at hno
      cases hno
    · exact hf
  · exact h.complete (h.ready (by simpa using hwa))

theorem Held.mono (h : s.Held a) (hf : s.Frame s')
    (hw : ∀ t, t < s.nextId → (s.heap t).status ≠ .inserted → s.Waiting a.result t → s'.Waiting a.result t) :
    s'.Held a where
  result_lt := fun x hx => (h.result_lt x hx).trans_le hf.nextId_le
  reached := fun byte hlo hh => by
    obtain ⟨x, hx, hr⟩ := h.reached byte hlo hh
    exact ⟨x, hx, hf.reaches (h.result_lt x hx) hr⟩
  wait := fun hwai => by
    obtain ⟨t, hrc, hl, hs, hwa⟩ := h.wait hwai
    exact ⟨t, hrc, hl.trans_le hf.nextId_le, hf.requested t hl hs, hw t hl hs hwa⟩
  ready := fun hre x hx => hf.filled x (h.result_lt x hx) (h.ready hre x hx)

theorem Waiting.extend {new : List ℕ} (h : s.Waiting result t) (hf : s.Frame s')
    (hl : ∀ x ∈ result, x < s.nextId) (he : s'.errorCode = s.errorCode) (hno : s'.notified = s.notified)
    (hpe : s'.pending = s.pending ++ new) (ht : t ∉ new) : s'.Waiting result t := by
  have hfi : ∀ x ∈ result, (s.heap x).IsFilled → (s'.heap x).IsFilled := fun x hx => hf.filled x (hl x hx)
  rcases h with h | ⟨before, after, hp, hx⟩ | ⟨hp, hn⟩ | h
  · exact .inl (by rwa [he])
  · refine .inr (.inl ⟨before, after ++ new, by simp [hpe, hp], fun x hm => ?_⟩)
    exact (hx x hm).imp (hfi x hm) fun h => h
  · exact .inr (.inr (.inl ⟨by simp [hpe, hp, ht], by rwa [hno]⟩))
  · exact .inr (.inr (.inr fun x hx => hfi x hx (h x hx)))

theorem Grows.held (h : s.Grows s') (ha : s.Held a) : s'.Held a := by
  obtain ⟨new, hp, -, hn⟩ := h.pending_eq
  refine ha.mono h.frame fun t hl _ hw => hw.extend h.frame ha.result_lt h.errorCode_eq h.notified_eq hp fun ht => ?_
  exact absurd (hn t ht).1 (not_le.2 hl)

/-! ## What holds inside a call -/

/-- the result reaches up to an offset -/
def Reached (s : ReadRecord) (c : Call) (upTo : ℕ) : Prop :=
  ∀ byte, c.offset ≤ byte → byte < upTo → ∃ x ∈ c.result, (s.heap x).Reaches byte

def PhaseInv (s : ReadRecord) (c : Call) : Prop :=
  match c.phase with
  | .search cachedOffset =>
    cachedOffset < c.offset + c.size ∧ s.Reached c cachedOffset ∧ ∀ x ∈ c.result, (s.heap x).IsFilled
  | .take front cachedOffset =>
    cachedOffset < c.offset + c.size ∧ s.Reached c cachedOffset ∧ (∀ x ∈ c.result, (s.heap x).IsFilled) ∧
      (∃ rest, s.pending = front :: rest) ∧ (s.heap front).offset ≤ cachedOffset
  | .again _ maximumRequestedOffset taken =>
    maximumRequestedOffset < c.offset + c.size ∧ s.Reached c maximumRequestedOffset ∧
      (∀ x ∈ c.result, (s.heap x).IsFilled ∨ taken = some x) ∧
      ∀ front, taken = some front → ∃ rest, s.pending = front :: rest
  | .append _ _ =>
    s.Reached c (c.offset + c.size) ∧ ((∀ x ∈ c.result, (s.heap x).IsFilled) ∨
        ∃ init back, c.result = init ++ [back] ∧ (s.heap back).status = .inserted ∧ back ∉ s.pending ∧
          s.notified back = false ∧ ∀ x ∈ init, (s.heap x).IsFilled ∨ x ∈ s.pending)
  | .decide rcvp =>
    s.Reached c (c.offset + c.size) ∧ match rcvp with
      | none => ∀ x ∈ c.result, (s.heap x).IsFilled
      | some t => t < s.nextId ∧ (s.heap t).status ≠ .inserted ∧ ∃ before after, s.pending = before ++ t :: after ∧
          ∀ x ∈ c.result, (s.heap x).IsFilled ∨ x ∈ before ∨ x = t

structure CallInv (s : ReadRecord) (c : Call) : Prop where
  result_lt : ∀ x ∈ c.result, x < s.nextId
  phase : s.PhaseInv c

structure Inv (s : ReadRecord) : Prop where
  wf : s.WF
  call : ∀ c, s.call = some c → s.CallInv c
  answers : ∀ a ∈ s.answers, s.Held a

theorem Reached.mono {upTo : ℕ} (h : s.Reached c upTo) (hf : s.Frame s')
    (hlt : ∀ x ∈ c.result, x < s.nextId) : s'.Reached c upTo := fun byte hl hh => by
  obtain ⟨x, hx, hr⟩ := h byte hl hh
  exact ⟨x, hx, hf.reaches (hlt x hx) hr⟩

/-! ## Steps of a worker without the lock -/

structure Works (s s' : ReadRecord) : Prop where
  frame : s.Frame s'
  nextId_eq : s'.nextId = s.nextId
  inserted : ∀ id, (s.heap id).status = .inserted → (s'.heap id).status = .inserted
  offset_eq : ∀ id, (s'.heap id).offset = (s.heap id).offset
  filled_le : ∀ id bytes, (s'.heap id).status = .filled bytes → bytes ≤ (s'.heap id).asked
  finished : ∀ id, s'.finished id = true → (s'.heap id).IsFilled
  cached_eq : s'.cached = s.cached
  pending_eq : s'.pending = s.pending
  errorCode_eq : s'.errorCode = s.errorCode
  notified_eq : s'.notified = s.notified
  call_eq : s'.call = s.call
  answers_eq : s'.answers = s.answers

theorem Works.wf (h : s.Works s') (hs : s.WF) : s'.WF where
  cached_lt := by rw [h.cached_eq, h.nextId_eq]; exact hs.cached_lt
  pending_lt := by rw [h.pending_eq, h.nextId_eq]; exact hs.pending_lt
  pending_nodup := by rw [h.pending_eq]; exact hs.pending_nodup
  unnotified := by rw [h.pending_eq, h.notified_eq]; exact hs.unnotified
  requested := by
    rw [h.pending_eq]
    exact fun id hi => h.frame.requested id (hs.pending_lt id hi) (hs.requested id hi)
  fresh := fun id hi => by
    rw [h.nextId_eq] at hi
    rw [h.notified_eq]
    exact ⟨(hs.fresh id hi).1, h.inserted id (hs.fresh id hi).2⟩
  finished_filled := h.finished
  filled_le := h.filled_le

theorem Works.phaseInv (h : s.Works s') (hl : ∀ x ∈ c.result, x < s.nextId) (hc : s.PhaseInv c) : s'.PhaseInv c := by
  have hf : ∀ x ∈ c.result, (s.heap x).IsFilled → (s'.heap x).IsFilled := fun x hx => h.frame.filled x (hl x hx)
  unfold PhaseInv at hc ⊢
  cases hph : c.phase with
  | search cachedOffset =>
    simp only [hph] at hc ⊢
    exact ⟨hc.1, hc.2.1.mono h.frame hl, fun x hx => hf x hx (hc.2.2 x hx)⟩
  | take front cachedOffset =>
    simp only [hph] at hc ⊢
    rw [h.pending_eq, h.offset_eq]
    exact ⟨hc.1, hc.2.1.mono h.frame hl, fun x hx => hf x hx (hc.2.2.1 x hx), hc.2.2.2⟩
  | again cachedOffset maximumRequestedOffset taken =>
    simp only [hph] at hc ⊢
    rw [h.pending_eq]
    exact ⟨hc.1, hc.2.1.mono h.frame hl, fun x hx => (hc.2.2.1 x hx).imp (hf x hx) fun h => h, hc.2.2.2⟩
  | append requestOffset bytesToReadLeft =>
    simp only [hph] at hc ⊢
    refine ⟨hc.1.mono h.frame hl, hc.2.imp (fun ha x hx => hf x hx (ha x hx)) ?_⟩
    rintro ⟨init, back, hr, hs, hpe, hn, hi⟩
    refine ⟨init, back, hr, h.inserted back hs, by rwa [h.pending_eq], by rwa [h.notified_eq], fun x hx => ?_⟩
    rw [h.pending_eq]
    exact (hi x hx).imp (hf x (by simp [hr, hx])) fun h => h
  | decide rcvp =>
    simp only [hph] at hc ⊢
    refine ⟨hc.1.mono h.frame hl, ?_⟩
    cases rcvp with
    | none => exact fun x hx => hf x hx (hc.2 x hx)
    | some t =>
      obtain ⟨-, hl', hs, before, after, hp, hx⟩ := hc
      refine ⟨by rwa [h.nextId_eq], h.frame.requested t hl' hs, before, after, by rwa [h.pending_eq], ?_⟩
      exact fun x hm => (hx x hm).imp (hf x hm) fun h => h

theorem Works.inv (h : s.Works s') (hs : s.Inv) : s'.Inv where
  wf := h.wf hs.wf
  call := fun c hc => by
    rw [h.call_eq] at hc
    have hca := hs.call c hc
    exact ⟨by rw [h.nextId_eq]; exact hca.result_lt, h.phaseInv hca.result_lt hca.phase⟩
  answers := fun a ha => by
    rw [h.answers_eq] at ha
    have held := hs.answers a ha
    refine held.mono h.frame fun t _ _ hw => ?_
    exact hw.extend h.frame held.result_lt h.errorCode_eq h.notified_eq (by rw [h.pending_eq, append_nil]) (by simp)

theorem works_setStatus (hs : s.WF) {status : EntryStatus}
    (hold : (s.heap id).status = .queued ∨ (s.heap id).status = .reading) (hn : status ≠ .inserted)
    (hl : ∀ bytes, status = .filled bytes → bytes ≤ (s.heap id).asked) :
    s.Works { s.setStatus id status with ending := ending } := by
  have hh : ∀ x, (s.setStatus id status).heap x = if x = id then { s.heap id with status := status } else s.heap x :=
    fun x => by simp [setStatus, update_apply]
  have hf : ∀ x, (s.heap x).IsFilled → ((s.setStatus id status).heap x).IsFilled := fun x hx => by
    rw [hh]
    split_ifs with he
    · subst he
      obtain ⟨bytes, hb⟩ := hx
      rw [hb] at hold
      simp at hold
    · exact hx
  refine ⟨⟨le_refl _, fun x _ => ?_, fun x _ => ?_, fun x _ => hf x, fun x _ hx => ?_⟩, rfl, fun x hx => ?_,
    fun x => ?_, fun x bytes hx => ?_, fun x hx => hf x (hs.finished_filled x hx), rfl, rfl, rfl, rfl, rfl, rfl⟩
  all_goals simp only [hh] at *
  · split_ifs with he
    · rw [he]
    · rfl
  · split_ifs with he
    · rw [he]
    · rfl
  · split_ifs with he
    · exact hn
    · exact hx
  · split_ifs with he
    · subst he
      rw [hx] at hold
      simp at hold
    · exact hx
  · split_ifs with he
    · rw [he]
    · rfl
  · split_ifs at hx ⊢ with he
    · exact hl bytes hx
    · exact hs.filled_le x bytes hx

theorem Inv.pickUp (hs : s.Inv) : (s.step (.pickUp id)).Inv := by
  simp only [step]
  by_cases h : (s.heap id).status = .queued
  · rw [if_pos h]
    refine (works_setStatus hs.wf (.inl h) ?_ ?_).inv hs
    · split_ifs <;> simp
    · split_ifs <;> simp
  · rwa [if_neg h]

theorem Inv.readEnds (hs : s.Inv) {bytes : Option ℕ} : (s.step (.readEnds id bytes)).Inv := by
  simp only [step]
  by_cases h : (s.heap id).status = .reading
  · rw [if_pos h]
    refine (works_setStatus hs.wf (.inr h) ?_ ?_).inv hs
    · cases bytes with
      | none => simp
      | some bytes => simp only; split_ifs <;> simp
    · cases bytes with
      | none => simp
      | some bytes =>
        split_ifs
        · simp
        · rintro _ ⟨⟩
          exact min_le_right _ _
  · rwa [if_neg h]

theorem Inv.markFinished (hs : s.Inv) : (s.step (.markFinished id)).Inv := by
  simp only [step]
  split
  · next bytes hst =>
    split_ifs
    · refine Works.inv (s := s) ⟨frame_of_heap rfl rfl, rfl, fun _ h => h, fun _ => rfl, hs.wf.filled_le,
        fun x hx => ?_, rfl, rfl, rfl, rfl, rfl, rfl⟩ hs
      simp only [update_apply] at hx
      split_ifs at hx with he
      · exact ⟨bytes, he ▸ hst⟩
      · exact hs.wf.finished_filled x hx
    · exact hs
  · exact hs

/-! ## Steps under the lock -/

theorem WF.shrink (hs : s.WF) (hh : s'.heap = s.heap) (hn : s'.nextId = s.nextId)
    (hc : s'.cached = s.cached) (hf : s'.finished = s.finished) (hsu : s'.pending.Sublist s.pending)
    (hno : ∀ id, s'.notified id → s.notified id ∨ id ∈ s.pending ∧ id ∉ s'.pending) : s'.WF := by
  have hu : ∀ id, s.notified id = false → (id ∈ s.pending → id ∈ s'.pending) → s'.notified id = false := by
    intro id h1 h2
    by_contra hne
    rcases hno id (by simpa using hne) with h | h
    · rw [h1] at h
      cases h
    · exact h.2 (h2 h.1)
  exact
    { cached_lt := by rw [hc, hn]; exact hs.cached_lt
      pending_lt := fun id hi => by rw [hn]; exact hs.pending_lt id (hsu.subset hi)
      pending_nodup := hs.pending_nodup.sublist hsu
      unnotified := fun id hi => hu id (hs.unnotified id (hsu.subset hi)) fun _ => hi
      requested := fun id hi => by rw [hh]; exact hs.requested id (hsu.subset hi)
      fresh := fun id hi => by
        rw [hn] at hi
        refine ⟨hu id (hs.fresh id hi).1 fun hm => ?_, by rw [hh]; exact (hs.fresh id hi).2⟩
        exact absurd (hs.pending_lt id hm) (not_lt.2 hi)
      finished_filled := by rw [hf, hh]; exact hs.finished_filled
      filled_le := by rw [hh]; exact hs.filled_le }

theorem WF.congr (hs : s.WF) (hh : s'.heap = s.heap) (hne : s'.nextId = s.nextId)
    (hc : s'.cached = s.cached) (hf : s'.finished = s.finished) (hp : s'.pending = s.pending)
    (hn : s'.notified = s.notified) : s'.WF :=
  hs.shrink hh hne hc hf (by rw [hp]) fun _ h => .inl (by rwa [← hn])

theorem Inv.discardAll (hs : s.WF) (han : ∀ a ∈ s.answers, s.Held a) : (s.discardAllPendingRequests unreferenced).WF ∧
      ∀ a ∈ s.answers, (s.discardAllPendingRequests unreferenced).Held a := by
  refine ⟨hs.shrink rfl rfl rfl rfl (nil_sublist _) fun id hi => .inl hi, fun a ha => ?_⟩
  refine (han a ha).mono (frame_of_heap rfl rfl) fun t _ _ hw => ?_
  rcases hw with h | ⟨before, after, hp, -⟩ | h | h
  · exact .inl h
  · exact .inr (.inr (.inl ⟨by simp [discardAllPendingRequests], hs.unnotified t (by simp [hp])⟩))
  · exact .inr (.inr (.inl ⟨by simp [discardAllPendingRequests], h.2⟩))
  · exact .inr (.inr (.inr h))

theorem cut_pending {front rest before after : List ℕ} (h : front ++ rest = before ++ t :: after) :
    (∃ mid, before = front ++ mid ∧ rest = mid ++ t :: after) ∨ ∃ mid, front = before ++ t :: mid := by
  rcases append_eq_append_iff.1 h with ⟨mid, h1, h2⟩ | ⟨mid, h1, h2⟩
  · exact .inl ⟨mid, h1, h2⟩
  · cases mid with
    | nil => exact .inl ⟨[], by simpa using h1.symm, by simpa using h2.symm⟩
    | cons x mid =>
      obtain ⟨rfl, -⟩ := cons_eq_cons.1 h2
      exact .inr ⟨mid, h1⟩

theorem Waiting.tryNotify (hs : s.WF) (h : s.Waiting result t) : s.tryNotify.Waiting result t := by
  have hpo : ∀ x ∈ s.pending.takeWhile s.finished, (s.heap x).IsFilled := fun x hx =>
    hs.finished_filled x (all_eq_true.1 all_takeWhile x hx)
  rcases h with h | ⟨before, after, hp, hx⟩ | ⟨hp, hn⟩ | h
  · exact .inl h
  · rw [← takeWhile_append_dropWhile (p := s.finished) (l := s.pending)] at hp
    rcases cut_pending hp with ⟨mid, h1, h2⟩ | ⟨mid, h1⟩
    · refine .inr (.inl ⟨mid, after, h2, fun x hm => ?_⟩)
      rcases hx x hm with h | h | h
      · exact .inl h
      · rw [h1, mem_append] at h
        exact h.elim (fun h => .inl (hpo x h)) fun h => .inr (.inl h)
      · exact .inr (.inr h)
    · refine .inr (.inr (.inr fun x hm => ?_))
      rcases hx x hm with h | h | rfl
      · exact h
      · exact hpo x (by simp [h1, h])
      · exact hpo x (by simp [h1])
  · refine .inr (.inr (.inl ⟨fun hm => hp ((dropWhile_sublist _).subset hm), ?_⟩))
    have : t ∉ s.pending.takeWhile s.finished := fun hm => hp ((takeWhile_sublist _).subset hm)
    simp [ReadRecord.tryNotify, hn, this]
  · exact .inr (.inr (.inr h))

theorem Waiting.clearAndNotify (h : s.Waiting result t) : (s.clearAndNotify id).Waiting result t := by
  rcases h with h | ⟨before, after, hp, hx⟩ | ⟨hp, hn⟩ | h
  · exact .inl (by simp [ReadRecord.clearAndNotify, h])
  · rw [← takeWhile_append_dropWhile (p := (· != id)) (l := s.pending)] at hp
    rcases cut_pending hp with ⟨mid, h1, h2⟩ | ⟨mid, h1⟩
    · exact .inl (by simp [ReadRecord.clearAndNotify, h2])
    · exact .inr (.inl ⟨before, mid, h1, hx⟩)
  · refine .inr (.inr (.inl ⟨fun hm => hp ((takeWhile_sublist _).subset hm), ?_⟩))
    have : t ∉ s.pending.dropWhile (· != id) := fun hm => hp ((dropWhile_sublist _).subset hm)
    simp [ReadRecord.clearAndNotify, hn, this]
  · exact .inr (.inr (.inr h))

theorem Inv.tryNotify (hs : s.Inv) (hca : s.call = none) : s.tryNotify.Inv where
  wf := by
    refine hs.wf.shrink rfl rfl rfl rfl (dropWhile_sublist _) fun id hi => ?_
    simp only [ReadRecord.tryNotify, Bool.or_eq_true, contains_iff_mem] at hi ⊢
    refine hi.imp (fun h => h) fun hm => ?_
    have hn := hs.wf.pending_nodup
    rw [← takeWhile_append_dropWhile (p := s.finished) (l := s.pending), nodup_append] at hn
    exact ⟨(takeWhile_sublist _).subset hm, fun h => hn.2.2 id hm id h rfl⟩
  call := fun c hc => by
    rw [show s.tryNotify.call = s.call from rfl, hca] at hc
    cases hc
  answers := fun a ha => (hs.answers a ha).mono (frame_of_heap rfl rfl) fun t _ _ hw => hw.tryNotify hs.wf

theorem Inv.clearAndNotify (hs : s.Inv) (hca : s.call = none) : (s.clearAndNotify id).Inv where
  wf := by
    refine hs.wf.shrink rfl rfl rfl rfl (takeWhile_sublist _) fun x hx => ?_
    simp only [ReadRecord.clearAndNotify, Bool.or_eq_true, contains_iff_mem] at hx ⊢
    refine hx.imp (fun h => h) fun hm => ?_
    have hn := hs.wf.pending_nodup
    rw [← takeWhile_append_dropWhile (p := (· != id)) (l := s.pending), nodup_append] at hn
    exact ⟨(dropWhile_sublist _).subset hm, fun h => hn.2.2 x h x hm rfl⟩
  call := fun c hc => by
    rw [show (s.clearAndNotify id).call = s.call from rfl, hca] at hc
    cases hc
  answers := fun a ha => (hs.answers a ha).mono (frame_of_heap rfl rfl) fun t _ _ hw => hw.clearAndNotify

theorem Inv.setError (hs : s.Inv) (hca : s.call = none) :
    ({ s with ending := ending, errorCode := Function.update s.errorCode id true } : ReadRecord).Inv where
  wf := hs.wf.congr rfl rfl rfl rfl rfl rfl
  call := fun c hc => by
    rw [show s.call = some c from hc] at hca
    cases hca
  answers := fun a ha => (hs.answers a ha).mono (frame_of_heap rfl rfl) fun t _ _ hw => by
    refine hw.imp (fun h => ?_) fun h => h
    simp only [update_apply]
    split_ifs
    · rfl
    · exact h

theorem Inv.setEnding (hs : s.Inv) : ({ s with ending := ending } : ReadRecord).Inv :=
  ⟨hs.wf.congr rfl rfl rfl rfl rfl rfl, fun c hc => ⟨(hs.call c hc).result_lt, (hs.call c hc).phase⟩,
    fun a ha => (hs.answers a ha).mono (frame_of_heap rfl rfl) fun _ _ _ hw => hw⟩

theorem Inv.lockFinish (hs : s.Inv) : (s.step (.lockFinish id)).Inv := by
  simp only [step]
  split_ifs with hg
  · exact hs
  · have hc : s.call = none := by
      simp only [not_or, Option.isSome_iff_ne_none, ne_eq, not_not] at hg
      exact hg.1
    unfold finishUnderLock
    split
    · simp only
      split_ifs with he
      · exact hs.setEnding
      · exact (hs.setError hc).clearAndNotify hc
    · split_ifs with hf
      · exact (hs.setEnding).tryNotify hc
      · exact hs

theorem Inv.readDataEnd (hs : s.Inv) : (s.step (.readDataEnd unreferenced)).Inv := by
  simp only [step]
  split_ifs with hg
  · exact hs
  · obtain ⟨hw, ha⟩ := Inv.discardAll hs.wf hs.answers
    refine ⟨hw, fun c hc => ?_, ha⟩
    rw [show s.call = some c from hc] at hg
    simp at hg

/-! ## Steps of a call -/

theorem inv_answer (hs : s.WF) (han : ∀ a ∈ s.answers, s.Held a) {mustWait : Bool}
    (h : s.Held ⟨c.offset, c.size, mustWait, rcvp, c.result⟩) : (answer c mustWait rcvp s).Inv where
  wf := hs.congr rfl rfl rfl rfl rfl rfl
  call := fun c' hc' => by cases hc'
  answers := fun a ha => by
    rcases mem_cons.1 ha with rfl | ha
    · exact h.mono (frame_of_heap rfl rfl) fun _ _ _ hw => hw
    · exact (han a ha).mono (frame_of_heap rfl rfl) fun _ _ _ hw => hw

theorem inv_call (hs : s.WF) (han : ∀ a ∈ s.answers, s.Held a) (hc : s.CallInv c)
    (suggested : ℕ) : ({ s with suggestedReadaheadReqs := suggested, call := some c } : ReadRecord).Inv where
  wf := hs.congr rfl rfl rfl rfl rfl rfl
  call := fun c' hc' => by
    cases hc'
    exact ⟨hc.result_lt, hc.phase⟩
  answers := fun a ha => (han a ha).mono (frame_of_heap rfl rfl) fun _ _ _ hw => hw

theorem Inv.beginRequest (hs : s.Inv) {advice : Advice} : (s.beginRequest offset size advice expired garbage).Inv := by
  obtain ⟨had, hsu, hc⟩ := query_spec hs.wf offset size expired garbage
  have hg := grows_query hs.wf offset size expired garbage
  unfold ReadRecord.beginRequest
  generalize s.query offset size expired garbage = r at *
  have hw := hg.wf hs.wf
  have hlt : ∀ x ∈ r.2.added, x < r.1.nextId := fun x hx => (had x hx).1.trans_le hg.frame.nextId_le
  have hf : ∀ x ∈ r.2.added, (r.1.heap x).IsFilled := fun x hx => hg.frame.filled x (had x hx).1 (had x hx).2
  have hr : ∀ byte, offset ≤ byte → byte < r.2.offset → ∃ x ∈ r.2.added, (r.1.heap x).Reaches byte :=
    fun byte hl hh => by
      obtain ⟨x, hx, hre⟩ := hc byte hl hh
      exact ⟨x, hx, hg.frame.reaches (had x hx).1 hre⟩
  have han : ∀ a ∈ r.1.answers, r.1.Held a := fun a ha => hg.held (hs.answers a (by rwa [← hg.answers_eq]))
  by_cases hle : r.2.bytesLeft = 0
  · rw [if_pos hle]
    have he := grows_addExtraRequests hw garbage advice offset
      (Call.recommendedSize ⟨offset, size, advice, r.2.added, .search r.2.offset⟩) (r.1.resultEnd r.2.added offset)
    have held : r.1.Held ⟨offset, size, false, none, r.2.added⟩ :=
      ⟨hlt, fun byte hl hh => hr byte hl (by simp only at hh; omega), by simp, fun _ => hf⟩
    refine inv_answer (he.wf hw) (fun a ha => he.held (han a (by rwa [← he.answers_eq]))) ?_
    exact he.held held
  · rw [if_neg hle]
    have hca : r.1.CallInv ⟨offset, size, advice, r.2.added, .search r.2.offset⟩ :=
      ⟨hlt, by simp only; omega, hr, hf⟩
    exact inv_call hw han hca _

theorem Inv.searchStep (hs : s.Inv) (hc : s.CallInv c)
    (hph : c.phase = .search cachedOffset) : (s.searchStep c cachedOffset).Inv := by
  have hp := hc.phase
  simp only [PhaseInv, hph] at hp
  have hn : s.CallInv { c with phase := .again cachedOffset cachedOffset none } :=
    ⟨hc.result_lt, hp.1, hp.2.1, fun x hx => .inl (hp.2.2 x hx), by simp⟩
  unfold ReadRecord.searchStep
  split
  · exact inv_call hs.wf hs.answers hn _
  · next front rest hpe =>
    split_ifs with hf
    · have ht : s.CallInv { c with phase := .take front cachedOffset } :=
        ⟨hc.result_lt, hp.1, hp.2.1, hp.2.2, ⟨rest, hpe⟩, hf.1⟩
      exact inv_call hs.wf hs.answers ht _
    · exact inv_call hs.wf hs.answers hn _

theorem WF.requestedSize_le (hs : s.WF) (id : ℕ) : (s.heap id).requestedSize ≤ (s.heap id).asked := by
  unfold requestedSize
  split
  · next bytes h => exact hs.filled_le id bytes h
  · exact Nat.zero_le _
  · exact le_refl _

theorem Inv.takeStep (hs : s.Inv) {front : ℕ} (hc : s.CallInv c)
    (hph : c.phase = .take front cachedOffset) (garbage : ℕ → Bool) :
    (s.takeStep c front cachedOffset garbage).Inv := by
  have hp := hc.phase
  simp only [PhaseInv, hph] at hp
  obtain ⟨hca, hr, hf, ⟨rest, hpe⟩, ho⟩ := hp
  have hfr : front < s.nextId := hs.wf.pending_lt front (by simp [hpe])
  have hlt : ∀ x ∈ c.result ++ [front], x < s.nextId := fun x hx => by
    rcases mem_append.1 hx with hx | hx
    · exact hc.result_lt x hx
    · rwa [mem_singleton.1 hx]
  have hle := hs.wf.requestedSize_le front
  -- the request that is taken over reaches from what was cached to its own end
  have hr' : ∀ byte, c.offset ≤ byte → byte < (s.heap front).endOffset →
      ∃ x ∈ c.result ++ [front], (s.heap x).Reaches byte := fun byte hl hh => by
    by_cases hb : byte < cachedOffset
    · obtain ⟨x, hx, hre⟩ := hr byte hl hb
      exact ⟨x, mem_append_left _ hx, hre⟩
    · refine ⟨front, by simp, by omega, ?_⟩
      unfold endOffset at hh
      omega
  unfold ReadRecord.takeStep
  simp only
  split_ifs with hen
  · have he := grows_addExtraRequests hs.wf garbage c.advice c.offset
      (Call.recommendedSize { c with result := c.result ++ [front] }) (c.offset + c.size)
    have hst : (s.heap front).status ≠ .inserted := hs.wf.requested front (by simp [hpe])
    have held : s.Held ⟨c.offset, c.size, true, some front, c.result ++ [front]⟩ := by
      refine ⟨hlt, fun byte hl hh => hr' byte hl (hh.trans_le hen), fun _ => ?_, by simp⟩
      refine ⟨front, rfl, hfr, hst, .inr (.inl ⟨[], rest, hpe, fun x hx => ?_⟩)⟩
      rcases mem_append.1 hx with hx | hx
      · exact .inl (hf x hx)
      · exact .inr (.inr (mem_singleton.1 hx))
    exact inv_answer (he.wf hs.wf) (fun a ha => he.held (hs.answers a (by rwa [← he.answers_eq]))) (he.held held)
  · have hag : s.CallInv { c with
        result := c.result ++ [front], phase := .again cachedOffset (s.heap front).endOffset (some front) } := by
      refine ⟨hlt, not_le.1 hen, hr', fun x hx => ?_, ?_⟩
      · rcases mem_append.1 hx with hx | hx
        · exact .inl (hf x hx)
        · exact .inr (by rw [mem_singleton.1 hx])
      · rintro _ ⟨⟩
        exact ⟨rest, hpe⟩
    exact inv_call hs.wf hs.answers hag _

theorem Inv.againStep (hs : s.Inv) {maximumRequestedOffset : ℕ}
    {taken : Option ℕ} (hc : s.CallInv c) (hph : c.phase = .again cachedOffset maximumRequestedOffset taken)
    (hsi : c.offset + c.size ≤ maximumRequestedOffset + remainingSize c maximumRequestedOffset)
    (hta : ∀ front, taken = some front → ¬ (s.heap front).IsFilled →
      discards c cachedOffset maximumRequestedOffset = false ∧
        (s.query maximumRequestedOffset (remainingSize c maximumRequestedOffset) expired garbage).2.bytesLeft ≠ 0) :
    (s.againStep c cachedOffset maximumRequestedOffset expired garbage unreferenced).Inv := by
  have hp := hc.phase
  simp only [PhaseInv, hph] at hp
  obtain ⟨-, hre, hres, hfr⟩ := hp
  unfold ReadRecord.againStep
  simp only
  set s1 := if discards c cachedOffset maximumRequestedOffset
    then s.discardAllPendingRequests unreferenced else s with hs1
  have hh : s1.heap = s.heap := by rw [hs1]; split_ifs <;> rfl
  have hnex : s1.nextId = s.nextId := by rw [hs1]; split_ifs <;> rfl
  have hsa : discards c cachedOffset maximumRequestedOffset = false → s1 = s := fun h => by rw [hs1, h]; rfl
  obtain ⟨hw, han⟩ : s1.WF ∧ ∀ a ∈ s1.answers, s1.Held a := by
    rw [hs1]
    split_ifs
    · exact Inv.discardAll hs.wf hs.answers
    · exact ⟨hs.wf, hs.answers⟩
  have hf : s.Frame s1 := frame_of_heap hh hnex
  obtain ⟨hg, hpe, hco, hlt, hca⟩ :=
    queryInsert_spec hw
  generalize s1.queryInsert maximumRequestedOffset (remainingSize c maximumRequestedOffset) expired garbage = r at *
  have hf' := hf.trans hg.frame
  have hfi : ∀ x ∈ c.result, (s.heap x).IsFilled → (r.1.heap x).IsFilled := fun x hx =>
    hf'.filled x (hc.result_lt x hx)
  -- an entry that is not filled is the one taken over, and still the first pending one
  have ho : ∀ x ∈ c.result, ¬ (s.heap x).IsFilled → s1 = s ∧ x ∈ s.pending ∧
      (s.query maximumRequestedOffset (remainingSize c maximumRequestedOffset) expired garbage).2.bytesLeft ≠ 0 := by
    intro x hx hn
    have ht := (hres x hx).resolve_left hn
    obtain ⟨hd, hl⟩ := hta x ht hn
    obtain ⟨rest, hrest⟩ := hfr x ht
    exact ⟨hsa hd, by simp [hrest], hl⟩
  refine inv_call (hg.wf hw) (fun a ha => hg.held (han a (by rwa [← hg.answers_eq]))) ?_ _
  refine ⟨fun x hx => ?_, fun byte hlo hhi => ?_, ?_⟩
  · rcases mem_append.1 hx with hx | hx
    · exact (hc.result_lt x hx).trans_le hf'.nextId_le
    · exact hlt x hx
  · by_cases hb : byte < maximumRequestedOffset
    · obtain ⟨x, hx, hr⟩ := hre byte hlo hb
      exact ⟨x, mem_append_left _ hx, hf'.reaches (hc.result_lt x hx) hr⟩
    · obtain ⟨x, hx, hr⟩ := hco byte (not_lt.1 hb) (lt_of_lt_of_le hhi hsi)
      exact ⟨x, mem_append_right _ hx, hr⟩
  · rcases hca with ⟨hl, hal⟩ | ⟨added, had, hal, hi⟩
    · refine .inl fun x hx => ?_
      rcases mem_append.1 hx with hx | hx
      · by_cases hx' : (s.heap x).IsFilled
        · exact hfi x hx hx'
        · obtain ⟨he, -, hne⟩ := ho x hx hx'
          rw [he] at hl
          exact absurd hl hne
      · exact hal x hx
    · refine .inr ⟨c.result ++ added, s1.nextId, by simp [had], hi, ?_, ?_, fun x hx => ?_⟩
      · rw [hpe]
        exact fun hm => lt_irrefl _ (hw.pending_lt _ hm)
      · rw [hg.notified_eq]
        exact (hw.fresh _ (le_refl _)).1
      · rcases mem_append.1 hx with hx | hx
        · by_cases hx' : (s.heap x).IsFilled
          · exact .inl (hfi x hx hx')
          · obtain ⟨he, hm, -⟩ := ho x hx hx'
            rw [hpe, he]
            exact .inr hm
        · exact .inl (hal x hx)

theorem addRequest_spec (hs : s.WF) (han : ∀ a ∈ s.answers, s.Held a) {back : ℕ}
    (hl : back < s.nextId) (hba : (s.heap back).status = .inserted) (hp : back ∉ s.pending)
    (hn : s.notified back = false) :
    s.Frame (s.addRequest back) ∧ (s.addRequest back).WF ∧ (∀ a ∈ s.answers, (s.addRequest back).Held a) ∧
      ((s.addRequest back).heap back).status ≠ .inserted := by
  have hh : ∀ x, (s.addRequest back).heap x =
      if x = back then { s.heap back with status := .queued } else s.heap x :=
    fun x => by simp [addRequest, setStatus, update_apply]
  have hfi : ∀ x, (s.heap x).IsFilled → ((s.addRequest back).heap x).IsFilled := fun x hx => by
    rw [hh]
    split_ifs with he
    · subst he
      obtain ⟨bytes, hb⟩ := hx
      rw [hba] at hb
      cases hb
    · exact hx
  have hf : s.Frame (s.addRequest back) := by
    refine ⟨le_refl _, fun x _ => ?_, fun x _ => ?_, fun x _ => hfi x, fun x _ hx => ?_⟩
    all_goals rw [hh]; split_ifs with he
    · rw [he]
    · rfl
    · rw [he]
    · rfl
    · simp
    · exact hx
  have hm : ∀ x ∈ (s.addRequest back).pending, x ∈ s.pending ∨ x = back := fun x hx => by
    simpa [addRequest] using hx
  refine ⟨hf, ?_, fun a ha => ?_, by simp [hh]⟩
  · exact
      { cached_lt := hs.cached_lt
        pending_lt := fun x hx => (hm x hx).elim (hs.pending_lt x) fun h => h ▸ hl
        pending_nodup := nodup_append.2 ⟨hs.pending_nodup, nodup_singleton _, by
          rintro x hx y hy rfl
          exact hp (mem_singleton.1 hy ▸ hx)⟩
        unnotified := fun x hx => (hm x hx).elim (hs.unnotified x) fun h => h ▸ hn
        requested := fun x hx => by
          rw [hh]
          split_ifs with he
          · simp
          · exact hs.requested x ((hm x hx).resolve_right he)
        fresh := fun x hx => by
          have hne : x ≠ back := fun h => absurd hl (not_lt.2 (h ▸ hx))
          rw [hh, if_neg hne]
          exact hs.fresh x hx
        finished_filled := fun x hx => hfi x (hs.finished_filled x hx)
        filled_le := fun x bytes hx => by
          rw [hh] at hx ⊢
          split_ifs at hx ⊢ with he
          exact hs.filled_le x bytes hx }
  · refine (han a ha).mono hf fun t _ ht hw => ?_
    refine hw.extend hf (han a ha).result_lt rfl rfl rfl fun hm => ht ?_
    rw [mem_singleton.1 hm]
    exact hba

theorem done_of_filled {e : Entry} (h : e.IsFilled) : e.done := by
  obtain ⟨bytes, h⟩ := h
  simp [done, h]

theorem Inv.appendStep (hs : s.Inv) {requestOffset bytesToReadLeft : ℕ} (hc : s.CallInv c)
    (hph : c.phase = .append requestOffset bytesToReadLeft) :
    (s.appendStep c requestOffset bytesToReadLeft garbage).Inv := by
  have hp := hc.phase
  simp only [PhaseInv, hph] at hp
  obtain ⟨hre, hca⟩ := hp
  -- nothing to add: all entries are filled
  have hno : (∀ x ∈ c.result, (s.heap x).IsFilled) →
      ({ s.addExtraRequests garbage c.advice c.offset c.recommendedSize (requestOffset + bytesToReadLeft) with
          call := some { c with phase := .decide none } } : ReadRecord).Inv := fun hal => by
    have he := grows_addExtraRequests hs.wf garbage c.advice c.offset c.recommendedSize
      (requestOffset + bytesToReadLeft)
    refine inv_call (he.wf hs.wf) (fun a ha => he.held (hs.answers a (by rwa [← he.answers_eq]))) ?_ _
    exact ⟨fun x hx => (hc.result_lt x hx).trans_le he.frame.nextId_le, hre.mono he.frame hc.result_lt,
      fun x hx => he.frame.filled x (hc.result_lt x hx) (hal x hx)⟩
  unfold ReadRecord.appendStep
  rcases hca with hal | ⟨init, back, hr, hb, hpe, hn, hi⟩
  · split
    · exact hno hal
    · next back hl =>
      rw [if_pos (done_of_filled (hal back (mem_of_getLast? hl)))]
      exact hno hal
  · have hl : c.result.getLast? = some back := by simp [hr]
    have hlt : back < s.nextId := hc.result_lt back (by simp [hr])
    have hd : ¬ (s.heap back).done := by simp [done, hb]
    simp only [hl, if_neg hd]
    obtain ⟨hf, hw, han, hst⟩ := addRequest_spec hs.wf hs.answers hlt hb hpe hn
    have he := grows_addExtraRequests hw garbage c.advice c.offset c.recommendedSize
      (requestOffset + bytesToReadLeft)
    obtain ⟨new, hne, -, -⟩ := he.pending_eq
    have hf' := hf.trans he.frame
    refine inv_call (he.wf hw) (fun a ha => he.held (han a (by rwa [he.answers_eq] at ha))) ?_ _
    refine ⟨fun x hx => (hc.result_lt x hx).trans_le hf'.nextId_le, hre.mono hf' hc.result_lt,
      hlt.trans_le hf'.nextId_le, he.frame.requested back hlt hst, s.pending, new, ?_, fun x hx => ?_⟩
    · rw [hne]
      simp [addRequest]
    · simp only [hr, mem_append, mem_singleton] at hx
      rcases hx with hx | hx
      · refine (hi x hx).imp (hf'.filled x (hc.result_lt x (by simp [hr, hx]))) fun h => .inl h
      · exact .inr (.inr hx)

theorem Inv.decideStep (hs : s.Inv) (hc : s.CallInv c) (hph : c.phase = .decide rcvp)
    (hcar : (∀ x ∈ c.result, (s.heap x).done) → ∀ x ∈ c.result, (s.heap x).IsFilled) : (s.decideStep c rcvp).Inv := by
  have hp := hc.phase
  simp only [PhaseInv, hph] at hp
  obtain ⟨hr, hca⟩ := hp
  refine inv_answer hs.wf hs.answers ⟨hc.result_lt, hr, fun hw => ?_, fun hre => ?_⟩
  · cases rcvp with
    | none =>
      obtain ⟨x, hx, hn⟩ := any_eq_true.1 hw
      simp [done_of_filled (hca x hx)] at hn
    | some t =>
      obtain ⟨hl, hst, hpe⟩ := hca
      exact ⟨t, rfl, hl, hst, .inr (.inl hpe)⟩
  · exact hcar fun x hx => by simpa using any_eq_false.1 hre x hx

/-! ## Runs -/

theorem Inv.step (hs : s.Inv) {e : Event} (he : s.Careful e) : (s.step e).Inv := by
  cases e with
  | request offset size advice expired garbage =>
    simp only [ReadRecord.step]
    split_ifs
    · exact hs
    · exact hs.beginRequest
  | proceed expired garbage unreferenced =>
    simp only [ReadRecord.step]
    cases hcal : s.call with
    | none => exact hs
    | some c =>
      have hc := hs.call c hcal
      have hca := he c hcal
      simp only [ReadRecord.proceed]
      cases hp : c.phase with
      | search cachedOffset => exact hs.searchStep hc hp
      | take front cachedOffset => exact hs.takeStep hc hp garbage
      | again cachedOffset maximumRequestedOffset taken =>
        simp only [CarefulCall, hp] at hca
        exact hs.againStep hc hp hca.1 hca.2
      | append requestOffset bytesToReadLeft => exact hs.appendStep hc hp
      | decide rcvp =>
        simp only [CarefulCall, hp] at hca
        exact hs.decideStep hc hp hca
  | pickUp id => exact hs.pickUp
  | readEnds id bytes => exact hs.readEnds
  | markFinished id => exact hs.markFinished
  | lockFinish id => exact hs.lockFinish
  | readDataEnd unreferenced => exact hs.readDataEnd

theorem IsInitial.inv (h : s.IsInitial) : s.Inv := by
  obtain ⟨hp, hc, ha, hn, hf⟩ := h.no_requests
  refine ⟨⟨h.cached_lt, ?_, ?_, ?_, ?_, fun id hi => ⟨hn id, h.unused id hi⟩, ?_, h.filled_le⟩, ?_, ?_⟩
  all_goals simp [hp, hc, ha, hf]

/-- **readahead hands out complete data**: in every run of careful steps, an answer that the caller must wait names a
request, and once that was notified without an error the result is complete; the result of any other answer is complete
-/
theorem readahead_complete {s : ReadRecord} (h : s.IsInitial) (events : List Event)
    (hc : Stepwise.Along step Careful s events) : ∀ a ∈ (s.run events).answers, (s.run events).Kept a := fun a ha =>
  have hinv := Stepwise.inv_run (P := Inv) (fun _ _ hc hs => hs.step hc) s events hc h.inv
  (hinv.answers a ha).kept hinv.wf

/-- a whole call by a thread that nobody interrupts, for 128 KiB and with a window of that size -/
def wholeCall (isSequential : Bool) (offset pieces : ℕ) : List Event :=
  .request offset 131072 ⟨isSequential, 131072, 262144, 2⟩ (fun _ => false) (fun _ => false) ::
    List.replicate pieces (.proceed (fun _ => false) (fun _ => false) (fun _ => false))

/-- a worker reads all of an entry -/
def wholeRead (id : ℕ) : List Event := [.pickUp id, .readEnds id (some 131072), .markFinished id, .lockFinish id]

theorem readahead_complete_first : (opened.run (wholeCall true 0 4 ++ wholeRead 0)).notified 0 ∧
      (opened.run (wholeCall true 0 4 ++ wholeRead 0)).Complete ⟨0, 131072, true, some 0, [0]⟩ := by
  have hkept := readahead_complete isInitial_opened (wholeCall true 0 4 ++ wholeRead 0) (by decide)
    ⟨0, 131072, true, some 0, [0]⟩ (by decide)
  have hnotified : (opened.run (wholeCall true 0 4 ++ wholeRead 0)).notified 0 := by decide
  obtain ⟨t, ht, hcomplete⟩ := hkept
  cases ht
  exact ⟨hnotified, hcomplete hnotified (by decide)⟩

/-- two reads of 128 KiB are pending, and the second one is done first. A read of the second half of the one and the
first half of the other finds the rest in the cache, and must wait for nothing -/
theorem nothing_to_wait_for :
    let s := opened.run (wholeCall true 0 4 ++ wholeCall true 131072 4 ++ wholeRead 1 ++ wholeCall false 65536 5)
    ⟨65536, 131072, true, none, [0, 1]⟩ ∈ s.answers := by
  decide

end ReadRecord

end SaunaFS.Mount.Readahead
