/-
Lost wake-ups: when a call makes room for a waiting request, it must take it out of the queue and grant it.

The slice of the queue that `gatherCandidates` takes out reaches back by a single request below the released range,
while requests overlap each other. And a granted shared request of an owner replaces an exclusive one, which makes room
in the middle of the loop.
-/
import SaunaFS.Locks.Table

namespace SaunaFS.Locks

open SortedSearch List FileLocks LockRange Stepwise

/-! ## Requests that cannot be granted -/

/-- every request waiting for the inode is kept out by an active lock -/
def Stuck (t : FileLocks) (i : ℕ) : Prop := ∀ l ∈ t.pending i, ¬ Admitted (mode (t.active i)) l

/-- no shared candidate weakens an exclusive lock of its owner, held or among the candidates, at an offset that `l`, a
request of another owner, waits for -/
def NoDowngrade (m : Modes) (cs : List LockRange) (l : LockRange) : Prop :=
  ∀ c ∈ cs, c.type = .shared → c.keys ≠ l.keys → ∀ p, c.covers p → l.covers p → ∀ k ∈ c.keys,
    m p k ≠ some .exclusive ∧ ∀ c' ∈ cs, c'.type = .exclusive → k ∈ c'.keys → ¬ c'.covers p

section NoDowngrade

variable {kind : LockKind} {m m' : Modes} {c l : LockRange} {cs : List LockRange}

theorem NoDowngrade.mono (h : NoDowngrade m cs l)
    (hm : ∀ p k, m' p k = some .exclusive → m p k = some .exclusive) : NoDowngrade m' cs l := by
  intro c hc hs hn p h1 h2 k hk
  obtain ⟨h3, h4⟩ := h c hc hs hn p h1 h2 k hk
  exact ⟨fun hx => h3 (hm p k hx), h4⟩

theorem NoDowngrade.tail (h : NoDowngrade m (c :: cs) l) : NoDowngrade m cs l := by
  intro x hx hs hn p h1 h2 k hk
  obtain ⟨h3, h4⟩ := h x (by simp [hx]) hs hn p h1 h2 k hk
  exact ⟨h3, fun c' hc' => h4 c' (by simp [hc'])⟩

theorem NoDowngrade.grant (h : NoDowngrade m (c :: cs) l) : NoDowngrade (m.grant c) cs l := by
  intro x hx hs hn p h1 h2 k hk
  obtain ⟨h3, h4⟩ := h x (by simp [hx]) hs hn p h1 h2 k hk
  refine ⟨fun hex => ?_, fun c' hc' => h4 c' (by simp [hc'])⟩
  by_cases hp : c.covers p ∧ k ∈ c.keys
  · have ht : c.type = .exclusive := by simpa [Modes.grant, hp] using hex
    exact h4 c (by simp) ht hp.2 hp.1
  · exact h3 (by simpa [Modes.grant, hp] using hex)

theorem not_admitted_grant (hm : ∀ p k u, m p k = some u → u = .shared ∨ u = .exclusive) (hc : Waiting kind c)
    (hl : Waiting kind l) (hno : NoDowngrade m (c :: cs) l) (hl' : ¬ Admitted m l) : ¬ Admitted (m.grant c) l := by
  obtain ⟨o, ho⟩ := hl.single
  have hlk : l.keys = [o.key] := by simp [LockRange.keys, ho]
  intro ha
  refine hl' (admitted_of_grant hlk (fun p h1 h2 k hk hn => ?_) ha)
  rcases hc.locking with hs | hx
  · have hke : c.keys ≠ l.keys := by
      intro he
      rw [he, hlk, mem_singleton] at hk
      exact hn hk
    have hnx := (hno c (by simp) hs hke p h1 h2 k hk).1
    cases hmp : m p k with
    | none => exact .inl rfl
    | some u =>
      rcases hm p k u hmp with rfl | rfl
      · exact .inr (.inr ⟨hs, rfl⟩)
      · exact absurd hmp hnx
  · exact .inr (.inl hx)

end NoDowngrade

/-! ## The candidate loop -/

section Loop

variable {kind : LockKind} {t : FileLocks} {i : ℕ} {cs : List LockRange}

theorem stuck_of_refused {l : LockRange} (h : Stuck t i) (hn : ¬ Admitted (mode (t.active i)) l) (nonblocking : Bool) :
    Stuck (if nonblocking then t else t.enqueue i l) i := by
  cases nonblocking with
  | true => exact h
  | false =>
    intro x hx
    rcases mem_cons.1 (enqueue_perm.subset hx) with rfl | hx
    · exact hn
    · exact h x hx

theorem applyCandidates_cons {c : LockRange} :
    (applyCandidates t i (c :: cs)).1 = (applyCandidates (t.apply i c false).1 i cs).1 := rfl

theorem applyCandidates_stuck (h : WellFormed kind t) (hcs : ∀ c ∈ cs, Waiting kind c) (hstuck : Stuck t i)
    (hle : ∀ l ∈ t.pending i, NoDowngrade (mode (t.active i)) cs l)
    (hs : ∀ l ∈ cs, NoDowngrade (mode (t.active i)) cs l) : Stuck (applyCandidates t i cs).1 i := by
  induction cs generalizing t with
  | nil => exact hstuck
  | cons c cs ih =>
    have hc := hcs c (by simp)
    have hcs' : ∀ x ∈ cs, Waiting kind x := fun x hx => hcs x (by simp [hx])
    have hs' : ∀ x ∈ cs, NoDowngrade (mode (t.active i)) (c :: cs) x := fun x hx => hs x (by simp [hx])
    rcases apply_cases (i := i) h hc false with ⟨-, hv, hm, he⟩ | ⟨hn, he⟩
    · -- granted: whoever waits still does, because the grant weakened nothing in its way
      rw [applyCandidates_cons, he]
      refine ih (h.setActive hv) hcs' (fun l hl => ?_) (fun l hl => ?_) fun l hl => ?_
      · rw [setActive_active, hm]
        exact not_admitted_grant (fun _ _ _ => (h.active i).mode_locked) hc (h.waiting i l hl) (hle l hl) (hstuck l hl)
      · rw [setActive_active, hm]
        exact (hle l hl).grant
      · rw [setActive_active, hm]
        exact (hs' l hl).grant
    · -- refused: the candidate joins the waiting ones
      rw [applyCandidates_cons, he]
      refine ih (h.enqueue hc) hcs' (stuck_of_refused hstuck hn false) (fun l hl => ?_) fun l hl => (hs' l hl).tail
      · rcases mem_cons.1 (enqueue_perm.subset hl) with rfl | hl
        · exact (hs l (by simp)).tail
        · exact (hle l hl).tail

theorem applyCandidates_refused (h : WellFormed kind t) (hc : ∀ c ∈ cs, Waiting kind c)
    (hn : ∀ c ∈ cs, ¬ Admitted (mode (t.active i)) c) (hstuck : Stuck t i) : Stuck (applyCandidates t i cs).1 i := by
  induction cs generalizing t with
  | nil => exact hstuck
  | cons c cs ih =>
    rcases apply_cases (i := i) h (hc c (by simp)) false with ⟨ha, -, -, -⟩ | ⟨-, he⟩
    · exact absurd ha (hn c (by simp))
    · rw [applyCandidates_cons, he]
      exact ih (h.enqueue (hc c (by simp))) (fun x hx => hc x (by simp [hx])) (fun x hx => hn x (by simp [hx]))
        (stuck_of_refused hstuck (hn c (by simp)) false)

end Loop

/-! ## What a call must find -/

/-- the range is not empty; what the candidate search leaves in the queue does not overlap what the call releases; and
no shared candidate weakens a lock of its owner in the way of another request -/
def Call.Wakes (kind : LockKind) (t : FileLocks) : Call → Prop
  | .lockOp inode start end_ owner op _ =>
    let s := (kind.range start end_).1
    let e := (kind.range start end_).2
    s < e ∧ match op with
      | .shared => fits (t.active inode) (.single .shared s e owner) = true →
          (∀ l ∈ left (t.pending inode) s e, ¬ (l.start < e ∧ s < l.end_)) ∧
            ∀ l ∈ t.pending inode, NoDowngrade (mode (t.active inode)) (taken (t.pending inode) s e) l
      | .unlock =>
          (∀ l ∈ left (t.pending inode) s e, ¬ (l.start < e ∧ s < l.end_)) ∧
            ∀ l ∈ t.pending inode, NoDowngrade (mode (t.active inode)) (taken (t.pending inode) s e) l
      | .release =>
          let queue := (t.pending inode).filter fun l => !ofOwner owner.owner owner.sessionid l
          ∀ l ∈ queue, NoDowngrade (mode (t.active inode)) queue l
      | _ => True
  | .clearSession inode sessionid =>
    let range := released (t.active inode) sessionid
    ∀ l ∈ left (ofOthers (t.pending inode) sessionid) range.1 range.2,
      ∀ r ∈ affected (t.active inode) (ofSession sessionid), l.overlaps r = false
  | .unlockInode inode => ∀ l ∈ t.pending inode, NoDowngrade (fun _ _ => none) (t.pending inode) l
  | .removePending _ _ _ _ => True

/-! ## One call -/

section Step

variable {kind : LockKind} {t : FileLocks} {i : ℕ} {s e : ℕ} {m : Modes} {queue : List LockRange}

theorem tryLockPending_stuck (h : WellFormed kind t) (hs : s ≤ e)
    (hm : ∀ p k, mode (t.active i) p k = some .exclusive → m p k = some .exclusive)
    (hle : ∀ l ∈ left (t.pending i) s e, ¬ Admitted (mode (t.active i)) l)
    (hn : ∀ l ∈ t.pending i, NoDowngrade m (taken (t.pending i) s e) l) :
    Stuck (fsManageLockTryLockPending t i s e).1 i := by
  obtain ⟨hw, hc⟩ := h.gather (i := i) (.of_le hs)
  have hsu := (window_rest_sublist start (t.pending i) (.of_le hs)).subset
  refine applyCandidates_stuck hw hc (fun l hl => ?_) (fun l hl => ?_) fun l hl => ?_
  · simp only [setPending_pending] at hl
    exact hle l hl
  · simp only [setPending_pending] at hl
    exact (hn l (hsu hl)).mono hm
  · exact (hn l (inside_mem hl)).mono hm

theorem left_whole (hs : queue.Pairwise fun a b => a.queueKey ≤ b.queueKey)
    (hb : ∀ l ∈ queue, l.start ≤ e) : left queue 0 e = [] ∧ taken queue 0 e = queue := by
  have hst : queue.Pairwise fun a b => a.start ≤ b.start := by
    refine hs.imp fun {a b} hab => ?_
    rcases Prod.Lex.le_iff.1 hab with h | h
    · exact le_of_lt h
    · exact le_of_eq h.1
  have hbe := before_eq_nil start queue e fun x _ => Nat.zero_le _
  have ha : (window start queue 0 e).after = [] := by
    by_contra hn
    obtain ⟨x, hx⟩ := exists_mem_of_ne_nil _ hn
    have h1 := after_key start hst 0 e x hx
    have h2 := hb x (mem_of_mem_drop hx)
    omega
  refine ⟨by rw [left, hbe, ha]; rfl, ?_⟩
  have hap := window_append LockRange.start queue (.of_le (Nat.zero_le e))
  rw [hbe, ha] at hap
  simpa [taken] using hap

theorem stuck_of_sublist (h : Stuck t i) (hq : queue ⊆ t.pending i) : Stuck (t.setPending i queue) i := by
  intro l hl
  rw [setPending_pending] at hl
  exact h l (hq hl)

theorem not_admitted_outside {m' : Modes} {l : LockRange} (ho : ¬ (l.start < e ∧ s < l.end_))
    (hm : ∀ p k, ¬ (s ≤ p ∧ p < e) → m' p k = m p k) (hl : ¬ Admitted m l) : ¬ Admitted m' l := by
  intro ha
  refine hl ((admitted_congr fun p hp k => ?_).1 ha)
  refine hm p k fun hi => ho ?_
  have h1 := hp.1
  have h2 := hp.2
  omega

/-- a change of the active locks inside `[s, e)` that adds no exclusive lock, followed by the candidate loop over it -/
theorem retry_stuck {t' : FileLocks} (h : WellFormed kind t') (hstuck : Stuck t i) (hs : s < e)
    (hp : t'.pending i = t.pending i) (ho : ∀ p k, ¬ (s ≤ p ∧ p < e) → mode (t'.active i) p k = mode (t.active i) p k)
    (hx : ∀ p k, mode (t'.active i) p k = some .exclusive → mode (t.active i) p k = some .exclusive)
    (hle : ∀ l ∈ left (t.pending i) s e, ¬ (l.start < e ∧ s < l.end_))
    (hd : ∀ l ∈ t.pending i, NoDowngrade (mode (t.active i)) (taken (t.pending i) s e) l) :
    Stuck (fsManageLockTryLockPending t' i s e).1 i := by
  refine tryLockPending_stuck h hs.le hx (fun l hl => ?_) (by rwa [hp])
  rw [hp] at hl
  have hm := (window_rest_sublist start (t.pending i) (.of_le hs.le)).subset hl
  exact not_admitted_outside (hle l hl) ho (hstuck l hm)

section

variable (h : WellFormed kind t)
include h

variable {o : Owner} {nonblocking : Bool}

section

variable (hstuck : Stuck t i)
include hstuck

theorem lockShared_stuck (hs : s < e) (hb : s ≤ kind.wholeEnd) (ho : fits (t.active i) (.single .shared s e o) →
      (∀ l ∈ left (t.pending i) s e, ¬ (l.start < e ∧ s < l.end_)) ∧
        ∀ l ∈ t.pending i, NoDowngrade (mode (t.active i)) (taken (t.pending i) s e) l) :
    Stuck (fsManageLockTryLockPending (t.lock .shared i s e o nonblocking).1 i s e).1 i := by
  have hw : Waiting kind (.single .shared s e o) := waiting_single o hs (.inl rfl) hb
  rcases apply_cases (i := i) h hw nonblocking with ⟨ha, hv, hm, he⟩ | ⟨hn, he⟩
  · obtain ⟨hl, hd⟩ := ho ((hw.fits_iff (h.active i)).2 ha)
    rw [lock, he]
    refine retry_stuck (h.setActive hv) hstuck hs rfl (fun p k hp => ?_) (fun p k hx => ?_) hl hd
    · have hc : ¬ ((single .shared s e o).covers p ∧ k ∈ (single .shared s e o).keys) :=
        fun hc => hp hc.1
      simp [hm, Modes.grant, hc]
    · -- the grant itself is shared
      rw [setActive_active, hm, Modes.grant] at hx
      split_ifs at hx
      · cases hx
      · exact hx
  · -- the request waits too: nothing was released, and every candidate is refused as before
    have hwf := h.apply (i := i) hw nonblocking
    have hstuck' : Stuck (t.apply i (.single .shared s e o) nonblocking).1 i := by
      rw [he]
      exact stuck_of_refused hstuck hn nonblocking
    obtain ⟨hwf', hcs⟩ := hwf.gather (i := i) (.of_le hs.le)
    refine applyCandidates_refused hwf' hcs (fun c hc => hstuck' c (inside_mem hc)) ?_
    exact stuck_of_sublist hstuck' (window_rest_sublist start _ (.of_le hs.le)).subset

theorem lockExclusive_stuck (hs : s < e) (hb : s ≤ kind.wholeEnd) :
    Stuck (t.lock .exclusive i s e o nonblocking).1 i := by
  have hw : Waiting kind (.single .exclusive s e o) := waiting_single o hs (.inr rfl) hb
  unfold lock
  rcases apply_cases (i := i) h hw nonblocking with ⟨-, -, hm, he⟩ | ⟨hn, he⟩
  · rw [he]
    intro l hl
    have hd : NoDowngrade (mode (t.active i)) [.single .exclusive s e o] l := by
      intro c hc hcs
      rw [mem_singleton.1 hc] at hcs
      cases hcs
    rw [setActive_active, hm]
    exact not_admitted_grant (fun _ _ _ => (h.active i).mode_locked) hw (h.waiting i l hl) hd (hstuck l hl)
  · rw [he]
    exact stuck_of_refused hstuck hn nonblocking

theorem unlock_stuck (hs : s < e) (hl : ∀ l ∈ left (t.pending i) s e, ¬ (l.start < e ∧ s < l.end_))
    (hd : ∀ l ∈ t.pending i, NoDowngrade (mode (t.active i)) (taken (t.pending i) s e) l) :
    Stuck (fsManageLockTryLockPending (t.lock .unlock i s e o nonblocking).1 i s e).1 i := by
  obtain ⟨hw, hm, hpe, -⟩ := unlock_spec (i := i) h hs o nonblocking
  refine retry_stuck hw hstuck hs (by rw [hpe]) (fun p k hp => ?_) (fun p k hx => ?_) hl hd
  · have hc : ¬ (s ≤ p ∧ p < e ∧ k = o.key) := fun hc => hp ⟨hc.1, hc.2.1⟩
    simp [hm, Modes.assign, hc]
  · rw [hm, Modes.assign] at hx
    split_ifs at hx
    · exact absurd hx (by simp [LockType.held])
    · exact hx

theorem clearSession_stuck {sessionid : ℕ}
    (hok : (Call.clearSession i sessionid).Wakes kind t) : Stuck (fsLocksClearSession t i sessionid).table i := by
  have hd : ∀ l : LockRange, (∀ r ∈ affected (t.active i) (ofSession sessionid), l.overlaps r = false) →
      ∀ p, l.covers p → ∀ k, mode (dropOwners (t.active i) (ofSession sessionid)) p k = mode (t.active i) p k := by
    intro l hl p hp k
    rw [mode_dropOwners]
    split_ifs with hk
    · -- an owner of the session that held a lock at `p` held it in an affected range
      cases hm : mode (t.active i) p k with
      | none => rfl
      | some u =>
        obtain ⟨r, hr, hrp, hrk, -⟩ := mode_mem hm
        have hh : r ∈ affected (t.active i) (ofSession sessionid) := by
          obtain ⟨o, ho, rfl⟩ := mem_map.1 hrk
          refine mem_filter.2 ⟨hr, any_eq_true.2 ⟨o, ho, ?_⟩⟩
          simpa [ofSession, Owner.key] using hk
        have hov := hl r hh
        simp only [overlaps, Bool.and_eq_false_imp, decide_eq_true_eq, decide_eq_false_iff_not] at hov
        have h1 := hp.1
        have h2 := hp.2
        have h3 := hrp.1
        have h4 := hrp.2
        omega
    · rfl
  have hke : ∀ l ∈ t.pending i, (∀ r ∈ affected (t.active i) (ofSession sessionid), l.overlaps r = false) →
      ¬ Admitted (mode (dropOwners (t.active i) (ofSession sessionid))) l := by
    intro l hl hov ha
    exact hstuck l hl ((admitted_congr (hd l hov)).1 ha)
  have hq : ofOthers (t.pending i) sessionid ⊆ t.pending i := filter_sublist.subset
  intro l hl
  rw [clearSession_active]
  rw [clearSession_pending] at hl
  split_ifs at hl with hlt
  · exact hke l (hq ((window_rest_sublist start _ (.of_le hlt.le)).subset hl)) (hok l hl)
  · refine hke l (hq hl) fun r hr => ?_
    -- an affected range would make the hull nonempty
    obtain ⟨h1, h2⟩ := hull_covers hr
    have h3 := ((h.active i).wf r (mem_of_mem_filter hr)).nonempty
    unfold released at hlt
    omega

end

end

end Step

theorem exec_stuck {kind : LockKind} {nodes : ℕ → Bool} {t : FileLocks} {c : Call} (hc : c.Wakes kind t)
    (h : WellFormed kind t) (hstuck : ∀ i, Stuck t i) (i : ℕ) : Stuck (exec kind nodes t c).table i := by
  by_cases hi : i = c.inode
  · subst hi
    have hs := hstuck c.inode
    cases c with
    | lockOp inode start end_ owner op nonblocking =>
      obtain ⟨hse, ho⟩ := hc
      have hb := range_le_wholeEnd kind start end_
      cases hn : nodes inode with
      | false => simpa [exec, fsLockOp, hn] using hs
      | true =>
        simp only [exec, fsLockOp, hn, Bool.not_true, Bool.false_eq_true, ↓reduceIte]
        cases op with
        | shared => exact lockShared_stuck h hs hse hb ho
        | exclusive => exact lockExclusive_stuck h hs hse hb
        | release =>
          have hw := h.removePending (i := inode) (ofOwner owner.owner owner.sessionid)
          have hbo : ∀ l ∈ (t.removePending inode (ofOwner owner.owner owner.sessionid)).pending inode,
              l.start ≤ u64Max := by
            intro l hl
            have := (hw.waiting inode l hl).bounded
            cases kind with
            | flock => exact this.trans (by decide)
            | posix => exact this
          obtain ⟨hle, ht⟩ := left_whole (hw.sorted inode) hbo
          refine unlock_stuck hw (stuck_of_sublist hs filter_sublist.subset) (by decide) ?_ ?_
          · simp [hle]
          · rw [ht]
            simpa [removePending] using ho
        | unlock => exact unlock_stuck h hs hse ho.1 ho.2
        | other code => exact hs
    | clearSession inode sessionid => exact clearSession_stuck h hs hc
    | unlockInode inode =>
      have hw : WellFormed kind (t.unlockInode inode) := h.setActive Valid.nil
      obtain ⟨hle, ht⟩ := left_whole (h.sorted inode) fun l hl => (h.waiting inode l hl).bounded
      refine tryLockPending_stuck hw (Nat.zero_le _) (m := fun _ _ => none) ?_ ?_ ?_
      · simp [unlockInode]
      · simp [unlockInode, hle]
      · rw [unlockInode, setActive_pending, ht]
        exact hc
    | removePending ownerid sessionid inode reqid =>
      exact stuck_of_sublist hs filter_sublist.subset
  · obtain ⟨h1, h2⟩ : SameAt i t (exec kind nodes t c).table := exec_sameAt hi
    intro l hl
    rw [h2] at hl
    rw [h1]
    exact hstuck i l hl

/-! ## Main results -/

/-- the request names an offset of `[s, e)` -/
def reaches (l : LockRange) (s e : ℕ) : Prop := l.start < e ∧ s < l.end_

/-- **No wake-up is lost.** In every run from the empty table whose calls find the queue as `Call.Wakes` asks, no
request left waiting would fit. `gatherCandidates` takes out every request that reaches into `[s, e)` iff, of those that
start below `s`, all but the last one end there. -/
theorem no_lost_wake_up (kind : LockKind) (nodes : ℕ → Bool) : (∀ calls : List Call,
      Stepwise.Along (step kind nodes) (fun t c => c.Wakes kind t) .empty calls →
      ∀ i, ∀ l ∈ (run (step kind nodes) .empty calls).pending i,
        fits ((run (step kind nodes) .empty calls).active i) l = false) ∧
    ∀ (t : FileLocks) (i s e : ℕ), WellFormed kind t → s < e →
      ((∀ l ∈ (t.gatherCandidates i s e).1.pending i, ¬ reaches l s e) ↔
        ∀ l ∈ (t.pending i).take (lowerBound start (t.pending i) s - 1), l.end_ ≤ s) := by
  refine ⟨fun calls hok => ?_, fun t i s e h hse => ?_⟩
  · have hstep : ∀ t c, Call.Wakes kind t c → (WellFormed kind t ∧ ∀ i, Stuck t i) →
        WellFormed kind (step kind nodes t c) ∧ ∀ i, Stuck (step kind nodes t c) i := by
      intro t c hc ht
      refine ⟨exec_wellFormed ?_ ht.1, exec_stuck hc ht.1 ht.2⟩
      cases c with
      | lockOp inode start end_ owner op nonblocking => exact hc.1
      | _ => trivial
    have hrun := inv_run (P := fun t => WellFormed kind t ∧ ∀ i, Stuck t i) hstep .empty calls hok
      ⟨WellFormed.empty kind, fun i l hl => by simp [empty] at hl⟩
    intro i l hl
    have hiff := (hrun.1.waiting i l hl).fits_iff (hrun.1.active i)
    by_contra hfits
    exact hrun.2 i l hl (hiff.1 (by simpa using hfits))
  · have hstart : (t.pending i).Pairwise fun a b => a.start ≤ b.start := by
      refine (h.sorted i).imp fun {a b} hab => ?_
      rcases Prod.Lex.le_iff.1 hab with h | h
      · exact le_of_lt h
      · exact le_of_eq h.1
    have hb := before_key start (t.pending i) s e
    have ha := after_key start hstart s e
    simp only [gatherCandidates, setPending_pending, mem_append]
    constructor
    · intro hall l hl
      have h1 := hall l (.inl hl)
      have h2 := hb l hl
      unfold reaches at h1
      omega
    · rintro hall l (hl | hl) hr
      · have := hall l hl
        have := hr.2
        omega
      · have := ha l hl
        have := hr.1
        omega

/-- an exclusive lock on `[50, 60)` is released while shared requests for `[0, 100)` and `[10, 55)` wait: the first one
stays in the queue, although it fits -/
theorem wake_up_lost : let holder : Owner := ⟨1, 1, 0, 0⟩
    let a : Owner := ⟨2, 2, 0, 0⟩
    let b : Owner := ⟨3, 3, 0, 0⟩
    let step := step .posix fun _ => true
    let t := run step .empty [.lockOp 7 50 60 holder .exclusive false, .lockOp 7 0 100 a .shared false,
      .lockOp 7 10 55 b .shared false]
    let t' := step t (.lockOp 7 50 60 holder .unlock false)
    t'.pending 7 = [.single .shared 0 100 a] ∧ fits (t'.active 7) (.single .shared 0 100 a) ∧
      (t.gatherCandidates 7 50 60).1.pending 7 = [.single .shared 0 100 a] := by
  decide

/-- the longer request alone is granted when the lock inside it is released -/
theorem no_lost_wake_up_single : let holder : Owner := ⟨1, 1, 0, 0⟩
    let a : Owner := ⟨2, 2, 0, 0⟩
    let calls : List Call := [.lockOp 7 50 60 holder .exclusive false, .lockOp 7 0 100 a .shared false,
      .lockOp 7 50 60 holder .unlock false]
    (∀ i, ∀ l ∈ (run (step .posix fun _ => true) .empty calls).pending i,
      fits ((run (step .posix fun _ => true) .empty calls).active i) l = false) ∧
      (run (step .posix fun _ => true) .empty calls).active 7 = [.single .shared 0 100 a] := by
  intro holder a calls
  let t₁ := step .posix (fun _ => true) .empty (.lockOp 7 50 60 holder .exclusive false)
  let t₂ := step .posix (fun _ => true) t₁ (.lockOp 7 0 100 a .shared false)
  have hqueue : t₂.pending 7 = [.single .shared 0 100 a] := by decide
  have h1 : (Call.lockOp 7 50 60 holder .exclusive false).Wakes .posix .empty := ⟨by decide, trivial⟩
  have h2 : (Call.lockOp 7 0 100 a .shared false).Wakes .posix t₁ := ⟨by decide, fun h => absurd h (by decide)⟩
  have h3 : (Call.lockOp 7 50 60 holder .unlock false).Wakes .posix t₂ := by
    refine ⟨by decide, by rw [hqueue]; decide, ?_⟩
    rw [hqueue]
    intro l hl c hc _ hne
    have h4 : l = .single .shared 0 100 a := by simpa using hl
    have h5 : c = .single .shared 0 100 a := by simpa using inside_mem hc
    rw [h4, h5] at hne
    exact absurd rfl hne
  exact ⟨(no_lost_wake_up .posix fun _ => true).1 calls ⟨h1, h2, h3, trivial⟩, by decide⟩

end SaunaFS.Locks
