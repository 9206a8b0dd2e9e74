/-
The shape of a lock table and what the operations of `FileLocks` do to it. `apply_cases` is the one case analysis of
`FileLocks::apply`; the candidate loop is an induction over it.
-/
import SaunaFS.Locks.FileLocks
import SaunaFS.Locks.Insert

namespace SaunaFS.Locks

open SortedSearch List FileLocks LockRange

/-! ## Waiting requests -/

/-- a request as the queue of a table of this kind holds it -/
structure Waiting (kind : LockKind) (l : LockRange) : Prop where
  single : ∃ o, l.owners = [o]
  nonempty : l.start < l.end_
  locking : l.type = .shared ∨ l.type = .exclusive
  bounded : l.start ≤ kind.wholeEnd

/-- the locks of the other owners leave room for the request -/
def Admitted (m : Modes) (l : LockRange) : Prop := ∀ k ∈ l.keys, m.Admits l.start l.end_ k l.type

/-- the table with the request granted on top -/
def Modes.grant (m : Modes) (l : LockRange) : Modes :=
  fun p k => if l.covers p ∧ k ∈ l.keys then some l.type else m p k

variable {m : Modes} {l : LockRange} {nodes : ℕ → Bool} {t : FileLocks} {c : Call} {type : LockType} {s e : ℕ}
  {data : List LockRange}

theorem admitted_congr {m' : Modes} (h : ∀ p, l.covers p → ∀ k, m p k = m' p k) : Admitted m l ↔ Admitted m' l := by
  constructor
  · intro ha k hk p h1 h2 k' hn u hu
    exact ha k hk p h1 h2 k' hn u (by rw [h p ⟨h1, h2⟩]; exact hu)
  · intro ha k hk p h1 h2 k' hn u hu
    exact ha k hk p h1 h2 k' hn u (by rw [← h p ⟨h1, h2⟩]; exact hu)

theorem admitted_of_grant {c : LockRange} {o : ℕ ×ₗ ℕ} (hl : l.keys = [o])
    (hke : ∀ p, c.covers p → l.covers p → ∀ k ∈ c.keys, k ≠ o →
      m p k = none ∨ c.type = .exclusive ∨ (c.type = .shared ∧ m p k = some .shared))
    (h : Admitted (m.grant c) l) : Admitted m l := by
  intro k hk p h1 h2 k' hne u hu
  have ha := h k hk p h1 h2 k' hne
  by_cases hp : c.covers p ∧ k' ∈ c.keys
  · have hg : (m.grant c) p k' = some c.type := by simp [Modes.grant, hp]
    have hk' : k' ≠ o := by
      rw [hl, mem_singleton] at hk
      rwa [← hk]
    rcases hke p hp.1 ⟨h1, h2⟩ k' hp.2 hk' with hn | hx | ⟨hs, hm⟩
    · rw [hn] at hu
      cases hu
    · have := ha _ hg
      rw [hx] at this
      simp at this
    · rw [hm] at hu
      cases hu
      exact ⟨(ha _ hg).1, rfl⟩
  · exact ha u (by simpa [Modes.grant, hp] using hu)

section Waiting

variable {kind : LockKind} {l : LockRange} {data : List LockRange}

section

variable (h : Waiting kind l)
include h

theorem Waiting.eq_single : ∃ o, l = .single l.type l.start l.end_ o := by
  obtain ⟨o, ho⟩ := h.single
  exact ⟨o, by rw [LockRange.single, ← ho]⟩

theorem Waiting.type_ne : l.type ≠ .unlock ∧ l.type ≠ .invalid := by
  rcases h.locking with h1 | h1 <;> simp [h1]

theorem Waiting.not_unlocking : l.unlocking = false := by
  obtain ⟨o, ho⟩ := h.single
  simp [unlocking, h.type_ne.1, ho]

theorem Waiting.fits_iff (hd : Valid data) : fits data l ↔ Admitted (mode data) l := by
  obtain ⟨o, ho⟩ := h.eq_single
  have hk : l.keys = [o.key] := by rw [ho]; rfl
  rw [ho, fits_iff_admits hd o h.nonempty h.type_ne.1, ← ho]
  simp [Admitted, hk]

theorem Waiting.insert_spec (hd : Valid data) (hf : fits data l) :
    Valid (insert data l) ∧ mode (insert data l) = (mode data).grant l := by
  obtain ⟨o, ho⟩ := h.eq_single
  have hk : l.keys = [o.key] := by rw [ho]; rfl
  rw [ho] at hf
  obtain ⟨h1, h2, -⟩ := Locks.insert_spec hd o h.nonempty h.type_ne.2 hf
  rw [← ho] at h1 h2
  refine ⟨h1, h2.trans ?_⟩
  funext p k
  simp [Modes.assign, Modes.grant, covers, hk, LockType.held, h.type_ne.1, and_assoc]

end

end Waiting

/-! ## The table and its updates -/

structure WellFormed (kind : LockKind) (t : FileLocks) : Prop where
  active : ∀ i, Valid (t.active i)
  sorted : ∀ i, (t.pending i).Pairwise fun a b => a.queueKey ≤ b.queueKey
  waiting : ∀ i, ∀ l ∈ t.pending i, Waiting kind l

theorem WellFormed.empty (kind : LockKind) : WellFormed kind .empty :=
  ⟨fun _ => Valid.nil, fun _ => List.Pairwise.nil, fun _ _ h => by simp [FileLocks.empty] at h⟩

section Updates

variable {kind : LockKind} {t : FileLocks} {i j : ℕ} {data queue : List LockRange} {l : LockRange}

@[simp] theorem setActive_active : (t.setActive i data).active i = data := by simp [setActive]

@[simp] theorem setActive_pending : (t.setActive i data).pending = t.pending := rfl

@[simp] theorem setPending_pending : (t.setPending i queue).pending i = queue := by simp [setPending]

@[simp] theorem setPending_active : (t.setPending i queue).active = t.active := rfl

theorem setActive_active_ne (h : j ≠ i) : (t.setActive i data).active j = t.active j := by
  simp [setActive, h]

theorem setPending_pending_ne (h : j ≠ i) : (t.setPending i queue).pending j = t.pending j := by
  simp [setPending, h]

section

variable (h : WellFormed kind t)
include h

theorem WellFormed.setActive (hd : Valid data) : WellFormed kind (t.setActive i data) := by
  refine { h with active := fun j => ?_ }
  by_cases hj : j = i
  · rw [hj, setActive_active]
    exact hd
  · rw [setActive_active_ne hj]
    exact h.active j

theorem WellFormed.setPending (hs : queue.Pairwise fun a b => a.queueKey ≤ b.queueKey)
    (hw : ∀ l ∈ queue, Waiting kind l) : WellFormed kind (t.setPending i queue) := by
  refine { h with sorted := fun j => ?_, waiting := fun j => ?_ }
  · by_cases hj : j = i
    · rw [hj, setPending_pending]
      exact hs
    · rw [setPending_pending_ne hj]
      exact h.sorted j
  · by_cases hj : j = i
    · rw [hj, setPending_pending]
      exact hw
    · rw [setPending_pending_ne hj]
      exact h.waiting j

theorem WellFormed.sublist (hq : queue.Sublist (t.pending i)) : WellFormed kind (t.setPending i queue) :=
  h.setPending ((h.sorted i).sublist hq) fun l hl => h.waiting i l (hq.subset hl)

end

theorem enqueue_perm : (t.enqueue i l).pending i |>.Perm (l :: t.pending i) := by
  simp only [FileLocks.enqueue, setPending_pending]
  refine perm_middle.trans ?_
  rw [takeWhile_append_dropWhile]

section

variable (h : WellFormed kind t)
include h

theorem WellFormed.enqueue (hl : Waiting kind l) : WellFormed kind (t.enqueue i l) := by
  refine h.setPending ?_ fun x hx => ?_
  · -- `enqueue` is a merge with one element
    exact sorted_mergeBy queueKey (pairwise_singleton _ l) (h.sorted i)
  · have hx' : x ∈ (t.enqueue i l).pending i := by simpa [FileLocks.enqueue] using hx
    rcases mem_cons.1 (enqueue_perm.subset hx') with rfl | hx'
    · exact hl
    · exact h.waiting i x hx'

theorem WellFormed.gather (hs : InOrder start (t.pending i) s e) :
    WellFormed kind (t.gatherCandidates i s e).1 ∧ ∀ c ∈ (t.gatherCandidates i s e).2, Waiting kind c :=
  ⟨h.sublist (window_rest_sublist start _ hs), fun c hc => h.waiting i c (inside_mem hc)⟩

theorem WellFormed.removePending (pred : LockRange → Bool) : WellFormed kind (t.removePending i pred) :=
  h.sublist filter_sublist

end

end Updates

/-! ## Applying a request -/

section Apply

variable {kind : LockKind} {t : FileLocks} {i : ℕ} {l : LockRange}

section

variable (h : WellFormed kind t)
include h

theorem apply_cases (hl : Waiting kind l) (nonblocking : Bool) :
    (Admitted (mode (t.active i)) l ∧ Valid (insert (t.active i) l) ∧
      mode (insert (t.active i) l) = (mode (t.active i)).grant l ∧
      t.apply i l nonblocking = (t.setActive i (insert (t.active i) l), true)) ∨
    (¬ Admitted (mode (t.active i)) l ∧
      t.apply i l nonblocking = (if nonblocking then t else t.enqueue i l, false)) := by
  have hi := hl.fits_iff (h.active i)
  by_cases hf : fits (t.active i) l
  · obtain ⟨h1, h2⟩ := hl.insert_spec (h.active i) hf
    exact .inl ⟨hi.1 hf, h1, h2, by simp [apply, hf]⟩
  · refine .inr ⟨fun ha => hf (hi.2 ha), ?_⟩
    cases nonblocking <;> simp [apply, hf, hl.not_unlocking]

theorem WellFormed.apply (hl : Waiting kind l) (nonblocking : Bool) : WellFormed kind (t.apply i l nonblocking).1 := by
  rcases apply_cases h hl nonblocking with ⟨-, hv, -, he⟩ | ⟨-, he⟩
  · rw [he]
    exact h.setActive hv
  · rw [he]
    cases nonblocking with
    | true => exact h
    | false => exact h.enqueue hl

theorem unlock_spec (hs : s < e) (o : Owner) (nonblocking : Bool) :
    WellFormed kind (t.lock .unlock i s e o nonblocking).1 ∧
      mode ((t.lock .unlock i s e o nonblocking).1.active i) = (mode (t.active i)).assign s e o.key .unlock ∧
      (t.lock .unlock i s e o nonblocking).1.pending = t.pending ∧
      (t.lock .unlock i s e o nonblocking).2 := by
  have hf : fits (t.active i) (.single .unlock s e o) := by
    simp [fits, findCollision, unlocking]
  obtain ⟨h1, h2, -⟩ := insert_spec (h.active i) o hs (by simp) hf
  have he : t.lock .unlock i s e o nonblocking =
      (t.setActive i (insert (t.active i) (.single .unlock s e o)), true) := by
    simp [lock, apply, hf]
  rw [he]
  exact ⟨h.setActive h1, by rw [setActive_active]; exact h2, rfl, rfl⟩

end

end Apply

/-! ## The candidate loop -/

section Candidates

variable {kind : LockKind} {i : ℕ} {t : FileLocks}

theorem WellFormed.applyCandidates (h : WellFormed kind t) {cs : List LockRange}
    (hc : ∀ c ∈ cs, Waiting kind c) : WellFormed kind (applyCandidates t i cs).1 := by
  induction cs generalizing t with
  | nil => exact h
  | cons c cs ih => exact ih (h.apply (hc c (by simp)) false) fun x hx => hc x (by simp [hx])

theorem WellFormed.tryLockPending (h : WellFormed kind t) (hs : s ≤ e) :
    WellFormed kind (fsManageLockTryLockPending t i s e).1 := by
  obtain ⟨h1, h2⟩ := h.gather (i := i) (.of_le hs)
  exact h1.applyCandidates h2

end Candidates

/-! ## Dropping a session -/

section DropOwners

variable {data : List LockRange} {sessionid : ℕ}

theorem keys_filter_session {owners : List Owner} : (owners.filter fun o => !ofSession sessionid o).map Owner.key =
      (owners.map Owner.key).filter fun k => decide ((ofLex k).2 ≠ sessionid) := by
  rw [filter_map]
  congr 1
  refine filter_congr fun o _ => ?_
  by_cases ho : o.sessionid = sessionid <;> simp [ofSession, Owner.key, ho]

theorem valid_dropOwners (h : Valid data) (pred : Owner → Bool) : Valid (dropOwners data pred) := by
  refine ⟨fun r hr => ?_, (pairwise_map.2 h.apart).sublist filter_sublist⟩
  simp only [dropOwners, mem_filter, mem_map, Bool.not_eq_true', isEmpty_eq_false_iff] at hr
  obtain ⟨⟨x, hx, rfl⟩, hn⟩ := hr
  have hw := h.wf x hx
  refine ⟨hw.nonempty, ?_, hn, hw.locked, fun ht => ?_⟩
  · have hs := hw.sorted
    exact hs.sublist (filter_sublist.map _)
  · have h1 := hw.alone ht
    have h2 := length_filter_le (fun o => !pred o) x.owners
    have h3 := length_pos_of_ne_nil hn
    simp only at h3 ⊢
    omega

theorem mode_dropOwners {p : ℕ} {k : ℕ ×ₗ ℕ} : mode (dropOwners data (ofSession sessionid)) p k =
      if (ofLex k).2 = sessionid then none else mode data p k := by
  induction data with
  | nil => simp [dropOwners]
  | cons x data ih =>
    set x' : LockRange := { x with owners := x.owners.filter fun o => !ofSession sessionid o } with hx'
    have hke : ∀ k, k ∈ x'.keys ↔ k ∈ x.keys ∧ (ofLex k).2 ≠ sessionid := by
      intro k
      simp only [hx', LockRange.keys, keys_filter_session, mem_filter, decide_eq_true_eq]
    have hc : mode (dropOwners (x :: data) (ofSession sessionid)) p k =
        if x'.covers p ∧ k ∈ x'.keys then some x'.type
        else mode (dropOwners data (ofSession sessionid)) p k := by
      by_cases hn : x'.owners = []
      · have h1 : k ∉ x'.keys := by simp [LockRange.keys, hn]
        simp only [h1, and_false, ↓reduceIte]
        simp only [dropOwners, map_cons, ← hx', filter_cons, hn]
        rfl
      · rw [← mode_cons]
        simp only [dropOwners, map_cons, ← hx', filter_cons]
        simp [hn]
    rw [hc, ih, mode_cons]
    by_cases hk : (ofLex k).2 = sessionid
    · simp [hke, hk]
    · simp only [hke, hk, ne_eq, not_false_eq_true, and_true, ↓reduceIte]
      rfl

theorem hull_covers {l : List LockRange} {r : LockRange} (hr : r ∈ l) : (hull l).1 ≤ r.start ∧ r.end_ ≤ (hull l).2 := by
  have hmi : ∀ (l : List LockRange) s, l.foldl (fun s r => min s r.start) s ≤ s := by
    intro l
    induction l with
    | nil => simp
    | cons x l ih => exact fun s => (ih _).trans (min_le_left _ _)
  have hm : ∀ (l : List LockRange) e, e ≤ l.foldl (fun e r => max e r.end_) e := by
    intro l
    induction l with
    | nil => simp
    | cons x l ih => exact fun e => (le_max_left _ _).trans (ih _)
  unfold hull
  generalize u64Max = s, 0 = e
  induction l generalizing s e with
  | nil => simp at hr
  | cons x l ih =>
    rcases mem_cons.1 hr with rfl | hr
    · exact ⟨(hmi l _).trans (min_le_right _ _), (le_max_right _ _).trans (hm l _)⟩
    · exact ih hr _ _

end DropOwners

section ClearSession

variable (queue : List LockRange)

/-- the requests that `gatherCandidates` takes out of a queue, and those it leaves -/
def taken (s e : ℕ) : List LockRange := (window start queue s e).inside

def left (s e : ℕ) : List LockRange := (window start queue s e).before ++ (window start queue s e).after

/-- the queue without the requests of a session -/
def ofOthers (sessionid : ℕ) : List LockRange := queue.filter fun l => !l.owners.head?.any (ofSession sessionid)

def released (data : List LockRange) (sessionid : ℕ) : ℕ × ℕ := hull (affected data (ofSession sessionid))

variable (t : FileLocks) (i sessionid : ℕ)

theorem clearSession_eq : fsLocksClearSession t i sessionid = let range := released (t.active i) sessionid
    let queue := ofOthers (t.pending i) sessionid
    let t' := (t.setPending i queue).setActive i (dropOwners (t.active i) (ofSession sessionid))
    if range.1 < range.2 then ⟨t'.setPending i (left queue range.1 range.2), .ok, taken queue range.1 range.2⟩
    else ⟨t', .ok, []⟩ := by
  simp only [fsLocksClearSession, unlockOwners, removePending, gatherCandidates,
    setPending_active, setActive_pending, setPending_pending]
  rfl

theorem clearSession_active : (fsLocksClearSession t i sessionid).table.active i =
    dropOwners (t.active i) (ofSession sessionid) := by
  rw [clearSession_eq]
  by_cases h : (released (t.active i) sessionid).1 < (released (t.active i) sessionid).2 <;> simp [h]

theorem clearSession_pending : (fsLocksClearSession t i sessionid).table.pending i =
    if (released (t.active i) sessionid).1 < (released (t.active i) sessionid).2 then
      left (ofOthers (t.pending i) sessionid) (released (t.active i) sessionid).1 (released (t.active i) sessionid).2
    else ofOthers (t.pending i) sessionid := by
  rw [clearSession_eq]
  by_cases h : (released (t.active i) sessionid).1 < (released (t.active i) sessionid).2 <;> simp [h]

end ClearSession

/-! ## Frame -/

def Call.inode : Call → ℕ
  | .lockOp inode _ _ _ _ _ => inode
  | .clearSession inode _ => inode
  | .unlockInode inode => inode
  | .removePending _ _ inode _ => inode

/-- the locks and requests of inode `j` are the same in both tables -/
def SameAt (j : ℕ) (t t' : FileLocks) : Prop := t'.active j = t.active j ∧ t'.pending j = t.pending j

section Frame

variable {t t' t'' : FileLocks} {i j : ℕ}

theorem SameAt.rfl : SameAt j t t := ⟨Eq.refl _, Eq.refl _⟩

theorem SameAt.trans (h : SameAt j t t') (h' : SameAt j t' t'') : SameAt j t t'' := ⟨h'.1.trans h.1, h'.2.trans h.2⟩

section

variable (hj : j ≠ i)
include hj

theorem sameAt_setActive (data : List LockRange) : SameAt j t (t.setActive i data) :=
  ⟨setActive_active_ne hj, Eq.refl _⟩

theorem sameAt_setPending (queue : List LockRange) : SameAt j t (t.setPending i queue) :=
  ⟨Eq.refl _, setPending_pending_ne hj⟩

theorem sameAt_apply {nonblocking : Bool} : SameAt j t (t.apply i l nonblocking).1 := by
  unfold apply
  split_ifs
  · exact sameAt_setActive hj _
  · exact sameAt_setPending hj _
  · exact .rfl

theorem sameAt_applyCandidates {cs : List LockRange} : SameAt j t (applyCandidates t i cs).1 := by
  induction cs generalizing t with
  | nil => exact .rfl
  | cons c cs ih => exact (sameAt_apply hj).trans ih

theorem sameAt_tryLockPending : SameAt j t (fsManageLockTryLockPending t i s e).1 :=
  (sameAt_setPending hj _).trans (sameAt_applyCandidates hj)

end

end Frame

variable {kind : LockKind}

theorem exec_sameAt {j : ℕ} (hj : j ≠ c.inode) : SameAt j t (exec kind nodes t c).table := by
  cases c with
  | lockOp inode start end_ owner op nonblocking =>
    cases hn : nodes inode with
    | false => simpa [exec, fsLockOp, hn] using SameAt.rfl
    | true =>
      simp only [exec, fsLockOp, hn, Bool.not_true, Bool.false_eq_true, ↓reduceIte]
      cases op with
      | shared => exact (sameAt_apply hj).trans (sameAt_tryLockPending hj)
      | exclusive => exact sameAt_apply hj
      | release =>
        exact ((sameAt_setPending hj _).trans (sameAt_apply hj)).trans (sameAt_tryLockPending hj)
      | unlock => exact (sameAt_apply hj).trans (sameAt_tryLockPending hj)
      | other code => exact .rfl
  | clearSession inode sessionid =>
    have h1 := (sameAt_setPending (t := t) hj ((t.pending inode).filter fun l =>
      !l.owners.head?.any (ofSession sessionid))).trans (sameAt_setActive hj
        (dropOwners (t.active inode) (ofSession sessionid)))
    simp only [exec, fsLocksClearSession]
    split_ifs
    · exact h1.trans (sameAt_setPending hj _)
    · exact h1
  | unlockInode inode => exact (sameAt_setActive hj []).trans (sameAt_tryLockPending hj)
  | removePending ownerid sessionid inode reqid => exact sameAt_setPending hj _

/-! ## Every call keeps the shape -/

/-- the request names a range that is not empty; a release takes the whole file -/
def Call.Nonempty (kind : LockKind) : Call → Prop
  | .lockOp _ start end_ _ _ _ => (kind.range start end_).1 < (kind.range start end_).2
  | _ => True

theorem range_le_wholeEnd (kind : LockKind) (start end_ : UInt64) : (kind.range start end_).1 ≤ kind.wholeEnd := by
  cases kind with
  | flock => exact Nat.zero_le _
  | posix =>
    have := start.toNat_lt
    simp only [LockKind.range, LockKind.wholeEnd, u64Max]
    omega

theorem waiting_single (o : Owner) (hs : s < e)
    (ht : type = .shared ∨ type = .exclusive) (hb : s ≤ kind.wholeEnd) : Waiting kind (.single type s e o) :=
  ⟨⟨o, rfl⟩, hs, ht, hb⟩

theorem exec_wellFormed (hc : c.Nonempty kind)
    (h : WellFormed kind t) : WellFormed kind (exec kind nodes t c).table := by
  cases c with
  | lockOp inode start end_ owner op nonblocking =>
    have hs : (kind.range start end_).1 < (kind.range start end_).2 := hc
    have hb := range_le_wholeEnd kind start end_
    cases hn : nodes inode with
    | false => simpa [exec, fsLockOp, hn] using h
    | true =>
      simp only [exec, fsLockOp, hn, Bool.not_true, Bool.false_eq_true, ↓reduceIte]
      cases op with
      | shared => exact (h.apply (waiting_single owner hs (.inl rfl) hb) _).tryLockPending hs.le
      | exclusive => exact h.apply (waiting_single owner hs (.inr rfl) hb) _
      | release =>
        have h1 := h.removePending (i := inode) (ofOwner owner.owner owner.sessionid)
        exact (unlock_spec h1 (by decide) owner false).1.tryLockPending (Nat.zero_le _)
      | unlock => exact (unlock_spec h hs owner false).1.tryLockPending hs.le
      | other code => exact h
  | clearSession inode sessionid =>
    have h1 := (h.removePending (i := inode) fun l => l.owners.head?.any (ofSession sessionid)).setActive (i := inode)
      (valid_dropOwners (h.active inode) (ofSession sessionid))
    simp only [exec, fsLocksClearSession]
    split_ifs with hl
    · exact (h1.gather (.of_le hl.le)).1
    · exact h1
  | unlockInode inode =>
    have h1 : WellFormed kind (t.unlockInode inode) := h.setActive Valid.nil
    exact h1.tryLockPending (Nat.zero_le _)
  | removePending ownerid sessionid inode reqid => exact h.removePending _

/-! ## The conflict test, offset by offset -/

/-- nothing of another owner stands in the way of a request -/
def Unopposed (data : List LockRange) (type : LockType) (start end_ : ℕ) (o : Owner) : Prop :=
  ∀ p, start ≤ p → p < end_ → ∀ k, k ≠ o.key →
    mode data p k ≠ some .exclusive ∧ (type ≠ .shared → mode data p k = none)

theorem Valid.admits_iff (h : Valid data) {o : Owner} :
    (mode data).Admits s e o.key type ↔ Unopposed data type s e o := by
  refine forall₅_congr fun p _ _ k _ => ?_
  cases hm : mode data p k with
  | none => simp
  | some u => rcases h.mode_locked hm with rfl | rfl <;> simp

theorem Valid.compatible (h : Valid data) {p : ℕ} {k k' : ℕ ×ₗ ℕ} {u u' : LockType} (hn : k ≠ k')
    (hu : mode data p k = some u) (hu' : mode data p k' = some u') : u = .shared ∧ u' = .shared := by
  obtain ⟨x, hx, hp, hk, rfl⟩ := mode_mem hu
  have hk' : k' ∈ x.keys ∧ x.type = u' := by
    rw [h.mode_eq hx hp] at hu'
    split_ifs at hu' with hm
    exact ⟨hm, Option.some.inj hu'⟩
  suffices hs : x.type = .shared from ⟨hs, hk'.2 ▸ hs⟩
  refine (h.wf x hx).locked.resolve_right fun he => hn ?_
  -- an exclusive range has one owner
  obtain ⟨o, ho⟩ := length_eq_one_iff.1 ((h.wf x hx).alone he)
  simp only [LockRange.keys, ho, map_cons, map_nil, mem_singleton] at hk hk'
  exact hk.trans hk'.1.symm

/-- **The conflict test is exact.** It finds nothing exactly if the request unlocks or is unopposed, and no run of
requests with ranges gives two owners conflicting locks. -/
theorem collision_test_exact : (∀ (data : List LockRange) (type : LockType) (s e : ℕ) (o : Owner), Valid data → s < e →
      (findCollision data (.single type s e o) = none ↔ type = .unlock ∨ Unopposed data type s e o)) ∧
    ∀ (kind : LockKind) (calls : List ((ℕ → Bool) × Call)),
      Stepwise.Along (fun t c => step kind c.1 t c.2) (fun _ c => c.2.Nonempty kind) .empty calls →
      ∀ (i p : ℕ) (k k' : ℕ ×ₗ ℕ) (u u' : LockType), k ≠ k' →
        mode ((Stepwise.run (fun t c => step kind c.1 t c.2) .empty calls).active i) p k = some u →
        mode ((Stepwise.run (fun t c => step kind c.1 t c.2) .empty calls).active i) p k' = some u' →
        u = .shared ∧ u' = .shared := by
  refine ⟨fun data type s e o h hse => ?_, fun kind calls hcalls i p k k' u u' hne => ?_⟩
  · by_cases hun : type = .unlock
    · subst hun
      exact iff_of_true rfl (.inl rfl)
    · rw [or_iff_right hun, ← h.admits_iff, ← fits_iff_admits h o hse hun, fits, Option.isNone_iff_eq_none]
  · have hrun := Stepwise.inv_run (P := WellFormed kind) (fun t c hc ht => exec_wellFormed hc ht) .empty calls hcalls
      (.empty kind)
    exact (hrun.active i).compatible hne

/-- a shared request inside a shared lock, and what it leads to -/
theorem collision_test_exact_shared : let a : Owner := ⟨1, 1, 0, 0⟩
    let b : Owner := ⟨2, 2, 0, 0⟩
    Unopposed [.single .shared 0 100 a] .shared 10 20 b ∧ ∀ (i p : ℕ) (k k' : ℕ ×ₗ ℕ) (u u' : LockType), k ≠ k' →
        mode ((step .posix (fun _ => true) .empty (.lockOp 7 0 100 a .shared false)).active i) p k = some u →
        mode ((step .posix (fun _ => true) .empty (.lockOp 7 0 100 a .shared false)).active i) p k' = some u' →
        u = .shared ∧ u' = .shared := by
  intro a b
  have hvalid : Valid [.single .shared 0 100 a] :=
    ⟨by simp only [forall_mem_singleton]; exact ⟨by decide, by decide, by decide, .inl rfl, by decide⟩, by simp⟩
  exact ⟨((collision_test_exact.1 _ .shared 10 20 b hvalid (by decide)).1 (by decide)).resolve_left (by decide),
    collision_test_exact.2 .posix [(fun _ => true, .lockOp 7 0 100 a .shared false)]
      ⟨show (0 : ℕ) < 100 by decide, trivial⟩⟩

/-- **Unlocking never collides.** Another owner holds the whole range exclusively. -/
theorem unlocking_never_collides : let a : Owner := ⟨1, 1, 0, 0⟩
    let b : Owner := ⟨2, 2, 0, 0⟩
    findCollision [.single .exclusive 0 10 a] (.single .unlock 0 10 b) = none ∧
      ¬ Unopposed [.single .exclusive 0 10 a] .unlock 0 10 b :=
  ⟨rfl, fun h => absurd rfl (h 3 (by decide) (by decide) (Owner.key ⟨1, 1, 0, 0⟩) (by decide)).1⟩

end SaunaFS.Locks
