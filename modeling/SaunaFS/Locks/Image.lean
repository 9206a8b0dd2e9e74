/-
Request and message ids do not matter to the lock tables. `image` forgets them, as storing a table in a metadata image
and loading it back does (`FileLocks::load`), and every function of the lock tables commutes with it: they compare
owners by owner id and session id only.
-/
import SaunaFS.Locks.FileLocks

namespace SaunaFS.Locks

open SortedSearch List FileLocks LockRange Owner

/-! ## Ranges -/

/-- an owner as it comes out of a metadata image -/
def Owner.image (o : Owner) : Owner := { o with reqid := 0, msgid := 0 }

@[simp] theorem Owner.key_image (o : Owner) : o.image.key = o.key := rfl

variable {o : Owner}

namespace LockRange

@[simps]
def image (r : LockRange) : LockRange := { r with owners := r.owners.map Owner.image }

variable (r : LockRange)

@[simp] theorem image_single {t : LockType} {s e : ℕ} : (single t s e o).image = single t s e o.image := rfl

variable {a b : LockRange}

@[simp] theorem image_overlaps : a.image.overlaps b.image = a.overlaps b := rfl

@[simp] theorem image_sticks : a.image.sticks b.image = a.sticks b := rfl

@[simp] theorem image_unlocking : r.image.unlocking = r.unlocking := by
  simp only [unlocking, image_type, image_owners]
  cases r.owners <;> rfl

@[simp] theorem image_isShared : r.image.isShared = r.isShared := rfl

@[simp] theorem image_queueKey : r.image.queueKey = r.queueKey := rfl

theorem image_eraseOwner (o : Owner) : r.image.eraseOwner o.image = (r.eraseOwner o).image := by
  simp only [eraseOwner, image, key_image, eraseBy_map key_image]

theorem image_addOwners {os : List Owner} : r.image.addOwners (os.map Owner.image) = (r.addOwners os).image := by
  simp only [addOwners, image, mergeBy_map key_image, uniqueBy_map key_image]

end LockRange

@[simp] theorem sameOwners_image {a b : List Owner} : sameOwners (a.map image) (b.map image) = sameOwners a b := by
  simp [sameOwners, Function.comp_def]

/-! ## One inode -/

theorem collides_image (range other : LockRange) : collides range.image other.image = collides range other := by
  simp [collides]

variable {data : List LockRange} {range : LockRange} {t : FileLocks} {i s e sessionid : ℕ}

theorem fits_image : fits (data.map image) range.image = fits data range := by
  simp only [fits, findCollision, image_unlocking]
  split_ifs
  · rfl
  · rw [image_start, image_end_, (window_map image_start data _ _).2.1, find?_map]
    have hc : collides range.image ∘ image = collides range := funext (collides_image range)
    rw [hc, Option.isNone_map]

theorem absorb_image (range other : LockRange) : absorb range.image other.image = (absorb range other).image := by
  unfold absorb
  simp only [image_owners, sameOwners_image, image_unlocking, image_type]
  split_ifs
  · rfl
  · cases range.owners with
    | nil => rfl
    | cons o os => exact other.image_eraseOwner o
  · exact other.image_addOwners

def Pass.image : Pass → Pass
  | .next range other => .next range.image other.image
  | .again range tmp other => .again range.image tmp.image other.image
  | .leave => .leave

theorem visit_image (range other : LockRange) : visit range.image other.image = (visit range other).image := by
  unfold visit
  -- the tests on the images are tests on the same offsets
  change (if (range.sticks other && sameOwners (range.owners.map Owner.image) (other.owners.map Owner.image) &&
      range.type == other.type) then _ else if range.end_ ≤ other.start then _
    else if (!range.overlaps other) then _ else if range.start < other.start then _
    else if range.start = other.start then (if range.end_ < other.end_ then _ else _) else _) = _
  simp only [sameOwners_image]
  split_ifs
  · rfl
  · rfl
  · rfl
  · rfl
  · exact congrArg (Pass.again _ · _) (absorb_image range { other with end_ := range.end_ })
  · exact congrArg (Pass.next _) (absorb_image range other)
  · rfl

/-- the loop looks at owners only through their keys, so it does the same on the images -/
theorem insertLoop_image (fuel : ℕ) (range : LockRange) (rest : List LockRange) :
    (insertLoop fuel range.image (rest.map image)).data =
      (insertLoop fuel range rest).data.map LockRange.image := by
  induction fuel generalizing range rest with
  | zero => rfl
  | succ fuel ih =>
    by_cases hn : range.start < range.end_
    · cases rest with
      | nil => simp [insertLoop, hn]
      | cons other rest =>
        simp only [map_cons, insertLoop, image_start, image_end_, hn, ↓reduceIte, visit_image]
        cases visit range other with
        | next range' other' => simp only [Pass.image, map_cons, ih]
        | again range' tmp other' =>
          have h := ih range' (other' :: rest)
          rw [map_cons] at h
          simp only [Pass.image, map_cons, h]
        | leave => rfl
    · cases rest <;> simp [insertLoop, hn]

theorem insert_image : insert (data.map LockRange.image) range.image = (insert data range).map LockRange.image := by
  obtain ⟨h1, h2, h3⟩ := window_map image_start data range.start range.end_
  simp only [insert, insertWindow, image_start, image_end_, h1, h2, h3, length_map,
    insertLoop_image, map_append, filter_map, Function.comp_def, image_unlocking]

/-! ## The table -/

namespace FileLocks

@[simps]
def image (t : FileLocks) : FileLocks :=
  ⟨fun i => (t.active i).map LockRange.image, fun i => (t.pending i).map LockRange.image⟩

variable (t : FileLocks) (i : ℕ)

theorem image_setActive (data : List LockRange) :
    t.image.setActive i (data.map LockRange.image) = (t.setActive i data).image := by
  simp only [setActive, image, FileLocks.mk.injEq, and_true]
  funext j
  by_cases hj : j = i
  · subst hj
    simp
  · simp [hj]

theorem image_setPending (queue : List LockRange) :
    t.image.setPending i (queue.map LockRange.image) = (t.setPending i queue).image := by
  simp only [setPending, image, FileLocks.mk.injEq, true_and]
  funext j
  by_cases hj : j = i
  · subst hj
    simp
  · simp [hj]

theorem image_enqueue {l : LockRange} : t.image.enqueue i l.image = (t.enqueue i l).image := by
  have hm := mergeBy_map image_queueKey [l] (t.pending i)
  have hs := t.image_setPending i (mergeBy queueKey [l] (t.pending i))
  rw [← hm] at hs
  exact hs

variable {nonblocking : Bool} {s e : ℕ}

theorem image_apply (l : LockRange) :
    t.image.apply i l.image nonblocking = ((t.apply i l nonblocking).1.image, (t.apply i l nonblocking).2) := by
  simp only [apply, image_active, fits_image, insert_image, image_unlocking, image_setActive, image_enqueue]
  split_ifs <;> rfl

theorem image_lock {type : LockType} {i : ℕ} : t.image.lock type i s e o.image nonblocking =
      ((t.lock type i s e o nonblocking).1.image, (t.lock type i s e o nonblocking).2) :=
  t.image_apply i (.single type s e o)

theorem image_gather {i : ℕ} : t.image.gatherCandidates i s e =
      ((t.gatherCandidates i s e).1.image, (t.gatherCandidates i s e).2.map LockRange.image) := by
  obtain ⟨h1, h2, h3⟩ := window_map image_start (t.pending i) s e
  simp only [gatherCandidates, image_pending, h1, h2, h3, ← map_append, image_setPending]

theorem image_removePending {pred pred' : LockRange → Bool} (h : ∀ l ∈ t.pending i, pred' l.image = pred l) :
    t.image.removePending i pred' = (t.removePending i pred).image := by
  simp only [removePending, ← image_setPending, image_pending, filter_map]
  congr 2
  refine filter_congr fun l hl => ?_
  simp [h l hl]

theorem image_dropOwners : dropOwners (data.map LockRange.image) (ofSession sessionid) =
      (dropOwners data (ofSession sessionid)).map LockRange.image := by
  have hd : ∀ r : LockRange, ({ r.image with owners := r.image.owners.filter fun o => !ofSession sessionid o } :
      LockRange) = LockRange.image { r with owners := r.owners.filter fun o => !ofSession sessionid o } := by
    intro r
    simp only [LockRange.image, filter_map, LockRange.mk.injEq, true_and]
    rfl
  have he : ∀ r : LockRange, (!r.image.owners.isEmpty) = !r.owners.isEmpty := by
    intro r
    cases hr : r.owners <;> simp [hr]
  simp only [dropOwners, map_map, Function.comp_def, hd, filter_map, he]

end FileLocks

/-! ## The operations -/

def LockResult.image (r : LockResult) : LockResult := ⟨r.table.image, r.status, r.granted.map LockRange.image⟩

theorem applyCandidates_image {cs : List LockRange} : applyCandidates t.image i (cs.map image) =
      ((applyCandidates t i cs).1.image, (applyCandidates t i cs).2.map LockRange.image) := by
  induction cs generalizing t with
  | nil => rfl
  | cons c cs ih =>
    simp only [map_cons, applyCandidates, t.image_apply, ih]
    split_ifs <;> rfl

theorem tryLockPending_image : fsManageLockTryLockPending t.image i s e =
      ((fsManageLockTryLockPending t i s e).1.image, (fsManageLockTryLockPending t i s e).2.map LockRange.image) := by
  simp only [fsManageLockTryLockPending, t.image_gather, applyCandidates_image]

theorem head_image {l : LockRange} {pred : Owner → Bool} (h : ∀ o, pred o.image = pred o) :
    l.image.owners.head?.any pred = l.owners.head?.any pred := by
  cases hl : l.owners with
  | nil => simp [hl]
  | cons o os => simp [hl, h]

/-- a lock operation on the image of a table gives the image of its result -/
theorem fsLockOp_image {nodes : ℕ → Bool} {op : LockOp} {nonblocking : Bool} :
    fsLockOp nodes t.image i s e o.image op nonblocking = (fsLockOp nodes t i s e o op nonblocking).image := by
  cases hn : nodes i with
  | false => simp [fsLockOp, hn, LockResult.image]
  | true =>
    simp only [fsLockOp, hn, Bool.not_true, Bool.false_eq_true, ↓reduceIte]
    cases op with
    | shared => simp only [t.image_lock, tryLockPending_image, LockResult.image]
    | exclusive => simp only [t.image_lock, LockResult.image, map_nil]
    | release =>
      have hr : t.image.removePending i (ofOwner o.image.owner o.image.sessionid) =
          (t.removePending i (ofOwner o.owner o.sessionid)).image :=
        t.image_removePending i fun l _ => head_image fun _ => rfl
      simp only [hr, image_lock, tryLockPending_image, LockResult.image]
    | unlock => simp only [t.image_lock, tryLockPending_image, LockResult.image]
    | other code => rfl

theorem affected_image : hull (affected (data.map image) (ofSession sessionid)) =
      hull (affected data (ofSession sessionid)) := by
  have ha : ∀ r : LockRange, r.image.owners.any (ofSession sessionid) = r.owners.any (ofSession sessionid) := by
    intro r
    simp only [image_owners, any_map]
    rfl
  simp only [affected, filter_map, Function.comp_def, ha, hull, foldl_map, image_start, image_end_]

/-- sessions are part of the key, so the same owners go -/
theorem fsLocksClearSession_image :
    fsLocksClearSession t.image i sessionid = (fsLocksClearSession t i sessionid).image := by
  have hr : t.image.removePending i (fun l => l.owners.head?.any (ofSession sessionid)) =
      (t.removePending i fun l => l.owners.head?.any (ofSession sessionid)).image :=
    t.image_removePending i fun l _ => head_image fun _ => rfl
  set t' := t.removePending i fun l => l.owners.head?.any (ofSession sessionid) with ht'
  have hu : t'.image.unlockOwners i (ofSession sessionid) =
      ((t'.unlockOwners i (ofSession sessionid)).1.image, (t'.unlockOwners i (ofSession sessionid)).2) := by
    simp only [unlockOwners, image_active, affected_image, image_dropOwners,
      image_setActive]
  by_cases hl : (t'.unlockOwners i (ofSession sessionid)).2.1 < (t'.unlockOwners i (ofSession sessionid)).2.2
  · simp only [fsLocksClearSession, hr, ← ht', hu, hl, ↓reduceIte, image_gather]
    rfl
  · simp only [fsLocksClearSession, hr, ← ht', hu, hl, ↓reduceIte]
    rfl

theorem fsLocksUnlockInode_image {kind : LockKind} :
    fsLocksUnlockInode kind t.image i = (fsLocksUnlockInode kind t i).image := by
  have hc : t.image.unlockInode i = (t.unlockInode i).image := t.image_setActive i []
  simp only [fsLocksUnlockInode, hc, tryLockPending_image, LockResult.image]

end SaunaFS.Locks
