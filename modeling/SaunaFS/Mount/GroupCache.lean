/-
Groups of a caller: the client gives an index to every set of groups and registers it with the master, whose requests
then carry the index alone (`mount/sauna_client.cc`, `mount/group_cache.h`, `master/matoclserv.cc`).

Callers have two groups or more. The calls of `GroupCache` are atomic steps, and the master may handle a message any
time after it has been sent, also again after a reconnection. Sessions that map users and groups are left out.
-/
import SaunaFS.Lib.LruCache
import SaunaFS.Lib.Stepwise

namespace SaunaFS.Mount

open LruCache

/-! ## The client and the master -/

abbrev Groups := List UInt32

/-- `GroupCache`; the index of the last set put into it -/
structure GroupCache where
  index : ℕ := 0
  queue : List (Groups × ℕ) := []

def kMaxGroupId : ℕ := 2 ^ 31 - 1

def groupCacheCapacity : ℕ := 1024

/-- `GroupCache::put`; the result is the new index -/
def GroupCache.put (groups : Groups) (c : GroupCache) : GroupCache :=
  let index := (c.index + 1) % kMaxGroupId
  ⟨index, insert groupCacheCapacity groups index c.queue⟩

/-- `ctx.gid` of a caller with several groups: an encoded index, or what `updateGroups` leaves after an exception -/
inductive Gid where
  | zero
  | cached (index : ℕ)
deriving DecidableEq

/-- where a request stands; `retried`: it has been refused once for want of its groups, `caught`: `updateGroups` catches
the exception of a failed update, `stored`: the master has handled the update -/
inductive CallPhase where
  | idle
  | lookup (retried : Bool)
  | missed (retried : Bool)
  | updating (index : ℕ) (groups : Groups) (caught retried stored : Bool)
  | ready (gid : Gid) (retried : Bool)
  | refused (index : ℕ)
deriving DecidableEq

structure Caller where
  gids : Groups := []
  phase : CallPhase := .idle

/-- the cache of the client, `group_cache` of the session on the master, the callers, and the requests that the master
has judged: with the groups of their caller, and with those that it used -/
structure Mounted where
  cache : GroupCache := {}
  table : List (ℕ × Groups) := []
  callers : ℕ → Caller := fun _ => {}
  judged : List (Groups × Groups) := []

inductive GroupEvent where
  | call (i : ℕ) (gids : Groups)
  | find (i : ℕ)
  | put (i : ℕ)
  | update (i : ℕ)
  | confirm (i : ℕ)
  | fail (i : ℕ)
  | judge (i : ℕ)
  | register (i : ℕ)
  | disconnect

def updateCredentials (index : ℕ) (gids : Groups) (table : List (ℕ × Groups)) : List (ℕ × Groups) :=
  if table.any (·.1 = index) then
    (touch (·.1 = index) table).2.map fun e => if e.1 = index then (index, gids) else e
  else insert groupCacheCapacity index gids table

namespace Mounted

def goTo (i : ℕ) (phase : CallPhase) (s : Mounted) : Mounted :=
  { s with callers := Function.update s.callers i { s.callers i with phase := phase } }

def step (s : Mounted) : GroupEvent → Mounted
  | .call i gids =>
    if (s.callers i).phase = .idle ∧ 2 ≤ gids.length then
      { s with callers := Function.update s.callers i ⟨gids, .lookup false⟩ }
    else s
  | .find i =>
    match (s.callers i).phase with
    | .lookup retried =>
      let r := touch (·.1 = (s.callers i).gids) s.cache.queue
      { s.goTo i (match r.1 with | some e => .ready (.cached e.2) retried | none => .missed retried) with
        cache := { s.cache with queue := r.2 } }
    | _ => s
  | .put i =>
    match (s.callers i).phase with
    | .missed retried =>
      let cache := s.cache.put (s.callers i).gids
      { s.goTo i (.updating cache.index (s.callers i).gids true retried false) with cache := cache }
    | _ => s
  | .update i =>
    match (s.callers i).phase with
    | .updating index groups caught retried _ =>
      { s.goTo i (.updating index groups caught retried true) with table := updateCredentials index groups s.table }
    | _ => s
  | .confirm i =>
    match (s.callers i).phase with
    | .updating index _ _ retried true => s.goTo i (.ready (.cached index) retried)
    | _ => s
  | .fail i =>
    match (s.callers i).phase with
    | .updating _ _ caught retried _ => s.goTo i (if caught then .ready .zero retried else .idle)
    | _ => s
  | .judge i =>
    match (s.callers i).phase with
    | .ready .zero _ => { s.goTo i .idle with judged := s.judged ++ [((s.callers i).gids, [0])] }
    | .ready (.cached index) retried =>
      let r := touch (·.1 = index) s.table
      match r.1 with
      | some e => { s.goTo i .idle with table := r.2, judged := s.judged ++ [((s.callers i).gids, e.2)] }
      | none => s.goTo i (if retried then .idle else .refused index)
    | _ => s
  | .register i =>
    match (s.callers i).phase with
    | .refused index =>
      let r := touch (·.2 = index) s.cache.queue
      { s.goTo i (match r.1 with | some e => .updating index e.1 false true false | none => .lookup true) with
        cache := { s.cache with queue := r.2 } }
    | _ => s
  | .disconnect => { s with cache := {} }

/-! ## Careful runs -/

/-- an index has been given out, and the master has not handled its registration yet -/
def Pending (s : Mounted) (k : ℕ) : Prop :=
  ∃ i groups caught retried, (s.callers i).phase = .updating k groups caught retried false

/-- a set of groups is found only when its index has been registered, `updateGroups` meets no error, no request is under
way when the connection is lost, and indexes do not run out -/
def Careful (s : Mounted) : GroupEvent → Prop
  | .find i => ∀ e, (touch (·.1 = (s.callers i).gids) s.cache.queue).1 = some e → ¬ s.Pending e.2
  | .put _ => s.cache.index + 1 < kMaxGroupId
  | .fail i => ∀ index groups retried stored, (s.callers i).phase ≠ .updating index groups true retried stored
  | .disconnect => ∀ i, (s.callers i).phase = .idle
  | _ => True

/-! ## Indexes and their groups -/

/-- the master knows nothing else about an index -/
def Clean (owner : ℕ → Groups) (table : List (ℕ × Groups)) (k : ℕ) : Prop := ∀ e ∈ table, e.1 = k → e.2 = owner k

/-- an index given out since the last reset -/
def Has (s : Mounted) (k : ℕ) : Prop := 0 < k ∧ k ≤ s.cache.index

/-- the index that a caller holds is the one of its groups -/
def Keeps (has : ℕ → Prop) (owner : ℕ → Groups) (table : List (ℕ × Groups)) (c : Caller) : Prop :=
  match c.phase with
  | .updating k groups caught _ stored =>
    has k ∧ owner k = c.gids ∧ groups = c.gids ∧ (stored = true ∨ caught = false → Clean owner table k)
  | .ready .zero _ => False
  | .ready (.cached k) _ => has k ∧ owner k = c.gids ∧ Clean owner table k
  | .refused k => has k ∧ owner k = c.gids ∧ Clean owner table k
  | _ => True

/-- every index belongs to one set of groups; what the master knows from before the last reset is about to be
replaced -/
structure Sound (s : Mounted) (owner : ℕ → Groups) : Prop where
  cached : ∀ e ∈ s.cache.queue, s.Has e.2 ∧ e.1 = owner e.2
  known : ∀ e ∈ s.table, s.Has e.1 → e.2 = owner e.1 ∨ s.Pending e.1
  callers : ∀ i, Keeps s.Has owner s.table (s.callers i)
  judged : ∀ x ∈ s.judged, x.2 = x.1

variable {s t : Mounted} {owner owner' : ℕ → Groups} {table table' : List (ℕ × Groups)} {i k : ℕ} {c : Caller}

theorem Keeps.mono {has has' : ℕ → Prop} (h : Keeps has owner table c)
    (hk : ∀ k, has k → has' k ∧ owner' k = owner k ∧ (Clean owner table k → Clean owner' table' k)) :
    Keeps has' owner' table' c := by
  unfold Keeps at *
  split at h
  · obtain ⟨h1, h2, h3, h4⟩ := h
    obtain ⟨k1, k2, k3⟩ := hk _ h1
    exact ⟨k1, k2.trans h2, h3, fun hs => k3 (h4 hs)⟩
  · exact h
  · exact ⟨(hk _ h.1).1, (hk _ h.1).2.1.trans h.2.1, (hk _ h.1).2.2 h.2.2⟩
  · exact ⟨(hk _ h.1).1, (hk _ h.1).2.1.trans h.2.1, (hk _ h.1).2.2 h.2.2⟩
  · trivial

/-- a step of one caller that gives out no index: what is new in the table of the master belongs to its index, and an
update that this caller no longer waits for has left it clean -/
theorem Sound.move (h : s.Sound owner) {c : Caller} (hc : t.callers = Function.update s.callers i c)
    (hi : t.cache.index = s.cache.index) (hq : ∀ e ∈ t.cache.queue, e ∈ s.cache.queue)
    (ht : ∀ e ∈ t.table, e ∈ s.table ∨ e.2 = owner e.1) (hju : ∀ x ∈ t.judged, x ∈ s.judged ∨ x.2 = x.1)
    (hke : Keeps s.Has owner t.table c)
    (hd : ∀ k groups caught retried, (s.callers i).phase = .updating k groups caught retried false →
      Clean owner t.table k) : t.Sound owner := by
  have hh : t.Has = s.Has := by
    funext k
    simp [Has, hi]
  refine ⟨fun e he => hh ▸ h.cached e (hq e he), fun e he hk => ?_, fun j => ?_,
    fun x hx => (hju x hx).elim (h.judged x) id⟩
  · rcases ht e he with hold | hn
    · rcases h.known e hold (hh ▸ hk) with ho | ⟨j, groups, caught, retried, hj⟩
      · exact .inl ho
      · -- the update that is under way is another caller's, or it has been handled
        by_cases hji : j = i
        · exact .inl (hd _ _ _ _ (hji ▸ hj) e he rfl)
        · exact .inr ⟨j, groups, caught, retried, by simp [hc, hji, hj]⟩
    · exact .inl hn
  · rw [hc, hh]
    by_cases hji : j = i
    · subst hji
      simpa using hke
    · rw [Function.update_of_ne hji]
      refine (h.callers j).mono fun k hk => ⟨hk, rfl, fun hcl e he hek => ?_⟩
      exact (ht e he).elim (fun hold => hcl e hold hek) (fun hn => hek ▸ hn)

theorem mem_updateCredentials {gids : Groups} {e : ℕ × Groups} (h : e ∈ updateCredentials k gids table) :
    e = (k, gids) ∨ e ∈ table ∧ e.1 ≠ k := by
  unfold updateCredentials at h
  split at h
  · obtain ⟨e', he', rfl⟩ := List.mem_map.1 h
    split_ifs with hk
    · exact .inl rfl
    · exact .inr ⟨mem_touch he', hk⟩
  · rename_i ha
    refine (mem_insert h).imp_right fun he => ⟨he, fun hk => ha ?_⟩
    exact List.any_eq_true.2 ⟨e, he, by simpa using hk⟩

theorem Sound.put (h : s.Sound owner) {retried : Bool} (hp : (s.callers i).phase = .missed retried)
    (hr : s.cache.index + 1 < kMaxGroupId) :
    (s.step (.put i)).Sound (Function.update owner (s.cache.index + 1) (s.callers i).gids) := by
  have hi : (s.cache.index + 1) % kMaxGroupId = s.cache.index + 1 := Nat.mod_eq_of_lt hr
  have hs : s.step (.put i) = { s with
      cache := ⟨s.cache.index + 1, insert groupCacheCapacity (s.callers i).gids (s.cache.index + 1) s.cache.queue⟩
      callers := Function.update s.callers i
        ⟨(s.callers i).gids, .updating (s.cache.index + 1) (s.callers i).gids true retried false⟩ } := by
    simp [step, hp, GroupCache.put, hi, goTo]
  have hne : ∀ k, s.Has k → k ≠ s.cache.index + 1 := fun k hk => by have := hk.2; omega
  rw [hs]
  refine ⟨fun e he => ?_, fun e he hk => ?_, fun j => ?_, h.judged⟩
  · rcases mem_insert he with rfl | he
    · exact ⟨⟨Nat.succ_pos _, le_rfl⟩, by simp⟩
    · have hold := h.cached e he
      exact ⟨⟨hold.1.1, Nat.le_succ_of_le hold.1.2⟩, by simp [hne _ hold.1, hold.2]⟩
  · by_cases hn : e.1 = s.cache.index + 1
    · exact .inr ⟨i, (s.callers i).gids, true, retried, by simp [hn]⟩
    · rcases h.known e he ⟨hk.1, Nat.le_of_lt_succ (lt_of_le_of_ne hk.2 hn)⟩ with ho | ⟨j, g, c, r, hj⟩
      · exact .inl (by simp [hn, ho])
      · have hji : j ≠ i := by
          rintro rfl
          simp [hp] at hj
        exact .inr ⟨j, g, c, r, by simp [hji, hj]⟩
  · dsimp only
    by_cases hji : j = i
    · subst hji
      simp [Keeps, Has]
    · rw [Function.update_of_ne hji]
      refine (h.callers j).mono fun k hk => ⟨⟨hk.1, Nat.le_succ_of_le hk.2⟩, by simp [hne k hk], ?_⟩
      intro hc e he hek
      simp [hne k hk, hc e he hek]

theorem Sound.disconnect (h : s.Sound owner) (hi : ∀ i, (s.callers i).phase = .idle) :
    (s.step .disconnect).Sound owner := by
  refine ⟨by simp [step], fun e _ hk => ?_, fun i => ?_, h.judged⟩
  · exact absurd hk.1 (Nat.not_lt.2 hk.2)
  · simp [step, Keeps, hi i]

/-- **one careful step keeps the indexes apart** -/
theorem Sound.step (h : s.Sound owner) {ev : GroupEvent} (ho : s.Careful ev) : ∃ owner', (s.step ev).Sound owner' := by
  cases ev with
  | call i gids =>
    simp only [Mounted.step]
    split_ifs with hc
    · exact ⟨owner, h.move rfl rfl (fun _ => id) (fun _ => .inl) (fun _ => .inl) trivial
        (by simp [hc.1])⟩
    · exact ⟨owner, h⟩
  | find i =>
    simp only [Mounted.step]
    split
    · rename_i retried hp
      refine ⟨owner, h.move rfl rfl (fun _ => mem_touch) (fun _ => .inl) (fun _ => .inl) ?_ (by simp [hp])⟩
      split
      · rename_i e he
        have hm := touch_fst he
        have hold := h.cached e hm.1
        refine ⟨hold.1, hold.2.symm.trans (by simpa using hm.2), fun x hx hxe => ?_⟩
        rw [← hxe]
        exact (h.known x hx (hxe ▸ hold.1)).resolve_right (hxe ▸ ho e he)
      · trivial
    · exact ⟨owner, h⟩
  | put i =>
    cases hp : (s.callers i).phase with
    | missed retried => exact ⟨_, h.put hp ho⟩
    | _ => exact ⟨owner, by simpa [Mounted.step, hp] using h⟩
  | update i =>
    simp only [Mounted.step]
    split
    · rename_i k groups caught retried stored hp
      have hk := h.callers i
      simp only [Keeps, hp] at hk
      obtain ⟨hh, how, hg, -⟩ := hk
      have ht : ∀ e ∈ updateCredentials k groups s.table, e.1 = k → e.2 = owner k := by
        intro e he hek
        rcases mem_updateCredentials he with rfl | ⟨-, hn⟩
        · exact hg.trans how.symm
        · exact absurd hek hn
      refine ⟨owner, h.move rfl rfl (fun _ => id) (fun e he => ?_) (fun _ => .inl) ⟨hh, how, hg, fun _ => ht⟩ ?_⟩
      · rcases mem_updateCredentials he with rfl | hold
        · exact .inr (ht _ he rfl)
        · exact .inl hold.1
      · intro k' g c r hp'
        rw [hp] at hp'
        cases hp'
        exact ht
    · exact ⟨owner, h⟩
  | confirm i =>
    simp only [Mounted.step]
    split
    · rename_i k groups caught retried hp
      have hk := h.callers i
      simp only [Keeps, hp] at hk
      exact ⟨owner, h.move rfl rfl (fun _ => id) (fun _ => .inl) (fun _ => .inl)
        ⟨hk.1, hk.2.1, hk.2.2.2 (.inl trivial)⟩ (by simp [hp])⟩
    · exact ⟨owner, h⟩
  | fail i =>
    simp only [Mounted.step]
    split
    · rename_i k groups caught retried stored hp
      have hk := h.callers i
      simp only [Keeps, hp] at hk
      -- only a repeated registration may fail, and its index was clean before
      obtain rfl : caught = false := by
        cases caught with
        | false => rfl
        | true => exact absurd hp (ho _ _ _ _)
      refine ⟨owner, h.move rfl rfl (fun _ => id) (fun _ => .inl) (fun _ => .inl) trivial ?_⟩
      intro k' g c r hp'
      rw [hp] at hp'
      cases hp'
      exact hk.2.2.2 (.inr rfl)
    · exact ⟨owner, h⟩
  | judge i =>
    simp only [Mounted.step]
    split
    · rename_i retried hp
      have hk := h.callers i
      simp only [Keeps, hp] at hk
    · rename_i k retried hp
      have hk := h.callers i
      simp only [Keeps, hp] at hk
      split
      · rename_i e he
        have hm := touch_fst he
        have hgi : e.2 = (s.callers i).gids := (hk.2.2 e hm.1 (by simpa using hm.2)).trans hk.2.1
        refine ⟨owner, h.move rfl rfl (fun _ => id) (fun _ he => .inl (mem_touch he)) (fun x hx => ?_) trivial
          (by simp [hp])⟩
        exact (List.mem_append.1 hx).imp_right fun hx => by simp [List.mem_singleton.1 hx, hgi]
      · refine ⟨owner, h.move rfl rfl (fun _ => id) (fun _ => .inl) (fun _ => .inl) ?_ (by simp [hp])⟩
        cases retried with
        | true => trivial
        | false => exact hk
    · exact ⟨owner, h⟩
  | register i =>
    simp only [Mounted.step]
    split
    · rename_i k hp
      have hk := h.callers i
      simp only [Keeps, hp] at hk
      refine ⟨owner, h.move rfl rfl (fun _ => mem_touch) (fun _ => .inl) (fun _ => .inl) ?_ (by simp [hp])⟩
      split
      · rename_i e he
        have hm := touch_fst he
        have hek : e.2 = k := by simpa using hm.2
        exact ⟨hk.1, hk.2.1, (h.cached e hm.1).2.trans (hek ▸ hk.2.1), fun _ => hk.2.2⟩
      · trivial
    · exact ⟨owner, h⟩
  | disconnect => exact ⟨owner, h.disconnect ho⟩

/-- **groups of a caller.** In every run of careful steps, every request is judged with the groups of its caller. -/
theorem judged_with_own_groups (evs : List GroupEvent) (hok : Stepwise.Along step Careful {} evs) :
    ∀ x ∈ (Stepwise.run step {} evs).judged, x.2 = x.1 := by
  have hstart : ({} : Mounted).Sound fun _ => [] := by
    refine ⟨by simp, by simp, fun i => ?_, by simp⟩
    simp [Keeps]
  obtain ⟨owner, h⟩ := Stepwise.inv_run (P := fun s : Mounted => ∃ owner, s.Sound owner)
    (fun s ev hev ⟨owner, h⟩ => h.step hev) {} evs hok ⟨_, hstart⟩
  exact h.judged

/-- a caller registers its groups and its request is judged; another process then finds them -/
theorem judged_with_own_groups_twice :
    (Stepwise.run step {} [.call 0 [5, 6], .find 0, .put 0, .update 0, .confirm 0, .judge 0]).judged =
    [([5, 6], [5, 6])] ∧
    ∀ x ∈ (Stepwise.run step {} [.call 0 [5, 6], .find 0, .put 0, .update 0, .confirm 0, .judge 0]).judged, x.2 = x.1 :=
  ⟨by decide, judged_with_own_groups _ (by
    refine ⟨trivial, fun e he => ?_, show 0 + 1 < kMaxGroupId by decide, trivial, trivial, trivial, trivial⟩
    cases he)⟩

/-- a failed update leaves group 0. After a reconnection index 1 is given to groups 7 and 8; another process with these
groups finds it before it is registered, and is judged with groups 5 and 6. -/
theorem judged_with_foreign_groups :
    (Stepwise.run step {} [.call 0 [5, 6], .find 0, .put 0, .fail 0, .judge 0]).judged = [([5, 6], [0])] ∧
    (Stepwise.run step {} [.call 0 [5, 6], .find 0, .put 0, .update 0, .confirm 0, .judge 0,
    .disconnect, .call 1 [7, 8],
      .find 1, .put 1, .call 2 [7, 8], .find 2, .judge 2]).judged = [([5, 6], [5, 6]), ([7, 8], [5, 6])] := by
  decide

end Mounted

end SaunaFS.Mount
