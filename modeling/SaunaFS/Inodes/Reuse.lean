/-
Runs of calls on the pool of inode numbers, and when a number may be given out again.

- `numbers_never_shared`: in every run with admissible calls no assertion fails, each number is in exactly one of the
  sets free, detained and held, and one that was released is given out again only after its time, from a pool with no
  free number, or after the detention was full.
-/
import SaunaFS.Inodes.IdPoolDetainer
import SaunaFS.Lib.Stepwise

namespace SaunaFS.Inodes

open Finset Option Or Stepwise

/-! ## Model -/

/-- a call; the functions with and without a time stamp are one here -/
inductive Call where
  | acquire (ts : Option UInt32)
  | release (id : ℕ) (ts : UInt32) (skipCheck : Bool)
  | markAsAcquired (id : ℕ) (ts : Option UInt32)
  | detain (id : ℕ) (ts : UInt32) (overcrowd skipCheck : Bool)
  | releaseDetained (ts : UInt32) (maxCount : ℤ)
deriving DecidableEq

inductive Answer where
  | id (id : ℕ)
  | done (ok : Bool)
  | count (count : ℕ)
deriving DecidableEq

/-- the detainer as `acquire` and `markAsAcquired` find it -/
def IdPoolDetainer.refreshed (s : DetainerSizes) (d : IdPoolDetainer) : Option UInt32 → Option IdPoolDetainer
  | none => some d
  | some ts => d.releaseSome s ts.toNat

/-- a call of a function of `IdPoolDetainer`; there is no outcome where an assertion fails -/
def IdPoolDetainer.exec (s : DetainerSizes) (d : IdPoolDetainer) : Call → Option (Answer × IdPoolDetainer)
  | .acquire ts => (d.refreshed s ts).bind fun d => (d.acquire s).map fun (id, d) => (.id id, d)
  | .release id ts skipCheck => (d.release s id ts.toNat skipCheck).map fun (ok, d) => (.done ok, d)
  | .markAsAcquired id ts => (d.refreshed s ts).bind fun d => (d.markAsAcquired s id).map fun (ok, d) => (.done ok, d)
  | .detain id ts overcrowd skipCheck =>
    (d.detain s id ts.toNat overcrowd skipCheck).map fun (ok, d) => (.done ok, d)
  | .releaseDetained ts maxCount => (d.releaseDetained s ts.toNat maxCount).map fun (n, d) => (.count n, d)

/-- the detainer, the numbers that are held by the answers, and the latest time stamp -/
structure Watch where
  detainer : IdPoolDetainer
  held : Finset ℕ
  now : ℕ

/-- the numbers that are held after an answer -/
def Call.held (held : Finset ℕ) : Call → Answer → Finset ℕ
  | .acquire _, .id id => if id = 0 then held else insert id held
  | .release id _ _, .done true => held.erase id
  | .markAsAcquired id _, .done true => insert id held
  | _, _ => held

def Call.time (now : ℕ) : Call → ℕ
  | .acquire ts | .markAsAcquired _ ts => (ts.map UInt32.toNat).getD now
  | .release _ ts _ | .detain _ ts _ _ | .releaseDetained ts _ => ts.toNat

namespace Watch

variable (s : DetainerSizes)

/-- a new detainer -/
def start : Watch := ⟨.new s, ∅, 0⟩

def step (w : Watch) (c : Call) : Watch :=
  match w.detainer.exec s c with
  | none => w
  | some (a, d) => ⟨d, c.held w.held a, c.time w.now⟩

/-- time does not go back; numbers are in the range of the pool, a check is skipped only where it would find nothing,
and the end of a detention is a time stamp -/
def Allowed (w : Watch) (c : Call) : Prop :=
  w.now ≤ c.time w.now ∧ match c with
    | .release id ts skipCheck =>
      id ≤ s.maxSize ∧ (skipCheck = true → id ∉ w.detainer.detained) ∧ ts.toNat + s.bucketTime + s.detainTime < 2 ^ 32
    | .markAsAcquired id _ | .detain id _ _ _ => id ≤ s.maxSize
    | _ => True

/-- a call that puts a number into a full detention -/
def Overflows (w : Watch) (c : Call) : Prop :=
  (∃ d, w.detainer.exec s c = some (.done true, d)) ∧ match c with
    | .release _ ts _ | .detain _ ts false _ =>
      ∃ d, w.detainer.releaseSome s ts.toNat = some d ∧ s.maxDetentionSize ≤ d.detainedCount
    | _ => False

end Watch

/-! ## One call -/

namespace IdPoolDetainer

variable {s : DetainerSizes} {d e f : IdPoolDetainer} {id t now : ℕ}

theorem Released.refl {due : ℕ → Bool} (h : d.Valid s) : Released s due d d :=
  ⟨h, rfl, fun _ _ hx => hx, fun _ _ hx => inl hx⟩

theorem Valid.refreshed (h : d.Valid s) (ts : Option UInt32) (now : ℕ) :
    ∃ e, d.refreshed s ts = some e ∧ Released s (due s ((ts.map UInt32.toNat).getD now)) d e := by
  cases ts with
  | none => exact ⟨d, rfl, Released.refl h⟩
  | some ts => exact h.releaseSome ts.toNat

/-- what a call does, after some detained numbers have gone back to the pool -/
inductive Effect (s : DetainerSizes) (w : Watch) (c : Call) (e : IdPoolDetainer) : Answer → IdPoolDetainer → Prop
  | nothing {a : Answer} {f : IdPoolDetainer} (hvalid : f.Valid s) (hacquired : f.acquired s = e.acquired s)
    (hdetention : f.detention = e.detention) (hheld : c.held w.held a = w.held) (hdone : a ≠ .done true)
    (hid : ∀ id, a = .id id → id = 0 ∧ e.acquired s = Finset.Icc 1 s.maxSize) : Effect s w c e a f
  | handed {a : Answer} {f : IdPoolDetainer} {id : ℕ} (h : Handed s e f id)
      (hheld : c.held w.held a = Insert.insert id w.held)
    (hcall : ∀ x ts skipCheck, c ≠ .release x ts skipCheck)
    (hid : ∀ x, a = .id x → x = id ∧ (id ∈ e.free s ∨ e.free s = ∅)) : Effect s w c e a f
  | released {f g : IdPoolDetainer} {id : ℕ} {ts : UInt32} {skipCheck : Bool} (hcall : c = .release id ts skipCheck)
    (hid : id ∈ e.acquired s) (hg : Released s (fun _ => true) e g) (hroom : ¬ w.Overflows s c → g = e)
    (h : Detained s g f id ts.toNat) : Effect s w c e (.done true) f
  | detained {f g : IdPoolDetainer} {e' : IdPoolDetainer} {id : ℕ} {ts : UInt32} {overcrowd skipCheck : Bool}
    (hcall : c = .detain id ts overcrowd skipCheck) (hid : id ∈ e.free s) (hhanded : Handed s e e' id)
    (hg : Released s (fun _ => true) e' g) (hroom : ¬ w.Overflows s c → g = e')
    (h : Detained s g f id ts.toNat) : Effect s w c e (.done true) f

variable {w : Watch} {ts x : ℕ} {skipCheck : Bool}

section

variable (hd : w.detainer.Valid s)
include hd

theorem exec_acquire {ts : Option UInt32} : ∃ e a f, w.detainer.exec s (.acquire ts) = some (a, f) ∧
      Released s (due s (Call.time w.now (.acquire ts))) w.detainer e ∧ Effect s w (.acquire ts) e a f := by
  obtain ⟨e, he, hr⟩ := hd.refreshed ts w.now
  obtain ⟨id, f, hac, hc⟩ := hr.valid.acquire
  refine ⟨e, .id id, f, ?_, hr, ?_⟩
  · unfold exec
    dsimp only
    rw [he, bind_some, hac]
    rfl
  · rcases hc with ⟨rfl, hv, ha, hde, hal⟩ | ⟨hh, hf⟩
    · refine .nothing hv ha hde rfl Answer.noConfusion fun x hx => ⟨(Answer.id.inj hx).symm, hal⟩
    · refine .handed hh (if_neg hh.inRange.1.ne') (fun _ _ _ => Call.noConfusion) fun x hx => ?_
      exact ⟨(Answer.id.inj hx).symm, hf⟩

theorem exec_markAsAcquired {ts : Option UInt32} (hl : id ≤ s.maxSize) :
    ∃ e a f, w.detainer.exec s (.markAsAcquired id ts) = some (a, f) ∧
      Released s (due s (Call.time w.now (.markAsAcquired id ts))) w.detainer e ∧
      Effect s w (.markAsAcquired id ts) e a f := by
  obtain ⟨e, he, hr⟩ := hd.refreshed ts w.now
  obtain ⟨r, f, hm, hc⟩ := hr.valid.markAsAcquired hl
  refine ⟨e, .done r, f, ?_, hr, ?_⟩
  · unfold exec
    dsimp only
    rw [he, bind_some, hm]
    rfl
  · rcases hc with ⟨rfl, hh⟩ | ⟨rfl, hv, ha, hde⟩
    · exact .handed hh rfl (fun _ _ _ => Call.noConfusion) fun _ => Answer.noConfusion
    · exact .nothing hv ha hde rfl (by decide) fun _ => Answer.noConfusion

theorem exec_release {ts : UInt32} (hl : id ≤ s.maxSize) (hs : skipCheck → id ∉ w.detainer.detained) :
    ∃ e a f, w.detainer.exec s (.release id ts skipCheck) = some (a, f) ∧
      Released s (due s ts.toNat) w.detainer e ∧ Effect s w (.release id ts skipCheck) e a f := by
  obtain ⟨e, he, hr⟩ := hd.releaseSome ts.toNat
  have hexe : w.detainer.exec s (.release id ts skipCheck) =
      (if id = 0 ∨ e.pool.checkIfAvailable s.toPoolSizes id then some (false, e)
        else if skipCheck = false ∧ e.isDetained id then some (false, e)
        else (e.putDetained s id ts.toNat false).map fun d => (true, d)).map fun (ok, d) => (.done ok, d) := by
    unfold exec release
    dsimp only
    rw [he, bind_some]
  have hn : Effect s w (.release id ts skipCheck) e (.done false) e :=
    .nothing hr.valid rfl rfl rfl (by decide) fun _ => Answer.noConfusion
  by_cases hf : id = 0 ∨ e.pool.checkIfAvailable s.toPoolSizes id
  · rw [if_pos hf] at hexe
    exact ⟨e, _, _, hexe, hr, hn⟩
  by_cases hdet : skipCheck = false ∧ e.isDetained id
  · rw [if_neg hf, if_pos hdet] at hexe
    exact ⟨e, _, _, hexe, hr, hn⟩
  rw [if_neg hf, if_neg hdet] at hexe
  rw [not_or, hr.valid.pool.checkIfAvailable, decide_eq_true_iff] at hf
  have hno : id ∉ e.detained := by
    intro hm
    cases skipCheck with
    | false => exact hdet ⟨rfl, isDetained_eq.trans (decide_eq_true hm)⟩
    | true =>
      obtain ⟨t, ht⟩ := mem_detained.1 hm
      exact hs rfl (mem_detained.2 ⟨t, hr.back id t ht⟩)
  have hi : id ∈ e.acquired s := mem_acquired.2 ⟨⟨Nat.pos_of_ne_zero hf.1, hl⟩, hf.2, hno⟩
  obtain ⟨g, f, hp, hg, hde, hro⟩ := hr.valid.putDetained hi ts.toNat false
  rw [hp] at hexe
  refine ⟨e, _, f, hexe, hr, .released rfl hi hg (fun hno => hro fun hfu => hno ?_) hde⟩
  exact ⟨⟨f, hexe⟩, e, he, hfu.2⟩

theorem exec_detain {ts : UInt32} {overcrowd : Bool} (hl : id ≤ s.maxSize) :
    ∃ e a f, w.detainer.exec s (.detain id ts overcrowd skipCheck) = some (a, f) ∧
      Released s (due s ts.toNat) w.detainer e ∧ Effect s w (.detain id ts overcrowd skipCheck) e a f := by
  obtain ⟨e, he, hr⟩ := hd.releaseSome ts.toNat
  obtain ⟨pool, hm, hpo, hp⟩ := IdPool.markAsAcquired_spec hr.valid.pool hl
  have hexe : w.detainer.exec s (.detain id ts overcrowd skipCheck) =
      (if skipCheck = false ∧ e.isDetained id then some (false, e)
        else if decide (id ∈ e.pool.free s.toPoolSizes) then
          (putDetained s { e with pool := pool } id ts.toNat overcrowd).map fun d => (true, d)
        else some (false, { e with pool := pool })).map fun (ok, d) => (.done ok, d) := by
    unfold exec detain
    dsimp only
    rw [he, bind_some, hm, bind_some]
  by_cases hdet : skipCheck = false ∧ e.isDetained id
  · rw [if_pos hdet] at hexe
    exact ⟨e, _, _, hexe, hr, .nothing hr.valid rfl rfl rfl (by decide) fun _ => Answer.noConfusion⟩
  rw [if_neg hdet] at hexe
  by_cases hf : id ∈ e.pool.free s.toPoolSizes
  · rw [decide_eq_true hf, if_pos rfl] at hexe
    have hh := hr.valid.handed_free hf hpo hp
    have hi : id ∈ acquired s { e with pool := pool } := hh.acquired ▸ mem_insert_self _ _
    obtain ⟨g, f, hpu, hg, hde, hro⟩ := hh.valid.putDetained hi ts.toNat overcrowd
    rw [hpu] at hexe
    refine ⟨e, _, f, hexe, hr, .detained rfl hf hh hg (fun hn => hro fun hfu => hn ?_) hde⟩
    obtain ⟨rfl, hc⟩ := hfu
    exact ⟨⟨f, hexe⟩, e, he, hc⟩
  · rw [decide_eq_false hf, if_neg Bool.false_ne_true] at hexe
    obtain ⟨hv, ha⟩ := hr.valid.withPool hpo (hp.trans (erase_eq_of_notMem hf))
    exact ⟨e, _, _, hexe, hr, .nothing hv ha rfl rfl (by decide) fun _ => Answer.noConfusion⟩

/-- **One call.** Every call has an outcome. -/
theorem exec_effect {c : Call} (hc : w.Allowed s c) :
    ∃ e a f, w.detainer.exec s c = some (a, f) ∧ Released s (due s (c.time w.now)) w.detainer e ∧
      Effect s w c e a f := by
  cases c with
  | acquire ts => exact exec_acquire hd
  | release id ts skipCheck => exact exec_release hd hc.2.1 hc.2.2.1
  | markAsAcquired id ts => exact exec_markAsAcquired hd hc.2
  | detain id ts overcrowd skipCheck => exact exec_detain hd hc.2
  | releaseDetained ts maxCount =>
    obtain ⟨n, e, he, hr⟩ := hd.releaseWhile (due s ts.toNat) maxCount.toNat
    refine ⟨e, .count n, e, ?_, hr, .nothing hr.valid rfl rfl rfl Answer.noConfusion fun _ => Answer.noConfusion⟩
    unfold exec releaseDetained
    dsimp only
    rw [he]
    rfl

end

/-! ## The time of a number -/

/-- a number that was released at the time `t` is held again, detained in a bucket that is young enough, or its time is
over -/
def Kept (s : DetainerSizes) (id t : ℕ) (d : IdPoolDetainer) (now : ℕ) : Prop :=
  id ∈ d.acquired s ∨ (∃ bucketTs, d.DetainedAt id bucketTs ∧ bucketTs + s.bucketTime + s.detainTime < 2 ^ 32 ∧
      t ≤ bucketTs + s.bucketTime) ∨
    t + s.detainTime < now

section

variable (h : Kept s id t d now)
include h

theorem Kept.released {now' : ℕ} (hn : now ≤ now') (hr : Released s (due s now') d e) : Kept s id t e now' := by
  rcases h with h | ⟨b, hb, hw, ht⟩ | h
  · exact inl (hr.acquired ▸ h)
  · rcases hr.stays id b hb with hb | hdu
    · exact inr (inl ⟨b, hb, hw, ht⟩)
    · rw [due, decide_eq_true_iff, Nat.mod_eq_of_lt hw] at hdu
      exact inr (inr (by omega))
  · exact inr (inr (h.trans_le hn))

theorem Kept.handed (hx : Handed s d e x) : Kept s id t e now := by
  by_cases he : id = x
  · exact inl (hx.acquired ▸ he ▸ mem_insert_self _ _)
  · refine h.imp (fun h => hx.acquired ▸ mem_insert_of_mem h) (imp_left ?_)
    rintro ⟨b, hb, hs⟩
    exact ⟨b, hx.stays id b he hb, hs⟩

theorem Kept.detained (hx : Detained s d e x ts) (hn : id ≠ x) : Kept s id t e now := by
  refine h.imp (fun h => hx.acquired ▸ mem_erase_of_ne_of_mem hn h) (imp_left ?_)
  rintro ⟨b, hb, hs⟩
  exact ⟨b, hx.stays id b hb, hs⟩

end

theorem Kept.of_free (hd : d.Valid s) (h : Kept s id t d now) (hf : id ∈ d.free s) : t + s.detainTime < now := by
  rcases h with h | ⟨b, hb, _⟩ | h
  · exact absurd hf (mem_acquired.1 h).2.1
  · exact absurd hf (hd.inUse id (mem_detained.2 ⟨b, hb⟩)).2.2
  · exact h

theorem Detained.bucket_le (hd : d.Valid s) (h : Detained s d e id ts) (hp : ∀ x b, d.DetainedAt x b → b ≤ ts)
    {b : ℕ} (hb : e.DetainedAt id b) : b ≤ ts ∧ ts ≤ b + s.bucketTime := by
  obtain ⟨b', ht, hc, hb'⟩ := h.bucket
  obtain rfl := h.valid.detainedAt_unique hb hb'
  refine ⟨?_, ht⟩
  rcases hc with rfl | ⟨bucket, hbu, rfl⟩
  · exact le_rfl
  · obtain ⟨x, data, hda⟩ := List.exists_cons_of_ne_nil (hd.filled bucket hbu)
    exact hp x bucket.ts ⟨bucket, hbu, rfl, hda ▸ List.mem_cons_self⟩

theorem Detained.kept (hd : d.Valid s) (h : Detained s d e id ts) (hp : ∀ x b, d.DetainedAt x b → b ≤ ts)
    (hw : ts + s.bucketTime + s.detainTime < 2 ^ 32) (ht : t ≤ ts) : Kept s id t e now := by
  obtain ⟨b, _, _, hb⟩ := h.bucket
  obtain ⟨hl, hg⟩ := h.bucket_le hd hp hb
  exact inr (inl ⟨b, hb, by omega, by omega⟩)

end IdPoolDetainer

/-! ## Runs -/

namespace Watch

open IdPoolDetainer

variable {s : DetainerSizes} {w : Watch} {c : Call} {id t : ℕ}

/-- what the callers hold is what the detainer has acquired -/
structure Inv (s : DetainerSizes) (w : Watch) : Prop where
  valid : w.detainer.Valid s
  held : w.held = w.detainer.acquired s
  past : ∀ x t, w.detainer.DetainedAt x t → t ≤ w.now

theorem inv_start : (start s).Inv s :=
  ⟨valid_new s, (acquired_new s).symm, fun _ _ ⟨_, hb, _⟩ => absurd hb List.not_mem_nil⟩

/-- a call and what the callers then hold; nothing was detained in the future -/
theorem Inv.effect (h : w.Inv s) (hc : w.Allowed s c) :
    ∃ e a f, w.detainer.exec s c = some (a, f) ∧ Released s (due s (c.time w.now)) w.detainer e ∧ Effect s w c e a f ∧
      w.step s c = ⟨f, c.held w.held a, c.time w.now⟩ ∧ ∀ x b, e.DetainedAt x b → b ≤ c.time w.now := by
  obtain ⟨e, a, f, hexe, hr, he⟩ := exec_effect h.valid hc
  refine ⟨e, a, f, hexe, hr, he, ?_, fun x b hx => (h.past x b (hr.back x b hx)).trans hc.1⟩
  unfold Watch.step
  rw [hexe]

theorem Inv.step (h : w.Inv s) (hc : w.Allowed s c) : (w.step s c).Inv s := by
  obtain ⟨e, a, f, -, hr, he, hs, hp⟩ := h.effect hc
  have hhe : w.held = e.acquired s := h.held.trans hr.acquired.symm
  rw [hs]
  cases he with
  | nothing hv ha hde heq =>
    refine ⟨hv, heq.trans (hhe.trans ha.symm), fun x b hx => hp x b ?_⟩
    unfold DetainedAt at hx ⊢
    exact hde ▸ hx
  | handed hx heq =>
    exact ⟨hx.valid, heq.trans (by rw [hhe, hx.acquired]), fun y b hy => hp y b (hx.back y b hy)⟩
  | @released _ g id ts skipCheck hca hi hg _ hx =>
    subst hca
    have hp' (x b : ℕ) (hx : g.DetainedAt x b) : b ≤ ts.toNat := hp x b (hg.back x b hx)
    refine ⟨hx.valid, ?_, fun y b hy => ?_⟩
    · change w.held.erase id = _
      rw [hx.acquired, hg.acquired, hhe]
    · rcases hx.back y b hy with hy | rfl
      · exact hp' y b hy
      · exact (hx.bucket_le hg.valid hp' hy).1
  | @detained _ g e' id ts overcrowd skipCheck hca hi hh hg _ hx =>
    subst hca
    have hp' (x b : ℕ) (hx : g.DetainedAt x b) : b ≤ ts.toNat := hp x b (hh.back x b (hg.back x b hx))
    refine ⟨hx.valid, ?_, fun y b hy => ?_⟩
    · change w.held = _
      rw [hx.acquired, hg.acquired, hh.acquired, erase_insert hh.fresh, hhe]
    · rcases hx.back y b hy with hy | rfl
      · exact hp' y b hy
      · exact (hx.bucket_le hg.valid hp' hy).1

theorem now_step (h : w.Inv s) (hc : w.Allowed s c) : (w.step s c).now = c.time w.now := by
  obtain ⟨e, a, f, -, -, -, hs, -⟩ := h.effect hc
  rw [hs]

theorem kept_step (h : w.Inv s) (hc : w.Allowed s c) (hro : ¬ w.Overflows s c) (ht : t ≤ w.now)
    (hk : Kept s id t w.detainer w.now) : Kept s id t (w.step s c).detainer (w.step s c).now := by
  obtain ⟨e, a, f, -, hr, hef, hst, hp⟩ := h.effect hc
  have hk' := hk.released hc.1 hr
  rw [hst]
  cases hef with
  | nothing hv ha hde =>
    refine hk'.imp (fun hin => ha.symm ▸ hin) (imp_left ?_)
    rintro ⟨b, hb, hsp⟩
    refine ⟨b, ?_, hsp⟩
    unfold DetainedAt at hb ⊢
    exact hde.symm ▸ hb
  | handed hx => exact hk'.handed hx
  | @released _ g x ts skipCheck hca _ hg hs hx =>
    obtain rfl := hs hro
    subst hca
    by_cases he : id = x
    · subst he
      exact hx.kept hr.valid hp hc.2.2.2 (ht.trans hc.1)
    · exact hk'.detained hx he
  | @detained _ g e' x ts overcrowd skipCheck hca hi hh hg hs hx =>
    obtain rfl := hs hro
    by_cases he : id = x
    · subst he
      exact inr (inr (hk'.of_free hr.valid hi))
    · exact (hk'.handed hh).detained hx he

variable {d : IdPoolDetainer}

theorem kept_release {ts : UInt32} {skipCheck : Bool} (h : w.Inv s) (hc : w.Allowed s c)
    (hca : c = .release id ts skipCheck) (hdo : w.detainer.exec s c = some (.done true, d)) :
    Kept s id ts.toNat (w.step s c).detainer (w.step s c).now := by
  obtain ⟨e, a, f, he, hr, hef, hs, hp⟩ := h.effect hc
  have ha : a = .done true := (Prod.mk.inj (some.inj (he.symm.trans hdo))).1
  rw [hs]
  cases hef with
  | nothing _ _ _ _ hn => exact absurd ha hn
  | handed _ _ hn => exact absurd hca (hn id ts skipCheck)
  | @released _ g x ts' _ hca' _ hg _ hx =>
    subst hca
    obtain ⟨rfl, rfl, _⟩ := Call.release.inj hca'
    exact hx.kept hg.valid (fun x b hb => hp x b (hg.back x b hb)) hc.2.2.2 le_rfl
  | detained hca' =>
    rw [hca] at hca'
    cases hca'

theorem kept_run {calls : List Call} (h : w.Inv s) (ht : t ≤ w.now) (hk : Kept s id t w.detainer w.now)
    (ho : Stepwise.Along (step s) (Allowed s) w calls)
    (hr : ∀ before c after, calls = before ++ c :: after → ¬ (run (step s) w before).Overflows s c) :
    Kept s id t (run (step s) w calls).detainer (run (step s) w calls).now := by
  induction calls generalizing w with
  | nil => exact hk
  | cons c calls ih =>
    have hs := kept_step h ho.1 (hr [] c calls rfl) ht hk
    have ht' : t ≤ (w.step s c).now := by
      rw [now_step h ho.1]
      exact ht.trans ho.1.1
    refine ih (h.step ho.1) ht' hs ho.2 fun before c' after he => ?_
    exact hr (c :: before) c' after (congrArg (c :: ·) he)

/-- each number of the pool is in exactly one of the three sets, and the counters say how many there are -/
structure Apart (s : DetainerSizes) (w : Watch) : Prop where
  some : ∀ id, 0 < id → id ≤ s.maxSize → id ∈ w.detainer.free s ∨ id ∈ w.detainer.detained ∨ id ∈ w.held
  free_detained : ∀ id ∈ w.detainer.free s, id ∉ w.detainer.detained
  free_held : ∀ id ∈ w.detainer.free s, id ∉ w.held
  detained_held : ∀ id ∈ w.detainer.detained, id ∉ w.held
  size : w.detainer.size = w.held.card
  detainedCount : w.detainer.detainedCount = w.detainer.detained.toFinset.card

theorem Inv.apart (h : w.Inv s) : w.Apart s where
  some := by
    intro id hp hl
    by_cases hf : id ∈ w.detainer.free s
    · exact inl hf
    by_cases hde : id ∈ w.detainer.detained
    · exact inr (inl hde)
    · exact inr (inr (h.held ▸ mem_acquired.2 ⟨⟨hp, hl⟩, hf, hde⟩))
  free_detained := fun id hf hde => (h.valid.inUse id hde).2.2 hf
  free_held := fun id hf hh => (mem_acquired.1 (h.held ▸ hh)).2.1 hf
  detained_held := fun id hde hh => (mem_acquired.1 (h.held ▸ hh)).2.2 hde
  size := h.held ▸ h.valid.size
  detainedCount := by rw [h.valid.count, List.toFinset_card_of_nodup h.valid.nodup]

theorem Inv.acquire (h : w.Inv s) (ts : Option UInt32) :
    ∃ id d, w.detainer.exec s (.acquire ts) = some (.id id, d) ∧ id ∉ w.held ∧
      (id = 0 → w.held = Finset.Icc 1 s.maxSize) := by
  obtain ⟨e, he, hr⟩ := h.valid.refreshed ts w.now
  obtain ⟨id, f, ha, hc⟩ := hr.valid.acquire
  have hexe : w.detainer.exec s (.acquire ts) = some (.id id, f) := by
    unfold exec
    dsimp only
    rw [he, bind_some, ha]
    rfl
  refine ⟨id, f, hexe, ?_⟩
  rw [h.held, ← hr.acquired]
  rcases hc with ⟨rfl, _, _, _, hal⟩ | ⟨hh, _⟩
  · exact ⟨fun hm => (mem_acquired.1 hm).1.1.ne rfl, fun _ => hal⟩
  · exact ⟨hh.fresh, fun h0 => absurd h0 hh.inRange.1.ne'⟩

theorem Inv.reused {ts : Option UInt32} (h : w.Inv s) (hc : w.Allowed s (.acquire ts))
    (hk : Kept s id t w.detainer w.now) (hexe : w.detainer.exec s (.acquire ts) = some (.id id, d)) :
    t + s.detainTime < Call.time w.now (.acquire ts) ∨
      ∀ e, w.detainer.refreshed s ts = some e → e.free s = ∅ := by
  obtain ⟨e, he, hr⟩ := h.valid.refreshed ts w.now
  obtain ⟨id', f, ha, hca⟩ := hr.valid.acquire
  have hexe' : w.detainer.exec s (.acquire ts) = some (.id id', f) := by
    unfold exec
    dsimp only
    rw [he, bind_some, ha]
    rfl
  obtain rfl : id = id' := Answer.id.inj (Prod.mk.inj (some.inj (hexe.symm.trans hexe'))).1
  have hem (h0 : e.free s = ∅) (e' : IdPoolDetainer) (he' : w.detainer.refreshed s ts = some e') :
      e'.free s = ∅ := some.inj (he.symm.trans he') ▸ h0
  rcases hca with ⟨_, _, _, _, hal⟩ | ⟨_, hf | h0⟩
  · refine inr (hem (eq_empty_of_forall_notMem fun x hx => ?_))
    have hx' : x ∈ e.acquired s := hal ▸ mem_Icc.2 (hr.valid.pool.pos_of_mem_free hx)
    exact (mem_acquired.1 hx').2.1 hx
  · exact inl ((hk.released hc.1 hr).of_free hr.valid hf)
  · exact inr (hem h0)

/-- the state after some calls on a new detainer -/
abbrev after (s : DetainerSizes) (calls : List Call) : Watch := run (step s) (start s) calls

/-- **Numbers are never shared.** No call hands out a number that is held, and a number that was released comes back
only after its time, or if no other is free, or if the detained numbers overflowed in between. -/
theorem numbers_never_shared (s : DetainerSizes) (calls : List Call)
    (hok : Stepwise.Along (step s) (Allowed s) (start s) calls) :
    (after s calls).Apart s ∧ (∀ c, (after s calls).Allowed s c → ((after s calls).detainer.exec s c).isSome) ∧
      (∀ ts, ∃ id d, (after s calls).detainer.exec s (.acquire ts) = some (.id id, d) ∧ id ∉ (after s calls).held ∧
        (id = 0 → (after s calls).held = Finset.Icc 1 s.maxSize)) ∧
      ∀ before id ts skipCheck later ts' d d', calls = before ++ .release id ts skipCheck :: later →
        (after s before).detainer.exec s (.release id ts skipCheck) = some (.done true, d) →
        (after s calls).Allowed s (.acquire ts') →
        (after s calls).detainer.exec s (.acquire ts') = some (.id id, d') →
        ts.toNat + s.detainTime < Call.time (after s calls).now (.acquire ts') ∨
          (∀ e, (after s calls).detainer.refreshed s ts' = some e → e.free s = ∅) ∨
          ∃ mid c rest, later = mid ++ c :: rest ∧
            (after s (before ++ .release id ts skipCheck :: mid)).Overflows s c := by
  have hinv : (after s calls).Inv s := inv_run (fun w c hc hw => Inv.step hw hc) (start s) calls hok inv_start
  refine ⟨hinv.apart, fun c hc => ?_, fun ts => hinv.acquire ts, ?_⟩
  · obtain ⟨e, a, f, hexec, _⟩ := exec_effect hinv.valid hc
    rw [hexec]
    rfl
  · rintro before id ts skipCheck later ts' d d' rfl hdone hc hexec
    by_contra hnone
    simp only [not_or, not_exists, not_and] at hnone
    obtain ⟨hearly, hfree, hroom⟩ := hnone
    rw [along_append] at hok
    obtain ⟨hbefore, hrelease, hlater⟩ := hok
    have hinv' : (after s before).Inv s :=
      inv_run (fun w c hc hw => Inv.step hw hc) (start s) before hbefore inv_start
    have hkept := kept_release hinv' hrelease rfl hdone
    have hnow : ts.toNat ≤ ((after s before).step s (.release id ts skipCheck)).now := by
      rw [now_step hinv' hrelease]
      exact le_rfl
    have hrun (calls : List Call) : run (step s) ((after s before).step s (.release id ts skipCheck)) calls =
        after s (before ++ .release id ts skipCheck :: calls) := by
      unfold after
      rw [run_append, run_cons]
    have hend := kept_run (hinv'.step hrelease) hnow hkept hlater fun mid c rest heq => by
      rw [hrun]
      exact hroom mid c rest heq
    rw [hrun] at hend
    rcases hinv.reused hc hend hexec with h | h
    · exact hearly h
    · exact hfree h

/-- a pool of two numbers that are detained for ten seconds -/
def smallPool : DetainerSizes where
  maxSize := 2
  blockSize := 64
  cacheSize := 1
  order := narrowPool.order
  maxSize_lt := by decide
  blockSize_pos := narrowPool.blockSize_pos
  blockSize_le := narrowPool.blockSize_le
  detainTime := 10
  bucketCount := 2
  maxDetentionSize := 5
  releaseCount := 10
  kind := .deque
  bucketCount_pos := by decide

theorem numbers_never_shared_released :
    (after smallPool [.acquire (some 1), .release 1 1 false, .acquire (some 20)]).Apart smallPool :=
  (numbers_never_shared smallPool [.acquire (some 1), .release 1 1 false, .acquire (some 20)]
    ⟨⟨by decide, trivial⟩, ⟨by decide, by decide, by decide, by decide⟩, ⟨by decide, trivial⟩, trivial⟩).1

/-- **Numbers are shared otherwise.** A number outside the pool is detained, a number is detained twice when the check
is skipped, and close to the end of time a number is given out again after one second. -/
theorem numbers_shared : (after smallPool [.release 3 1 false]).detainer.detained = [3] ∧
      (after smallPool [.release 3 1 false]).detainer.size = 2 ^ 64 - 1 ∧
      (after smallPool [.acquire none, .release 1 1 false, .release 1 1 true]).detainer.detained = [1, 1] ∧
      2 ∈ (after smallPool [.acquire none, .release 1 4294967291 false]).detainer.free smallPool ∧
      ((after smallPool [.acquire none, .release 1 4294967291 false]).detainer.exec smallPool
        (.acquire (some 4294967292))).map Prod.fst = some (.id 1) := by
  refine ⟨by decide +kernel, by decide +kernel, by decide +kernel, by decide +kernel, by decide +kernel⟩

end Watch

end SaunaFS.Inodes
