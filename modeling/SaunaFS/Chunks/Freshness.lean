/-
No stale copy at the version of its chunk. While no operation is in progress and `needverincrease` is clear, the next
write goes to the valid parts without a version increase, so no copy of this version may exist elsewhere.

The invariant `Fresh`: all copies of one version have the same content, and a copy or an outstanding order of the
version of the chunk belongs to a valid part unless the chunk is due for a version increase (`Chunk.Tight`). Changes
without a new version are `Chunk.Calm`, those that start an operation are `Base.start`.
-/
import SaunaFS.Lib.Stepwise
import SaunaFS.Chunks.Servers

namespace SaunaFS.Chunks

open List Nat Function ChunkPart Effect Command Message Cluster

open ModifyFirst

/-! ## Parts at a place -/

namespace Chunk

/-- a valid part is listed for this place -/
def Counted (c : Chunk) (csid : ℕ) (type : ChunkPartType) : Prop :=
  ∃ p ∈ c.parts, p.place = (csid, type) ∧ p.isValid = true

/-- a busy part is listed for this place -/
def BusyAt (c : Chunk) (csid : ℕ) (type : ChunkPartType) : Prop :=
  ∃ p ∈ c.parts, p.place = (csid, type) ∧ p.isBusy = true

/-- the next write comes without a version increase, unless something happens before -/
def Tight (c : Chunk) : Prop := c.interrupted = false ∧ (c.operation ≠ .none ∨ c.needverincrease = false)

variable {c c' : Chunk} {csid : ℕ} {type : ChunkPartType}

theorem BusyAt.counted (h : c.BusyAt csid type) : c.Counted csid type := by
  obtain ⟨p, hp, hpl, hb⟩ := h
  exact ⟨p, hp, hpl, isValid_of_isBusy hb⟩

theorem BusyAt.not_quiet (h : c.BusyAt csid type) (hq : ∀ p ∈ c.parts, p.isBusy = false) : False := by
  obtain ⟨p, hp, -, hb⟩ := h
  rw [hq p hp] at hb
  cases hb

theorem Counted.lists (h : c.Counted csid type) : c.lists csid type := by
  obtain ⟨p, hp, hpl, -⟩ := h
  exact lists_iff.2 ⟨p, hp, hpl⟩

theorem counted_iff : c.Counted csid type ↔ (csid, type) ∈ c.validPlaces := by
  unfold Counted validPlaces
  rw [mem_map]
  refine exists_congr fun p => ?_
  rw [mem_filter]
  tauto

variable {f : ChunkPart → ChunkPart}

theorem BusyAt.map (h : c.BusyAt csid type) (hp : c'.parts = c.parts.map f) (hpl : ∀ p, (f p).place = p.place)
    (hf : ∀ p ∈ c.parts, p.place = (csid, type) → p.isBusy → (f p).isBusy) : c'.BusyAt csid type := by
  obtain ⟨p, hm, ha, hb⟩ := h
  exact ⟨f p, hp ▸ mem_map_of_mem hm, (hpl p).trans ha, hf p hm ha hb⟩

theorem Counted.map (h : c.Counted csid type) (hp : c'.parts = c.parts.map f) (hpl : ∀ p, (f p).place = p.place)
    (hf : ∀ p ∈ c.parts, p.place = (csid, type) → p.isValid → (f p).isValid) : c'.Counted csid type := by
  obtain ⟨p, hm, ha, hv⟩ := h
  exact ⟨f p, hp ▸ mem_map_of_mem hm, (hpl p).trans ha, hf p hm ha hv⟩

theorem validPlaces_map (hp : c'.parts = c.parts.map f)
    (hpl : ∀ p, (f p).place = p.place) (hf : ∀ p, (f p).isValid → p.isValid)
    (h : c.validPlaces.Nodup) : c'.validPlaces.Nodup := by
  have hc : place ∘ f = place := funext hpl
  have he : c'.validPlaces = (c.parts.filter (isValid ∘ f)).map place := by
    unfold validPlaces
    rw [hp, filter_map, map_map, hc]
  rw [he]
  refine h.sublist (List.Sublist.map _ ?_)
  exact monotone_filter_right _ fun p hv => hf p hv

end Chunk

/-! ## Orders -/

/-- the orders of a version operation -/
def Order.isOp : Order → Bool
  | .create _ _ | .setVersion _ _ | .truncate _ _ _ => true
  | _ => false

/-- the version of the copy that an order leaves -/
def Order.target : Order → Option ℕ
  | .create version _ | .setVersion version _ | .truncate version _ _ => some version
  | .delete => none
  | .replicate version _ | .fetched version _ => some version

/-- an order leaves the content that belongs to its version -/
def Order.Agrees (content : ℕ → ℕ) : Order → Prop
  | .create version stamp => content version = stamp
  | .setVersion version oldVersion => oldVersion < version ∧ content version = content oldVersion
  | .truncate version _ stamp => content version = stamp
  | .fetched version stamp => content version = stamp
  | _ => True

variable {content : ℕ → ℕ} {c : Chunk} {s : Cluster} {v csid : ℕ} {type : ChunkPartType}

theorem Order.Agrees.congr {content' : ℕ → ℕ} {o : Order} (h : o.Agrees content)
    (ht : ∀ u ∈ o.target, u < v) (hc : ∀ u, u < v → content' u = content u) : o.Agrees content' := by
  cases o with
  | create version stamp => exact (hc version (ht version rfl)).trans h
  | setVersion version oldVersion =>
    have hv : version < v := ht version rfl
    exact ⟨h.1, (hc version hv).trans (h.2.trans (hc oldVersion (h.1.trans hv)).symm)⟩
  | truncate version oldVersion stamp => exact (hc version (ht version rfl)).trans h
  | delete | replicate version sources => trivial
  | fetched version stamp => exact (hc version (ht version rfl)).trans h

/-- orders of a version operation for a place that lead to this version -/
def Command.concerns (csid : ℕ) (type : ChunkPartType) (version : ℕ) (c : Command) : Bool :=
  c.csid == csid && c.type == type && c.order.isOp && c.order.target == some version

/-- answers to such orders -/
def Message.answers (csid : ℕ) (type : ChunkPartType) (m : Message) : Bool :=
  m.csid == csid && m.type == type && match m.report with
    | .status _ => true
    | _ => false

/-! ## The invariant -/

/-- the part of the invariant that does not depend on the operation in progress -/
structure Base (s : Cluster) (content : ℕ → ℕ) : Prop where
  last : content s.chunk.version = s.last
  copies : ∀ csid type k, s.disk csid type = some k → k.version ≤ s.chunk.version ∧ content k.version = k.stamp
  orders : ∀ c ∈ s.commands, c.order.Agrees content ∧ ∀ v ∈ c.order.target, v ≤ s.chunk.version
  places : s.chunk.validPlaces.Nodup
  count : ∀ csid type, s.commands.countP (concerns csid type s.chunk.version) +
    s.inbox.countP (answers csid type) ≤ 1
  live : ∀ c ∈ s.commands, c.live = true → c.order.isOp = true →
    s.connected c.csid = true ∧ s.chunk.BusyAt c.csid c.type ∧ c.order.target = some s.chunk.version
  answers : ∀ m ∈ s.inbox, answers m.csid m.type m = true →
    s.connected m.csid = true ∧ s.chunk.BusyAt m.csid m.type

/-- all copies of a version agree, and copies and orders of the chunk's version belong to valid parts -/
structure Fresh (s : Cluster) (content : ℕ → ℕ) : Prop extends Base s content where
  quiet : s.chunk.operation = .none → ∀ p ∈ s.chunk.parts, p.isBusy = false
  settled : s.chunk.operation = .none → s.chunk.needverincrease = false → s.chunk.interrupted = false
  counted : s.chunk.Tight → ∀ csid type k, s.disk csid type = some k → k.version = s.chunk.version →
    s.chunk.Counted csid type
  ordered : s.chunk.Tight → ∀ c ∈ s.commands, c.order.target = some s.chunk.version →
    c.order.isOp = true ∧ s.chunk.BusyAt c.csid c.type
  idle : ∀ g, s.grant = some g → s.chunk.operation = .none
  granted : ∀ g, s.grant = some g → s.chunk.isLocked s.now = true →
    g.version = s.chunk.version ∧
      (∀ csid type k, s.disk csid type = some k → k.version = s.chunk.version → (csid, type) ∈ g.places) ∧
      ∀ c ∈ s.commands, c.order.target ≠ some s.chunk.version

/-! ## A chunk changes without a new version -/

/-- what a calm change leaves alone whatever it does to the parts -/
structure Chunk.SameOperation (c c' : Chunk) : Prop where
  version : c'.version = c.version
  operation : c'.operation = c.operation
  interrupted : c'.interrupted = c.interrupted
  needverincrease : c'.needverincrease = false → c.needverincrease = false
  locked : ∀ now, c'.isLocked now = true → c.isLocked now = true

theorem Chunk.SameOperation.refl : c.SameOperation c := ⟨rfl, rfl, rfl, id, fun _ => id⟩

/-- nothing about the operation changes, no part becomes busy or stops being so, and a valid part is given up only
together with a pending version increase -/
structure Chunk.Calm (c c' : Chunk) : Prop extends c.SameOperation c' where
  busy : ∀ csid type, c.BusyAt csid type → c'.BusyAt csid type
  idle : (∀ p ∈ c.parts, p.isBusy = false) → ∀ p ∈ c'.parts, p.isBusy = false
  counted : c'.Tight → ∀ csid type, c.Counted csid type → c'.Counted csid type
  places : c.validPlaces.Nodup → c'.validPlaces.Nodup

variable {c' : Chunk}

theorem Chunk.Calm.tight (h : c.Calm c') (ht : c'.Tight) : c.Tight :=
  ⟨h.interrupted ▸ ht.1, ht.2.imp (h.operation ▸ ·) h.needverincrease⟩

variable {r : Chunk × List Effect}

theorem absorb_grant (hd : r.2.any isDone = false)
    (ho : r.1.operation = s.chunk.operation) (hi : ∀ g, s.grant = some g → s.chunk.operation = .none) :
    (s.absorb r).grant = s.grant := by
  simp only [absorb, hd, Bool.false_eq_true, if_false, ho]
  split_ifs with h
  · rfl
  · cases hg : s.grant with
    | none => rfl
    | some g => exact absurd (hi g hg) h

theorem absorb_grant_none (hd : r.2.any isDone = false) (hg : s.grant = none) : (s.absorb r).grant = none := by
  simp [absorb, hd, hg]

/-- commands that a calm change may send: deletions, and replications while a version increase is due -/
def Command.Modest (version : ℕ) (settled : Prop) (c : Command) : Prop :=
  c.order = .delete ∨ ((∃ sources, c.order = .replicate version sources) ∧ settled)

theorem Command.Modest.not_concerns {version : ℕ} {settled : Prop} {c : Command} (h : c.Modest version settled) :
    c.concerns csid type v = false := by
  rcases h with h | ⟨⟨sources, h⟩, -⟩ <;> simp [concerns, h, Order.isOp]

/-- an order of the operation in progress, or the answer to one, is under way for this place -/
def Cluster.Awaits (s : Cluster) (csid : ℕ) (type : ChunkPartType) : Prop :=
  (∃ c ∈ s.commands, c.concerns csid type s.chunk.version = true) ∨ ∃ m ∈ s.inbox, m.answers csid type = true

theorem Base.withChunk (h : Base s content) (hv : c'.version = s.chunk.version) (hp : c'.validPlaces.Nodup)
    (hb : ∀ csid type, s.connected csid → s.Awaits csid type → s.chunk.BusyAt csid type → c'.BusyAt csid type) :
    Base { s with chunk := c' } content where
  last := by
    rw [← h.last, ← hv]
  copies := by
    intro csid type k hk
    simp only [hv]
    exact h.copies csid type k hk
  orders := by
    intro c hc
    simp only [hv]
    exact h.orders c hc
  places := hp
  count := by
    intro csid type
    simp only [hv]
    exact h.count csid type
  live := by
    intro c hc hl ho
    obtain ⟨h1, h2, h3⟩ := h.live c hc hl ho
    have haw : s.Awaits c.csid c.type := .inl ⟨c, hc, by simp [concerns, ho, h3]⟩
    exact ⟨h1, hb _ _ h1 haw h2, h3.trans (congrArg some hv.symm)⟩
  answers := by
    intro m hm ha
    obtain ⟨h1, h2⟩ := h.answers m hm ha
    exact ⟨h1, hb _ _ h1 (.inr ⟨m, hm, ha⟩) h2⟩

theorem Base.absorb (h : Base { s with chunk := r.1 } content)
    (hn : ∀ c ∈ r.2.filterMap (command s.last), c.Modest r.1.version True) : Base (s.absorb r) content := by
  have hcm : ∀ c ∈ (s.absorb r).commands, c ∈ s.commands ∨ c.Modest r.1.version True :=
    fun c hm => (mem_append.1 hm).imp id (hn c)
  refine { last := h.last, copies := h.copies, orders := ?_, places := h.places, count := ?_, live := ?_,
           answers := h.answers }
  · intro c hm
    rcases hcm c hm with hold | ho | ⟨⟨sources, ho⟩, -⟩
    · exact h.orders c hold
    · simp [ho, Order.Agrees, Order.target]
    · simp [ho, Order.Agrees, Order.target, Cluster.absorb]
  · intro csid type
    have hz : (r.2.filterMap (command s.last)).countP (Command.concerns csid type r.1.version) = 0 :=
      countP_eq_zero.2 fun c hm => by simp [(hn c hm).not_concerns]
    change (s.commands ++ _).countP (Command.concerns csid type r.1.version) + _ ≤ 1
    rw [countP_append, hz, add_zero]
    exact h.count csid type
  · intro c hm hli hop
    rcases hcm c hm with hold | ho | ⟨⟨sources, ho⟩, -⟩
    · exact h.live c hold hli hop
    · simp [ho, Order.isOp] at hop
    · simp [ho, Order.isOp] at hop

theorem Fresh.calm (h : Fresh s content) (hc : s.chunk.Calm r.1) (hd : r.2.any isDone = false)
    (hn : ∀ c ∈ r.2.filterMap (command s.last),
      c.Modest s.chunk.version (¬ r.1.Tight ∧ r.1.isLocked s.now = false)) : Fresh (s.absorb r) content := by
  have hgr := absorb_grant hd hc.operation h.idle
  rw [← hc.version] at hn
  have hcm : ∀ c ∈ (s.absorb r).commands, c ∈ s.commands ∨
      c.Modest r.1.version (¬ r.1.Tight ∧ r.1.isLocked s.now = false) := by
    intro c hm
    exact (mem_append.1 hm).imp id (hn c)
  have hba := (h.toBase.withChunk hc.version (hc.places h.places) fun csid type _ _ => hc.busy csid type).absorb
    fun c hm => (hn c hm).imp_right fun h => ⟨h.1, trivial⟩
  refine { hba with quiet := ?_, settled := ?_, counted := ?_, ordered := ?_, idle := ?_, granted := ?_ }
  · intro hop
    exact hc.idle (h.quiet (hc.operation ▸ hop))
  · intro hop hne
    change r.1.interrupted = false
    rw [hc.interrupted]
    exact h.settled (hc.operation ▸ hop) (hc.needverincrease hne)
  · intro ht csid type k hk hv
    exact hc.counted ht csid type (h.counted (hc.tight ht) csid type k hk (hv.trans hc.version))
  · intro ht c hm hta
    rcases hcm c hm with hold | ho | ⟨-, hnt, -⟩
    · obtain ⟨h1, h2⟩ := h.ordered (hc.tight ht) c hold (hta.trans (congrArg some hc.version))
      exact ⟨h1, hc.busy _ _ h2⟩
    · simp [ho, Order.target] at hta
    · exact absurd ht hnt
  · intro g hg
    rw [hgr] at hg
    exact hc.operation.trans (h.idle g hg)
  · intro g hg hl
    rw [hgr] at hg
    obtain ⟨h1, h2, h3⟩ := h.granted g hg (hc.locked s.now hl)
    rw [← hc.version] at h1 h2 h3
    refine ⟨h1, h2, fun c hm => ?_⟩
    rcases hcm c hm with hold | ho | ⟨-, -, hu⟩
    · exact h3 c hold
    · simp [ho, Order.target]
    · exact absurd (hl.symm.trans hu) (by decide)

/-- while an operation is in progress, only the places of copies and orders are left to show -/
theorem Base.operating (h : Base s content) (ho : s.chunk.operation ≠ .none) (hg : s.grant = none)
    (hc : s.chunk.Tight → ∀ csid type k, s.disk csid type = some k → k.version = s.chunk.version →
      s.chunk.Counted csid type) (hor : s.chunk.Tight → ∀ c ∈ s.commands, c.order.target = some s.chunk.version →
      c.order.isOp = true ∧ s.chunk.BusyAt c.csid c.type) : Fresh s content :=
  { h with
    quiet := fun hn => absurd hn ho, settled := fun hn => absurd hn ho, counted := hc, ordered := hor
    idle := by simp [hg], granted := by simp [hg] }

/-! ## An operation starts -/

theorem Chunk.busyAt_begin {parts : List ChunkPart} (hpa : parts = c.parts.map (begin v)) (h : c.Counted csid type) :
    ∃ p ∈ parts, p.place = (csid, type) ∧ p.isBusy := by
  obtain ⟨p, hp, hpl, hv⟩ := h
  exact ⟨p.begin v, hpa ▸ mem_map_of_mem hp, (place_begin v p).trans hpl, isBusy_begin hv⟩

theorem countP_sent_le (h : c.validPlaces.Nodup) {order : Order} :
    ((c.parts.filter isValid).map fun p => (⟨p.csid, p.type, order, true⟩ : Command)).countP
      (concerns csid type v) ≤ 1 := by
  calc ((c.parts.filter isValid).map fun p => (⟨p.csid, p.type, order, true⟩ : Command)).countP
        (concerns csid type v)
      ≤ c.validPlaces.countP (· == (csid, type)) := by
        unfold Chunk.validPlaces
        rw [countP_map, countP_map]
        refine countP_mono_left fun p _ hp => ?_
        simp only [comp_apply, concerns, Bool.and_eq_true, beq_iff_eq] at hp
        simp [place, hp.1.1.1, hp.1.1.2]
    _ = c.validPlaces.count (csid, type) := rfl
    _ ≤ 1 := nodup_iff_count_le_one.1 h _

section Start

variable {s s' : Cluster} {content content' : ℕ → ℕ} {order : Order}

/-- the start of an operation: the version goes up by one, and every valid part gets an order for it -/
structure Started (s s' : Cluster) (order : Order) : Prop where
  parts : s'.chunk.parts = s.chunk.parts.map (begin (s.chunk.version + 1))
  version : s'.chunk.version = s.chunk.version + 1
  operation : s'.chunk.operation ≠ .none
  interrupted : s'.chunk.interrupted = false
  connected : s'.connected = s.connected
  disk : s'.disk = s.disk
  inbox : s'.inbox = s.inbox
  grant : s'.grant = none
  commands : s'.commands = s.commands ++
    (s.chunk.parts.filter isValid).map fun p => ⟨p.csid, p.type, order, true⟩
  isOp : order.isOp = true
  target : order.target = some (s.chunk.version + 1)

theorem Started.mem (hs : Started s s' order) {c : Command} (hc : c ∈ s'.commands) :
    c ∈ s.commands ∨ c.order = order ∧ c.live ∧ s.chunk.Counted c.csid c.type := by
  rw [hs.commands] at hc
  refine (mem_append.1 hc).imp id fun hc => ?_
  obtain ⟨p, hp, rfl⟩ := mem_map.1 hc
  exact ⟨rfl, rfl, p, (mem_filter.1 hp).1, rfl, (mem_filter.1 hp).2⟩

theorem Base.no_answers (h : Base s content) (hq : ∀ p ∈ s.chunk.parts, p.isBusy = false) (csid : ℕ)
    (type : ChunkPartType) : s.inbox.countP (Message.answers csid type) = 0 := by
  rw [countP_eq_zero]
  intro m hm ha
  have hs : Message.answers m.csid m.type m := by
    simp only [Message.answers, Bool.and_eq_true, beq_iff_eq] at ha ⊢
    exact ⟨⟨trivial, trivial⟩, ha.2⟩
  exact (h.answers m hm hs).2.not_quiet hq

/-- **Start.** With no part busy and all parts connected, a new version starts fresh: no copy or order has it yet
except the orders just sent. -/
theorem Base.start (h : Base s content) (hs : Started s s' order) (hq : ∀ p ∈ s.chunk.parts, p.isBusy = false)
    (hconn : ∀ p ∈ s.chunk.parts, s.connected p.csid) (hcont : ∀ u, u ≤ s.chunk.version → content' u = content u)
    (hla : content' (s.chunk.version + 1) = s'.last) (hag : order.Agrees content') : Fresh s' content' := by
  have hbu : ∀ csid type, s.chunk.Counted csid type → s'.chunk.BusyAt csid type :=
    fun csid type hc => Chunk.busyAt_begin hs.parts hc
  have hold : ∀ c ∈ s.commands, c.order.target ≠ some (s.chunk.version + 1) := by
    intro c hc ht
    have hl := (h.orders c hc).2 _ ht
    omega
  have hcop : ∀ csid type k, s'.disk csid type = some k → k.version ≤ s.chunk.version ∧
    content' k.version = k.stamp := by
    intro csid type k hk
    rw [hs.disk] at hk
    obtain ⟨hl, he⟩ := h.copies csid type k hk
    exact ⟨hl, (hcont _ hl).trans he⟩
  refine Base.operating ⟨?_, ?_, ?_, ?_, ?_, ?_, ?_⟩ hs.operation hs.grant ?_ ?_
  · rw [hs.version]
    exact hla
  · intro csid type k hk
    rw [hs.version]
    exact ⟨(hcop csid type k hk).1.trans (le_succ _), (hcop csid type k hk).2⟩
  · intro c hc
    rw [hs.version]
    rcases hs.mem hc with hc | ⟨ho, -, -⟩
    · obtain ⟨ha, ht⟩ := h.orders c hc
      exact ⟨ha.congr (fun v hv => lt_succ_of_le (ht v hv)) fun u hu => hcont u (le_of_lt_succ hu),
        fun v hv => (ht v hv).trans (le_succ _)⟩
    · rw [ho, hs.target]
      exact ⟨hag, fun v hv => (Option.mem_some_iff.1 hv).ge⟩
  · exact Chunk.validPlaces_map hs.parts (place_begin _) (fun p hp => by simpa using hp) h.places
  · intro csid type
    have hze : s.commands.countP (concerns csid type (s.chunk.version + 1)) = 0 := by
      refine countP_eq_zero.2 fun c hc hcon => ?_
      simp only [concerns, Bool.and_eq_true, beq_iff_eq] at hcon
      exact hold c hc hcon.2
    rw [hs.commands, countP_append, hs.version, hze, hs.inbox, h.no_answers hq, zero_add, add_zero]
    exact countP_sent_le h.places
  · intro c hc hli hop
    rw [hs.connected, hs.version]
    rcases hs.mem hc with hc | ⟨ho, -, hco⟩
    · -- a live order of the operation before would have a busy part
      exact ((h.live c hc hli hop).2.1.not_quiet hq).elim
    · obtain ⟨p, hp, hpl, -⟩ := id hco
      have hcs : p.csid = c.csid := congrArg Prod.fst hpl
      exact ⟨hcs ▸ hconn p hp, hbu _ _ hco, ho ▸ hs.target⟩
  · intro m hm han
    rw [hs.inbox] at hm
    have hz := h.no_answers hq m.csid m.type
    exact absurd han (countP_eq_zero.1 hz m hm)
  · intro _ csid type k hk hv
    have hl := (hcop csid type k hk).1
    rw [hs.version] at hv
    omega
  · intro _ c hc ht
    rw [hs.version] at ht
    rcases hs.mem hc with hc | ⟨ho, -, hco⟩
    · exact absurd ht (hold c hc)
    · exact ⟨ho ▸ hs.isOp, hbu _ _ hco⟩

theorem u32_eq {n : ℕ} (h : n < 2 ^ 32) : u32 n = n := mod_eq_of_lt h

variable {stamp chunkid version oldVersion : ℕ} {parts : List ChunkPart} {c' : Chunk}

theorem command_setVersion : (parts.map fun p => setChunkVersion p.csid chunkid version oldVersion p.type).filterMap
        (command stamp) =
      parts.map fun p => ⟨p.csid, p.type, .setVersion version oldVersion, true⟩ := by
  rw [filterMap_map, ← filterMap_eq_map]
  rfl

theorem command_truncate {length : ℕ} :
    (parts.map fun p => truncateChunk p.csid chunkid p.type length version oldVersion).filterMap
        (command stamp) =
      parts.map fun p => ⟨p.csid, p.type, .truncate version oldVersion stamp, true⟩ := by
  rw [filterMap_map, ← filterMap_eq_map]
  rfl

theorem not_done_of_map {message : ChunkPart → Effect}
    (h : ∀ p, (message p).isDone = false) : (parts.map message).any isDone = false := by
  simp [any_eq_false, h]

/-- the chunk after the start of an operation, up to its lock -/
structure Chunk.SetOff (c c' : Chunk) (operation : Operation) : Prop where
  parts : c'.parts = c.parts.map (begin (u32 (c.version + 1)))
  version : c'.version = u32 (c.version + 1)
  operation : c'.operation = operation
  interrupted : c'.interrupted = false

variable {effects : List Effect}

theorem Chunk.SetOff.started {operation : Operation} (hc : s.chunk.SetOff c' operation)
    (ho : operation ≠ .none) (hv : s.chunk.version + 1 < 2 ^ 32) (hd : effects.any isDone = false)
    (he : effects.filterMap (command s.last) =
      (s.chunk.parts.filter isValid).map fun p => ⟨p.csid, p.type, order, true⟩)
    (hi : order.isOp) (ht : order.target = some (s.chunk.version + 1)) : Started s (s.absorb (c', effects)) order where
  parts := by
    have hp := hc.parts
    rw [u32_eq hv] at hp
    exact hp
  version := hc.version.trans (u32_eq hv)
  operation := by
    change c'.operation ≠ .none
    rw [hc.operation]
    exact ho
  interrupted := hc.interrupted
  connected := rfl
  disk := rfl
  inbox := rfl
  grant := by simp [absorb, hd, hc.operation, ho]
  commands := by
    simp only [absorb, he]
  isOp := hi
  target := ht

theorem Base.setVersion (h : Base s content) (hq : ∀ p ∈ s.chunk.parts, p.isBusy = false)
    (hco : ∀ p ∈ s.chunk.parts, s.connected p.csid) (hv : s.chunk.version + 1 < 2 ^ 32)
    (hc : s.chunk.SetOff c' .setVersion) (hd : effects.any isDone = false)
    (he : effects.filterMap (command s.last) = (s.chunk.parts.filter isValid).map fun p =>
      ⟨p.csid, p.type, .setVersion (s.chunk.version + 1) s.chunk.version, true⟩) :
    ∃ content', Fresh (s.absorb (c', effects)) content' := by
  refine ⟨Function.update content (s.chunk.version + 1) (content s.chunk.version),
    h.start (hc.started (by decide) hv hd he rfl rfl) hq hco (fun u hu => ?_) ?_ ⟨Nat.lt_succ_self _, ?_⟩⟩
  · exact update_of_ne (by omega) _ _
  · rw [update_self]
    exact h.last
  · rw [update_self, update_of_ne (Nat.ne_of_lt (Nat.lt_succ_self _))]

theorem Base.emergency (h : Base s content) (hq : ∀ p ∈ s.chunk.parts, p.isBusy = false)
    (hc : ∀ p ∈ s.chunk.parts, s.connected p.csid) (hv : s.chunk.version + 1 < 2 ^ 32) :
    ∃ content', Fresh (s.absorb s.chunk.emergencyIncreaseVersion) content' := by
  refine h.setVersion hq hc hv ⟨rfl, rfl, rfl, rfl⟩ ?_ ?_
  · rw [any_append, Chunk.startSetVersion, Chunk.startOperation, not_done_of_map fun p => rfl]
    rfl
  · rw [filterMap_append, Chunk.startSetVersion, Chunk.startOperation]
    rw [command_setVersion, u32_eq hv]
    exact append_nil _

end Start

/-! ## The chunk is found -/

section Visit

variable {s : Cluster} {content : ℕ → ℕ}

theorem Base.fresh (h : Base s content) (ht : ¬ s.chunk.Tight) (hgr : s.grant = none)
    (hq : s.chunk.operation = .none → ∀ p ∈ s.chunk.parts, p.isBusy = false)
    (hn : s.chunk.operation = .none → s.chunk.needverincrease) : Fresh s content where
  toBase := h
  quiet := hq
  settled := by
    intro ho hf
    rw [hn ho] at hf
    cases hf
  counted := fun hti => absurd hti ht
  ordered := fun hti => absurd hti ht
  idle := by simp [hgr]
  granted := by simp [hgr]

theorem Fresh.grant_none (h : Fresh s content) (ho : s.chunk.operation ≠ .none) : s.grant = none := by
  cases hg : s.grant with
  | none => rfl
  | some g => exact absurd (h.idle g hg) ho

theorem Chunk.Calm.refl (c : Chunk) : c.Calm c := ⟨.refl, fun _ _ => id, id, fun _ _ _ => id, id⟩

theorem Base.dropped (h : Base s content) (hv : c'.version = s.chunk.version)
    (hpa : c'.parts = s.chunk.parts.filter fun p => s.connected p.csid) : Base { s with chunk := c' } content := by
  refine h.withChunk hv ?_ ?_
  · refine h.places.sublist (List.Sublist.map _ ?_)
    rw [hpa]
    exact List.Sublist.filter _ filter_sublist
  · intro csid type hc _ ⟨p, hp, hpl, hb⟩
    have hcs : p.csid = csid := congrArg Prod.fst hpl
    exact ⟨p, hpa ▸ mem_filter.2 ⟨hp, hcs ▸ hc⟩, hpl, hb⟩

theorem Fresh.visit (h : Fresh s content) (hv : s.chunk.version + 1 < 2 ^ 32) : ∃ content', Fresh s.visit content' := by
  unfold Cluster.visit Chunk.handleDisconnectedCopies
  split_ifs with ha
  · exact ⟨content, h.calm (Chunk.Calm.refl _) rfl (by simp)⟩
  extract_lets d
  have hd : Base { s with chunk := d } content := h.dropped rfl rfl
  split_ifs with ho hbu hw
  · refine ⟨content, h.calm (r := (d, [])) ?_ rfl (by simp)⟩
    -- no part is busy, and the lost parts come with a pending version increase
    have hq := h.quiet ho
    have hs : ∀ p ∈ d.parts, p ∈ s.chunk.parts := fun p hp => (mem_filter.1 hp).1
    refine ⟨⟨rfl, rfl, rfl, fun hf => (by cases hf), fun _ => id⟩, ?_, fun _ p hp => hq p (hs p hp), ?_,
      fun _ => hd.places⟩
    · exact fun csid type hb => (hb.not_quiet hq).elim
    · intro ht
      exact absurd ht.2 (by rw [not_or]; exact ⟨not_not.2 ho, by simp [d]⟩)
  · refine ⟨content, Base.fresh (Base.absorb ?_ nofun) ?_ ?_ (fun hn => absurd hn ho) (fun hn => absurd hn ho)⟩
    · exact h.dropped rfl rfl
    · intro ht
      exact absurd ht.1 (by simp [absorb])
    · exact absorb_grant_none rfl (h.grant_none ho)
  · refine hd.emergency ?_ ?_ hv
    · intro p hp
      by_contra hb
      exact hbu (any_eq_true.2 ⟨p, hp, by simpa using hb⟩)
    · exact fun p hp => (mem_filter.1 hp).2
  · have hg : s.grant = none := h.grant_none ho
    refine ⟨content, Base.fresh (Base.absorb ?_ nofun) ?_ ?_ ?_ (fun _ => rfl)⟩
    · exact h.dropped rfl rfl
    · intro ht
      exact absurd ht.2 (by rw [not_or]; exact ⟨not_not.2 rfl, by simp [absorb, d]⟩)
    · exact absorb_grant_none rfl hg
    · intro _ p hp
      by_contra hb
      exact hbu (any_eq_true.2 ⟨p, hp, by simpa using hb⟩)

theorem visit_connected (s : Cluster) : ∀ p ∈ s.visit.chunk.parts, s.connected p.csid := by
  unfold visit Chunk.handleDisconnectedCopies
  split_ifs with ha
  · exact fun p hp => all_eq_true.1 ha p hp
  extract_lets d
  have hd : ∀ p ∈ d.parts, s.connected p.csid := fun p hp => (mem_filter.1 hp).2
  split_ifs
  · exact hd
  · exact hd
  · intro p hp
    obtain ⟨q, hq, rfl⟩ := mem_map.1 hp
    have hpl := place_begin (u32 (d.version + 1)) q
    have hc : (q.begin (u32 (d.version + 1))).csid = q.csid := congrArg Prod.fst hpl
    rw [hc]
    exact hd q hq
  · exact hd

end Visit

/-! ## An answer arrives -/

namespace Chunk

variable {c : Chunk} {csid : ℕ} {type : ChunkPartType}

theorem recordStatus_failed (h : c.lists csid type) : c.recordStatus csid type true = updateStats
      { c with parts := c.parts.map fun p => if p.isAt csid type then p.invalidate else p, interrupted := true } := by
  simp [recordStatus, h]

theorem recordStatus_done (h : c.lists csid type) : c.recordStatus csid type false = { c with
        parts := c.parts.map fun p => if p.isAt csid type then { p with state := p.state.unmarkBusy } else p } := by
  simp [recordStatus, h]

variable {failed : Bool}

theorem recordStatus_version : (c.recordStatus csid type failed).version = c.version := by
  unfold recordStatus
  split_ifs <;> rfl

theorem recordStatus_operation : (c.recordStatus csid type failed).operation = c.operation := by
  unfold recordStatus
  split_ifs <;> rfl

theorem recordStatus_needverincrease : (c.recordStatus csid type failed).needverincrease = c.needverincrease := by
  unfold recordStatus
  split_ifs <;> rfl

theorem recordStatus_parts (h : c.lists csid type) :
    ∃ f : ChunkPart → ChunkPart, (c.recordStatus csid type failed).parts = c.parts.map f ∧
      (∀ p, (f p).place = p.place) ∧ (∀ p, (f p).isValid → p.isValid) ∧
      (∀ p, p.place ≠ (csid, type) → f p = p) ∧ (failed = false → ∀ p, (f p).isValid = p.isValid) := by
  have ha : ∀ p : ChunkPart, p.place ≠ (csid, type) → p.isAt csid type = false := by
    intro p hp
    by_contra hc
    rw [Bool.not_eq_false, isAt_iff] at hc
    exact hp (Prod.ext hc.1 hc.2)
  cases failed with
  | true =>
    refine ⟨_, congrArg Chunk.parts (recordStatus_failed h), ?_, ?_, ?_, fun hf => by cases hf⟩
    · intro p
      split_ifs <;> rfl
    · intro p hv
      split_ifs at hv
      · cases hv
      · exact hv
    · intro p hp
      rw [ha p hp]
      rfl
  | false =>
    have hva : ∀ p : ChunkPart,
        (if p.isAt csid type then { p with state := p.state.unmarkBusy } else p).isValid = p.isValid := by
      intro p
      split_ifs
      · exact PartState.isValid_unmarkBusy p.state
      · rfl
    refine ⟨_, congrArg Chunk.parts (recordStatus_done h), ?_, fun p hv => (hva p) ▸ hv, ?_, fun _ => hva⟩
    · intro p
      split_ifs <;> rfl
    · intro p hp
      rw [ha p hp]
      rfl

end Chunk

section Answer

variable {s : Cluster} {content : ℕ → ℕ} {csid : ℕ} {type : ChunkPartType}

/-- the answer of this place has been taken from the inbox: the part is busy, and nothing else is under way for it -/
structure Owed (s : Cluster) (csid : ℕ) (type : ChunkPartType) : Prop where
  connected : s.connected csid = true
  busy : s.chunk.BusyAt csid type
  last : ¬ s.Awaits csid type

theorem Base.record (h : Base s content) (ho : Owed s csid type) (failed : Bool) :
    Base { s with chunk := s.chunk.recordStatus csid type failed } content := by
  obtain ⟨f, hpa, hpl, hv, hot, -⟩ := Chunk.recordStatus_parts ho.busy.counted.lists
  refine h.withChunk Chunk.recordStatus_version (Chunk.validPlaces_map hpa hpl hv h.places) ?_
  intro cs t _ ha hbu
  refine hbu.map hpa hpl fun p _ hp hb => ?_
  have hn : p.place ≠ (csid, type) := by
    rw [hp]
    intro he
    obtain ⟨rfl, rfl⟩ := Prod.mk.inj he
    exact ho.last ha
  rw [hot p hn]
  exact hb

theorem Fresh.done {c' : Chunk} (h : Base { s with chunk := c' } content) (ht : c'.interrupted = false)
    (hq : ∀ p ∈ c'.parts, p.isBusy = false)
    (hco : ∀ csid type k, s.disk csid type = some k → k.version = c'.version → c'.Counted csid type)
    (ho : ∀ c ∈ s.commands, c.order.target = some c'.version → c'.BusyAt c.csid c.type) :
    Fresh (s.absorb ({ c' with operation := .none, needverincrease := false }, [.chunkStatus c'.chunkid .ok]))
      content := by
  have hba : Base { s with chunk := { c' with operation := .none, needverincrease := false } } content :=
    ⟨h.last, h.copies, h.orders, h.places, h.count, h.live, h.answers⟩
  have hn : ∀ c ∈ s.commands, c.order.target ≠ some c'.version := fun c hc hta => (ho c hc hta).not_quiet hq
  have hcm : ∀ c ∈ (s.absorb ({ c' with operation := .none, needverincrease := false },
      [.chunkStatus c'.chunkid .ok])).commands, c ∈ s.commands := by
    intro c hc
    simpa [absorb, command] using hc
  exact
    { toBase := Base.absorb hba nofun
      quiet := fun _ => hq
      settled := fun _ _ => ht
      counted := fun _ => hco
      ordered := fun _ c hc hta => absurd hta (hn c (hcm c hc))
      idle := fun _ _ => rfl
      granted := by
        intro g hg _
        simp only [absorb, any_cons, isDone, Bool.true_or, if_true, Option.some.injEq] at hg
        subst hg
        refine ⟨rfl, fun cs t k hk hv => ?_, fun c hc => hn c (hcm c hc)⟩
        exact Chunk.counted_iff.1 (hco cs t k hk hv) }

section

variable (h : Fresh s content)
include h

theorem Fresh.busy_operation (hb : s.chunk.BusyAt csid type) : s.chunk.operation ≠ .none :=
  fun ho => hb.not_quiet (h.quiet ho)

theorem Fresh.record (ho : Owed s csid type) (failed : Bool) :
    Fresh (s.absorb (s.chunk.recordStatus csid type failed, [])) content := by
  have hop := h.busy_operation ho.busy
  have hop' : (s.chunk.recordStatus csid type failed).operation ≠ .none := by
    rw [Chunk.recordStatus_operation]
    exact hop
  have hgr : (s.absorb (s.chunk.recordStatus csid type failed, [])).grant = none :=
    absorb_grant_none rfl (h.grant_none hop)
  have hba := Base.absorb (r := (s.chunk.recordStatus csid type failed, [])) (h.toBase.record ho failed) nofun
  cases failed with
  | true =>
    refine hba.fresh (fun ht => ?_) hgr (fun hn => absurd hn hop') (fun hn => absurd hn hop')
    have hin : (s.chunk.recordStatus csid type true).interrupted := by
      rw [Chunk.recordStatus_failed ho.busy.counted.lists]
      rfl
    exact absurd (hin.symm.trans ht.1) (by decide)
  | false =>
    have hl := ho.busy.counted.lists
    obtain ⟨f, hpa, hpl, -, hot, hs⟩ := Chunk.recordStatus_parts hl
    have ht : (s.chunk.recordStatus csid type false).Tight → s.chunk.Tight := by
      rw [Chunk.recordStatus_done hl]
      exact id
    have hcm : (s.absorb (s.chunk.recordStatus csid type false, [])).commands = s.commands := append_nil _
    refine hba.operating hop' hgr ?_ ?_
    · intro hti cs t k hk hve
      rw [show (s.absorb (s.chunk.recordStatus csid type false, [])).chunk.version = s.chunk.version from
        Chunk.recordStatus_version] at hve
      exact (h.counted (ht hti) cs t k hk hve).map hpa hpl fun p _ _ hv => (hs rfl p).trans hv
    · intro hti c hc hta
      rw [hcm] at hc
      rw [show (s.absorb (s.chunk.recordStatus csid type false, [])).chunk.version = s.chunk.version from
        Chunk.recordStatus_version] at hta
      obtain ⟨hi, hbu⟩ := h.ordered (ht hti) c hc hta
      refine ⟨hi, hbu.map hpa hpl fun p _ hp hb => ?_⟩
      have hne : p.place ≠ (csid, type) := by
        rw [hp]
        intro he
        obtain ⟨hcs, hty⟩ := Prod.mk.inj he
        exact ho.last (.inl ⟨c, hc, by simp [concerns, hcs, hty, hi, hta]⟩)
      rw [hot p hne]
      exact hb

theorem Fresh.status (ho : Owed s csid type)
    (hco : ∀ p ∈ s.chunk.parts, s.connected p.csid) (hv : s.chunk.version + 1 < 2 ^ 32) (failed : Bool)
    (he : s.chunk.needverincrease ∨ (s.chunk.recordStatus csid type failed).parts.any isBusy ∨
      (s.chunk.recordStatus csid type failed).isWritable) :
    ∃ content', Fresh (s.absorb (s.chunk.operationStatus csid type failed)) content' := by
  have hr := h.record ho failed
  have hba := h.toBase.record ho failed
  have hop := h.busy_operation ho.busy
  unfold Chunk.operationStatus Chunk.finishOperation
  extract_lets c'
  split_ifs with hbu hw hi
  · exact ⟨content, hr⟩
  all_goals
    have hq : ∀ p ∈ c'.parts, p.isBusy = false := by
      intro p hp
      by_contra hb
      exact hbu (any_eq_true.2 ⟨p, hp, by simpa using hb⟩)
  · refine hba.emergency hq ?_ (by rw [Chunk.recordStatus_version]; exact hv)
    obtain ⟨f, hpa, hpl, -⟩ := Chunk.recordStatus_parts ho.busy.counted.lists
    intro p hp
    rw [hpa] at hp
    obtain ⟨q, hq', rfl⟩ := mem_map.1 hp
    have hcs : (f q).csid = q.csid := congrArg Prod.fst (hpl q)
    rw [hcs]
    exact hco q hq'
  · have hi' : c'.interrupted = false := by simpa using hi
    have hti : c'.Tight := ⟨hi', .inl (by rw [Chunk.recordStatus_operation]; exact hop)⟩
    refine ⟨content, Fresh.done hba hi' hq (fun cs t k hk hve => hr.counted hti cs t k hk hve) ?_⟩
    exact fun c hc hta => (hr.ordered hti c (mem_append_left _ hc) hta).2
  · -- the operation is given up; the version increase is still due
    have hn : c'.needverincrease := by
      rw [Chunk.recordStatus_needverincrease]
      exact he.resolve_right (not_or.2 ⟨hbu, hw⟩)
    have hb : Base { s with chunk := { c' with operation := .none } } content :=
      ⟨hba.last, hba.copies, hba.orders, hba.places, hba.count, hba.live, hba.answers⟩
    refine ⟨content, Base.fresh (Base.absorb hb nofun) ?_ (absorb_grant_none rfl (h.grant_none hop)) (fun _ => hq)
      (fun _ => hn)⟩
    intro ht
    rcases ht.2 with hne | hf
    · exact hne rfl
    · exact absurd (hn.symm.trans hf) (by decide)

/-! ### Messages leave the inbox -/

theorem Fresh.take (i : ℕ) : Fresh { s with inbox := s.inbox.eraseIdx i } content := by
  have hs := eraseIdx_sublist (l := s.inbox) (k := i)
  refine { h with count := fun cs t => ?_, answers := fun m hm ha => h.answers m (hs.subset hm) ha }
  exact (Nat.add_le_add_left hs.countP_le _).trans (h.count cs t)

theorem Fresh.owed {i : ℕ} {m : Message} (hm : s.inbox[i]? = some m) {failed : Bool}
    (hr : m.report = .status failed) : Owed { s with inbox := s.inbox.eraseIdx i } m.csid m.type := by
  obtain ⟨hi, hg⟩ := List.getElem?_eq_some_iff.1 hm
  have ha : m.answers m.csid m.type := by simp [answers, hr]
  have hme : m ∈ s.inbox := hg ▸ getElem_mem hi
  obtain ⟨hconn, hb⟩ := h.answers m hme ha
  have hpe : (m :: s.inbox.eraseIdx i).Perm s.inbox := by
    have hp := getElem_cons_eraseIdx_perm hi
    rwa [hg] at hp
  have hco := h.count m.csid m.type
  rw [← hpe.countP_eq, countP_cons_of_pos ha] at hco
  refine ⟨hconn, hb, ?_⟩
  intro haw
  rcases haw with ⟨c, hc, hcon⟩ | ⟨m', hm', ha'⟩
  · have hpo := countP_pos_iff.2 ⟨c, hc, hcon⟩
    change 0 < s.commands.countP (concerns m.csid m.type s.chunk.version) at hpo
    omega
  · have hpo := countP_pos_iff.2 ⟨m', hm', ha'⟩
    change 0 < (s.inbox.eraseIdx i).countP (answers m.csid m.type) at hpo
    omega

end

theorem Owed.visit (h : Fresh s content) (ho : Owed s csid type) : Owed s.visit csid type := by
  obtain ⟨p, hp, hpl, hb⟩ := id ho.busy
  have hc : p.csid = csid := congrArg Prod.fst hpl
  have hop := h.busy_operation ho.busy
  unfold Cluster.visit Chunk.handleDisconnectedCopies
  split_ifs with hal
  · exact ⟨ho.connected, ho.busy, fun haw => ho.last (haw.imp (by simp [absorb]) id)⟩
  extract_lets d
  have hm : p ∈ d.parts := mem_filter.2 ⟨hp, by rw [hc]; exact ho.connected⟩
  split_ifs with hn ha
  · exact absurd hn hop
  · exact ⟨ho.connected, ⟨p, hm, hpl, hb⟩, fun haw => ho.last (haw.imp (by simp [absorb, d]) id)⟩
  · exact absurd (any_eq_true.2 ⟨p, hm, hb⟩) ha
  · exact absurd (any_eq_true.2 ⟨p, hm, hb⟩) ha

end Answer

end SaunaFS.Chunks
