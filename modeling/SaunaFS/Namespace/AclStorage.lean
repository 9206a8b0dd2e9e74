/-
The shared storage of access control lists (`master/acl_storage.h`, `master/acl_storage.cc`). Equal lists are stored
once, with the number of inodes that refer to them. A stored list never changes, so a reference is the address of the
node that `storage_` allocated and the list in it.
-/
import SaunaFS.Lib.FiniteTable
import SaunaFS.Lib.Stepwise
import SaunaFS.Namespace.RichAcl

namespace SaunaFS.Namespace

open FiniteTable

/-- a reference to a `KeyValue` of `storage_` -/
structure AclRef where
  address : ℕ
  acl : RichAcl

structure AclStorage where
  /-- address and reference count of a stored list -/
  storage : FiniteTable RichAcl (ℕ × ℕ)
  acl : FiniteTable ℕ AclRef
  /-- the address of the next node -/
  next : ℕ

namespace AclStorage

variable (s : AclStorage)

def new : AclStorage := ⟨.empty, .empty, 0⟩

def get (id : ℕ) : Option RichAcl := (s.acl.get id).map AclRef.acl

/-- inserts the list with the count 0 unless it is there, and adds 1 to its count -/
def ref (acl : RichAcl) : AclRef × AclStorage :=
  let kv := (s.storage.get acl).getD (s.next, 0)
  (⟨kv.1, acl⟩, { s with storage := s.storage.set acl (kv.1, kv.2 + 1), next := s.next + 1 })

def unref (r : AclRef) : AclStorage :=
  match s.storage.get r.acl with
  | some (address, count) =>
    { s with storage := if count - 1 = 0 then s.storage.erase r.acl else s.storage.set r.acl (address, count - 1) }
  | none => s

def set (id : ℕ) (acl : RichAcl) : AclStorage :=
  let (r, t) := s.ref acl
  match s.acl.get id with
  | none => { t with acl := t.acl.set id r }
  | some old => { t.unref old with acl := t.acl.set id r }

def erase (id : ℕ) : AclStorage :=
  match s.acl.get id with
  | none => s
  | some r => { s.unref r with acl := s.acl.erase id }

def setMode (id : ℕ) (mode : BitVec 16) (isDir : Bool) : AclStorage :=
  match s.acl.get id with
  | none => s
  | some r =>
    if r.acl.setMode mode isDir = r.acl then s
    else
      let (r', t) := (s.unref r).ref (r.acl.setMode mode isDir)
      { t with acl := t.acl.set id r' }

inductive Call
  | set (acl : RichAcl)
  | erase
  | setMode (mode : BitVec 16) (isDir : Bool)

def step : ℕ × Call → AclStorage
  | (id, .set acl) => s.set id acl
  | (id, .erase) => s.erase id
  | (id, .setMode mode isDir) => s.setMode id mode isDir

/-- the storage after some calls -/
def after (calls : List (ℕ × Call)) : AclStorage := Stepwise.run step new calls

/-- what a call means for the list of its inode -/
def Call.apply : Call → Option RichAcl → Option RichAcl
  | .set acl, _ => some acl
  | .erase, _ => none
  | .setMode mode isDir, list => list.map (·.setMode mode isDir)

/-- the calls on lists that are not shared -/
def specStep (lists : ℕ → Option RichAcl) (c : ℕ × Call) : ℕ → Option RichAcl :=
  Function.update lists c.1 (c.2.apply (lists c.1))

/-- the inodes that refer to a list -/
def users (acl : FiniteTable ℕ AclRef) (a : RichAcl) : Finset ℕ :=
  acl.keys.filter fun id => (acl.get id).map AclRef.acl = some a

/-- the references are those of the inodes and perhaps one that a call holds; they are counted and lead to the one node
of their list -/
structure Inv (held : Option AclRef) : Prop where
  counted : ∀ a, (s.storage.get a).elim 0 Prod.snd =
    (users s.acl a).card + if held.map AclRef.acl = some a then 1 else 0
  stored : ∀ a x, s.storage.get a = some x → 0 < x.2 ∧ x.1 < s.next
  apart : ∀ a b x y, s.storage.get a = some x → s.storage.get b = some y → x.1 = y.1 → a = b
  placed : ∀ r, ((∃ id, s.acl.get id = some r) ∨ held = some r) → ∃ n, s.storage.get r.acl = some (r.address, n)

variable {s} {id : ℕ} {r : AclRef} {held : Option AclRef} {t : FiniteTable ℕ AclRef} {a acl : RichAcl}

theorem card_users_erase (h : t.get id = some r) :
    (users t a).card = (users (t.erase id) a).card + if r.acl = a then 1 else 0 := by
  have hu : users (t.erase id) a = (users t a).erase id := by
    ext j
    rw [users, users, Finset.mem_erase, Finset.mem_filter, Finset.mem_filter, mem_keys, mem_keys, get_erase]
    by_cases hj : j = id <;> simp [hj]
  have hm : id ∈ users t a ↔ r.acl = a := by simp [users, mem_keys, h]
  rw [hu]
  split_ifs with ha
  · exact (Finset.card_erase_add_one (hm.2 ha)).symm
  · rw [Finset.erase_eq_of_notMem fun hi => ha (hm.1 hi), add_zero]

theorem card_users_set (h : t.get id = none) :
    (users (t.set id r) a).card = (users t a).card + if r.acl = a then 1 else 0 := by
  have he : (t.set id r).erase id = t := by
    ext j : 1
    by_cases hj : j = id <;> simp [get_erase, get_set, hj, h]
  rw [card_users_erase get_set_self, he]

theorem Inv.ref (h : s.Inv none) (acl : RichAcl) : (s.ref acl).2.Inv (some (s.ref acl).1) := by
  obtain ⟨hc, hs, ha, hp⟩ := h
  unfold AclStorage.ref
  -- the node of the list: the one that is there, or a new one
  have hkv : s.storage.get acl = some ((s.storage.get acl).getD (s.next, 0)) ∨
      s.storage.get acl = none ∧ (s.storage.get acl).getD (s.next, 0) = (s.next, 0) := by
    cases s.storage.get acl <;> simp
  generalize (s.storage.get acl).getD (s.next, 0) = kv at *
  refine ⟨fun a => ?_, fun a x hx => ?_, fun a b x y hx hy he => ?_, fun r hr => ?_⟩ <;> dsimp only at *
  · have := hc a
    by_cases hn : a = acl <;> grind [get_set]
  · have := hs a x
    grind [get_set]
  · have := ha a b x y
    grind [get_set]
  · obtain ⟨j, hj⟩ | ⟨⟨⟩⟩ := hr
    · obtain ⟨n, hn⟩ := hp r (.inl ⟨j, hj⟩)
      grind [get_set]
    · exact ⟨_, get_set_self⟩

theorem Inv.drop (h : s.Inv held) (hg : s.acl.get id = some r) :
    ({ s.unref r with acl := s.acl.erase id } : AclStorage).Inv held := by
  obtain ⟨hc, hs, ha, hp⟩ := h
  obtain ⟨n, hn⟩ := hp r (.inl ⟨id, hg⟩)
  have hu (a : RichAcl) := card_users_erase (a := a) hg
  simp only [AclStorage.unref, hn]
  -- another reference to the list keeps its count above 1
  have hother (r' : AclRef) (hr : (∃ j, (s.acl.erase id).get j = some r') ∨ held = some r') (he : r'.acl = r.acl) :
      n - 1 ≠ 0 := by
    have hcr := hc r.acl
    rw [hu, hn, Option.elim_some, if_pos rfl] at hcr
    obtain ⟨j, hj⟩ | rfl := hr
    · have hcard := card_users_erase (a := r'.acl) hj
      rw [if_pos rfl, he] at hcard
      omega
    · simp [he] at hcr
      omega
  refine ⟨fun a => ?_, ?_, ?_, fun r' hr => ?_⟩
  · have := hc a
    by_cases hra : a = r.acl <;> grind [get_set, get_erase]
  · grind [get_set, get_erase]
  · grind [get_set, get_erase]
  · obtain ⟨m, hm⟩ := hp r' (hr.imp_left fun ⟨j, hj⟩ => ⟨j, by grind [get_erase]⟩)
    by_cases he : r'.acl = r.acl
    · rw [if_neg (hother r' hr he)]
      grind [get_set]
    · split_ifs <;> grind [get_set, get_erase]

theorem Inv.attach (h : s.Inv (some r)) (hg : s.acl.get id = none) :
    ({ s with acl := s.acl.set id r } : AclStorage).Inv none := by
  obtain ⟨hc, hs, ha, hp⟩ := h
  refine ⟨fun a => ?_, hs, ha, fun r' hr => ?_⟩
  · have := hc a
    have := card_users_set (a := a) (r := r) hg
    grind
  · obtain ⟨j, hj⟩ := hr.resolve_right nofun
    rw [get_set] at hj
    split_ifs at hj
    · exact hp r' (.inr hj)
    · exact hp r' (.inl ⟨j, hj⟩)

@[simp] theorem unref_acl : (s.unref r).acl = s.acl := by
  unfold unref
  split <;> rfl

theorem Inv.step (h : s.Inv none) (c : ℕ × Call) : (s.step c).Inv none := by
  obtain ⟨id, acl | _ | ⟨mode, isDir⟩⟩ := c
  · change (s.set id acl).Inv none
    unfold AclStorage.set
    cases hg : s.acl.get id with
    | none => exact (h.ref acl).attach hg
    | some old =>
      have := ((h.ref acl).drop hg).attach get_erase_self
      rwa [← set_eq_erase_set] at this
  · change (s.erase id).Inv none
    unfold AclStorage.erase
    cases hg : s.acl.get id with
    | none => exact h
    | some r => exact h.drop hg
  · change (s.setMode id mode isDir).Inv none
    unfold AclStorage.setMode
    cases hg : s.acl.get id with
    | none => exact h
    | some r =>
      dsimp only
      split_ifs
      · exact h
      · have := ((h.drop hg).ref (r.acl.setMode mode isDir)).attach get_erase_self
        dsimp only [AclStorage.ref] at this ⊢
        rwa [← set_eq_erase_set, ← unref_acl] at this

theorem get_step (s : AclStorage) (c : ℕ × Call) : (s.step c).get = specStep s.get c := by
  funext j
  obtain ⟨id, acl | _ | ⟨mode, isDir⟩⟩ :=
    c <;> simp only [step, specStep, Call.apply, AclStorage.get, Function.update_apply]
  · cases hg : s.acl.get id <;> grind [set, get_set, ref]
  · cases hg : s.acl.get id <;> grind [erase, get_erase]
  · cases hg : s.acl.get id <;> grind [setMode, get_set, ref, unref_acl]

theorem inv_after (calls : List (ℕ × Call)) : (after calls).Inv none :=
  Stepwise.inv_run (P := (Inv · none)) (fun _ c (_ : True) h => h.step c) new calls
    (Stepwise.along_of_forall (fun _ _ => trivial) new calls) ⟨fun _ => rfl, nofun, nofun, by simp [new, empty]⟩

/-- **Shared lists behave as lists of their own**: after any calls an inode's list is the one these calls give it, a
call leaves the lists of other inodes alone, two inodes share a node exactly when their lists are equal, and the lists
that are stored are those in use, with the number of their users. -/
theorem shared_as_own (calls : List (ℕ × Call)) : (after calls).get = Stepwise.run specStep (fun _ => none) calls ∧
      (∀ c id, id ≠ c.1 → ((after calls).step c).get id = (after calls).get id) ∧
      (∀ id id' r r', (after calls).acl.get id = some r → (after calls).acl.get id' = some r' →
        (r.address = r'.address ↔ r.acl = r'.acl)) ∧
      (∀ id r, (after calls).acl.get id = some r → ∃ n, (after calls).storage.get r.acl = some (r.address, n)) ∧
      ∀ a x, (after calls).storage.get a = some x → 0 < x.2 ∧ x.2 = (users (after calls).acl a).card := by
  obtain ⟨hc, hs, ha, hp⟩ := inv_after calls
  refine ⟨(List.foldl_hom AclStorage.get fun s c => (get_step s c).symm).symm, fun c id hne =>
    ?_, fun id id' r r' hr hr' => ?_, fun id r hr => hp r (.inl ⟨id, hr⟩),
    fun a x hx => ⟨(hs a x hx).1, by simpa [hx] using hc a⟩⟩
  · rw [get_step, specStep, Function.update_of_ne hne]
  · obtain ⟨n, hn⟩ := hp r (.inl ⟨id, hr⟩)
    obtain ⟨n', hn'⟩ := hp r' (.inl ⟨id', hr'⟩)
    refine ⟨ha _ _ _ _ hn hn', fun he => ?_⟩
    grind

end AclStorage

end SaunaFS.Namespace
