/-
What a POSIX list permits once it is set as the access list of a node: `appendPosixACL` turns it into entries that
allow, entries that deny to them what only others may do, and masks.
-/
import SaunaFS.Namespace.Permissions

namespace SaunaFS.Namespace

open Ace BitVec List Option Requester AccessControlList PosixEntry Rule

/-! ## Effective rights -/

namespace AccessControlList

variable (acl : AccessControlList)

def getEntry (type : BitVec 4) (id : UInt32) : Option PosixEntry :=
  (acl.list.dropWhile fun e => e.Before ⟨type, id, 0⟩).head?.filter fun e => e.isFor type id

def applyMask (accessRights : BitVec 4) : BitVec 4 :=
  if acl.mask = maskUnset then accessRights else accessRights &&& acl.mask

variable (r : Requester)

def getEffectiveRights : BitVec 4 :=
  if r.uid = r.ownerUid then acl.owner
  else
    match acl.getEntry namedUser r.uid with
    | some e => acl.applyMask e.accessRights
    | none =>
      let found := r.groups.filterMap (acl.getEntry namedGroup)
      if r.ownerGid ∈ r.groups ∨ found ≠ [] then
        acl.applyMask (found.foldl (fun rights e => rights ||| e.accessRights)
          (if r.ownerGid ∈ r.groups then acl.group else 0))
      else acl.other

/-- whether an entry is for the requester -/
def appliesTo (e : PosixEntry) : Bool :=
  e.type = namedUser && e.id = r.uid || e.type = namedGroup && decide (e.id ∈ r.groups)

/-- the rights of all entries that are for a requester -/
def matchingRights : BitVec 4 :=
  (if r.ownerUid = r.uid then acl.owner else 0) ||| (if r.ownerGid ∈ r.groups then acl.group else 0) |||
    (acl.list.filter (appliesTo r)).foldr (fun e rights => e.accessRights ||| rights) 0

/-- whether an entry other than the last one is for a requester -/
def matched : Bool := decide (r.ownerUid = r.uid) || decide (r.ownerGid ∈ r.groups) || acl.list.any (appliesTo r)

/-- the rights that the converted list gives -/
def convertedRights : BitVec 4 :=
  if acl.minimalAcl then
    if r.uid = r.ownerUid then acl.owner else if r.ownerGid ∈ r.groups then 0 else acl.other
  else if r.uid = r.ownerUid ∧ acl.mask ≠ maskUnset then acl.owner
  else if acl.matched r then acl.applyMask (acl.matchingRights r) else acl.other

end AccessControlList

/-! ## Rights and masks -/

namespace RichAcl

variable {isDir : Bool} {a b : BitVec 4} {w who : Ace} {l : List Rule} {i : ℕ}

theorem posixMask_or : posixMask isDir (a ||| b) = posixMask isDir a ||| posixMask isDir b := by
  revert isDir a b
  decide +kernel

theorem posixMask_and : posixMask isDir (a &&& b) = posixMask isDir a &&& posixMask isDir b := by
  revert isDir a b
  decide +kernel

theorem posixMask_zero : posixMask isDir 0 = 0 := by
  revert isDir
  decide

theorem within_posixMask (isDir : Bool) {m : BitVec 4} (hm : m ≤ 7) (rights : BitVec 4) :
    Within (posixMask isDir m) (posixMask isDir rights) ↔ Within m rights := by
  revert isDir m rights
  decide +kernel

/-! ## Isolated entries -/

/-- what the entries for the same users have in common -/
def identifier (a : Ace) : BitVec 32 × UInt32 := (a.flags &&& (specialWho ||| identifierGroup), a.id)

theorem isSameIdentifier_iff {a b : Ace} : a.isSameIdentifier b ↔ identifier a = identifier b := by
  have hx : (a.flags ^^^ b.flags) &&& (specialWho ||| identifierGroup) =
      (a.flags &&& (specialWho ||| identifierGroup)) ^^^
        (b.flags &&& (specialWho ||| identifierGroup)) := by
    refine eq_of_getLsbD_eq fun i _ => ?_
    simp only [getLsbD_and, getLsbD_xor]
    cases a.flags.getLsbD i <;> cases b.flags.getLsbD i <;> simp
  unfold isSameIdentifier identifier
  rw [Bool.and_eq_true, beq_iff_eq, beq_iff_eq, Prod.mk.injEq, hx]
  exact and_congr_left fun _ => BitVec.xor_eq_zero_iff

/-- the entry that keeps the users of another one from what only others may do -/
def denyAce (other : BitVec 32) (w : Ace) : Ace := ⟨1, w.flags, other &&& ~~~w.mask, w.id⟩

/-- a list of entries that are inherited only, of entries that allow, each for other users, and of one for the others -/
structure Isolation (kept front : List Ace) (e : Ace) : Prop where
  kept : ∀ a ∈ kept, a.isInheritOnly = true
  flags : ∀ w ∈ front, w.flags &&& ~~~inheritanceFlags = w.flags
  allow : ∀ w ∈ front, w.type = 0
  distinct : ((front ++ [e]).map identifier).Nodup

variable {kept front denies : List Ace} {e : Ace} {other : BitVec 32}

/-- the entries that deny are for users of entries in the list -/
def Denies (other : BitVec 32) (front denies : List Ace) : Prop := ∀ d ∈ denies, ∃ w ∈ front, d = denyAce other w

theorem same_cases (h : Isolation kept front e) (hd : Denies other front denies) {a : Ace} (hw : w ∈ front)
    (hwh : identifier who = identifier w) (ha : a ∈ kept ++ front ++ denies ++ [e]) (hi : a.isInheritOnly = false)
    (hs : a.isSameIdentifier who) : a = w ∨ a = denyAce other w ∧ a ∈ denies := by
  have hid : identifier a = identifier w := (isSameIdentifier_iff.1 hs).trans hwh
  have hin := inj_on_of_nodup_map h.distinct
  have hw' : w ∈ front ++ [e] := mem_append_left _ hw
  simp only [mem_append, mem_singleton] at ha
  rcases ha with ((ha | ha) | ha) | rfl
  · rw [h.kept a ha] at hi
    cases hi
  · exact .inl (hin (mem_append_left _ ha) hw' hid)
  · obtain ⟨w', hm, rfl⟩ := hd a ha
    obtain rfl := hin (mem_append_left _ hm) hw' hid
    exact .inr ⟨rfl, ha⟩
  · obtain rfl := hin (by simp) hw' hid
    exact .inl rfl

theorem getLsbD_foldl_deny (who : Ace) (l : List Ace) (deny : BitVec 32) (i : ℕ) :
    (l.foldl (fun deny a => if !a.isInheritOnly && a.isSameIdentifier who then deny &&& ~~~a.mask else deny)
      deny).getLsbD i = (deny.getLsbD i && l.all fun a =>
        !(!a.isInheritOnly && a.isSameIdentifier who && a.mask.getLsbD i)) := by
  induction l generalizing deny with
  | nil => simp
  | cons a l ih =>
    rw [foldl_cons, ih, all_cons]
    cases !a.isInheritOnly && a.isSameIdentifier who
    · simp
    · rw [if_pos rfl, getLsbD_and, getLsbD_not, Bool.true_and, Bool.and_assoc]
      cases hb : deny.getLsbD i
      · rfl
      · rw [decide_eq_true (lt_of_getLsbD hb), Bool.true_and]
        rfl

theorem denyPlace_eq_none {deny : BitVec 32} {l : List (Ace × ℕ)}
    (h : ∀ x ∈ l, x.1.isInheritOnly = false → x.1.isDeny → x.1.isSameIdentifier who = false) :
    denyPlace who deny l = none := by
  induction l with
  | nil => rfl
  | cons x l ih =>
    have ih := ih fun y hy => h y (mem_cons_of_mem _ hy)
    have hx := h x mem_cons_self
    unfold denyPlace
    split_ifs with h1 h2 h3 h4
    · exact ih
    · rw [hx (by simpa using h1) h2] at h3
      cases h3
    · exact ih
    · rfl
    · exact ih

theorem isInheritOnly_front (h : Isolation kept front e) (hw : w ∈ front) : w.isInheritOnly = false := by
  unfold Ace.isInheritOnly Ace.has
  rw [← h.flags w hw, BitVec.and_assoc]
  simp [inheritanceFlags, inheritOnly]

theorem isInheritOnly_denyAce (h : Isolation kept front e) (hw : w ∈ front) :
    (denyAce other w).isInheritOnly = false := by
  have hw := isInheritOnly_front h hw
  exact hw

theorem isolateWho_eq (who : Ace) (h : Isolation kept front e) (hd : Denies other front denies) (hw : w ∈ front)
    (hf : who.flags &&& ~~~inheritanceFlags = w.flags) (hid : who.id = w.id) :
    ∃ more, isolateWho who other (kept ++ front ++ denies ++ [e]) = kept ++ front ++ (denies ++ more) ++ [e] ∧
      Denies other front more ∧ (other &&& ~~~w.mask ≠ 0 → denyAce other w ∈ denies ++ more) := by
  have hwh : identifier who = identifier w := by
    unfold identifier
    rw [hid, ← hf, BitVec.and_assoc]
    rfl
  have hs : w.isSameIdentifier who := isSameIdentifier_iff.2 hwh.symm
  have hfo := getLsbD_foldl_deny who (kept ++ front ++ denies ++ [e]) other
  set l := kept ++ front ++ denies ++ [e] with hl
  set deny := l.foldl (fun deny a => if !a.isInheritOnly && a.isSameIdentifier who then deny &&& ~~~a.mask else deny)
    other with hden
  have hwl : w ∈ l := by simp [hl, hw]
  have hb (i : ℕ) : deny.getLsbD i ↔
      (other &&& ~~~w.mask).getLsbD i ∧ denyAce other w ∉ denies := by
    rw [hfo, Bool.and_eq_true, List.all_eq_true]
    constructor
    · rintro ⟨ho, hal⟩
      have hnot : w.mask.getLsbD i = false := by simpa [isInheritOnly_front h hw, hs] using hal w hwl
      have hm : (other &&& ~~~w.mask).getLsbD i := by
        rw [getLsbD_and, getLsbD_not, ho, hnot, decide_eq_true (lt_of_getLsbD ho)]
        rfl
      refine ⟨hm, fun hin => ?_⟩
      have hde := hal _ (by simp [hl, hin] : denyAce other w ∈ l)
      have hs' : (denyAce other w).isSameIdentifier who := hs
      rw [isInheritOnly_denyAce h hw, hs', show (denyAce other w).mask = other &&& ~~~w.mask from rfl, hm] at hde
      cases hde
    · rintro ⟨hm, hn⟩
      rw [getLsbD_and, getLsbD_not, Bool.and_eq_true, Bool.and_eq_true] at hm
      refine ⟨hm.1, fun a ha => ?_⟩
      by_contra hc
      simp only [Bool.not_eq_false, Bool.not_eq_eq_eq_not, Bool.and_eq_true, Bool.not_true] at hc
      rcases same_cases h hd hw hwh ha hc.1.1 hc.1.2 with rfl | ⟨rfl, hin⟩
      · rw [hc.2] at hm
        exact absurd hm.2.2 (by decide)
      · exact hn hin
  by_cases hz : deny = 0
  · refine ⟨[], ?_, by simp [Denies], fun hne => ?_⟩
    · unfold isolateWho
      rw [← hden, if_pos hz, append_nil]
    · rw [append_nil]
      by_contra hn
      refine hne (eq_of_getLsbD_eq fun i _ => ?_)
      refine (Bool.eq_false_iff.2 fun hi => ?_).trans getLsbD_zero.symm
      have hde := (hb i).2 ⟨hi, hn⟩
      rw [hz] at hde
      exact absurd hde (by simp)
  · have hn : denyAce other w ∉ denies := by
      intro hin
      refine hz (eq_of_getLsbD_eq fun i _ => ?_)
      exact (Bool.eq_false_iff.2 fun hi => ((hb i).1 hi).2 hin).trans getLsbD_zero.symm
    have he : deny = other &&& ~~~w.mask := by
      refine eq_of_getLsbD_eq fun i _ => ?_
      rw [Bool.eq_iff_iff, hb i]
      exact and_iff_left hn
    refine ⟨[denyAce other w], ?_, fun d hme => ⟨w, hw, mem_singleton.1 hme⟩, fun _ => by simp⟩
    have hdr : l.dropLast = kept ++ front ++ denies := dropLast_concat
    have hno : denyPlace who deny l.dropLast.zipIdx.reverse = none := by
      refine denyPlace_eq_none fun x hx hinh his => ?_
      have hx : x.1 ∈ l := mem_of_mem_dropLast (fst_mem_of_mem_zipIdx (mem_reverse.1 hx))
      by_contra hc
      rcases same_cases h hd hw hwh hx hinh (by simpa using hc) with he | ⟨he, hin⟩
      · rw [isDeny, he, h.allow w hw] at his
        cases his
      · exact hn (he ▸ hin)
    unfold isolateWho
    rw [← hden, if_neg hz]
    simp only [hno]
    rw [hdr, hl, getLast?_concat, hf, hid, he]
    simp [denyAce]

theorem isolateEntries_eq (h : Isolation kept front e) {n : ℕ} (hd : Denies other front denies)
    (hn : n ≤ (kept ++ front ++ denies).length) :
    ∃ more, isolateEntries other n (kept ++ front ++ denies ++ [e]) = kept ++ front ++ (denies ++ more) ++ [e] ∧
      Denies other front more ∧
      ∀ w ∈ (kept ++ front).take n, (w.isInheritOnly || w.isOwner || w.isGroup) = false →
        other &&& ~~~w.mask ≠ 0 → denyAce other w ∈ denies ++ more := by
  induction n generalizing denies with
  | zero => exact ⟨[], by rw [isolateEntries, append_nil], by simp [Denies], by simp⟩
  | succ n ih =>
    have hg : (kept ++ front ++ denies ++ [e])[n]? = (kept ++ front ++ denies)[n]? := getElem?_append_left hn
    obtain ⟨a, ha⟩ : ∃ a, (kept ++ front ++ denies)[n]? = some a := ⟨_, getElem?_eq_getElem hn⟩
    have hl {w : Ace} (hw : (kept ++ front)[n]? = some w) : w = a := by
      rw [List.getElem?_append_left (List.getElem?_eq_some_iff.1 hw).1, hw] at ha
      exact Option.some.inj ha
    rw [isolateEntries, hg, ha]
    dsimp only
    rw [take_add_one]
    split_ifs with hs
    · obtain ⟨more, he, hmo, hal⟩ := ih hd (by omega)
      refine ⟨more, he, hmo, fun w hw hc => ?_⟩
      rcases mem_append.1 hw with hw | hw
      · exact hal w hw hc
      · rw [hl (mem_toList.1 hw), hs] at hc
        cases hc
    · obtain ⟨w, hw, hfl, hi, hsa⟩ : ∃ w ∈ front, a.flags &&& ~~~inheritanceFlags = w.flags ∧ a.id = w.id ∧
          (a ∈ front → a = w) := by
        have hm := mem_of_getElem? ha
        simp only [mem_append] at hm
        rcases hm with (hm | hm) | hm
        · simp [h.kept a hm] at hs
        · exact ⟨a, hm, h.flags a hm, rfl, fun _ => rfl⟩
        · obtain ⟨w, hw, rfl⟩ := hd a hm
          refine ⟨w, hw, h.flags w hw, rfl, fun hfr => ?_⟩
          exact absurd (h.allow _ hfr) (by decide : (1 : BitVec 2) ≠ 0)
      obtain ⟨more, he, hmo, hde⟩ := isolateWho_eq a h hd hw hfl hi
      obtain ⟨more', he', hmo', hal⟩ := ih
        (show Denies other front (denies ++ more) from fun d hm => (mem_append.1 hm).elim (hd d) (hmo d))
        (by rw [← List.append_assoc, List.length_append]; omega)
      refine ⟨more ++ more', ?_, fun d hm => (mem_append.1 hm).elim (hmo d) (hmo' d), fun x hx hc hne => ?_⟩
      · rw [he, he', append_assoc denies]
      · rw [← List.append_assoc]
        rcases mem_append.1 hx with hx | hx
        · exact hal x hx hc hne
        · have hxf : x ∈ front := by
            rcases mem_append.1 (mem_of_getElem? (mem_toList.1 hx)) with hk | hf
            · simp [h.kept x hk] at hc
            · exact hf
          obtain rfl := hl (mem_toList.1 hx)
          obtain rfl := hsa hxf
          exact mem_append_left _ (hde hne)

/-- `isolateWho` for the owner and `isolateGroupClass`, as `appendPosixACL` calls them, isolate the users of all
entries -/
theorem isolated {o g : Ace} {named : List Ace} (h : Isolation kept (o :: g :: named) e)
    (ho : o.flags = specialWho ∧ o.id = 0) (hg : g.flags = specialWho ∧ g.id = 1)
    (hna : ∀ w ∈ named, w.has specialWho = false) (he : e.flags = specialWho ∧ e.id = 2) (hot : e.mask = other) :
    ∃ denies, isolateGroupClass 0 other (isolateWho ⟨0, specialWho, 0, 0⟩ other (kept ++ o :: g :: named ++ [e])) =
        kept ++ o :: g :: named ++ denies ++ [e] ∧ Denies other (o :: g :: named) denies ∧
      ∀ w ∈ o :: g :: named, other &&& ~~~w.mask ≠ 0 → denyAce other w ∈ denies := by
  obtain ⟨denies, heq, hd, how⟩ := isolateWho_eq ⟨0, specialWho, 0, 0⟩ h
    (by simp [Denies] : Denies other _ []) (w := o) (by simp) (by rw [ho.1]; rfl) ho.2.symm
  rw [append_nil, nil_append] at heq
  rw [nil_append] at how
  have hl : (e.isInheritOnly || !e.isEveryone) = false := by
    unfold Ace.isInheritOnly Ace.isEveryone Ace.has
    rw [he.1, he.2]
    rfl
  have hde : other ||| (e.mask &&& ~~~0) = other := by
    rw [hot, show ~~~(0 : BitVec 32) = BitVec.allOnes 32 from rfl, BitVec.and_allOnes, BitVec.or_self]
  rw [heq, isolateGroupClass, getLast?_concat]
  simp only [hl, hde, Bool.false_eq_true, if_false]
  split_ifs with hz
  · exact ⟨denies, rfl, hd, fun w _ hn => absurd (by rw [hz]; exact zero_and) hn⟩
  · obtain ⟨more, heq', hm, hgr⟩ := isolateWho_eq ⟨0, specialWho, 0, 1⟩ h hd (w := g) (by simp)
      (by rw [hg.1]; rfl) hg.2.symm
    have hd' : Denies other (o :: g :: named) (denies ++ more) := fun d hme =>
      (mem_append.1 hme).elim (hd d) (hm d)
    obtain ⟨more', heq'', hm', ha⟩ := isolateEntries_eq h hd' le_rfl
    rw [heq', show (kept ++ o :: g :: named ++ (denies ++ more) ++ [e]).length - 1 =
      (kept ++ o :: g :: named ++ (denies ++ more)).length by rw [length_append, length_singleton]; rfl, heq'']
    refine ⟨_, rfl, fun d hme => (mem_append.1 hme).elim (hd' d) (hm' d), fun w hw hn => ?_⟩
    -- the owner and the group have been isolated before the loop
    rcases mem_cons.1 hw with rfl | hw'
    · simp [how hn]
    rcases mem_cons.1 hw' with rfl | hw'
    · exact mem_append_left _ (hgr hn)
    refine ha w ?_ ?_ hn
    · rw [take_of_length_le (by simp)]
      exact mem_append_right _ hw
    · simp [isInheritOnly_front h hw, isOwner, isGroup, hna w hw']

/-! ## What the converted list grants -/

/-- an entry for a part of the users -/
def ruleBy (sel : Ace → Option Who) (a : Ace) : Option Rule := (sel a).map (⟨·, a.type, a.mask⟩)

/-- the masks of a list of entries together -/
def union (l : List Ace) : BitVec 32 := l.foldr (fun a m => a.mask ||| m) 0

theorem union_append {l l' : List Ace} : union (l ++ l') = union l ||| union l' := by
  induction l with
  | nil => exact zero_or.symm
  | cons a l ih => rw [List.cons_append, union, List.foldr_cons, ← union.eq_def, ih, ← BitVec.or_assoc]; rfl

theorem getLsbD_union {l : List Ace} : (union l).getLsbD i = l.any (·.mask.getLsbD i) := by
  induction l with
  | nil => simp [union]
  | cons a l ih => rw [union, foldr_cons, ← union.eq_def, getLsbD_or, ih, any_cons]

theorem getLsbD_granted_allow {l' : List Rule} (h : ∀ x ∈ l, x.type = 0) : (granted noLimit (l ++ l')).getLsbD i =
      (l.any (·.mask.getLsbD i) || (granted noLimit l').getLsbD i) := by
  induction l with
  | nil => simp
  | cons x l ih =>
    have hx : x.type ≠ 1 := by rw [h x mem_cons_self]; decide
    rw [List.cons_append, granted, if_neg hx, getLsbD_or, ih fun y hy => h y (List.mem_cons_of_mem _ hy),
      any_cons, limited_noLimit, Bool.or_comm, ← Bool.or_assoc]

theorem getLsbD_granted_deny (h : ∀ x ∈ l, x.type = 1) {x : Rule} (hx : x.type = 0) :
    (granted noLimit (l ++ [x])).getLsbD i =
      (x.mask.getLsbD i && !l.any (·.mask.getLsbD i)) := by
  induction l with
  | nil =>
    have hn : x.type ≠ 1 := by rw [hx]; decide
    rw [nil_append, granted, if_neg hn, limited_noLimit]
    simp
  | cons y l ih =>
    rw [List.cons_append, granted, if_pos (h y List.mem_cons_self), getLsbD_and,
      ih fun z hz => h z (mem_cons_of_mem _ hz), any_cons, limited_noLimit, getLsbD_not]
    cases hb : x.mask.getLsbD i
    · rfl
    · rw [decide_eq_true (lt_of_getLsbD hb)]
      cases y.mask.getLsbD i <;> simp

/-- users to whom some entries apply get all that these allow, the others get what is for others -/
theorem granted_isolated {sel : Ace → Option Who} (hk : ∀ a ∈ kept, sel a = none) (hal : ∀ w ∈ front, w.type = 0)
    (hse : ∀ w ∈ front, sel (denyAce other w) = sel w) (hd : Denies other front denies)
    (hall : ∀ w ∈ front, other &&& ~~~w.mask ≠ 0 → denyAce other w ∈ denies) (he : (sel e).isSome)
    (het : e.type = 0) (ho : e.mask = other) :
    granted noLimit ((kept ++ front ++ denies ++ [e]).filterMap (ruleBy sel)) =
      if front.any fun w => (sel w).isSome then union (front.filter fun w => (sel w).isSome) else other := by
  have ht {l : List Ace} {type : BitVec 2} (h : ∀ a ∈ l, a.type = type) : ∀ x ∈ l.filterMap (ruleBy sel),
    x.type = type := by
    intro x hx
    obtain ⟨a, ha, hax⟩ := mem_filterMap.1 hx
    obtain ⟨w, -, rfl⟩ := map_eq_some_iff.1 hax
    exact h a ha
  have han (l : List Ace) (i : ℕ) : (l.filterMap (ruleBy sel)).any (·.mask.getLsbD i) =
      l.any fun a => (sel a).isSome && a.mask.getLsbD i := by
    rw [any_filterMap]
    congr 1
    funext a
    cases hse : sel a <;> simp [ruleBy, hse]
  obtain ⟨who, hwh⟩ := isSome_iff_exists.1 he
  have hl : [e].filterMap (ruleBy sel) = [⟨who, 0, other⟩] := by simp [ruleBy, hwh, het, ho]
  have hn : kept.filterMap (ruleBy sel) = [] :=
    filterMap_eq_nil_iff.2 fun a ha => by rw [ruleBy, hk a ha, map_none]
  refine eq_of_getLsbD_eq fun i hi => ?_
  rw [List.filterMap_append, List.filterMap_append, List.filterMap_append, hn, List.nil_append, List.append_assoc, hl,
    getLsbD_granted_allow (ht hal), getLsbD_granted_deny (ht fun d hm => ?_) rfl, han, han]
  · split_ifs with hso
    · rw [getLsbD_union, List.any_filter]
      refine Bool.or_eq_left_iff_imp.2 fun hb => ?_
      obtain ⟨w, hw, hs⟩ := any_eq_true.1 hso
      rw [Bool.and_eq_true, Bool.not_eq_true', List.any_eq_false] at hb
      cases hma : w.mask.getLsbD i
      · -- what the entry lacks is denied to its users
        have hde : (other &&& ~~~w.mask).getLsbD i := by
          rw [getLsbD_and, getLsbD_not, hb.1, hma, decide_eq_true hi]
          rfl
        have hne : other &&& ~~~w.mask ≠ 0 := fun hz => by
          rw [hz] at hde
          exact absurd hde (by simp)
        refine absurd ?_ (hb.2 _ (hall w hw hne))
        rw [hse w hw, hs, Bool.true_and]
        exact hde
      · exact any_eq_true.2 ⟨w, hw, by rw [hs, hma]; rfl⟩
    · have hn : ∀ w ∈ front, (sel w).isSome = false := by simpa using hso
      have hf : (front.any fun a => (sel a).isSome && a.mask.getLsbD i) = false :=
        any_eq_false.2 fun w hw => by simp [hn w hw]
      have hden : (denies.any fun a => (sel a).isSome && a.mask.getLsbD i) = false := by
        refine any_eq_false.2 fun d hm => ?_
        obtain ⟨w, hw, rfl⟩ := hd d hm
        simp [hse w hw, hn w hw]
      rw [hf, hden, Bool.false_or, Bool.not_false, Bool.and_true]
  · obtain ⟨w, -, rfl⟩ := hd d hm
    rfl

def allowedSel (who a : Ace) : Option Who :=
  if a.isInheritOnly then none
  else if a.isSameIdentifier who then some .owner
  else if a.isEveryone then some .everyone
  else none

theorem allowedToWho_eq {acl : RichAcl} (hty : ∀ a ∈ acl.aceList, a.isInheritOnly ∨ a.type = 0 ∨ a.type = 1) :
    acl.allowedToWho who = granted noLimit (acl.aceList.filterMap (ruleBy (allowedSel who))) := by
  unfold allowedToWho
  generalize acl.aceList = l at hty
  induction l with
  | nil => rfl
  | cons a l ih =>
    have ih := ih fun b hb => hty b (mem_cons_of_mem _ hb)
    have ht := hty a mem_cons_self
    rw [foldr_cons, ih, filterMap_cons, ruleBy, allowedSel]
    rcases ht with hi | ht
    · simp [hi]
    · have he : allowOrDeny a (granted noLimit (l.filterMap (ruleBy (allowedSel who)))) =
          if a.type = 1 then granted noLimit (l.filterMap (ruleBy (allowedSel who))) &&& ~~~a.mask
          else granted noLimit (l.filterMap (ruleBy (allowedSel who))) ||| a.mask := by
        rcases ht with ht | ht <;> simp [allowOrDeny, isAllow, isDeny, ht]
      rw [he]
      cases a.isInheritOnly <;> cases a.isSameIdentifier who <;> cases a.isEveryone <;>
        simp [granted]

section Convert

variable (isDir : Bool) (posix : AccessControlList) (r : Requester)

def ownerAce : Ace := ⟨0, specialWho, posixMask isDir posix.owner, 0⟩
def groupAce : Ace := ⟨0, specialWho, posixMask isDir posix.group, 1⟩
def otherAce : Ace := ⟨0, specialWho, posixMask isDir posix.other, 2⟩

/-- the entries that allow, without the last one -/
def classEntries : List Ace := ownerAce isDir posix :: groupAce isDir posix :: posix.list.flatMap (namedAce isDir)

variable {w : Ace} {mask : BitVec 32} {id : UInt32}

theorem mem_namedAce {e : PosixEntry} (h : w ∈ namedAce isDir e) :
    w.type = 0 ∧ w.id = e.id ∧ w.mask = posixMask isDir e.accessRights ∧
      (e.type = namedUser ∧ w.flags = 0 ∨ e.type = namedGroup ∧ w.flags = identifierGroup) := by
  unfold namedAce at h
  split_ifs at h with hu hg <;> simp_all

theorem isolation_classEntries {kept : List Ace} (hk : ∀ a ∈ kept, a.isInheritOnly)
    (hso : posix.list.Pairwise PosixEntry.Before) :
    Isolation kept (classEntries isDir posix) (otherAce isDir posix) where
  kept := hk
  flags := by
    intro w hw
    rcases mem_cons.1 hw with rfl | hw
    · exact (by decide : specialWho &&& ~~~inheritanceFlags = specialWho)
    rcases mem_cons.1 hw with rfl | hw
    · exact (by decide : specialWho &&& ~~~inheritanceFlags = specialWho)
    obtain ⟨e, -, hw⟩ := mem_flatMap.1 hw
    obtain ⟨-, -, -, ⟨-, hf⟩ | ⟨-, hf⟩⟩ := mem_namedAce isDir hw <;> rw [hf] <;> rfl
  allow := by
    intro w hw
    rcases mem_cons.1 hw with rfl | hw
    · rfl
    rcases mem_cons.1 hw with rfl | hw
    · rfl
    obtain ⟨e, -, hw⟩ := mem_flatMap.1 hw
    exact (mem_namedAce isDir hw).1
  distinct := by
    have hsp {w : Ace} (hw : w ∈ posix.list.flatMap (namedAce isDir)) (id : UInt32) :
        identifier w ≠ (specialWho, id) := by
      obtain ⟨e, -, hw⟩ := mem_flatMap.1 hw
      intro he
      obtain ⟨-, -, -, ⟨-, hf⟩ | ⟨-, hf⟩⟩ := mem_namedAce isDir hw <;>
        rw [identifier, hf, Prod.mk.injEq] at he <;> exact absurd he.1 (by decide)
    have hn : ((posix.list.flatMap (namedAce isDir)).map identifier).Nodup := by
      refine pairwise_map.2 (pairwise_flatMap.2 ⟨fun e _ => ?_, hso.imp fun {a b} hb x hx y hy he => ?_⟩)
      · unfold namedAce
        split_ifs <;> simp
      · obtain ⟨-, hxi, -, hxf⟩ := mem_namedAce isDir hx
        obtain ⟨-, hyi, -, hyf⟩ := mem_namedAce isDir hy
        rw [identifier, identifier, Prod.mk.injEq, hxi, hyi] at he
        have ht : a.type = b.type := by
          rcases hxf with ⟨ha, hxf⟩ | ⟨ha, hxf⟩ <;> rcases hyf with ⟨hbt, hyf⟩ | ⟨hbt, hyf⟩
          · rw [ha, hbt]
          · rw [hxf, hyf] at he
            exact absurd he.1 (by decide)
          · rw [hxf, hyf] at he
            exact absurd he.1 (by decide)
          · rw [ha, hbt]
        rcases hb with h | ⟨-, h⟩
        · exact absurd h (by rw [ht]; exact BitVec.lt_irrefl _)
        · exact absurd h (by rw [he.2]; exact UInt32.lt_irrefl _)
    have hs (mask : BitVec 32) (id : UInt32) : identifier ⟨0, specialWho, mask, id⟩ = (specialWho, id) := by
      simp [identifier, specialWho, identifierGroup]
    have hm (id : UInt32) : (specialWho, id) ∉ (posix.list.flatMap (namedAce isDir)).map identifier := fun hm =>
      let ⟨_, hw, he⟩ := mem_map.1 hm
      hsp hw id he
    rw [classEntries, map_append, map_cons, map_cons, map_singleton, ownerAce, groupAce, otherAce, hs, hs, hs]
    simp only [List.cons_append, List.nodup_cons, List.mem_cons, List.mem_append, hm, Prod.mk.injEq, true_and,
      not_mem_nil, or_false, false_or]
    refine ⟨by decide, by decide, nodup_append.2 ⟨hn, nodup_singleton _, ?_⟩⟩
    rintro x hx y hy rfl
    exact hm 2 (mem_singleton.1 hy ▸ hx)

theorem matching_special (id : UInt32) : r.matching ⟨0, Ace.specialWho, mask, id⟩ =
      if id = 0 then if r.ownerUid = r.uid then some .owner else none
      else if id = 1 then if r.ownerGid ∈ r.groups then some .group else none
      else some .everyone := by
  simp [matching, Ace.isInheritOnly, isOwner, isGroup, isUnixUser, isUnixGroup, Ace.has, Ace.specialWho, inheritOnly]

theorem matching_user :
    r.matching ⟨0, 0, mask, id⟩ = if r.uid ≠ id then none else if r.uid = r.ownerUid then some .owner
      else some .group := by
  simp [matching, Ace.isInheritOnly, isOwner, isGroup, isUnixUser, Ace.has]

theorem matching_group :
    r.matching ⟨0, Ace.identifierGroup, mask, id⟩ = if id ∈ r.groups then some .group else none := by
  simp [matching, Ace.isInheritOnly, isOwner, isGroup, isUnixUser, isUnixGroup, Ace.has,
    Ace.identifierGroup, Ace.specialWho, inheritOnly]

theorem any_namedAce {e : PosixEntry} : ((namedAce isDir e).any fun w => (r.matching w).isSome) = appliesTo r e := by
  unfold namedAce appliesTo
  split_ifs with hu hg
  · rw [any_cons, any_nil, Bool.or_false, matching_user]
    split_ifs with hi ho
    · simp [hu, Ne.symm hi, show namedUser ≠ namedGroup by decide]
    · simp [hu, not_not.1 hi]
    · simp [hu, not_not.1 hi]
  · rw [any_cons, any_nil, Bool.or_false, matching_group]
    split_ifs with hi <;> simp [hg, hi, show namedGroup ≠ namedUser by decide]
  · simp [hu, hg]

theorem matching_ownerAce : (r.matching (ownerAce isDir posix)).isSome = decide (r.ownerUid = r.uid) := by
  rw [ownerAce, matching_special, if_pos rfl]
  split_ifs <;> simp_all

theorem matching_groupAce : (r.matching (groupAce isDir posix)).isSome = decide (r.ownerGid ∈ r.groups) := by
  rw [groupAce, matching_special, if_neg (by decide), if_pos rfl]
  split_ifs <;> simp_all

theorem any_classEntries : ((classEntries isDir posix).any fun w => (r.matching w).isSome) = posix.matched r := by
  rw [classEntries, any_cons, any_cons, any_flatMap, matching_ownerAce, matching_groupAce, ← Bool.or_assoc]
  simp only [any_namedAce]
  rfl

theorem union_classEntries : union ((classEntries isDir posix).filter fun w => (r.matching w).isSome) =
    posixMask isDir (posix.matchingRights r) := by
  have hi {p : Prop} [Decidable p] (rights : BitVec 4) :
      posixMask isDir (if p then rights else 0) = if p then posixMask isDir rights else 0 := by
    split_ifs
    · rfl
    · exact posixMask_zero
  have hc (a : Ace) (l : List Ace) : union ((a :: l).filter fun w => (r.matching w).isSome) =
      (if (r.matching a).isSome then a.mask else 0) ||| union (l.filter fun w => (r.matching w).isSome) := by
    rw [filter_cons]
    split_ifs
    · rfl
    · exact zero_or.symm
  have hn (l : List PosixEntry) : union ((l.flatMap (namedAce isDir)).filter fun w => (r.matching w).isSome) =
      posixMask isDir ((l.filter (appliesTo r)).foldr (fun e rights => e.accessRights ||| rights) 0) := by
    induction l with
    | nil => exact (posixMask_zero).symm
    | cons e l ih =>
      have ho : union ((namedAce isDir e).filter fun w => (r.matching w).isSome) =
          if appliesTo r e then posixMask isDir e.accessRights else 0 := by
        rw [← any_namedAce isDir]
        unfold namedAce
        split_ifs <;> simp_all [union]
      rw [flatMap_cons, filter_append, union_append, ih, ho, filter_cons]
      split_ifs
      · rw [foldr_cons, posixMask_or]
      · exact zero_or
  rw [classEntries, hc, hc, hn, matching_ownerAce, matching_groupAce, matchingRights,
    posixMask_or, posixMask_or, hi, hi, BitVec.or_assoc]
  simp only [decide_eq_true_eq]
  rfl

variable {isDir posix} {kept denies : List Ace}

def converted (isDir : Bool) (posix : AccessControlList) (kept denies : List Ace) : List Ace :=
  kept ++ classEntries isDir posix ++ denies ++ [otherAce isDir posix]

/-- all entries of the list are isolated -/
structure Converts (isDir : Bool) (posix : AccessControlList) (kept denies : List Ace) : Prop where
  isolation : Isolation kept (classEntries isDir posix) (otherAce isDir posix)
  only : Denies (posixMask isDir posix.other) (classEntries isDir posix) denies
  all : ∀ w ∈ classEntries isDir posix, posixMask isDir posix.other &&& ~~~w.mask ≠ 0 →
    denyAce (posixMask isDir posix.other) w ∈ denies

theorem Converts.granted (h : Converts isDir posix kept denies) (sel : Ace → Option Who)
    (hk : ∀ a, a.isInheritOnly → sel a = none) (hs : ∀ w, sel (denyAce (posixMask isDir posix.other) w) = sel w)
    (hl : (sel (otherAce isDir posix)).isSome) :
    granted noLimit ((converted isDir posix kept denies).filterMap (ruleBy sel)) =
      if (classEntries isDir posix).any fun w => (sel w).isSome then
        union ((classEntries isDir posix).filter fun w => (sel w).isSome)
      else posixMask isDir posix.other :=
  granted_isolated (fun a ha => hk a (h.isolation.kept a ha)) h.isolation.allow (fun w _ => hs w) h.only h.all hl
    rfl rfl

theorem Converts.granted_rules (h : Converts isDir posix kept denies) :
    Rule.granted Rule.noLimit (r.rules (converted isDir posix kept denies)) =
      posixMask isDir (if posix.matched r then posix.matchingRights r else posix.other) := by
  have hg := h.granted r.matching (fun a ha => if_pos ha) (fun w => r.matching_congr rfl rfl rfl rfl)
    (by rw [otherAce, matching_special]; rfl)
  rw [any_classEntries, union_classEntries] at hg
  rw [apply_ite (posixMask isDir)]
  exact hg

theorem allowedSel_special {id' : UInt32} : allowedSel ⟨0, Ace.specialWho, 0, id⟩ ⟨0, Ace.specialWho, mask, id'⟩ =
      if id' = id then some .owner else if id' = 2 then some .everyone else none := by
  simp [allowedSel, Ace.isInheritOnly, isSameIdentifier, Ace.isEveryone, Ace.has, Ace.specialWho, inheritOnly]

theorem allowedSel_named {e : PosixEntry} (hw : w ∈ namedAce isDir e) :
    allowedSel ⟨0, Ace.specialWho, 0, id⟩ w = none := by
  obtain ⟨-, -, -, ⟨-, hf⟩ | ⟨-, hf⟩⟩ := mem_namedAce isDir hw <;>
    simp [allowedSel, Ace.isInheritOnly, isSameIdentifier, Ace.isEveryone, Ace.has, hf, Ace.specialWho,
      inheritOnly, Ace.identifierGroup]

section

variable (h : Converts isDir posix kept denies)
include h

theorem Converts.allowedToWho :
    (⟨0, 0, 0, 0, converted isDir posix kept denies⟩ : RichAcl).allowedToWho ⟨0, specialWho, 0, 0⟩ =
        posixMask isDir posix.owner ∧
      (⟨0, 0, 0, 0, converted isDir posix kept denies⟩ : RichAcl).allowedToWho ⟨0, specialWho, 0, 2⟩ =
        posixMask isDir posix.other := by
  have ht : ∀ a ∈ converted isDir posix kept denies, a.isInheritOnly ∨ a.type = 0 ∨ a.type = 1 := by
    intro a ha
    simp only [converted, mem_append, mem_singleton] at ha
    rcases ha with ((ha | ha) | ha) | rfl
    · exact .inl (h.isolation.kept a ha)
    · exact .inr (.inl (h.isolation.allow a ha))
    · obtain ⟨w, -, rfl⟩ := h.only a ha
      exact .inr (.inr rfl)
    · exact .inr (.inl rfl)
  have hn (id : UInt32) {w : Ace} (hw : w ∈ posix.list.flatMap (namedAce isDir)) :
      ¬ (allowedSel ⟨0, specialWho, 0, id⟩ w).isSome := by
    obtain ⟨e, -, hw⟩ := mem_flatMap.1 hw
    rw [allowedSel_named hw]
    exact Bool.false_ne_true
  have hg (id : UInt32) := h.granted (allowedSel ⟨0, specialWho, 0, id⟩) (fun a ha => if_pos ha)
    (fun w => rfl) (by rw [otherAce, allowedSel_special]; split_ifs <;> simp_all)
  rw [allowedToWho_eq ht, allowedToWho_eq ht, hg, hg]
  have ho : (allowedSel ⟨0, specialWho, 0, 0⟩ (ownerAce isDir posix)).isSome := by
    rw [ownerAce, allowedSel_special]
    rfl
  have hgr (id : UInt32) (hi : id ≠ 1) : ¬ (allowedSel ⟨0, specialWho, 0, id⟩ (groupAce isDir posix)).isSome := by
    rw [groupAce, allowedSel_special, if_neg (Ne.symm hi)]
    decide
  constructor
  · have han : ((classEntries isDir posix).any fun w =>
        (allowedSel ⟨0, specialWho, 0, 0⟩ w).isSome) := any_eq_true.2 ⟨_, mem_cons_self, ho⟩
    rw [if_pos han, classEntries, filter_cons, if_pos ho, filter_cons, if_neg (hgr 0 (by decide)),
      filter_eq_nil_iff.2 fun w hw => hn 0 hw]
    exact or_zero
  · refine if_neg fun han => ?_
    obtain ⟨w, hw, hs⟩ := any_eq_true.1 han
    rcases mem_cons.1 hw with rfl | hw
    · rw [ownerAce, allowedSel_special] at hs
      exact absurd hs (by decide)
    rcases mem_cons.1 hw with rfl | hw
    · exact hgr 2 (by decide) hs
    · exact hn 2 hw hs

theorem rules_owner (ho : r.uid = r.ownerUid) :
    ∃ l, r.rules (converted isDir posix kept denies) = ⟨.owner, 0, posixMask isDir posix.owner⟩ :: l := by
  have hr : r.rule (ownerAce isDir posix) = some ⟨.owner, 0, posixMask isDir posix.owner⟩ := by
    rw [rule, ownerAce, matching_special, if_pos rfl, if_pos ho.symm, map_some]
  rw [converted, classEntries, List.append_assoc, List.append_assoc, r.rules_append,
    r.rules_inheritOnly h.isolation.kept, List.nil_append, List.cons_append, rules, filterMap_cons, hr]
  exact ⟨_, rfl⟩

theorem rules_unmatched (hm : posix.matched r = false) :
    r.rules (converted isDir posix kept denies) = [⟨.everyone, 0, posixMask isDir posix.other⟩] := by
  have hc : ∀ w ∈ classEntries isDir posix, r.rule w = none := by
    rw [← any_classEntries isDir, List.any_eq_false] at hm
    intro w hw
    rw [rule, not_isSome_iff_eq_none.1 (hm w hw), map_none]
  have hde : r.rules denies = [] := by
    refine filterMap_eq_nil_iff.2 fun d hd => ?_
    obtain ⟨w, hw, rfl⟩ := h.only d hd
    have hn := hc w hw
    rw [rule, map_eq_none_iff] at hn ⊢
    rw [← hn]
    exact r.matching_congr rfl rfl rfl rfl
  have hl : r.rule (otherAce isDir posix) = some ⟨.everyone, 0, posixMask isDir posix.other⟩ := by
    rw [rule, otherAce, matching_special, if_neg (by decide), if_neg (by decide), map_some]
  rw [converted, r.rules_append, r.rules_append, r.rules_append, r.rules_inheritOnly h.isolation.kept, hde,
    show r.rules (classEntries isDir posix) = [] from filterMap_eq_nil_iff.2 hc, rules,
    filterMap_cons, hl]
  rfl

theorem classed_iff_matched (ho : r.uid ≠ r.ownerUid) :
    r.classed (r.rules (converted isDir posix kept denies)) = posix.matched r := by
  cases hm : posix.matched r with
  | false =>
    rw [classed, rules_unmatched r h hm]
    unfold matched at hm
    simp_all
  | true =>
    rw [← any_classEntries isDir] at hm
    obtain ⟨w, hw, hs⟩ := any_eq_true.1 hm
    obtain ⟨who, hwh⟩ := isSome_iff_exists.1 hs
    have hc : who ≠ .everyone := by
      rintro rfl
      rcases mem_cons.1 hw with rfl | hw
      · rw [ownerAce, matching_special, if_pos rfl] at hwh
        split_ifs at hwh
        cases hwh
      rcases mem_cons.1 hw with rfl | hw
      · rw [groupAce, matching_special, if_neg (by decide), if_pos rfl] at hwh
        split_ifs at hwh
        cases hwh
      obtain ⟨e, -, hw⟩ := mem_flatMap.1 hw
      unfold namedAce at hw
      split_ifs at hw with hu hg
      · rw [mem_singleton.1 hw, matching_user] at hwh
        split_ifs at hwh
        cases hwh
      · rw [mem_singleton.1 hw, matching_group] at hwh
        split_ifs at hwh
        cases hwh
      · cases hw
    rw [classed, Bool.or_eq_true]
    refine .inr (any_eq_true.2 ⟨⟨who, w.type, w.mask⟩, mem_filterMap.2 ⟨w, ?_, ?_⟩, by simpa using hc⟩)
    · simp [converted, hw]
    · rw [rule, hwh, map_some]

end

theorem permitted_appendPosixACL (isDir : Bool) (acl : RichAcl) (hk : ∀ a ∈ acl.aceList, a.isInheritOnly)
    (hs : posix.list.Pairwise PosixEntry.Before) :
    (acl.appendPosixACL posix isDir).permitted r = posixMask isDir (posix.convertedRights r) := by
  unfold appendPosixACL convertedRights
  by_cases hmi : posix.minimalAcl
  · rw [if_pos hmi, if_pos hmi]
    have hr : r.rules acl.aceList = [] := r.rules_inheritOnly hk
    have hm : (masked ||| writeThrough) &&& masked != 0 := by decide
    have ht : (masked ||| writeThrough) &&& writeThrough != 0 := by decide
    simp only [permitted, has, hm, ht, Bool.not_true, Bool.false_eq_true, if_false, if_true, listed, hr,
      granted_nil, Requester.classed, any_nil, Bool.or_false, decide_eq_true_eq]
    split_ifs
    · rfl
    · rw [posixMask_zero]
      exact zero_and
    · rfl
  · rw [if_neg hmi, if_neg hmi]
    obtain ⟨denies, hli, hon, ha⟩ := isolated (isolation_classEntries isDir posix hk hs) ⟨rfl, rfl⟩ ⟨rfl, rfl⟩
      (fun w hw => by
        obtain ⟨e, -, hw⟩ := mem_flatMap.1 hw
        obtain ⟨-, -, -, ⟨-, hf⟩ | ⟨-, hf⟩⟩ := mem_namedAce isDir hw <;> rw [Ace.has, hf] <;> rfl)
      ⟨rfl, rfl⟩ (rfl : (otherAce isDir posix).mask = posixMask isDir posix.other)
    have hc : Converts isDir posix acl.aceList denies :=
      ⟨isolation_classEntries isDir posix hk hs, hon, ha⟩
    have hli' : isolateGroupClass 0 (posixMask isDir posix.other) (isolateWho ⟨0, specialWho, 0, 0⟩
        (posixMask isDir posix.other) (acl.aceList ++ [⟨0, specialWho, posixMask isDir posix.owner, 0⟩,
          ⟨0, specialWho, posixMask isDir posix.group, 1⟩] ++ posix.list.flatMap (namedAce isDir) ++
          [⟨0, specialWho, posixMask isDir posix.other, 2⟩])) = converted isDir posix acl.aceList denies := by
      rw [append_assoc acl.aceList]
      exact hli
    simp only [hli', hc.allowedToWho.1, hc.allowedToWho.2]
    have hg := hc.granted_rules r
    by_cases hmas : posix.mask = maskUnset
    · have hm : ¬ ((0 : BitVec 16) &&& masked != 0) := by decide
      simp only [hmas, if_true, ne_eq, not_true_eq_false, and_false, if_false, permitted, has, hm, listed, groupLimit,
        Bool.not_false, AccessControlList.applyMask]
      exact hg
    · have hm : (masked &&& masked != 0) := by decide
      have ht : (masked &&& writeThrough != 0) = false := by decide
      simp only [hmas, if_false, permitted, has, hm, ht, Bool.not_true, Bool.false_eq_true, listed, groupLimit,
        if_true, ne_eq, not_false_eq_true, and_true, AccessControlList.applyMask]
      by_cases ho : r.uid = r.ownerUid
      · obtain ⟨l, hl⟩ := rules_owner r hc ho
        rw [if_pos ho, if_pos ho, hl, granted, if_neg (show ¬ (0 : BitVec 2) = 1 by decide), limited,
          if_neg fun h => Who.noConfusion h.1]
        refine eq_of_getLsbD_eq fun i _ => ?_
        rw [getLsbD_and, getLsbD_or]
        cases (posixMask isDir posix.owner).getLsbD i <;> simp
      · rw [if_neg ho, if_neg ho, classed_iff_matched r hc ho]
        cases hma : posix.matched r with
        | false =>
          rw [rules_unmatched r hc hma, if_neg Bool.false_ne_true, if_neg Bool.false_ne_true, granted,
            if_neg (show ¬ (0 : BitVec 2) = 1 by decide), limited, if_neg fun h =>
              Who.noConfusion h.1, granted_nil]
          exact (congrArg (· &&& _) zero_or).trans and_self
        | true =>
          rw [hma, if_pos rfl] at hg
          rw [if_pos rfl, if_pos rfl, granted_and_limit, hg, posixMask_and]

end Convert

end RichAcl

/-! ## Effective rights and converted rights -/

namespace AccessControlList

variable {acl : AccessControlList} {r : Requester} {e : PosixEntry}

theorem mem_of_getEntry {type : BitVec 4} {id : UInt32} (h : acl.getEntry type id = some e) :
    e ∈ acl.list ∧ e.type = type ∧ e.id = id := by
  obtain ⟨hh, hf⟩ := filter_eq_some_iff.1 h
  refine ⟨(dropWhile_sublist _).subset (mem_of_mem_head? hh), ?_⟩
  simpa [isFor] using hf

theorem getEntry_of_mem (hs : acl.list.Pairwise Before) (he : e ∈ acl.list) : acl.getEntry e.type e.id = some e := by
  have hh : (acl.list.dropWhile fun x => x.Before ⟨e.type, e.id, 0⟩).head? = some e := by
    generalize acl.list = l at hs he
    induction l with
    | nil => cases he
    | cons x l ih =>
      rcases mem_cons.1 he with rfl | he
      · have hi : ¬ e.Before ⟨e.type, e.id, 0⟩ := by
          rintro (h | ⟨-, h⟩)
          · exact BitVec.lt_irrefl _ h
          · exact UInt32.lt_irrefl _ h
        rw [dropWhile_cons_of_neg (by simpa using hi), head?_cons]
      · have hx : x.Before e := rel_of_pairwise_cons hs he
        have hb : x.Before ⟨e.type, e.id, 0⟩ := hx
        rw [dropWhile_cons_of_pos (by simpa using hb), ih hs.of_cons he]
  rw [getEntry, hh, filter_some, if_pos (by simp [isFor])]

variable {l : List PosixEntry} {i : ℕ} {m : BitVec 4}

theorem getLsbD_foldr_rights : (l.foldr (fun e rights => e.accessRights ||| rights) (0 : BitVec 4)).getLsbD i =
    l.any (·.accessRights.getLsbD i) := by
  induction l with
  | nil => simp
  | cons e l ih => rw [foldr_cons, getLsbD_or, ih, any_cons]

theorem getLsbD_foldl_rights {rights : BitVec 4} :
    (l.foldl (fun rights e => rights ||| e.accessRights) rights).getLsbD i =
      (rights.getLsbD i || l.any (·.accessRights.getLsbD i)) := by
  induction l generalizing rights with
  | nil => simp
  | cons e l ih => rw [foldl_cons, ih, getLsbD_or, any_cons, Bool.or_assoc]

theorem within_applyMask {a b : BitVec 4} (h : Within a b) : Within (acl.applyMask a) (acl.applyMask b) := by
  unfold applyMask
  split_ifs
  · exact h
  · rw [within_iff] at h ⊢
    intro i hi
    rw [getLsbD_and, Bool.and_eq_true] at hi ⊢
    exact ⟨h i hi.1, hi.2⟩

theorem rights_within_matching (he : e ∈ acl.list) (ha : appliesTo r e) :
    Within e.accessRights (acl.matchingRights r) := by
  rw [within_iff]
  intro i hi
  rw [matchingRights, getLsbD_or, getLsbD_foldr_rights, Bool.or_eq_true]
  exact .inr (any_eq_true.2 ⟨e, mem_filter.2 ⟨he, ha⟩, hi⟩)

theorem appliesTo_user (ht : e.type = namedUser) (hi : e.id = r.uid) : appliesTo r e := by
  simp [appliesTo, ht, hi]

theorem appliesTo_group (ht : e.type = namedGroup) (hi : e.id ∈ r.groups) : appliesTo r e := by
  simp [appliesTo, ht, hi]

theorem effective_of_unmatched (h : acl.matched r = false) :
    acl.getEffectiveRights r = acl.other ∧ acl.matchingRights r = 0 := by
  simp only [matched, Bool.or_eq_false_iff, decide_eq_false_iff_not, List.any_eq_false] at h
  obtain ⟨⟨ho, hgr⟩, hl⟩ := h
  have hu : acl.getEntry namedUser r.uid = none := eq_none_iff_forall_ne_some.2 fun e he =>
    let ⟨hm, ht, hi⟩ := mem_of_getEntry he
    hl e hm (appliesTo_user ht hi)
  have hf : r.groups.filterMap (acl.getEntry namedGroup) = [] := by
    refine filterMap_eq_nil_iff.2 fun g hg => eq_none_iff_forall_ne_some.2 fun e he => ?_
    obtain ⟨hm, ht, hi⟩ := mem_of_getEntry he
    exact hl e hm (appliesTo_group ht (hi ▸ hg))
  constructor
  · rw [getEffectiveRights, if_neg fun h => ho h.symm, hu]
    simp [hf, hgr]
  · rw [matchingRights, if_neg ho, if_neg hgr, List.filter_eq_nil_iff.2 hl]
    rfl

theorem effective_within (hs : acl.list.Pairwise Before) (h : acl.matched r)
    (hma : ¬ (r.uid = r.ownerUid ∧ acl.mask ≠ maskUnset)) :
    Within (acl.getEffectiveRights r) (acl.applyMask (acl.matchingRights r)) := by
  unfold getEffectiveRights
  by_cases ho : r.uid = r.ownerUid
  · have hun : acl.mask = maskUnset := by_contra fun hn => hma ⟨ho, hn⟩
    rw [if_pos ho, applyMask, if_pos hun, within_iff]
    intro i hi
    rw [matchingRights, if_pos ho.symm, getLsbD_or, getLsbD_or, hi, Bool.true_or, Bool.true_or]
  rw [if_neg ho]
  cases hu : acl.getEntry namedUser r.uid with
  | some e =>
    obtain ⟨hm, ht, hid⟩ := mem_of_getEntry hu
    exact within_applyMask (rights_within_matching hm (appliesTo_user ht hid))
  | none =>
    -- somebody who is neither the owner nor a named user is there by a group
    have hgr : r.ownerGid ∈ r.groups ∨ r.groups.filterMap (acl.getEntry namedGroup) ≠ [] := by
      simp only [matched, Bool.or_eq_true, decide_eq_true_eq, List.any_eq_true] at h
      rcases h with (h | h) | ⟨e, he, h⟩
      · exact absurd h.symm ho
      · exact .inl h
      · have hge := getEntry_of_mem hs he
        simp only [appliesTo, Bool.or_eq_true, Bool.and_eq_true, decide_eq_true_eq] at h
        rcases h with ⟨ht, hid⟩ | ⟨ht, hid⟩
        · rw [ht, hid, hu] at hge
          cases hge
        · rw [ht] at hge
          exact .inr (ne_nil_of_mem (mem_filterMap.2 ⟨_, hid, hge⟩))
    rw [if_pos hgr]
    refine within_applyMask (within_iff.2 fun i hi => ?_)
    rw [getLsbD_foldl_rights, Bool.or_eq_true, List.any_eq_true] at hi
    rcases hi with hi | ⟨e, he, hi⟩
    · rw [matchingRights, getLsbD_or, getLsbD_or, hi, Bool.or_true, Bool.true_or]
    · obtain ⟨g, hg, hge⟩ := mem_filterMap.1 he
      obtain ⟨hm, ht, hid⟩ := mem_of_getEntry hge
      exact within_iff.1 (rights_within_matching hm (appliesTo_group ht (hid ▸ hg))) i hi

/-- the condition under which a request is decided as the effective rights say -/
def Enforced (acl : AccessControlList) (r : Requester) (m : BitVec 4) : Prop :=
  if acl.minimalAcl then r.uid = r.ownerUid ∨ r.ownerGid ∉ r.groups ∨ ¬ Within m acl.group
  else (r.uid = r.ownerUid ∧ acl.mask ≠ maskUnset) ∨
    (Within m (acl.applyMask (acl.matchingRights r)) → Within m (acl.getEffectiveRights r))

theorem effective_of_minimal (h : acl.minimalAcl) : acl.getEffectiveRights r =
      if r.uid = r.ownerUid then acl.owner else if r.ownerGid ∈ r.groups then acl.group else acl.other := by
  simp only [minimalAcl, Bool.and_eq_true, decide_eq_true_eq, List.isEmpty_iff] at h
  have hn (type : BitVec 4) (id : UInt32) : acl.getEntry type id = none := by
    rw [getEntry, h.2]
    rfl
  have hf : r.groups.filterMap (acl.getEntry namedGroup) = [] := filterMap_eq_nil_iff.2 fun g _ => hn _ g
  rw [getEffectiveRights, hn]
  simp only [hf, ne_eq, not_true_eq_false, or_false, foldl_nil, applyMask, h.1, if_true]
  split_ifs <;> rfl

theorem within_zero (hm : m ≠ 0) : ¬ Within m 0 := by
  revert m
  decide

theorem Within.trans {w : ℕ} {a b c : BitVec w} (h : Within a b) (h' : Within b c) : Within a c :=
  within_iff.2 fun i hi => within_iff.1 h' i (within_iff.1 h i hi)

theorem converted_iff_enforced (hs : acl.list.Pairwise Before) (hm : m ≠ 0) :
    (Within m (acl.convertedRights r) ↔ Within m (acl.getEffectiveRights r)) ↔ acl.Enforced r m := by
  unfold convertedRights Enforced
  by_cases hmi : acl.minimalAcl
  · rw [if_pos hmi, if_pos hmi, effective_of_minimal hmi]
    by_cases ho : r.uid = r.ownerUid
    · simp [ho]
    by_cases hg : r.ownerGid ∈ r.groups
    · rw [if_neg ho, if_neg ho, if_pos hg, if_pos hg, iff_false_left (within_zero hm),
        or_iff_right ho, or_iff_right (not_not.2 hg)]
    · simp [ho, hg]
  · rw [if_neg hmi, if_neg hmi]
    by_cases ho : r.uid = r.ownerUid ∧ acl.mask ≠ maskUnset
    · rw [if_pos ho, getEffectiveRights, if_pos ho.1]
      exact iff_of_true Iff.rfl (.inl ho)
    · rw [if_neg ho, or_iff_right ho]
      cases hma : acl.matched r with
      | true =>
        have hw := effective_within hs hma ho
        exact ⟨fun h => h.1, fun h => ⟨h, fun he => Within.trans he hw⟩⟩
      | false =>
        obtain ⟨hef, hz⟩ := effective_of_unmatched hma
        rw [if_neg Bool.false_ne_true, hef, hz]
        refine iff_of_true Iff.rfl fun h => absurd h ?_
        have ha : acl.applyMask 0 = 0 := by
          unfold applyMask
          split_ifs
          · rfl
          · exact zero_and
        rw [ha]
        exact within_zero hm

end AccessControlList

/-! ## Access lists -/

theorem access_setAccess (c : FsContext) (n : FSNode) (posix : AccessControlList) (ts : UInt32)
    (hs : posix.list.Pairwise Before) {m : BitVec 4} (hm : m ≤ 7) : fsnodesAccess c { n with
        mode := (n.setPosixAcl false posix).1
        acl := some (n.setPosixAcl false posix).2
        ctime := ts }
      (m.setWidth 16) = (c.unchecked || decide (Within m (posix.convertedRights (c.asks n)))) := by
  have hk : ∀ a ∈ ((n.aclWithout false).getD ⟨0, 0, 0, 0, []⟩).aceList, a.isInheritOnly := by
    unfold FSNode.aclWithout
    cases n.acl with
    | none => simp
    | some acl =>
      intro a ha
      simpa using (mem_filter.1 ha).2
  have hp := RichAcl.permitted_appendPosixACL (c.asks n) n.isDirectory _ hk hs
  refine (fsnodesAccess_of_acl rfl _).trans (congrArg (c.unchecked || ·) (decide_eq_decide.2 ?_))
  refine Iff.trans ?_ (RichAcl.within_posixMask n.isDirectory hm _)
  rw [← hp]
  rfl

namespace Metadata

/-- **POSIX lists.** After an access list has been set, a request is decided as the effective rights say, exactly if the
list has entries or the requester is not there by the group, and nothing is added to what a named user or an owner
without a mask may do. -/
theorem posix_acl_enforced (cfg : Config) (t : Metadata) (ts : UInt32) (p : Inode) (n : FSNode) (a : AccessControlList)
    (c : FsContext) (m : BitVec 4) (hget : t.nodes.get p = some n) (hsorted : a.list.Pairwise Before)
    (huid : c.uid ≠ 0) (hm : 1 ≤ m ∧ m ≤ 7) :
    ∃ u n', t.fsnodesSetPosixAcl cfg ts p n false a = .ok u ∧ u.nodes.get p = some n' ∧
      ((fsnodesAccess c n' (m.setWidth 16) ↔ Within m (a.getEffectiveRights (c.asks n))) ↔
        if (c.session.map Session.noMasterPermCheck).getD false then Within m (a.getEffectiveRights (c.asks n))
        else a.Enforced (c.asks n) m) := by
  refine ⟨_, _, fsnodesSetPosixAcl_eq_ok.2 ⟨rfl, rfl⟩, get_setAcl ts hget _ _, ?_⟩
  have hne : m ≠ 0 := by
    rintro rfl
    exact absurd hm.1 (by decide)
  have hunchecked : c.unchecked = (c.session.map Session.noMasterPermCheck).getD false := by
    rw [FsContext.unchecked, beq_false_of_ne huid, Bool.or_false]
  rw [access_setAccess c n a ts hsorted hm.2, hunchecked, Bool.or_eq_true, decide_eq_true_eq]
  cases (c.session.map Session.noMasterPermCheck).getD false with
  | true => simp
  | false => simpa using converted_iff_enforced hsorted hne

/-- the mask keeps a named user from writing -/
theorem posix_acl_enforced_named : let n := { groupDirectory 0o600 with data := .file ⟨.live, 0, [], []⟩ }
    let named : AccessControlList := ⟨[⟨namedUser, 7, 6⟩, ⟨namedGroup, 4, 7⟩], 6, 4, 0, 4⟩
    ∃ u n', (withDirectory n).fsnodesSetPosixAcl .unlimited 1 rootInode n false named = .ok u ∧
      u.nodes.get rootInode = some n' ∧ ¬fsnodesAccess (memberOf 3) n' modeMaskW := by
  intro n named
  obtain ⟨u, n', hset, hget, hiff⟩ := posix_acl_enforced .unlimited (withDirectory n) 1 rootInode n named (memberOf 3) 2
    rfl (by decide) (by decide) (by decide)
  have hw : named.Enforced ((memberOf 3).asks n) 2 := .inr fun h => absurd h (by decide)
  exact ⟨u, n', hset, hget, fun h => absurd ((hiff.2 hw).1 h) (by decide)⟩

/-- **Too little and too much.** A member of the group is refused what a minimal list gives to the group, and a named
user who may read gets the permission to write from a group. -/
theorem posix_acl_differs : let n := { groupDirectory 0o600 with data := .file ⟨.live, 0, [], []⟩ }
    let minimal : AccessControlList := ⟨[], 6, 4, 0, maskUnset⟩
    let named : AccessControlList := ⟨[⟨namedUser, 7, 4⟩], 6, 6, 0, 7⟩
    ∃ u n' v n'', (withDirectory n).fsnodesSetPosixAcl .unlimited 1 rootInode n false minimal = .ok u ∧
      u.nodes.get rootInode = some n' ∧
      minimal.getEffectiveRights ((memberOf 9).asks n) = 4 ∧ fsnodesAccess (memberOf 9) n' modeMaskR = false ∧
      (withDirectory n).fsnodesSetPosixAcl .unlimited 1 rootInode n false named = .ok v ∧
        v.nodes.get rootInode = some n'' ∧
      named.getEffectiveRights ((memberOf 9).asks n) = 4 ∧ fsnodesAccess (memberOf 9) n'' modeMaskW :=
  ⟨_, _, _, _, rfl, rfl, by decide, by decide, rfl, rfl, by decide, by decide⟩

end Metadata

end SaunaFS.Namespace
