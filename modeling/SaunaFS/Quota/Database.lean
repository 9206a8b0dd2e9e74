/-
The quota database of the master (`QuotaDatabase` of `master/quota_database.h`): the limits and the used amounts of
users, groups and inodes in one table, and its checksum, which only the limits enter.

The hash of an entry is a parameter. The tables are unordered in the source, and the checksum is an exclusive or, so
that the order of the entries does not matter.
-/
import SaunaFS.Namespace.Node

namespace SaunaFS.Quota

open List

open Namespace (QuotaResource Inode)

inductive QuotaRigor where
  | soft
  | hard
  | used
deriving DecidableEq

inductive QuotaOwnerType where
  | user
  | group
  | inode
deriving DecidableEq

structure QuotaEntry where
  ownerType : QuotaOwnerType
  ownerId : UInt32
  rigor : QuotaRigor
  resource : QuotaResource
  limit : UInt64
deriving DecidableEq

structure Limits where
  softInodes : UInt64
  softSize : UInt64
  hardInodes : UInt64
  hardSize : UInt64
  usedInodes : UInt64
  usedSize : UInt64
deriving DecidableEq

namespace Limits

/-- a fresh record -/
def zero : Limits := ⟨0, 0, 0, 0, 0, 0⟩

/-- `limits[rigor][resource]` -/
def get (l : Limits) : QuotaRigor → QuotaResource → UInt64
  | .soft, .inodes => l.softInodes
  | .soft, .size => l.softSize
  | .hard, .inodes => l.hardInodes
  | .hard, .size => l.hardSize
  | .used, .inodes => l.usedInodes
  | .used, .size => l.usedSize

/-- `limits[rigor][resource] = value` -/
def set (l : Limits) (rigor : QuotaRigor) (resource : QuotaResource) (value : UInt64) : Limits :=
  match rigor, resource with
  | .soft, .inodes => { l with softInodes := value }
  | .soft, .size => { l with softSize := value }
  | .hard, .inodes => { l with hardInodes := value }
  | .hard, .size => { l with hardSize := value }
  | .used, .inodes => { l with usedInodes := value }
  | .used, .size => { l with usedSize := value }

variable {rigor : QuotaRigor} {resource : QuotaResource}

theorem get_zero : zero.get rigor resource = 0 := by
  cases rigor <;> cases resource <;> rfl

theorem get_set {l : Limits} {r : QuotaRigor} {s : QuotaResource} {value : UInt64} :
    (l.set rigor resource value).get r s = if r = rigor ∧ s = resource then value else l.get r s := by
  cases rigor <;> cases resource <;> cases r <;> cases s <;> rfl

end Limits

structure QuotaDatabase where
  data : QuotaOwnerType → FiniteTable UInt32 Limits

namespace QuotaDatabase

variable (db : QuotaDatabase) (ownerType : QuotaOwnerType) (ownerId : UInt32)

/-- nothing is limited and nothing used -/
def empty : QuotaDatabase := ⟨fun _ => .empty⟩

/-- the record of an owner; one that is not there counts as empty -/
def limitsOf : Limits := ((db.data ownerType).get ownerId).getD .zero

/-- one of the tables is replaced -/
def withTable (t : FiniteTable UInt32 Limits) : QuotaDatabase := ⟨Function.update db.data ownerType t⟩

def set (rigor : QuotaRigor) (resource : QuotaResource) (value : UInt64) : QuotaDatabase :=
  db.withTable ownerType ((db.data ownerType).set ownerId ((db.limitsOf ownerType ownerId).set rigor resource value))

/-- `update`; a negative delta wraps around -/
def update (rigor : QuotaRigor) (resource : QuotaResource) (delta : UInt64) : QuotaDatabase :=
  db.set ownerType ownerId rigor resource ((db.limitsOf ownerType ownerId).get rigor resource + delta)

def remove : QuotaDatabase := db.withTable ownerType ((db.data ownerType).erase ownerId)

def removeEmpty : QuotaDatabase :=
  if (db.data ownerType).get ownerId = some .zero then db.remove ownerType ownerId else db

/-- the part of one record in the checksum: its limits that are not zero -/
def recordHash (hash : QuotaEntry → XorWord 64) (l : Limits) : XorWord 64 :=
  (([QuotaRigor.soft, .hard].product [QuotaResource.inodes, .size]).map fun k =>
    if 0 < l.get k.1 k.2 then hash ⟨ownerType, ownerId, k.1, k.2, l.get k.1 k.2⟩ else 0).sum

/-- the number the checksum starts from -/
def checksumSeed : XorWord 64 := 0xcd13ca11bcb1beb5#64

def checksum (hash : QuotaEntry → XorWord 64) : XorWord 64 :=
  checksumSeed + ([QuotaOwnerType.user, .group, .inode].map fun o => (db.data o).sum (recordHash o · hash)).sum

/-! ## Limits -/

def SameLimits (db db' : QuotaDatabase) : Prop :=
  ∀ o id rigor resource, rigor ≠ .used → (db.limitsOf o id).get rigor resource = (db'.limitsOf o id).get rigor resource

variable {db ownerType ownerId} {o : QuotaOwnerType} {id : UInt32}

theorem limitsOf_withTable {t : FiniteTable UInt32 Limits} :
    (db.withTable ownerType t).limitsOf o id = if o = ownerType then (t.get id).getD .zero else db.limitsOf o id := by
  unfold limitsOf withTable
  by_cases ho : o = ownerType
  · subst ho
    simp
  · simp [ho]

theorem limitsOf_set {rigor : QuotaRigor} {resource : QuotaResource} {value : UInt64} :
    (db.set ownerType ownerId rigor resource value).limitsOf o id =
      if o = ownerType ∧ id = ownerId then (db.limitsOf ownerType ownerId).set rigor resource value
      else db.limitsOf o id := by
  rw [set, limitsOf_withTable, FiniteTable.get_set]
  by_cases ho : o = ownerType
  · subst ho
    by_cases hi : id = ownerId
    · simp [hi]
    · simp [hi, limitsOf]
  · simp [ho]

theorem limitsOf_remove : (db.remove ownerType ownerId).limitsOf o id =
      if o = ownerType ∧ id = ownerId then .zero else db.limitsOf o id := by
  rw [remove, limitsOf_withTable, FiniteTable.get_erase]
  by_cases ho : o = ownerType
  · subst ho
    by_cases hi : id = ownerId
    · simp [hi]
    · simp [hi, limitsOf]
  · simp [ho]

theorem limitsOf_removeEmpty : (db.removeEmpty ownerType ownerId).limitsOf o id = db.limitsOf o id := by
  unfold removeEmpty
  split_ifs with he
  · rw [limitsOf_remove]
    split_ifs with h
    · rw [limitsOf, h.1, h.2, he, Option.getD_some]
    · rfl
  · rfl

namespace SameLimits

variable {db' : QuotaDatabase}

section

variable (h : SameLimits db db')
include h

theorem symm : SameLimits db' db := fun o id rigor resource hr => (h o id rigor resource hr).symm

theorem trans {db'' : QuotaDatabase} (h' : SameLimits db' db'') : SameLimits db db'' :=
  fun o id rigor resource hr => (h o id rigor resource hr).trans (h' o id rigor resource hr)

theorem set (o : QuotaOwnerType) (id : UInt32) (rigor : QuotaRigor) (resource : QuotaResource)
    (value : UInt64) : SameLimits (db.set o id rigor resource value) (db'.set o id rigor resource value) := by
  intro o' id' r s hr
  rw [limitsOf_set, limitsOf_set]
  split_ifs
  · rw [Limits.get_set, Limits.get_set, h o id r s hr]
  · exact h o' id' r s hr

theorem removeEmpty (o : QuotaOwnerType) (id : UInt32) : SameLimits (db.removeEmpty o id) (db'.removeEmpty o id) := by
  intro o' id' r s hr
  rw [limitsOf_removeEmpty, limitsOf_removeEmpty]
  exact h o' id' r s hr

theorem remove (o : QuotaOwnerType) (id : UInt32) : SameLimits (db.remove o id) (db'.remove o id) := by
  intro o' id' r s hr
  rw [limitsOf_remove, limitsOf_remove]
  split_ifs
  · rfl
  · exact h o' id' r s hr

end

theorem update_used (db : QuotaDatabase) (o : QuotaOwnerType) (id : UInt32) (resource : QuotaResource)
    (delta : UInt64) : SameLimits (db.update o id .used resource delta) db := by
  intro o' id' r s hr
  rw [update, limitsOf_set]
  split_ifs with h
  · rw [Limits.get_set, if_neg fun hrs => hr hrs.1, h.1, h.2]
  · rfl

end SameLimits

/-! ## The checksum -/

section

variable (hash : QuotaEntry → XorWord 64)
include hash

theorem recordHash_zero : recordHash ownerType ownerId hash .zero = 0 := by
  unfold recordHash
  simp only [Limits.get_zero]
  refine sum_eq_zero fun x hx => ?_
  obtain ⟨_, -, rfl⟩ := mem_map.1 hx
  rfl

theorem recordHash_congr {l l' : Limits}
    (h : ∀ rigor resource, rigor ≠ .used → l.get rigor resource = l'.get rigor resource) :
    recordHash ownerType ownerId hash l = recordHash ownerType ownerId hash l' := by
  unfold recordHash
  congr 1
  refine map_congr_left fun k hk => ?_
  have hr : k.1 ≠ .used := by
    rcases mem_cons.1 (pair_mem_product.1 hk).1 with hk | hk
    · simp [hk]
    · simp [mem_singleton.1 hk]
  rw [h k.1 k.2 hr]

/-- **The checksum is one of the limits.** Neither what is used nor records without limits enter it. -/
theorem checksum_congr {db' : QuotaDatabase} (h : SameLimits db db') : db.checksum hash = db'.checksum hash := by
  unfold checksum
  congr 2
  refine map_congr_left fun o _ => ?_
  have hs : ∀ d : QuotaDatabase, ∀ K : Finset UInt32, (d.data o).keys ⊆ K →
      (d.data o).sum (recordHash o · hash) = ∑ id ∈ K, recordHash o id hash (d.limitsOf o id) := fun d K hK =>
    FiniteTable.sum_eq_sum_getD _ (fun id => recordHash_zero hash) hK
  rw [hs db _ Finset.subset_union_left, hs db' _ Finset.subset_union_right]
  exact Finset.sum_congr rfl fun id _ => recordHash_congr hash (h o id)

end

end QuotaDatabase

end SaunaFS.Quota
