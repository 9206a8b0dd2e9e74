/-
Lock ranges (`master/locks.h`, `master/locks.cc`): a half-open interval of file offsets with a lock type and the sorted
vector of its owners, and `LockRanges`, the ranges of one inode. Offsets, owner ids and session ids are only compared.

`insert` is a loop that inserts into the vector it walks. `visit` is its body, `insertLoop` the loop on the elements
from the iterator to `end`; it also says whether every assertion held and whether the loop came to its end.
-/
import SaunaFS.Lib.SortedSearch

namespace SaunaFS.Locks

open SortedSearch

/-! ## Ranges and their owners -/

/-- `LockRange::Owner`: the fields `owner` and `sessionid` identify it, `reqid` and `msgid` serve interrupts only -/
structure Owner where
  owner : ℕ
  sessionid : ℕ
  reqid : ℕ
  msgid : ℕ
deriving DecidableEq

/-- what `Owner::operator==` and `operator<` compare -/
def Owner.key (o : Owner) : ℕ ×ₗ ℕ := toLex (o.owner, o.sessionid)

instance lawfulBEqKey : LawfulBEq (ℕ ×ₗ ℕ) := inferInstance

inductive LockType where
  | invalid
  | unlock
  | shared
  | exclusive
deriving DecidableEq

structure LockRange where
  type : LockType
  start : ℕ
  end_ : ℕ
  owners : List Owner
deriving DecidableEq

/-- `operator==` on two owner vectors: same length, equal element by element -/
def sameOwners (a b : List Owner) : Bool := decide (a.map Owner.key = b.map Owner.key)

namespace LockRange

@[simps]
def single (type : LockType) (start end_ : ℕ) (first : Owner) : LockRange := ⟨type, start, end_, [first]⟩

def overlaps (r other : LockRange) : Bool := decide (r.start < other.end_) && decide (other.start < r.end_)

def sticks (r other : LockRange) : Bool := decide (r.start = other.end_) || decide (other.start = r.end_)

variable (r : LockRange)

def isShared : Bool := decide (r.type = .shared)

def unlocking : Bool := decide (r.type = .unlock) || r.owners.isEmpty

def markUnlocking : LockRange := { r with type := .unlock }

def eraseOwner (candidate : Owner) : LockRange := { r with owners := eraseBy Owner.key r.owners candidate.key }

def addOwners (other : List Owner) : LockRange :=
  { r with owners := uniqueBy Owner.key (mergeBy Owner.key r.owners other) }

/-- `operator<` on ranges, the order of the pending queue -/
def queueKey : ℕ ×ₗ ℕ := toLex (r.start, r.end_)

end LockRange

/-! ## Collisions -/

variable (range other : LockRange)

/-- the test in the loop of `findCollision` -/
def collides : Bool :=
  range.overlaps other && (!range.isShared || !other.isShared) && !sameOwners other.owners range.owners

variable (data : List LockRange)

def findCollision (range : LockRange) : Option LockRange :=
  if range.unlocking then none
  else (window LockRange.start data range.start range.end_).inside.find? (collides range)

def fits (range : LockRange) : Bool := (findCollision data range).isNone

/-! ## Insertion -/

/-- the piece of `other` covered by `range`, retyped or with the owners of `range` added or removed -/
def absorb : LockRange :=
  if sameOwners range.owners other.owners then { other with type := range.type }
  else if range.unlocking then
    match range.owners with
    | o :: _ => other.eraseOwner o
    | [] => other
  else other.addOwners range.owners

/-- how one pass of the loop ends: on to the element after `other`, on to `other` again behind the piece `tmp` that was
inserted before it, or out of the loop -/
inductive Pass where
  | next (range other : LockRange)
  | again (range tmp other : LockRange)
  | leave
deriving DecidableEq

/-- the body of the loop of `LockRanges::insert` -/
def visit : Pass :=
  if range.sticks other && sameOwners range.owners other.owners && range.type == other.type then
    .next { range with start := min range.start other.start, end_ := max range.end_ other.end_ } other.markUnlocking
  else if range.end_ ≤ other.start then .leave
  else if !range.overlaps other then .next range other
  else if range.start < other.start then
    .again { range with start := other.start } { range with end_ := other.start } other
  else if range.start = other.start then
    if range.end_ < other.end_ then
      .again { range with start := other.end_ } (absorb range { other with end_ := range.end_ })
        { other with start := range.end_ }
    else .next { range with start := other.end_ } (absorb range other)
  else .again range { other with end_ := range.start } { other with start := range.start }

/-- the assertions a pass evaluates: the owners test where the ranges overlap, and `owner()` inside `eraseOwner` -/
def visitAsserts : Bool :=
  if range.sticks other && sameOwners range.owners other.owners && range.type == other.type then true
  else if range.end_ ≤ other.start then true
  else if !range.overlaps other then true
  else (sameOwners range.owners other.owners || (range.isShared && other.isShared) || range.unlocking) &&
    (decide (range.start ≠ other.start) || sameOwners range.owners other.owners || !range.unlocking ||
      decide (range.owners.length = 1))

/-- the elements from the iterator on after the loop, whether the assertions held, and whether the loop ended -/
structure Inserted where
  data : List LockRange
  asserts : Bool
  ended : Bool
deriving DecidableEq

def insertLoop : ℕ → LockRange → List LockRange → Inserted
  | 0, _, rest => ⟨rest, true, false⟩
  | fuel + 1, range, rest =>
    match rest with
    | [] => ⟨if range.start < range.end_ then [range] else [], true, true⟩
    | other :: rest =>
      if range.start < range.end_ then
        match visit range other with
        | .next range' other' =>
          let r := insertLoop fuel range' rest
          ⟨other' :: r.data, visitAsserts range other && r.asserts, r.ended⟩
        | .again range' tmp other' =>
          let r := insertLoop fuel range' (other' :: rest)
          ⟨tmp :: r.data, visitAsserts range other && r.asserts, r.ended⟩
        | .leave => ⟨range :: other :: rest, visitAsserts range other, true⟩
      else ⟨other :: rest, true, true⟩

/-- the loop over the window, with fuel for two passes over every element and the test that ends it -/
def insertWindow (range : LockRange) : Inserted :=
  let inside := (window LockRange.start data range.start range.end_).inside
  insertLoop (2 * inside.length + 2) range inside

def insert (range : LockRange) : List LockRange :=
  let w := window LockRange.start data range.start range.end_
  w.before ++ (insertWindow data range).data.filter (fun r => !r.unlocking) ++ w.after

end SaunaFS.Locks
