/-
The rights that the master grants to a new session (`exports_check` of `master/exports.cc`).
-/
import SaunaFS.Lib.RunningChoice

namespace SaunaFS.Exports

open RunningChoice

/-! ## Records and clients -/

/-- what a session is granted, with the values of a line without options -/
structure Rights where
  sesflags : BitVec 8 := 0x01
  rootuid : ℕ := 999
  rootgid : ℕ := 999
  mapalluid : ℕ := 999
  mapallgid : ℕ := 999
  mingoal : ℕ := 1
  maxgoal : ℕ := 40
  mintrashtime : ℕ := 0
  maxtrashtime : ℕ := 2 ^ 32 - 1
deriving DecidableEq

/-- `exports`, a line of the configuration; the path has no slash at its ends, and `pleng` is its length -/
structure Export extends Rights where
  path : List UInt8 := []
  fromip : ℕ := 0
  toip : ℕ := 0
  minversion : ℕ := 0
  passworddigest : List UInt8 := []
  alldirs : Bool := false
  needpassword : Bool := false
  isMeta : Bool := false
deriving DecidableEq

/-- the arguments of `exports_check` about the client -/
structure Client where
  ip : ℕ
  version : ℕ
  isMeta : Bool := false
  path : List UInt8 := []
  rndcode : Option (List UInt8) := none
  passcode : Option (List UInt8) := none

inductive Status where
  | nopassword
  | badpassword
  | eacces
deriving DecidableEq

namespace Client

variable (c : Client)

/-- the path without slashes at its ends; there is none for the meta file system -/
def strippedPath : List UInt8 :=
  if c.isMeta then [] else ((c.path.dropWhile (· == 47)).reverse.dropWhile (· == 47)).reverse

def rndstate : UInt8 := (c.rndcode.getD []).foldl (· ||| ·) 0

/-- the client has given no proof of a password -/
def lacksProof : Bool := c.rndstate == 0 || c.rndcode.isNone || c.passcode.isNone

end Client

namespace Export

variable (md5 : List UInt8 → List UInt8) (c : Client) (e f : Export)

def pleng : ℕ := e.path.length

def readonly : Bool := e.sesflags &&& 0x01 != 0

def allcanchangequota : Bool := e.sesflags &&& 0x08 != 0

def admits : Bool :=
  decide (e.fromip ≤ c.ip) && decide (c.ip ≤ e.toip) && decide (e.minversion ≤ c.version) && c.isMeta == e.isMeta

/-- the path is the exported one or, with `alldirs`, one below it -/
def pathMatches : Bool :=
  if c.isMeta then true
  else if e.pleng = 0 then c.strippedPath.length == 0 || e.alldirs
  else
    c.strippedPath == e.path ||
      (e.alldirs && decide (e.pleng < c.strippedPath.length) && c.strippedPath[e.pleng]? == some 47 &&
        c.strippedPath.take e.pleng == e.path)

/-- the proof is the digest of the challenge with the digest of the password in its middle -/
def provedBy : Bool :=
  !c.lacksProof &&
    md5 ((c.rndcode.getD []).take 16 ++ e.passworddigest ++ ((c.rndcode.getD []).drop 16).take 16) == c.passcode.getD []

/-- the record applies but for its password -/
def refuses : Bool := e.admits c && e.pathMatches c && e.needpassword && !e.provedBy md5 c

def accepts : Bool := e.admits c && e.pathMatches c && (!e.needpassword || e.provedBy md5 c)

/-- the tests that let the record `e` replace the record `f` -/
def beats : Bool :=
  if !e.readonly && f.readonly then true
  else if e.rootuid == 0 && f.rootuid != 0 then true
  else if e.allcanchangequota && !f.allcanchangequota then true
  else if e.needpassword && !f.needpassword then true
  else decide (f.pleng < e.pleng)

/-- the order of preference: read-write, unrestricted root, quota, password, longer path -/
def rank : Bool ×ₗ Bool ×ₗ Bool ×ₗ Bool ×ₗ ℕ :=
  toLex (!e.readonly, toLex (e.rootuid == 0, toLex (e.allcanchangequota, toLex (e.needpassword, e.pleng))))

end Export

open Export

/-! ## The check -/

section

variable (md5 : List UInt8 → List UInt8) (c : Client) (records : List Export)

/-- one turn of the loop: `nopass` and `f` -/
def considered (s : Bool × Option Export) (e : Export) : Bool × Option Export :=
  (s.1 || e.refuses md5 c, if e.accepts md5 c then choose beats s.2 e else s.2)

/-- the record that the loop ends with -/
def exportsRecord : Option Export := (records.foldl (considered md5 c) (false, none)).2

def exportsCheck : Except Status Rights :=
  match exportsRecord md5 c records with
  | some f => .ok f.toRights
  | none =>
    if (records.foldl (considered md5 c) (false, none)).1 then
      .error (if c.lacksProof then .nopassword else .badpassword)
    else .error .eacces

def matching : List Export := records.filter (·.accepts md5 c)

end

/-! ## The record granted -/

theorem respects_rank : Respects rank beats where
  of_lt {e f} h := by
    unfold rank at h
    simp only [Prod.Lex.toLex_lt_toLex, Bool.lt_iff] at h
    unfold beats
    grind
  congr {e f f'} h := by
    unfold rank at h
    simp only [EmbeddingLike.apply_eq_iff_eq, Prod.mk.injEq] at h
    unfold beats
    grind
  irrefl e := by
    unfold beats
    grind

variable {md5 : List UInt8 → List UInt8} {c : Client}

theorem foldl_considered {records : List Export} {s : Bool × Option Export} :
    (records.foldl (considered md5 c) s).2 = (matching md5 c records).foldl (choose beats) s.2 := by
  induction records generalizing s with
  | nil => rfl
  | cons e records ih =>
    rw [List.foldl_cons, ih]
    unfold considered matching
    rw [List.filter_cons]
    split_ifs <;> rfl

/-- **The record granted.** It matches, and it is a best one for the order of preference exactly if some best record is
beaten on no criterion by a record behind it; lines that meet this in two orders grant records of one rank. -/
theorem exportsCheck_best_iff (md5 : List UInt8 → List UInt8) (c : Client) (records : List Export) :
    (∀ f ∈ exportsRecord md5 c records,
      f ∈ matching md5 c records ∧ exportsCheck md5 c records = .ok f.toRights) ∧
    (exportsRecord md5 c records = none ↔ matching md5 c records = []) ∧
    ((∀ f ∈ exportsRecord md5 c records, Best rank (matching md5 c records) f) ↔
      Settles rank beats (matching md5 c records)) ∧
    ∀ records', records.Perm records' → Settles rank beats (matching md5 c records) →
      Settles rank beats (matching md5 c records') →
      (exportsRecord md5 c records).map rank = (exportsRecord md5 c records').map rank := by
  have hrecord (records) : exportsRecord md5 c records = (matching md5 c records).foldl (choose beats) none :=
    foldl_considered
  refine ⟨fun f hf => ⟨?_, ?_⟩, ?_, ?_, fun records' hperm h h' => ?_⟩
  · exact mem_of_choice ((hrecord records).symm.trans hf)
  · rw [exportsCheck, hf]
  · rw [hrecord]
    exact choice_eq_none
  · rw [hrecord]
    exact best_iff_settles respects_rank
  · rw [hrecord, hrecord]
    exact rank_eq_of_perm respects_rank (hperm.filter _) h h'

/-- the line `* / rw` -/
def mappedRoot : Export := { sesflags := 0, toip := 2 ^ 32 - 1 }

/-- the line `* / ro,maproot=0` -/
def readOnlyRoot : Export := { rootuid := 0, rootgid := 0, toip := 2 ^ 32 - 1 }

/-- the lines in this order grant the read-write one -/
theorem exportsCheck_best_iff_readOnlyRoot : Best rank [readOnlyRoot, mappedRoot] mappedRoot ∧
      exportsCheck id { ip := 1, version := 1 } [readOnlyRoot, mappedRoot] = .ok mappedRoot.toRights := by
  obtain ⟨hmatches, -, hbest, -⟩ := exportsCheck_best_iff id { ip := 1, version := 1 } [readOnlyRoot, mappedRoot]
  refine ⟨hbest.2 (fun _ => ⟨[readOnlyRoot], mappedRoot, [], rfl, ?_, by simp⟩) mappedRoot rfl,
    (hmatches mappedRoot rfl).2⟩
  unfold Best
  decide

/-- **Order of lines.** The read-only line replaces the read-write one behind which it stands, and not in front of
it. -/
theorem exportsCheck_depends_on_order : let c : Client := { ip := 1, version := 1 }
    mappedRoot ∈ matching id c [mappedRoot, readOnlyRoot] ∧ readOnlyRoot.rank < mappedRoot.rank ∧
      exportsCheck id c [mappedRoot, readOnlyRoot] = .ok readOnlyRoot.toRights ∧
      exportsCheck id c [readOnlyRoot, mappedRoot] = .ok mappedRoot.toRights := by
  refine ⟨?_, ?_, ?_, ?_⟩
  · decide
  · decide
  · rfl
  · rfl

end SaunaFS.Exports
