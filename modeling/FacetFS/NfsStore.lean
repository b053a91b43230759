import FacetFS.GroupIndex
import FacetFS.NfsLockRange

/-! # The NFSv4 state store

Records live at addresses and the tables hold addresses, as the source's maps hold pointers.
An open, lock or delegation record is addressed by the counter in its stateid, a client by
its id. Counters are unbounded. Time is a number of clock ticks. -/
namespace NfsStore

open NfsSeqid NfsLockRange GroupIndex
open Function (update)

abbrev Bytes := List UInt8
abbrev ClientID := ℕ

def maxOpensPerClient : ℤ := 2 ^ 12
def maxOwnersPerClient : ℕ := 2 ^ 12
def maxLockRanges : ℕ := 2 ^ 12
def maxDelegationsPerClient : ℤ := 2 ^ 12

def shareRead : UInt32 := 1
def shareWrite : UInt32 := 2
def shareBoth : UInt32 := 3
def denyRead : UInt32 := 1
def denyBoth : UInt32 := 3

/-- The address of an owner: whose table it was created in, under which key, and a serial
number, since a released lock-owner may be created again. -/
structure OwnerRef where
  client : ClientID
  lock : Bool
  key : Bytes
  serial : ℕ
  deriving DecidableEq

structure Owner where
  confirmed : Bool
  seq : OwnerSeq

def Owner.new : Owner := ⟨false, .new⟩

structure Client where
  ownerID : Bytes
  verifier : UInt64
  confirmVerf : UInt64
  principal : String
  cbUp : Bool
  lastRenew : ℕ
  openOwners : AList fun _ : Bytes => ℕ
  lockOwners : AList fun _ : Bytes => ℕ
  opens : ℤ
  delegs : ℤ

inductive OpenFlag where
  | rdonly | wronly | rdwr
  deriving DecidableEq, Repr

def openFlags (access : UInt32) : OpenFlag :=
  if access &&& shareBoth = shareRead then .rdonly
  else if access &&& shareBoth = shareWrite then .wronly
  else .rdwr

/-- A file the FileSystem returned, and the access mode it was opened with. -/
structure OpenFile where
  handle : ℕ
  flag : OpenFlag
  deriving DecidableEq, Repr

structure OpenState where
  seq : UInt32
  client : ClientID
  owner : OwnerRef
  path : Path
  access : UInt32
  deny : UInt32
  file : Option OpenFile
  flag : OpenFlag

structure LockState where
  seq : UInt32
  client : ClientID
  owner : OwnerRef
  opened : ℕ
  path : Path
  ranges : List LockRange

structure Delegation where
  seq : UInt32
  client : ClientID
  path : Path
  recalling : Bool
  recallAt : ℕ

/-- The twelve bytes that identify a state: the server's epoch and a counter. -/
structure Other where
  epoch : UInt32
  count : ℕ
  deriving DecidableEq, Repr

def Other.special (other : Other) : Bool :=
  other = ⟨0, 0⟩ || other = ⟨2 ^ 32 - 1, 2 ^ 64 - 1⟩

/-- The open and lock tables with their indexes by path. -/
structure Tables where
  nextOther : ℕ
  opens : List ℕ
  openState : ℕ → OpenState
  byPath : Index Path ℕ
  locks : List ℕ
  lockState : ℕ → LockState
  locksByPath : Index Path ℕ
  stateOwners : ℕ → Option OwnerRef

namespace Tables

def findOpen (t : Tables) (p : Path) (o : OwnerRef) : Option ℕ :=
  (members t.byPath p).find? fun k => (t.openState k).owner = o

def shareConflict (t : Tables) (p : Path) (o : OwnerRef) (access deny : UInt32) : Bool :=
  (members t.byPath p).any fun k =>
    let held := t.openState k
    held.owner ≠ o && (access &&& held.deny ≠ 0 || deny &&& held.access ≠ 0)

def setOpen (t : Tables) (k : ℕ) (s : OpenState) : Tables :=
  { t with openState := update t.openState k s }

def installOpen (t : Tables) (s : OpenState) : Tables :=
  let k := t.nextOther + 1
  { t with
    nextOther := k
    opens := k :: t.opens
    openState := update t.openState k s
    byPath := add t.byPath s.path k
    stateOwners := update t.stateOwners k (some s.owner) }

def removeOpen (t : Tables) (k : ℕ) : Tables :=
  { t with
    opens := t.opens.filter (· ≠ k)
    byPath := drop t.byPath (t.openState k).path k }

def findLockState (t : Tables) (p : Path) (o : OwnerRef) : Option ℕ :=
  (members t.locksByPath p).find? fun l => (t.lockState l).owner = o

/-- The first conflicting range of another owner, with the state that holds it. -/
def lockConflict (t : Tables) (p : Path) (o : OwnerRef) (requested : LockRange) :
    Option (ℕ × LockRange) :=
  (members t.locksByPath p).findSome? fun l =>
    if (t.lockState l).owner = o then none
    else
      ((t.lockState l).ranges.find? fun held =>
        rangesOverlap held requested && (held.write || requested.write)).map fun held => (l, held)

def setLock (t : Tables) (l : ℕ) (s : LockState) : Tables :=
  { t with lockState := update t.lockState l s }

def installLock (t : Tables) (s : LockState) : Tables :=
  let l := t.nextOther + 1
  { t with
    nextOther := l
    locks := l :: t.locks
    lockState := update t.lockState l s
    locksByPath := add t.locksByPath s.path l
    stateOwners := update t.stateOwners l (some s.owner) }

def removeLock (t : Tables) (l : ℕ) : Tables :=
  { t with
    locks := t.locks.filter (· ≠ l)
    locksByPath := drop t.locksByPath (t.lockState l).path l }

def forgetOwner (t : Tables) (k : ℕ) : Tables :=
  { t with stateOwners := update t.stateOwners k none }

def locksBlockClose (t : Tables) (k : ℕ) : Bool :=
  (members t.locksByPath (t.openState k).path).any fun l =>
    (t.lockState l).opened = k && (t.lockState l).ranges ≠ []

/-- A read range needs read access, a write range write access. -/
def modeAllows (access : UInt32) (write : Bool) : Bool :=
  if write then access &&& shareWrite ≠ 0 else access &&& shareRead ≠ 0

def locksBlockDowngrade (t : Tables) (k : ℕ) (access : UInt32) : Bool :=
  (members t.locksByPath (t.openState k).path).any fun l =>
    (t.lockState l).opened = k && (t.lockState l).ranges.any fun r => !modeAllows access r.write

def removeEmptyLocksForOpen (t : Tables) (k : ℕ) : Tables :=
  (t.locks.filter fun l => (t.lockState l).opened = k && (t.lockState l).ranges = []).foldl
    (fun t l => (t.removeLock l).forgetOwner l) t

/-- What CLOSE keeps of an owner's closed stateids: the one closed now. -/
def forgetPriorClosed (t : Tables) (o : OwnerRef) (k : ℕ) : Tables :=
  { t with
    stateOwners := fun prior =>
      if prior ≠ k ∧ t.stateOwners prior = some o ∧ prior ∉ t.opens then none
      else t.stateOwners prior }

def releaseOpens (t : Tables) (c : ClientID) : Tables :=
  (t.opens.filter fun k => (t.openState k).client = c).foldl
    (fun t k => (t.removeOpen k).forgetOwner k) t

def forgetClient (t : Tables) (c : ClientID) : Tables :=
  { t with stateOwners := fun k => (t.stateOwners k).filter fun o => o.client ≠ c }

def releaseLocks (t : Tables) (c : ClientID) : Tables :=
  (t.locks.filter fun l => (t.lockState l).client = c).foldl removeLock t

def release (t : Tables) (c : ClientID) : Tables :=
  ((t.releaseOpens c).forgetClient c).releaseLocks c

end Tables

/-- The whole store. `closed` records the files that were closed, newest first. -/
structure Store extends Tables where
  lease : ℕ
  recallWait : ℕ
  epoch : UInt32
  readDelegations : Bool
  lastSweep : ℕ
  nextClient : ℕ
  nextOwner : ℕ
  client : ClientID → Client
  owner : OwnerRef → Owner
  confirmed : List ClientID
  unconfirmed : List ClientID
  byOwner : Bytes → Option ClientID
  delegs : List ℕ
  delegation : ℕ → Delegation
  delegsByPath : Index Path ℕ
  revokedDelegs : ℕ → Option ℕ
  expired : ℕ → Option ℕ
  expiredIDs : ClientID → Option ℕ
  closed : List OpenFile

/-- The fixed settings of a server: its lease and recall times, its random epoch and
whether it grants read delegations. -/
structure Config where
  lease : ℕ
  recallWait : ℕ
  epoch : UInt32
  readDelegations : Bool

def noClient : Client := ⟨[], 0, 0, "", false, 0, ∅, ∅, 0, 0⟩
def noOwner : OwnerRef := ⟨0, false, [], 0⟩
def noOpen : OpenState := ⟨0, 0, noOwner, [], 0, 0, none, .rdonly⟩
def noLock : LockState := ⟨0, 0, noOwner, 0, [], []⟩
def noDelegation : Delegation := ⟨0, 0, [], false, 0⟩

def newStateStore (cfg : Config) : Store where
  nextOther := 0
  opens := []
  openState := fun _ => noOpen
  byPath := ∅
  locks := []
  lockState := fun _ => noLock
  locksByPath := ∅
  stateOwners := fun _ => none
  lease := cfg.lease
  recallWait := cfg.recallWait
  epoch := cfg.epoch
  readDelegations := cfg.readDelegations
  lastSweep := 0
  nextClient := 0
  nextOwner := 0
  client := fun _ => noClient
  owner := fun _ => .new
  confirmed := []
  unconfirmed := []
  byOwner := fun _ => none
  delegs := []
  delegation := fun _ => noDelegation
  delegsByPath := ∅
  revokedDelegs := fun _ => none
  expired := fun _ => none
  expiredIDs := fun _ => none
  closed := []

namespace Store

def setTables (st : Store) (t : Tables) : Store := { st with toTables := t }

def setClient (st : Store) (c : ClientID) (v : Client) : Store :=
  { st with client := update st.client c v }

def setOwner (st : Store) (o : OwnerRef) (v : Owner) : Store :=
  { st with owner := update st.owner o v }

def closeFile (st : Store) (f : Option OpenFile) : Store :=
  { st with closed := f.toList ++ st.closed }

def renewClient (st : Store) (c : ClientID) (now : ℕ) : Store :=
  st.setClient c { st.client c with lastRenew := now }

def setClientID (st : Store) (now : ℕ) (ownerID : Bytes) (verifier confirmVerf : UInt64)
    (principal : String) : NfsStat × Store :=
  if (st.byOwner ownerID).any fun held => (st.client held).principal ≠ principal then
    (nfs4ErrClidInUse, st)
  else
    let c := st.nextClient + 1
    let st := { st with
      nextClient := c
      unconfirmed := c :: st.unconfirmed.filter fun u => (st.client u).ownerID ≠ ownerID }
    (nfs4OK, st.setClient c
      { ownerID := ownerID, verifier := verifier, confirmVerf := confirmVerf
        principal := principal, cbUp := false, lastRenew := now
        openOwners := ∅, lockOwners := ∅, opens := 0, delegs := 0 })

def dropDelegation (st : Store) (d : ℕ) : Store :=
  let dl := st.delegation d
  let st := { st with
    delegs := st.delegs.filter (· ≠ d), delegsByPath := drop st.delegsByPath dl.path d }
  st.setClient dl.client { st.client dl.client with delegs := (st.client dl.client).delegs - 1 }

def revokeDelegation (st : Store) (d : ℕ) (now : ℕ) : Store :=
  let st := st.dropDelegation d
  { st with revokedDelegs := update st.revokedDelegs d (some now) }

def dropDelegations (st : Store) (c : ClientID) : Store :=
  (st.delegs.filter fun d => (st.delegation d).client = c).foldl dropDelegation st

def unregister (st : Store) (c : ClientID) : Store :=
  let id := (st.client c).ownerID
  { st with
    confirmed := st.confirmed.filter (· ≠ c)
    byOwner :=
      if st.byOwner id = some c then update st.byOwner id none else st.byOwner }

/-- The files a release closes once the store mutex is free. -/
def filesOf (t : Tables) (c : ClientID) : List OpenFile :=
  (t.opens.filter fun k => (t.openState k).client = c).filterMap fun k => (t.openState k).file

def release (st : Store) (c : ClientID) : Store :=
  let files := filesOf st.toTables c
  let st := (st.unregister c).setTables (st.toTables.release c)
  let st := (st.setClient c { st.client c with opens := 0 }).dropDelegations c
  { st with closed := files ++ st.closed }

def confirmClientID (st : Store) (now : ℕ) (id : ClientID) (confirmVerf : UInt64) :
    NfsStat × Store :=
  if id ∈ st.unconfirmed ∧ (st.client id).confirmVerf = confirmVerf then
    let ownerID := (st.client id).ownerID
    let st := { st with unconfirmed := st.unconfirmed.filter (· ≠ id) }
    let st := match st.byOwner ownerID with
      | some old => st.release old
      | none => st
    let st := { st with
      confirmed := id :: st.confirmed
      byOwner := update st.byOwner ownerID (some id) }
    (nfs4OK, st.renewClient id now)
  else if id ∈ st.confirmed ∧ (st.client id).confirmVerf = confirmVerf then
    (nfs4OK, st.renewClient id now)
  else (nfs4ErrStaleClientID, st)

/-- A client id that is not confirmed is expired or stale. -/
def unknownClient (st : Store) (id : ClientID) : NfsStat :=
  if (st.expiredIDs id).isSome then nfs4ErrExpired else nfs4ErrStaleClientID

def renew (st : Store) (now : ℕ) (id : ClientID) : NfsStat × Store :=
  if id ∈ st.confirmed then (nfs4OK, st.renewClient id now)
  else (st.unknownClient id, st)

/-- Records that the callback path of a client answered. -/
def probeCallback (st : Store) (c : ClientID) : Store :=
  if c ∈ st.confirmed then st.setClient c { st.client c with cbUp := true } else st

/-- The client's owner for a key in its table of open-owners or lock-owners, created if the
table has room. -/
def ownerIn (st : Store) (now : ℕ) (id : ClientID) (lock : Bool) (key : Bytes) :
    Except NfsStat OwnerRef × Store :=
  if id ∉ st.confirmed then (.error (st.unknownClient id), st)
  else
    let st := st.renewClient id now
    let c := st.client id
    let table := if lock then c.lockOwners else c.openOwners
    match table.lookup key with
    | some n => (.ok ⟨id, lock, key, n⟩, st)
    | none =>
      if table.keys.length ≥ maxOwnersPerClient then (.error nfs4ErrResource, st)
      else
        let o : OwnerRef := ⟨id, lock, key, st.nextOwner⟩
        let table := table.insert key st.nextOwner
        let st := { st with nextOwner := st.nextOwner + 1 }
        let st := st.setClient id
          (if lock then { c with lockOwners := table } else { c with openOwners := table })
        (.ok o, st.setOwner o .new)

def ownerOf (st : Store) (now : ℕ) (id : ClientID) (key : Bytes) :
    Except NfsStat OwnerRef × Store :=
  st.ownerIn now id false key

def lockOwnerOf (st : Store) (now : ℕ) (id : ClientID) (key : Bytes) :
    Except NfsStat OwnerRef × Store :=
  st.ownerIn now id true key

/-- The checks on a real stateid before it is looked up in a table. -/
def checkOther (st : Store) (other : Other) : NfsStat :=
  if other.special then nfs4ErrBadStateID
  else if other.epoch ≠ st.epoch then nfs4ErrStaleStateID
  else if (st.expired other.count).isSome then nfs4ErrExpired
  else nfs4OK

def ownerForStateid (st : Store) (now : ℕ) (other : Other) : Except NfsStat OwnerRef × Store :=
  if st.checkOther other ≠ nfs4OK then (.error (st.checkOther other), st)
  else
    match st.stateOwners other.count with
    | none => (.error nfs4ErrBadStateID, st)
    | some o => (.ok o, st.renewClient o.client now)

def openOwnerForStateid (st : Store) (now : ℕ) (other : Other) :
    Except NfsStat OwnerRef × Store :=
  if st.checkOther other ≠ nfs4OK then (.error (st.checkOther other), st)
  else if other.count ∉ st.opens then (.error nfs4ErrBadStateID, st)
  else
    let opened := st.openState other.count
    (.ok opened.owner, st.renewClient opened.client now)

/-- The zero and all-ones stateids resolve to no state. -/
def resolveStateid (st : Store) (now : ℕ) (seq : UInt32) (other : Other) (p : Path) :
    Except NfsStat (Option ℕ) × Store :=
  if other.special then
    if other.count = 0 ∧ seq ≠ 0 ∨ other.count ≠ 0 ∧ seq ≠ 2 ^ 32 - 1 then
      (.error nfs4ErrBadStateID, st)
    else (.ok none, st)
  else if st.checkOther other ≠ nfs4OK then (.error (st.checkOther other), st)
  else if other.count ∉ st.opens then (.error nfs4ErrBadStateID, st)
  else
    let o := st.openState other.count
    let st := st.renewClient o.client now
    if seq < o.seq then (.error nfs4ErrOldStateID, st)
    else if seq > o.seq ∨ o.path ≠ p ∨ (st.owner o.owner).confirmed = false then
      (.error nfs4ErrBadStateID, st)
    else (.ok (some other.count), st)

def resolveLockStateid (st : Store) (now : ℕ) (seq : UInt32) (other : Other) (p : Path) :
    Except NfsStat ℕ × Store :=
  if st.checkOther other ≠ nfs4OK then (.error (st.checkOther other), st)
  else if other.count ∉ st.locks then (.error nfs4ErrBadStateID, st)
  else
    let l := st.lockState other.count
    let st := st.renewClient l.client now
    if seq < l.seq then (.error nfs4ErrOldStateID, st)
    else if seq > l.seq ∨ l.path ≠ p then (.error nfs4ErrBadStateID, st)
    else (.ok other.count, st)

/-- One delegation met by a recall: it is revoked when its recall has timed out, and
otherwise blocks the request. -/
def recallOne (now : ℕ) (except : Option ClientID) (r : Bool × Store) (d : ℕ) : Bool × Store :=
  let dl := r.2.delegation d
  if some dl.client = except then r
  else if dl.recalling = true ∧ dl.recallAt + r.2.recallWait ≤ now then
    (r.1, r.2.revokeDelegation d now)
  else if dl.recalling then (true, r.2)
  else
    (true, { r.2 with
      delegation :=
        update r.2.delegation d { dl with recalling := true, recallAt := now } })

def recallDelegations (st : Store) (now : ℕ) (p : Path) (except : Option ClientID) :
    NfsStat × Store :=
  let r := (members st.delegsByPath p).foldl (recallOne now except) (false, st)
  (if r.1 then nfs4ErrDelay else nfs4OK, r.2)

def mayDelegate (st : Store) (p : Path) (o : OwnerRef) (access : UInt32) : Bool :=
  let c := st.client o.client
  c.cbUp && (st.owner o).confirmed && access == shareRead &&
    decide (c.delegs < maxDelegationsPerClient) &&
    ((members st.byPath p).all fun k =>
      let held := st.openState k
      held.client == o.client || (held.access &&& shareWrite == 0 && held.deny &&& denyRead == 0)) &&
    ((members st.delegsByPath p).all fun d =>
      (st.delegation d).client != o.client && !(st.delegation d).recalling)

def grantDelegation (st : Store) (p : Path) (o : OwnerRef) (access : UInt32) :
    Option ℕ × Store :=
  if st.mayDelegate p o access then
    let d := st.nextOther + 1
    let c := st.client o.client
    let st := { st with
      nextOther := d
      delegs := d :: st.delegs
      delegation := update st.delegation d ⟨1, o.client, p, false, 0⟩
      delegsByPath := add st.delegsByPath p d }
    (some d, st.setClient o.client { c with delegs := c.delegs + 1 })
  else (none, st)

def returnDelegation (st : Store) (now : ℕ) (seq : UInt32) (other : Other) (p : Path) :
    NfsStat × Store :=
  if st.checkOther other ≠ nfs4OK then (st.checkOther other, st)
  else if (st.revokedDelegs other.count).isSome then (nfs4ErrAdminRevoked, st)
  else if other.count ∉ st.delegs then (nfs4ErrBadStateID, st)
  else
    let dl := st.delegation other.count
    if seq < dl.seq then (nfs4ErrOldStateID, st)
    else if seq > dl.seq ∨ dl.path ≠ p then (nfs4ErrBadStateID, st)
    else (nfs4OK, (st.dropDelegation other.count).renewClient dl.client now)

def prune {K : Type} (lease now : ℕ) (m : K → Option ℕ) (k : K) : Option ℕ :=
  (m k).filter fun t => now < t + lease

def pruneTombstones (st : Store) (now : ℕ) : Store :=
  { st with
    lastSweep := now
    expired := prune st.lease now st.expired
    expiredIDs := prune st.lease now st.expiredIDs
    revokedDelegs := prune st.lease now st.revokedDelegs }

def revokeTimedOut (st : Store) (now : ℕ) : Store :=
  (st.delegs.filter fun d =>
    (st.delegation d).recalling && decide ((st.delegation d).recallAt + st.recallWait ≤ now)).foldl
    (fun st d => st.revokeDelegation d now) st

def dropUnconfirmed (st : Store) (now : ℕ) : Store :=
  { st with
    unconfirmed := st.unconfirmed.filter fun c => now < (st.client c).lastRenew + st.lease }

/-- Tombstones a client's id and stateids before its state is released. -/
def tombstone (st : Store) (now : ℕ) (c : ClientID) : Store :=
  { st with
    expiredIDs := update st.expiredIDs c (some now)
    expired := fun k =>
      if (st.stateOwners k).any (fun o => o.client = c) ∨
          (k ∈ st.delegs ∧ (st.delegation k).client = c) then some now
      else st.expired k }

def expire (now : ℕ) (st : Store) (c : ClientID) : Store :=
  (st.tombstone now c).release c

def sweepExpired (st : Store) (now : ℕ) : Store :=
  let st := ((st.pruneTombstones now).revokeTimedOut now).dropUnconfirmed now
  (st.confirmed.filter fun c => (st.client c).lastRenew + st.lease ≤ now).foldl (expire now) st

variable (st : Store)

@[simp]
theorem setTables_tables (t : Tables) : (st.setTables t).toTables = t := rfl

variable (c : ClientID)

@[simp]
theorem setClient_tables (v : Client) : (st.setClient c v).toTables = st.toTables := rfl

@[simp]
theorem closeFile_tables (f : Option OpenFile) : (st.closeFile f).toTables = st.toTables := rfl

variable (now : ℕ)

@[simp]
theorem renewClient_tables : (st.renewClient c now).toTables = st.toTables := rfl

@[simp]
theorem dropDelegation_tables (d : ℕ) : (st.dropDelegation d).toTables = st.toTables := rfl

@[simp]
theorem revokeDelegation_tables (d now : ℕ) :
    (st.revokeDelegation d now).toTables = st.toTables := rfl

theorem foldl_keeps {α β : Type} (f : Store → β) {step} (hstep : ∀ st a, f (step st a) = f st)
    (l : List α) (st : Store) : f (l.foldl step st) = f st := by
  induction l generalizing st with
  | nil => rfl
  | cons a l ih => rw [List.foldl_cons, ih, hstep]

@[simp]
theorem dropDelegations_tables : (st.dropDelegations c).toTables = st.toTables :=
  foldl_keeps Store.toTables dropDelegation_tables _ st

@[simp]
theorem release_tables : (st.release c).toTables = st.toTables.release c := by
  simp only [release]
  rw [dropDelegations_tables]
  rfl

theorem ownerIn_cases (id : ClientID) (lock : Bool) (key : Bytes) :
    (∃ e, st.ownerIn now id lock key = (.error e, st)) ∨
    (id ∈ st.confirmed ∧ ∃ r st', st.ownerIn now id lock key = (r, st') ∧
      (∃ clients owners n, st' = { st with client := clients, owner := owners, nextOwner := n }) ∧
      ∀ o, r = .ok o → o.client = id ∧ o.lock = lock) := by
  unfold ownerIn
  split
  · exact .inl ⟨_, rfl⟩
  rename_i hc
  refine .inr ⟨not_not.1 hc, ?_⟩
  cases lock with
  | false =>
    simp only [Bool.false_eq_true, if_false]
    split
    · exact ⟨_, _, rfl, ⟨_, _, _, rfl⟩, fun o ho => by cases ho; exact ⟨rfl, rfl⟩⟩
    split
    · exact ⟨_, _, rfl, ⟨_, _, _, rfl⟩, fun o ho => by cases ho⟩
    · exact ⟨_, _, rfl, ⟨_, _, _, rfl⟩, fun o ho => by cases ho; exact ⟨rfl, rfl⟩⟩
  | true =>
    simp only [if_true]
    split
    · exact ⟨_, _, rfl, ⟨_, _, _, rfl⟩, fun o ho => by cases ho; exact ⟨rfl, rfl⟩⟩
    split
    · exact ⟨_, _, rfl, ⟨_, _, _, rfl⟩, fun o ho => by cases ho⟩
    · exact ⟨_, _, rfl, ⟨_, _, _, rfl⟩, fun o ho => by cases ho; exact ⟨rfl, rfl⟩⟩

variable (other : Other)

theorem ownerForStateid_ok {st : Store} {now : ℕ} {other : Other} {o : OwnerRef}
    (h : (st.ownerForStateid now other).1 = .ok o) : st.stateOwners other.count = some o := by
  unfold ownerForStateid at h
  split at h
  · cases h
  split at h
  · cases h
  rename_i hs
  cases h
  exact hs

variable (p : Path)

theorem resolveStateid_some {st : Store} {now : ℕ} {seq : UInt32} {other : Other} {p : Path}
    {k : ℕ} (h : (st.resolveStateid now seq other p).1 = .ok (some k)) :
    k = other.count ∧ k ∈ st.opens ∧ (st.openState k).path = p ∧ (st.openState k).seq = seq := by
  unfold resolveStateid at h
  split at h
  · split at h <;> cases h
  split at h
  · cases h
  split at h
  · cases h
  rename_i hlive
  simp only at h
  split at h
  · cases h
  split at h
  · cases h
  rename_i hlt hok
  cases h
  simp only [not_or, not_not] at hok hlive
  refine ⟨rfl, hlive, hok.2.1, ?_⟩
  exact UInt32.le_antisymm (UInt32.not_lt.1 hlt) (UInt32.not_lt.1 hok.1)

theorem resolveLockStateid_ok {st : Store} {now : ℕ} {seq : UInt32} {other : Other} {p : Path}
    {l : ℕ} (h : (st.resolveLockStateid now seq other p).1 = .ok l) :
    l = other.count ∧ l ∈ st.locks ∧ (st.lockState l).path = p := by
  unfold resolveLockStateid at h
  split at h
  · cases h
  split at h
  · cases h
  rename_i hlive
  simp only at h
  split at h
  · cases h
  split at h
  · cases h
  rename_i hok
  cases h
  simp only [not_or, not_not] at hok hlive
  exact ⟨rfl, hlive, hok.2⟩

theorem recallOne_tables (except : Option ClientID) (r : Bool × Store) (d : ℕ) :
    (recallOne now except r d).2.toTables = r.2.toTables := by
  unfold recallOne
  simp only
  split
  · rfl
  split
  · rfl
  · split <;> rfl

theorem recallDelegations_rel {R : Store → Store → Prop} (hrefl : ∀ st, R st st)
    (htrans : ∀ {st₁ st₂ st₃}, R st₁ st₂ → R st₂ st₃ → R st₁ st₃) {now : ℕ}
    {except : Option ClientID} (hone : ∀ r d, R r.2 (recallOne now except r d).2) (st : Store)
    (p : Path) : R st (st.recallDelegations now p except).2 := by
  have h : ∀ (l : List ℕ) (r : Bool × Store), R r.2 (l.foldl (recallOne now except) r).2 := by
    intro l
    induction l with
    | nil =>
      intro r
      exact hrefl r.2
    | cons d l ih =>
      intro r
      exact htrans (hone r d) (ih _)
  exact h (members st.delegsByPath p) (false, st)

theorem recallDelegations_keeps {β : Type} (f : Store → β) {now except}
    (hf : ∀ r d, f (recallOne now except r d).2 = f r.2) (st : Store) (p : Path) :
    f (st.recallDelegations now p except).2 = f st :=
  recallDelegations_rel (R := fun st st' => f st' = f st) (fun _ => rfl)
    (fun h h' => h'.trans h) hf st p

theorem recallDelegations_tables (except : Option ClientID) :
    (st.recallDelegations now p except).2.toTables = st.toTables :=
  recallDelegations_keeps Store.toTables (recallOne_tables now except) st p

theorem grantDelegation_tables (o : OwnerRef) (access : UInt32) : ∃ n, st.nextOther ≤ n ∧
      (st.grantDelegation p o access).2.toTables = { st.toTables with nextOther := n } := by
  unfold grantDelegation
  split
  · exact ⟨st.nextOther + 1, Nat.le_succ _, rfl⟩
  · exact ⟨st.nextOther, le_refl _, rfl⟩

end Store

end NfsStore
