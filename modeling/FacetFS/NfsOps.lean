import FacetFS.NfsStore

/-! # The stateful operations of NFSv4

Each operation is written as the critical sections its source has: functions of the store,
joined by what the FileSystem answered in between. An operation run as one step is their
composition. Argument decoding and the FileSystem are inputs. -/
namespace NfsOps

open NfsSeqid NfsLockRange GroupIndex NfsStore

def BodyResult.fail (st : NfsStat) : BodyResult := ⟨st, [], none, by simp⟩

def BodyResult.ok (body : List UInt8) : BodyResult := ⟨nfs4OK, body, none, by simp⟩

def failed (st : NfsStat) : Outcome := ⟨st, XdrCodec.uint32 st, none, false⟩

def encodeOther (st : Store) (k : ℕ) : List UInt8 :=
  XdrCodec.uint32 st.epoch ++ XdrCodec.uint64 (UInt64.ofNat k)

def encodeStateid (st : Store) (seq : UInt32) (k : ℕ) : List UInt8 :=
  XdrCodec.uint32 seq ++ XdrCodec.opaqueFixed (encodeOther st k)

def encodeChangeInfo (before after : UInt64) : List UInt8 :=
  XdrCodec.bool false ++ XdrCodec.uint64 before ++ XdrCodec.uint64 after

/-- Runs a body under the sequence discipline of one owner. -/
def sequenced (st : Store) (o : OwnerRef) (opnum seqid : UInt32)
    (body : Store → BodyResult × Store) : Outcome × Store :=
  let r := withSeqid (st.owner o).seq opnum seqid body st
  (r.1, r.2.2.setOwner o { r.2.2.owner o with seq := r.2.1 })

inductive SeqState where
  | fresh | replay | next
  deriving DecidableEq, Repr

/-- How a sequence id relates to one of the two owners of a LOCK. -/
def seqState (o : OwnerSeq) (want : UInt32) : Option SeqState :=
  if o.fresh then some .fresh
  else if want = o.seqid then
    if o.lastOp ≠ opLock ∨ o.lastReply = none then none else some .replay
  else if want = o.seqid + 1 then some .next
  else none

/-- The first LOCK of a lock-owner consumes both sequence streams. -/
def withTwoSeqids (st : Store) (openOwner lockOwner : OwnerRef) (openSeq lockSeq : UInt32)
    (body : Store → BodyResult × Store) : Outcome × Store :=
  let a := (st.owner openOwner).seq
  let b := (st.owner lockOwner).seq
  match seqState a openSeq, seqState b lockSeq with
  | some sa, some sb =>
    if sa = .replay ∧ sb = .replay then
      let reply := a.lastReply.getD []
      (⟨XdrCodec.headUint32 reply, XdrCodec.opaqueFixed reply, none, false⟩, st)
    else if sa = .replay ∨ sb = .replay then (failed nfs4ErrBadSeqID, st)
    else
      let (r, st) := body st
      if noAdvance r.status then (⟨r.status, XdrCodec.uint32 r.status, none, true⟩, st)
      else
        let cached (q : OwnerSeq) (want : UInt32) : OwnerSeq :=
          { q with seqid := want, fresh := false, lastOp := opLock, lastReply := some r.bytes }
        let st := st.setOwner openOwner { st.owner openOwner with seq := cached a openSeq }
        let st := st.setOwner lockOwner { st.owner lockOwner with seq := cached b lockSeq }
        (⟨r.status, XdrCodec.opaqueFixed r.bytes, none, true⟩, st)
  | _, _ => (failed nfs4ErrBadSeqID, st)

inductive Kind where
  | regular | directory | symlink
  deriving DecidableEq, Repr

def openCreate : UInt32 := 1
def createGuarded : UInt32 := 1
def createExclusive : UInt32 := 2
def claimNull : UInt32 := 0
def claimPrevious : UInt32 := 1
def openResultConfirm : UInt32 := 2

/-- The decoded arguments of OPEN. `name` carries the status of the argument checks;
`attrs` the decoded create attributes: whether any were sent, and the size among them. -/
structure OpenArgs where
  seqid : UInt32
  access : UInt32
  deny : UInt32
  clientID : ClientID
  owner : Bytes
  openType : UInt32
  createMode : UInt32
  claim : UInt32
  name : Except NfsStat String
  attrsGiven : Bool
  attrs : Except NfsStat (Option ℕ)

/-- What the world outside the store answers during an OPEN: the check of the directory,
the lookup of the target, the table of exclusive creates, the opened file, the setting of
attributes, and the values the reply reports. -/
structure OpenEnv where
  dir : NfsStat
  lookup : Except NfsStat Kind
  exclusive : Bool
  file : Except NfsStat ℕ
  apply : NfsStat
  before : UInt64
  after : UInt64
  applied : List UInt8

def badShare (access deny : UInt32) : Bool :=
  access == 0 || access &&& ~~~shareBoth != 0 || deny &&& ~~~denyBoth != 0

def OpenArgs.refused (a : OpenArgs) : NfsStat :=
  if badShare a.access a.deny then nfs4ErrInval
  else if a.openType ≠ 0 ∧ a.openType ≠ openCreate then nfs4ErrInval
  else if a.claim = claimPrevious then nfs4ErrNoGrace
  else if a.claim ≠ claimNull then nfs4ErrNotSupp
  else nfs4OK

/-- Whether a create may go on when its target exists. -/
def createRefused (a : OpenArgs) (env : OpenEnv) : Bool :=
  a.openType == openCreate && (a.createMode == createGuarded ||
    a.createMode == createExclusive && !env.exclusive)

def existingStatus (a : OpenArgs) (env : OpenEnv) (k : Kind) : NfsStat :=
  if createRefused a env then nfs4ErrExist
  else
    match k with
    | .directory => nfs4ErrIsDir
    | .symlink => nfs4ErrSymlink
    | .regular => nfs4OK

/-- The part of OPEN before the store is consulted: the target path. -/
def openTarget (fh : Option Path) (a : OpenArgs) (env : OpenEnv) : Except NfsStat Path :=
  match a.name with
  | .error st => .error st
  | .ok name =>
    if a.refused ≠ nfs4OK then .error a.refused
    else
      match fh with
      | none => .error nfs4ErrNoFilehandle
      | some dir =>
        if env.dir ≠ nfs4OK then .error env.dir
        else
          match a.attrs with
          | .error st => .error st
          | .ok _ =>
            if a.openType = 0 ∧ a.attrsGiven = true then .error nfs4ErrBadXDR
            else
              match env.lookup with
              | .ok k =>
                if existingStatus a env k ≠ nfs4OK then .error (existingStatus a env k)
                else .ok (dir ++ [name])
              | .error st =>
                if st ≠ nfs4ErrNoEnt ∨ a.openType = 0 then .error st else .ok (dir ++ [name])

def OpenArgs.truncating (a : OpenArgs) : Bool :=
  a.openType == openCreate && match a.attrs with
    | .ok (some 0) => true
    | _ => false

/-- What the first critical section of OPEN decides. The held state's flag cannot change
before it is read, since only its owner's requests change it. -/
structure OpenPlan where
  owner : OwnerRef
  target : Path
  access : UInt32
  deny : UInt32
  needOpen : Bool
  deriving DecidableEq

def OpenPlan.flag (plan : OpenPlan) : OpenFlag := openFlags plan.access

def openCheck (t : Tables) (o : OwnerRef) (target : Path) (a : OpenArgs) :
    Except NfsStat OpenPlan :=
  let held := t.findOpen target o
  let access := (held.map fun k => (t.openState k).access).getD 0 ||| a.access
  let deny := (held.map fun k => (t.openState k).deny).getD 0 ||| a.deny
  if t.shareConflict target o access deny then .error nfs4ErrShareDenied
  else .ok ⟨o, target, access, deny,
    held.all (fun k => (t.openState k).flag ≠ openFlags access) || a.truncating⟩

def OpenArgs.recalls (a : OpenArgs) : Bool :=
  a.access &&& shareWrite != 0 || a.deny &&& denyRead != 0 || a.truncating

def openRecall (st : Store) (now : ℕ) (plan : OpenPlan) (a : OpenArgs) : NfsStat × Store :=
  if a.recalls then st.recallDelegations now plan.target (some plan.owner.client)
  else (nfs4OK, st)

/-- The FileSystem calls of OPEN: opening the file if needed, then applying the create
attributes. -/
def openFiles (st : Store) (plan : OpenPlan) (a : OpenArgs) (env : OpenEnv) :
    Except NfsStat (Option OpenFile) × Store :=
  match if plan.needOpen then env.file.map some else .ok none with
  | .error e => (.error e, st)
  | .ok handle =>
    let f := handle.map fun h => (⟨h, plan.flag⟩ : OpenFile)
    if a.openType = openCreate ∧ env.apply ≠ nfs4OK then (.error env.apply, st.closeFile f)
    else (.ok f, st)

/-- What a successful installation reports. -/
structure Granted where
  other : ℕ
  seq : UInt32
  confirm : Bool
  delegation : Option ℕ
  deriving DecidableEq

def openGrant (st : Store) (now : ℕ) (plan : OpenPlan) (k : ℕ) : Granted × Store :=
  let (d, st') := if st.readDelegations then st.grantDelegation plan.target plan.owner plan.access
    else (none, st)
  (⟨k, (st.openState k).seq, !(st.owner plan.owner).confirmed, d⟩,
    st'.renewClient plan.owner.client now)

def openNew (st : Store) (plan : OpenPlan) (f : Option OpenFile) : Store :=
  let c := st.client plan.owner.client
  (st.setTables (st.toTables.installOpen
    { seq := 1, client := plan.owner.client, owner := plan.owner, path := plan.target
      access := plan.access, deny := plan.deny, file := f, flag := plan.flag })).setClient
    plan.owner.client { c with opens := c.opens + 1 }

def openUpgrade (st : Store) (plan : OpenPlan) (f : Option OpenFile) (k : ℕ) : Store :=
  let held := st.openState k
  let st := st.setTables (st.toTables.setOpen k
    { held with
      seq := held.seq + 1
      access := plan.access
      deny := plan.deny
      file := if f.isSome then f else held.file
      flag := if f.isSome then plan.flag else held.flag })
  st.closeFile (if f.isSome then held.file else none)

def openInstall (st : Store) (now : ℕ) (plan : OpenPlan) (f : Option OpenFile) :
    Except NfsStat Granted × Store :=
  if st.toTables.shareConflict plan.target plan.owner plan.access plan.deny then
    (.error nfs4ErrShareDenied, st.closeFile f)
  else
    match st.toTables.findOpen plan.target plan.owner with
    | none =>
      if (st.client plan.owner.client).opens ≥ maxOpensPerClient then
        (.error nfs4ErrResource, st.closeFile f)
      else
        let r := openGrant (openNew st plan f) now plan (st.nextOther + 1)
        (.ok r.1, r.2)
    | some k =>
      let r := openGrant (openUpgrade st plan f k) now plan k
      (.ok r.1, r.2)

def aceMask : UInt32 := 0x81

def encodeDelegation (st : Store) (d : Option ℕ) : List UInt8 :=
  match d with
  | none => XdrCodec.uint32 0
  | some d =>
    XdrCodec.uint32 1 ++ encodeStateid st (st.delegation d).seq d ++ XdrCodec.bool false ++
      XdrCodec.uint32 0 ++ XdrCodec.uint32 0 ++ XdrCodec.uint32 aceMask ++
      XdrCodec.string "EVERYONE@"

def openReply (st : Store) (plan : OpenPlan) (env : OpenEnv) (g : Granted) : BodyResult where
  status := nfs4OK
  body := encodeStateid st g.seq g.other ++ encodeChangeInfo env.before env.after ++
    XdrCodec.uint32 (if g.confirm then openResultConfirm else 0) ++ env.applied ++
    encodeDelegation st g.delegation
  fh := some plan.target
  fh_ok := fun _ => rfl

def openFinish (now : ℕ) (plan : OpenPlan) (a : OpenArgs) (env : OpenEnv) (st : Store) :
    BodyResult × Store :=
  let (status, st) := openRecall st now plan a
  if status ≠ nfs4OK then (BodyResult.fail status, st)
  else
    match openFiles st plan a env with
    | (.error e, st) => (BodyResult.fail e, st)
    | (.ok f, st) =>
      match openInstall st now plan f with
      | (.error e, st) => (BodyResult.fail e, st)
      | (.ok g, st) => (openReply st plan env g, st)

def openWith (now : ℕ) (fh : Option Path) (o : OwnerRef) (a : OpenArgs) (env : OpenEnv)
    (st : Store) : BodyResult × Store :=
  match openTarget fh a env with
  | .error e => (BodyResult.fail e, st)
  | .ok target =>
    match openCheck st.toTables o target a with
    | .error e => (BodyResult.fail e, st)
    | .ok plan => openFinish now plan a env st

def openFile (st : Store) (now : ℕ) (fh : Option Path) (a : OpenArgs) (env : OpenEnv) :
    Outcome × Store :=
  match st.ownerOf now a.clientID a.owner with
  | (.error e, st) => (failed e, st)
  | (.ok o, st) => sequenced st o opOpen a.seqid (openWith now fh o a env)

/-- An operation that names its owner through a stateid. -/
def byStateid (st : Store) (now : ℕ) (other : Other) (opnum seqid : UInt32)
    (body : OwnerRef → Store → BodyResult × Store) : Outcome × Store :=
  match st.ownerForStateid now other with
  | (.error e, st) => (failed e, st)
  | (.ok o, st) => sequenced st o opnum seqid (body o)

def openConfirmBody (now : ℕ) (fh : Option Path) (stateSeq : UInt32) (other : Other)
    (o : OwnerRef) (st : Store) : BodyResult × Store :=
  match fh with
  | none => (BodyResult.fail nfs4ErrNoFilehandle, st)
  | some p =>
    let held := st.openState other.count
    if other.count ∉ st.opens ∨ held.owner ≠ o then (BodyResult.fail nfs4ErrBadStateID, st)
    else if stateSeq < held.seq then (BodyResult.fail nfs4ErrOldStateID, st)
    else if stateSeq > held.seq ∨ held.path ≠ p then (BodyResult.fail nfs4ErrBadStateID, st)
    else
      let st := (st.setOwner o { st.owner o with confirmed := true }).renewClient held.client now
      (BodyResult.ok (encodeStateid st held.seq other.count), st)

def openConfirm (st : Store) (now : ℕ) (fh : Option Path) (stateSeq : UInt32) (other : Other)
    (seqid : UInt32) : Outcome × Store :=
  byStateid st now other opOpenConfirm seqid (openConfirmBody now fh stateSeq other)

structure DowngradeArgs where
  stateSeq : UInt32
  other : Other
  seqid : UInt32
  access : UInt32
  deny : UInt32

def DowngradeArgs.flag (a : DowngradeArgs) : OpenFlag := openFlags a.access

/-- The first part of OPEN_DOWNGRADE: whether another file has to be opened. -/
def downgradeCheck (st : Store) (now : ℕ) (fh : Option Path) (a : DowngradeArgs) :
    Except NfsStat Bool × Store :=
  match fh with
  | none => (.error nfs4ErrNoFilehandle, st)
  | some p =>
    if badShare a.access a.deny then (.error nfs4ErrInval, st)
    else
      match st.resolveStateid now a.stateSeq a.other p with
      | (.error e, st) => (.error e, st)
      | (.ok none, st) => (.error nfs4ErrBadStateID, st)
      | (.ok (some k), st) =>
        let held := st.openState k
        if a.access &&& held.access ≠ a.access ∨ a.deny &&& held.deny ≠ a.deny then
          (.error nfs4ErrInval, st)
        else if st.toTables.locksBlockDowngrade k a.access then (.error nfs4ErrLocksHeld, st)
        else (.ok (a.flag ≠ held.flag), st)

def downgradeInstall (st : Store) (now : ℕ) (a : DowngradeArgs) (f : Option OpenFile) :
    BodyResult × Store :=
  let k := a.other.count
  let held := st.openState k
  if k ∉ st.opens ∨ held.seq ≠ a.stateSeq then
    (BodyResult.fail nfs4ErrBadStateID, st.closeFile f)
  else if st.toTables.locksBlockDowngrade k a.access then
    (BodyResult.fail nfs4ErrLocksHeld, st.closeFile f)
  else
    let st := st.setTables (st.toTables.setOpen k
      { held with
        seq := held.seq + 1
        access := a.access
        deny := a.deny
        file := if f.isSome then f else held.file
        flag := if f.isSome then a.flag else held.flag })
    let st := (st.renewClient held.client now).closeFile (if f.isSome then held.file else none)
    (BodyResult.ok (encodeStateid st (held.seq + 1) k), st)

def openDowngradeBody (now : ℕ) (fh : Option Path) (a : DowngradeArgs)
    (file : Except NfsStat ℕ) (st : Store) : BodyResult × Store :=
  match downgradeCheck st now fh a with
  | (.error e, st) => (BodyResult.fail e, st)
  | (.ok needOpen, st) =>
    match if needOpen then file.map some else .ok none with
    | .error e => (BodyResult.fail e, st)
    | .ok handle => downgradeInstall st now a (handle.map fun h => ⟨h, a.flag⟩)

def openDowngrade (st : Store) (now : ℕ) (fh : Option Path) (a : DowngradeArgs)
    (file : Except NfsStat ℕ) : Outcome × Store :=
  byStateid st now a.other opOpenDowngrade a.seqid fun _ => openDowngradeBody now fh a file

def closeTables (t : Tables) (o : OwnerRef) (k : ℕ) : Tables :=
  let t := ((t.removeEmptyLocksForOpen k).removeOpen k).forgetPriorClosed o k
  t.setOpen k { t.openState k with seq := (t.openState k).seq + 1 }

/-- CLOSE; `closeOK` says whether closing the file succeeded. A stateid that resolves to no
state has no owner either, so that branch is not reached through `close`. -/
def closeBody (now : ℕ) (fh : Option Path) (stateSeq : UInt32) (other : Other)
    (closeOK : Bool) (o : OwnerRef) (st : Store) : BodyResult × Store :=
  match fh with
  | none => (BodyResult.fail nfs4ErrNoFilehandle, st)
  | some p =>
    match st.resolveStateid now stateSeq other p with
    | (.error e, st) => (BodyResult.fail e, st)
    | (.ok none, st) => (BodyResult.fail nfs4ErrBadStateID, st)
    | (.ok (some k), st) =>
      if st.toTables.locksBlockClose k then (BodyResult.fail nfs4ErrLocksHeld, st)
      else
        let held := st.openState k
        let c := st.client held.client
        let st := (st.setTables (closeTables st.toTables o k)).setClient held.client
          { c with opens := c.opens - 1, lastRenew := now }
        let st := st.closeFile held.file
        if closeOK then (BodyResult.ok (encodeStateid st (held.seq + 1) k), st)
        else (BodyResult.fail nfs4ErrIO, st)

def close (st : Store) (now : ℕ) (fh : Option Path) (seqid stateSeq : UInt32) (other : Other)
    (closeOK : Bool) : Outcome × Store :=
  byStateid st now other opClose seqid (closeBody now fh stateSeq other closeOK)

def lockType (t : UInt32) : Except NfsStat Bool :=
  if t = 1 ∨ t = 3 then .ok false
  else if t = 2 ∨ t = 4 then .ok true
  else .error nfs4ErrInval

/-- The arguments of LOCK and LOCKU that do not depend on the owner form. -/
structure LockArgs where
  typ : UInt32
  reclaim : Bool
  offset : UInt64
  length : UInt64
  stateSeq : UInt32
  lockSeq : UInt32

def LockArgs.range (a : LockArgs) (write : Bool) : Except NfsStat LockRange :=
  makeLockRange a.offset a.length write

/-- The checks before a lock state is looked up; `lookup` is the answer for the current
filehandle. -/
def lockFH (fh : Option Path) (lookup : Except NfsStat Kind) : Except NfsStat Path :=
  match fh, lookup with
  | none, _ => .error nfs4ErrNoFilehandle
  | some _, .error e => .error e
  | some _, .ok .directory => .error nfs4ErrIsDir
  | some _, .ok .symlink => .error nfs4ErrSymlink
  | some p, .ok .regular => .ok p

def lockTarget (a : LockArgs) (fh : Option Path) (lookup : Except NfsStat Kind) :
    Except NfsStat (LockRange × Path) :=
  match lockType a.typ with
  | .error e => .error e
  | .ok write =>
    match a.range write with
    | .error e => .error e
    | .ok rng =>
      if a.reclaim then .error nfs4ErrNoGrace
      else (lockFH fh lookup).map fun p => (rng, p)

def encodeDenied (st : Store) (conflict : ℕ × LockRange) : BodyResult where
  status := nfs4ErrDenied
  body :=
    let state := st.lockState conflict.1
    XdrCodec.uint64 (UInt64.ofNat conflict.2.start) ++
      XdrCodec.uint64 (UInt64.ofNat (lockRangeLength conflict.2)) ++
      XdrCodec.uint32 (if conflict.2.write then 2 else 1) ++
      XdrCodec.uint64 (UInt64.ofNat state.client) ++ XdrCodec.opaqueVar state.owner.key
  fh := none
  fh_ok := by simp

def lockNewBody (now : ℕ) (fh : Option Path) (lookup : Except NfsStat Kind) (a : LockArgs)
    (openOther : Other) (openOwner lockOwner : OwnerRef) (st : Store) : BodyResult × Store :=
  match lockTarget a fh lookup with
  | .error e => (BodyResult.fail e, st)
  | .ok (rng, p) =>
    match st.resolveStateid now a.stateSeq openOther p with
    | (.error e, st) => (BodyResult.fail e, st)
    | (.ok none, st) => (BodyResult.fail nfs4ErrBadStateID, st)
    | (.ok (some k), st) =>
      let opened := st.openState k
      if opened.owner ≠ openOwner ∨ opened.client ≠ lockOwner.client then
        (BodyResult.fail nfs4ErrBadStateID, st)
      else if !Tables.modeAllows opened.access rng.write then (BodyResult.fail nfs4ErrOpenMode, st)
      else if (st.toTables.findLockState p lockOwner).isSome then
        (BodyResult.fail nfs4ErrInval, st)
      else
        match st.toTables.lockConflict p lockOwner rng with
        | some conflict => (encodeDenied st conflict, st)
        | none =>
          let l := st.nextOther + 1
          let st := st.setTables (st.toTables.installLock
            { seq := 1, client := opened.client, owner := lockOwner, opened := k, path := p
              ranges := [rng] })
          (BodyResult.ok (encodeStateid st 1 l), st)

def lockNew (st : Store) (now : ℕ) (fh : Option Path) (lookup : Except NfsStat Kind)
    (a : LockArgs) (openSeq : UInt32) (openOther : Other) (clientID : ClientID)
    (ownerID : Bytes) : Outcome × Store :=
  match st.openOwnerForStateid now openOther with
  | (.error e, st) => (failed e, st)
  | (.ok openOwner, st) =>
    match st.lockOwnerOf now clientID ownerID with
    | (.error e, st) => (failed e, st)
    | (.ok lockOwner, st) =>
      withTwoSeqids st openOwner lockOwner openSeq a.lockSeq
        (lockNewBody now fh lookup a openOther openOwner lockOwner)

def lockExistingBody (now : ℕ) (fh : Option Path) (lookup : Except NfsStat Kind)
    (a : LockArgs) (other : Other) (lockOwner : OwnerRef) (st : Store) : BodyResult × Store :=
  match lockTarget a fh lookup with
  | .error e => (BodyResult.fail e, st)
  | .ok (rng, p) =>
    match st.resolveLockStateid now a.stateSeq other p with
    | (.error e, st) => (BodyResult.fail e, st)
    | (.ok l, st) =>
      let locked := st.lockState l
      if locked.opened ∉ st.opens then (BodyResult.fail nfs4ErrBadStateID, st)
      else if !Tables.modeAllows (st.openState locked.opened).access rng.write then
        (BodyResult.fail nfs4ErrOpenMode, st)
      else
        match st.toTables.lockConflict p lockOwner rng with
        | some conflict => (encodeDenied st conflict, st)
        | none =>
          let ranges := setLockRange locked.ranges rng
          if ranges.length > maxLockRanges then (BodyResult.fail nfs4ErrResource, st)
          else
            let st := (st.setTables (st.toTables.setLock l
              { locked with ranges := ranges, seq := locked.seq + 1 })).renewClient
              locked.client now
            (BodyResult.ok (encodeStateid st (locked.seq + 1) l), st)

def lockExisting (st : Store) (now : ℕ) (fh : Option Path) (lookup : Except NfsStat Kind)
    (a : LockArgs) (other : Other) : Outcome × Store :=
  byStateid st now other opLock a.lockSeq (lockExistingBody now fh lookup a other)

def lockUBody (now : ℕ) (fh : Option Path) (lookup : Except NfsStat Kind) (a : LockArgs)
    (other : Other) (st : Store) : BodyResult × Store :=
  match lockType a.typ, a.range false, lockFH fh lookup with
  | .error e, _, _ => (BodyResult.fail e, st)
  | .ok _, .error e, _ => (BodyResult.fail e, st)
  | .ok _, .ok _, .error e => (BodyResult.fail e, st)
  | .ok _, .ok rng, .ok p =>
    match st.resolveLockStateid now a.stateSeq other p with
    | (.error e, st) => (BodyResult.fail e, st)
    | (.ok l, st) =>
      let locked := st.lockState l
      if locked.opened ∉ st.opens then (BodyResult.fail nfs4ErrBadStateID, st)
      else
        let st := (st.setTables (st.toTables.setLock l
          { locked with ranges := subtractRange locked.ranges rng, seq := locked.seq + 1 })).renewClient
          locked.client now
        (BodyResult.ok (encodeStateid st (locked.seq + 1) l), st)

def lockU (st : Store) (now : ℕ) (fh : Option Path) (lookup : Except NfsStat Kind)
    (a : LockArgs) (other : Other) : Outcome × Store :=
  byStateid st now other opLockU a.lockSeq fun _ => lockUBody now fh lookup a other

def releaseLockOwner (st : Store) (now : ℕ) (clientID : ClientID) (ownerID : Bytes) :
    NfsStat × Store :=
  if clientID ∉ st.confirmed then (st.unknownClient clientID, st)
  else
    let st := st.renewClient clientID now
    let c := st.client clientID
    match c.lockOwners.lookup ownerID with
    | none => (nfs4OK, st)
    | some n =>
      let o : OwnerRef := ⟨clientID, true, ownerID, n⟩
      if st.locks.any fun l => (st.lockState l).owner = o && (st.lockState l).ranges ≠ [] then
        (nfs4ErrLocksHeld, st)
      else
        let held := st.locks.filter fun l => (st.lockState l).owner = o
        let st := st.setTables
          (held.foldl (fun t l => (t.removeLock l).forgetOwner l) st.toTables)
        (nfs4OK, st.setClient clientID { c with lockOwners := c.lockOwners.erase ownerID })

variable (st : Store)

/-- A sequenced operation leaves the store as it was or as its body left it, up to the owner
records. -/
theorem sequenced_cases (o : OwnerRef) (opnum seqid : UInt32) (body : Store → BodyResult × Store) :
    ∃ f, (sequenced st o opnum seqid body).2 = { st with owner := f } ∨
      (sequenced st o opnum seqid body).2 = { (body st).2 with owner := f } := by
  simp only [sequenced]
  rcases withSeqid_world (st.owner o).seq opnum seqid body st with h | h
  · rw [h]
    exact ⟨_, .inl rfl⟩
  · rw [h]
    exact ⟨_, .inr rfl⟩

theorem withTwoSeqids_cases (openOwner lockOwner : OwnerRef)
    (openSeq lockSeq : UInt32) (body : Store → BodyResult × Store) :
    ∃ f, (withTwoSeqids st openOwner lockOwner openSeq lockSeq body).2 = { st with owner := f } ∨
      (withTwoSeqids st openOwner lockOwner openSeq lockSeq body).2 =
        { (body st).2 with owner := f } := by
  simp only [withTwoSeqids]
  split
  · split
    · exact ⟨_, .inl rfl⟩
    · split
      · exact ⟨_, .inl rfl⟩
      · split
        · exact ⟨_, .inr rfl⟩
        · exact ⟨_, .inr rfl⟩
  · exact ⟨_, .inl rfl⟩

theorem openCheck_ok {t o target a plan} (h : openCheck t o target a = .ok plan) :
    plan.owner = o ∧ plan.target = target ∧
      ∀ k, t.findOpen target o = some k → plan.access = (t.openState k).access ||| a.access := by
  unfold openCheck at h
  simp only at h
  split at h
  · cases h
  cases h
  refine ⟨rfl, rfl, fun k hk => ?_⟩
  simp [hk]

theorem openCheck_error {t o target a e}
    (h : openCheck t o target a = .error e) : e = nfs4ErrShareDenied := by
  unfold openCheck at h
  simp only at h
  split at h
  · exact (Except.error.inj h).symm
  · cases h

theorem openTarget_error {fh a env e} (h : openTarget fh a env = .error e) :
    a.name = .error e ∨ (e = a.refused ∧ e ≠ nfs4OK) ∨ e = nfs4ErrNoFilehandle ∨
      (e = env.dir ∧ e ≠ nfs4OK) ∨ a.attrs = .error e ∨ e = nfs4ErrBadXDR ∨
      (∃ k, e = existingStatus a env k ∧ e ≠ nfs4OK) ∨ env.lookup = .error e := by
  unfold openTarget at h
  split at h
  · rename_i hname
    cases h
    exact .inl hname
  right
  split at h
  · rename_i hr
    cases h
    exact .inl ⟨rfl, hr⟩
  right
  split at h
  · cases h
    exact .inl rfl
  right
  split at h
  · rename_i hd
    cases h
    exact .inl ⟨rfl, hd⟩
  right
  split at h
  · rename_i hattrs
    cases h
    exact .inl hattrs
  right
  split at h
  · cases h
    exact .inl rfl
  right
  split at h
  · rename_i k _
    split at h
    · rename_i hs
      cases h
      exact .inl ⟨k, rfl, hs⟩
    · cases h
  rename_i hl
  split at h
  · cases h
    exact .inr hl
  · cases h

theorem openInstall_error {st now plan f e} (h : (openInstall st now plan f).1 = .error e) :
    e = nfs4ErrShareDenied ∨
      e = nfs4ErrResource ∧ (st.client plan.owner.client).opens ≥ maxOpensPerClient := by
  unfold openInstall at h
  split at h
  · cases h
    exact .inl rfl
  split at h
  · split at h
    · rename_i hroom
      cases h
      exact .inr ⟨rfl, hroom⟩
    · cases h
  · cases h

theorem openRecall_tables (now : ℕ) (plan : OpenPlan) (a : OpenArgs) :
    (openRecall st now plan a).2.toTables = st.toTables := by
  unfold openRecall
  split
  · exact st.recallDelegations_tables _ _ _
  · rfl

theorem openGrant_tables (now : ℕ) (plan : OpenPlan) (k : ℕ) : ∃ n, st.nextOther ≤ n ∧
      (openGrant st now plan k).2.toTables = { st.toTables with nextOther := n } := by
  simp only [openGrant, Store.renewClient_tables]
  split
  · exact st.grantDelegation_tables plan.target plan.owner plan.access
  · exact ⟨st.nextOther, le_refl _, rfl⟩

end NfsOps
