import FacetFS.NfsDisk
import FacetFS.NfsConsistency

/-! # The server together with its FileSystem

Requests one after another on the state store, the FileSystem and the table of exclusive creates.
The store part of OPEN is the operation of `NfsOps` in the environment that the FileSystem and the
table make. -/
namespace NfsWorld

open NfsSeqid GroupIndex NfsStore NfsOps NfsOutcomes NfsData NfsRename NfsDisk NfsStoreChange
open FileTree
open NfsExclusion (Request step)

structure ExclusiveRecord where
  verf : UInt64
  time : ℕ
  deriving DecidableEq, Repr

structure ExclusiveCreates where
  ttl : ℕ
  max : ℕ
  verfs : List (Path × ExclusiveRecord)

namespace ExclusiveCreates

variable (x : ExclusiveCreates)

def expired (now : ℕ) (r : ExclusiveRecord) : Bool := now - r.time > x.ttl

def find (p : Path) : Option ExclusiveRecord := (x.verfs.find? fun e => e.1 = p).map Prod.snd

def forget (p : Path) : ExclusiveCreates :=
  { x with verfs := x.verfs.filter fun e => e.1 ≠ p }

/-- Whether a path was created with this verifier; an expired record is dropped. -/
def matchesVerf (now : ℕ) (p : Path) (verf : UInt64) : Bool × ExclusiveCreates :=
  match x.find p with
  | none => (false, x)
  | some held => if x.expired now held then (false, x.forget p) else (held.verf = verf, x)

/-- The last of the oldest records in the order in which the map is walked. -/
def oldest (now : ℕ) (order : List Path) : Option Path :=
  (order.foldl (fun (best : Option Path × ℕ) p =>
    match x.find p with
    | some r => if r.time ≤ best.2 then (some p, r.time) else best
    | none => best) (none, now)).1

def sweep (now : ℕ) : ExclusiveCreates :=
  { x with verfs := x.verfs.filter fun e => !x.expired now e.2 }

def evict (now : ℕ) (order : List Path) : ExclusiveCreates :=
  if x.verfs.length ≥ x.max then
    match x.oldest now order with
    | some p => x.forget p
    | none => x
  else x

def record (now : ℕ) (order : List Path) (p : Path) (verf : UInt64) : ExclusiveCreates :=
  let x := (x.sweep now).evict now order
  { x with verfs := (p, ⟨verf, now⟩) :: (x.forget p).verfs }

end ExclusiveCreates

structure World where
  clock : ℕ
  store : Store
  disk : Disk
  exclusive : ExclusiveCreates

/-- An OPEN with its verifier, and what the FileSystem makes of it: whether opening or setting the
attributes fails, and whether the size was set before that. -/
structure OpenCall where
  args : OpenArgs
  verf : UInt64
  order : List Path
  fault : Option Failure
  apply : NfsStat
  sized : Bool
  before : UInt64
  after : UInt64
  applied : List UInt8

def openPath (fh : Option Path) (a : OpenArgs) : Path :=
  match a.name with
  | .ok name => fh.getD [] ++ [name]
  | .error _ => fh.getD []

/-- The size that is set through the attributes; a size of zero goes into the open flags. -/
def OpenCall.size (c : OpenCall) : Option ℕ :=
  if c.args.truncating then none
  else
    match c.args.attrs with
    | .ok size => size
    | .error _ => none

def OpenCall.exclusive (c : OpenCall) : Bool :=
  c.args.openType == openCreate && c.args.createMode == createExclusive

def openNow (d : Disk) (p : Path) (m : OpenMode) : Option Failure → Except NfsStat Disk
  | some e => .error e.1
  | none => d.openAt p m

/-- The status of a failed call on the object of the filehandle. -/
def fhStatus (e : NfsStat) : NfsStat := if e = nfs4ErrNoEnt then nfs4ErrStale else e

def setSize (d : Disk) (p : Path) : Option ℕ → Disk
  | some n => d.truncate p n
  | none => d

namespace World

variable (w : World)

def setStore (st : Store) : World := { w with store := st }

def setDisk (d : Disk) : World := { w with disk := d }

def openMode (fh : Option Path) (c : OpenCall) : OpenMode where
  create := c.args.openType = openCreate
  excl := c.args.createMode = createGuarded ∨
    c.args.createMode = createExclusive ∧ w.disk.lstat (openPath fh c.args) = none
  trunc := c.args.truncating

def openEnv (fh : Option Path) (c : OpenCall) : OpenEnv where
  dir := w.disk.dirStatus (fh.getD [])
  lookup := w.disk.lookup (openPath fh c.args)
  exclusive := (w.exclusive.matchesVerf w.clock (openPath fh c.args) c.verf).1
  file := (openNow w.disk (openPath fh c.args) (w.openMode fh c) c.fault).map fun _ => w.disk.files
  apply := c.apply
  before := c.before
  after := c.after
  applied := c.applied

/-- Whether OPEN comes to ask the table of exclusive creates. -/
def consults (fh : Option Path) (c : OpenCall) : Bool :=
  c.exclusive && (w.disk.lstat (openPath fh c.args)).isSome && fh.isSome &&
    c.args.refused == nfs4OK && w.disk.dirStatus (fh.getD []) == nfs4OK &&
    c.args.name.toBool && c.args.attrs.toBool

def consult (fh : Option Path) (c : OpenCall) : World :=
  if w.consults fh c then
    { w with exclusive := (w.exclusive.matchesVerf w.clock (openPath fh c.args) c.verf).2 }
  else w

/-- A create that fails over its attributes removes the file it made. -/
def undo (p : Path) (existed : Bool) (c : OpenCall) : World :=
  if existed = false ∧
      (c.args.createMode = createGuarded ∨ c.args.createMode = createExclusive) then
    { w with disk := w.disk.removeAll p, exclusive := w.exclusive.forget p }
  else w

def remember (p : Path) (c : OpenCall) : World :=
  if c.exclusive then
    { w with exclusive := w.exclusive.record w.clock c.order p c.verf }
  else w

/-- The calls of OPEN once the file is open, if one had to be: the create attributes are set. -/
def applyCalls (plan : OpenPlan) (c : OpenCall) (existed : Bool) (opened : Option Disk) :
    Except NfsStat (Option OpenFile) × World :=
  let f := opened.map fun _ => (⟨w.disk.files, plan.flag⟩ : OpenFile)
  let d := opened.getD w.disk
  if c.args.openType = openCreate ∧ c.apply ≠ nfs4OK then
    let w := { w with
      store := w.store.closeFile f
      disk := if c.sized then setSize d plan.target c.size else d }
    (.error c.apply, w.undo plan.target existed c)
  else if c.args.openType = openCreate then
    (.ok f, (w.setDisk (setSize d plan.target c.size)).remember plan.target c)
  else (.ok f, w.setDisk d)

def openCalls (plan : OpenPlan) (c : OpenCall) (m : OpenMode) (existed : Bool) :
    Except NfsStat (Option OpenFile) × World :=
  match if plan.needOpen then (openNow w.disk plan.target m c.fault).map some else .ok none with
  | .error e => (.error e, w)
  | .ok opened => w.applyCalls plan c existed opened

def openWith (fh : Option Path) (o : OwnerRef) (c : OpenCall) : BodyResult × World :=
  let env := w.openEnv fh c
  let m := w.openMode fh c
  let existed := (w.disk.lstat (openPath fh c.args)).isSome
  let w := w.consult fh c
  match openTarget fh c.args env with
  | .error e => (BodyResult.fail e, w)
  | .ok target =>
    match openCheck w.store.toTables o target c.args with
    | .error e => (BodyResult.fail e, w)
    | .ok plan =>
      let (status, st) := openRecall w.store w.clock plan c.args
      let w := w.setStore st
      if status ≠ nfs4OK then (BodyResult.fail status, w)
      else
        match w.openCalls plan c m existed with
        | (.error e, w) => (BodyResult.fail e, w)
        | (.ok f, w) =>
          match openInstall w.store w.clock plan f with
          | (.error e, st) => (BodyResult.fail e, w.setStore st)
          | (.ok g, st) => (openReply st plan env g, w.setStore st)

def sequenced (o : OwnerRef) (opnum seqid : UInt32) (body : World → BodyResult × World) :
    Outcome × World :=
  let r := withSeqid (w.store.owner o).seq opnum seqid body w
  (r.1, r.2.2.setStore (r.2.2.store.setOwner o { r.2.2.store.owner o with seq := r.2.1 }))

def openFile (fh : Option Path) (c : OpenCall) : Outcome × World :=
  match w.store.ownerOf w.clock c.args.clientID c.args.owner with
  | (.error e, st) => (failed e, w.setStore st)
  | (.ok o, st) => (w.setStore st).sequenced o opOpen c.args.seqid fun w => w.openWith fh o c

def openDowngradeBody (fh : Option Path) (a : DowngradeArgs) (fault : Option Failure) :
    BodyResult × World :=
  match downgradeCheck w.store w.clock fh a with
  | (.error e, st) => (BodyResult.fail e, w.setStore st)
  | (.ok needOpen, st) =>
    let w := w.setStore st
    match if needOpen then (openNow w.disk (fh.getD []) ⟨false, false, false⟩ fault).map some
        else .ok none with
    | .error e => (BodyResult.fail (fhStatus e), w)
    | .ok opened =>
      let r := downgradeInstall st w.clock a (opened.map fun _ => ⟨w.disk.files, a.flag⟩)
      (r.1, { w with store := r.2, disk := opened.getD w.disk })

def openDowngrade (fh : Option Path) (a : DowngradeArgs) (fault : Option Failure) :
    Outcome × World :=
  match w.store.ownerForStateid w.clock a.other with
  | (.error e, st) => (failed e, w.setStore st)
  | (.ok o, st) => (w.setStore st).sequenced o opOpenDowngrade a.seqid fun w =>
    w.openDowngradeBody fh a fault

end World

def maxInt64 : ℕ := 2 ^ 63 - 1

/-- A WRITE; the data is already cut to what the server writes at once. -/
structure WriteArgs where
  seq : UInt32
  other : Other
  offset : ℕ
  stable : UInt32
  data : List UInt8

def WriteArgs.refused (a : WriteArgs) : Bool :=
  decide (a.offset > maxInt64) || decide (a.data.length > maxInt64 - a.offset) || a.stable > 2

/-- What the FileSystem makes of a WRITE: whether opening fails, how many bytes it writes and
whether it reports an error for them. -/
structure WriteFaults where
  fault : Option Failure
  wrote : ℕ
  error : Option Failure

/-- A SETATTR; `attrs` carries the size if one is given, or the status of its decoding. -/
structure SetAttrArgs where
  seq : UInt32
  other : Other
  attrs : Except Failure (Option ℕ)
  times : Bool
  mode : Bool

def SetAttrArgs.size (a : SetAttrArgs) : Option ℕ :=
  match a.attrs with
  | .ok size => size
  | .error _ => none

def missing : FsError :=
  ⟨⟨nfs4ErrNoEnt, noEnt_ne_ok⟩, ⟨nfs4ErrStale, by decide⟩⟩

def diskView (d : Disk) (fault : Option FsError) (change : Path → UInt64 × UInt64) : FsView where
  lstat p :=
    match d.lstat p with
    | some k => .ok k
    | none => .error missing
  readdir p := .ok (d.tree.children p ≠ [])
  rename := fault
  change := change
  parent p q k hq h := by
    have hs : (d.tree.node (p ++ q)).isSome = true := by
      cases hn : d.tree.node (p ++ q) with
      | none => simp [Disk.lstat, hn] at h
      | some n => rfl
    have hd := d.tree.dirAt_of_append hq hs
    cases hn : d.tree.node p with
    | none =>
      rw [hn] at hd
      cases hd
    | some n =>
      rw [hn] at hd
      have hdir : n.isDir = true := hd
      simp [Disk.lstat, hn, hdir]
  listed p n k h := by
    have hs : (d.tree.node (p ++ [n])).isSome = true := by
      cases hn : d.tree.node (p ++ [n]) with
      | none => simp [Disk.lstat, hn] at h
      | some m => rfl
    have hc := (d.tree.mem_children p n).2 hs
    have hne : d.tree.children p ≠ [] := List.ne_nil_of_mem hc
    simp [hne]

namespace World

variable (w : World)

/-- The recall a WRITE or a SETATTR makes, which spares the client behind the stateid. -/
def recallFor (p : Path) (other : Other) : NfsStat × World :=
  let r := w.store.recallDelegations w.clock p (clientForStateid w.store other)
  (r.1, w.setStore r.2)

def writeTo (f : ℕ) (a : WriteArgs) (x : WriteFaults) : NfsStat × World :=
  (match x.error with
    | some e => e.1
    | none => nfs4OK, w.setDisk (w.disk.writeAt f a.offset (a.data.take x.wrote)))

def writeWith (fh : Option Path) (a : WriteArgs) (x : WriteFaults) : NfsStat × World :=
  let p := fh.getD []
  let opened := openNow w.disk p ⟨false, false, false⟩ x.fault
  match ioState w.store w.clock fh (w.disk.handleKind p) a.seq a.other true
      (opened.map fun _ => w.disk.files) with
  | (.error e, st) => (fhStatus e, w.setStore st)
  | (.ok (.held f), st) => (w.setStore st).writeTo f.handle a x
  | (.ok (.temporary f), st) =>
    ((w.setStore st).setDisk (opened.toOption.getD w.disk)).writeTo f a x

def write (fh : Option Path) (a : WriteArgs) (x : WriteFaults) : NfsStat × World :=
  if a.refused then (nfs4ErrInval, w)
  else
    match fh with
    | none => w.writeWith none a x
    | some p =>
      let (status, w) := w.recallFor p a.other
      if status ≠ nfs4OK then (status, w) else w.writeWith (some p) a x

/-- SETATTR once the delegations are recalled. `sized` says whether the size was set before a
failure. -/
def setAttrWith (p : Path) (a : SetAttrArgs) (apply : NfsStat) (sized : Bool) : NfsStat × World :=
  match resolveIOStateid w.store w.clock a.seq a.other p with
  | (.error e, st) => (e, w.setStore st)
  | (.ok s, st) =>
    let w := w.setStore st
    if a.size.isSome ∧ a.other.special = false ∧ s.access &&& shareWrite = 0 then
      (nfs4ErrOpenMode, w)
    else if a.size = none ∧ a.times = false ∧ a.mode = false then (nfs4OK, w)
    else (apply,
      w.setDisk (if apply = nfs4OK ∨ sized = true then setSize w.disk p a.size else w.disk))

def sizeStatus (p : Path) (a : SetAttrArgs) : NfsStat :=
  if a.size.isNone then nfs4OK
  else
    match w.disk.handleKind p with
    | .error e => e
    | .ok .directory => nfs4ErrIsDir
    | .ok _ => nfs4OK

def setAttr (fh : Option Path) (a : SetAttrArgs) (apply : NfsStat) (sized : Bool) :
    NfsStat × World :=
  match a.attrs, fh with
  | .error e, _ => (e.1, w)
  | .ok _, none => (nfs4ErrNoFilehandle, w)
  | .ok _, some p =>
    if w.sizeStatus p a ≠ nfs4OK then (w.sizeStatus p a, w)
    else if a.size.isSome ∨ a.times = true then
      let (status, w) := w.recallFor p a.other
      if status ≠ nfs4OK then (status, w) else w.setAttrWith p a apply sized
    else w.setAttrWith p a apply sized

def removeTarget (p : Path) (fault : Option Failure) : NfsStat × World :=
  let r := w.store.recallDelegations w.clock p none
  let w := w.setStore r.2
  if r.1 ≠ nfs4OK then (r.1, w)
  else if w.disk.tree.children p ≠ [] then (nfs4ErrNotEmpty, w)
  else
    match fault with
    | some e => (e.1, w)
    | none => (nfs4OK, w.setDisk (w.disk.removeAll p))

def remove (fh : Option Path) (name : Except Failure String) (fault : Option Failure) :
    NfsStat × World :=
  match name, fh with
  | .error e, _ => (e.1, w)
  | .ok _, none => (nfs4ErrNoFilehandle, w)
  | .ok name, some dir =>
    if w.disk.dirStatus dir ≠ nfs4OK then (w.disk.dirStatus dir, w)
    else
      match w.disk.lookup (dir ++ [name]) with
      | .error e => (e, w)
      | .ok _ => w.removeTarget (dir ++ [name]) fault

def renameDisk (d : Disk) (saved fh : Option Path) (oldName newName : Except Failure String) :
    Disk :=
  match saved, fh, oldName, newName with
  | some s, some f, .ok o, .ok n => d.rename (s ++ [o]) (f ++ [n])
  | _, _, _, _ => d

def rename (saved fh : Option Path) (oldName newName : Except Failure String)
    (fault : Option FsError) (change : Path → UInt64 × UInt64) : BodyResult × World :=
  let r := NfsRename.rename w.store w.clock (diskView w.disk fault change) saved fh oldName newName
  (r.1, { w with
    store := r.2
    disk := if r.1.status = nfs4OK then renameDisk w.disk saved fh oldName newName else w.disk })

end World

inductive Event where
  | tick (d : ℕ)
  | request (r : Request)
  | openFile (fh : Option Path) (c : OpenCall)
  | openDowngrade (fh : Option Path) (a : DowngradeArgs) (fault : Option Failure)
  | write (fh : Option Path) (a : WriteArgs) (x : WriteFaults)
  | setAttr (fh : Option Path) (a : SetAttrArgs) (apply : NfsStat) (sized : Bool)
  | remove (fh : Option Path) (name : Except Failure String) (fault : Option Failure)
  | rename (saved fh : Option Path) (oldName newName : Except Failure String)
      (fault : Option FsError) (change : Path → UInt64 × UInt64)

def next (w : World) : Event → World
  | .tick d => { w with clock := w.clock + d }
  | .request r => if Request.atomic r then w.setStore (step w.store r) else w
  | .openFile fh c => (w.openFile fh c).2
  | .openDowngrade fh a fault => (w.openDowngrade fh a fault).2
  | .write fh a x => (w.write fh a x).2
  | .setAttr fh a apply sized => (w.setAttr fh a apply sized).2
  | .remove fh name fault => (w.remove fh name fault).2
  | .rename saved fh oldName newName fault change =>
    (w.rename saved fh oldName newName fault change).2

def start (cfg : Config) (d : Disk) (ttl max : ℕ) : World :=
  ⟨0, newStateStore cfg, d, ⟨ttl, max, []⟩⟩

section Table

variable (x : ExclusiveCreates)

/-- A table with the same settings and no record that was not there. -/
structure Thinned (x x' : ExclusiveCreates) : Prop where
  ttl : x'.ttl = x.ttl
  verfs : x'.verfs ⊆ x.verfs

theorem Thinned.refl : Thinned x x := ⟨rfl, fun _ h => h⟩

theorem Thinned.trans {x x' x''} (h : Thinned x x') (h' : Thinned x' x'') : Thinned x x'' :=
  ⟨h'.ttl.trans h.ttl, fun _ he => h.verfs (h'.verfs he)⟩

theorem forget_thinned (p : Path) : Thinned x (x.forget p) :=
  ⟨rfl, List.filter_subset_self _⟩

theorem matchesVerf_thinned (now : ℕ) (p : Path) (verf : UInt64) :
    Thinned x (x.matchesVerf now p verf).2 := by
  unfold ExclusiveCreates.matchesVerf
  split
  · exact .refl x
  split
  · exact forget_thinned x p
  · exact .refl x

theorem matchesVerf_true {now p verf} (h : (x.matchesVerf now p verf).1 = true) :
    ∃ r, (p, r) ∈ x.verfs ∧ x.expired now r = false ∧ r.verf = verf := by
  unfold ExclusiveCreates.matchesVerf at h
  split at h
  · cases h
  rename_i held hfind
  split at h
  · cases h
  rename_i hlive
  obtain ⟨e, he, rfl⟩ := Option.map_eq_some_iff.1 hfind
  have hp : e.1 = p := by simpa using List.find?_some he
  refine ⟨e.2, ?_, by simpa using hlive, by simpa using h⟩
  rw [← hp]
  exact List.mem_of_find?_eq_some he

theorem sweep_evict_thinned (now : ℕ) (order : List Path) :
    Thinned x ((x.sweep now).evict now order) := by
  have hsweep : Thinned x (x.sweep now) := ⟨rfl, List.filter_subset_self _⟩
  refine hsweep.trans ?_
  unfold ExclusiveCreates.evict
  split
  · split
    · exact forget_thinned _ _
    · exact .refl _
  · exact .refl _

theorem mem_record {now order p q verf r} (h : (q, r) ∈ (x.record now order p verf).verfs) :
    (q = p ∧ r = ⟨verf, now⟩) ∨ (q ≠ p ∧ (q, r) ∈ x.verfs) := by
  rcases List.mem_cons.1 h with heq | hold
  · cases heq
    exact .inl ⟨rfl, rfl⟩
  · obtain ⟨hmem, hne⟩ := List.mem_filter.1 hold
    exact .inr ⟨by simpa using hne, (sweep_evict_thinned x now order).verfs hmem⟩

theorem record_ttl (now : ℕ) (order : List Path) (p : Path) (verf : UInt64) :
    (x.record now order p verf).ttl = x.ttl :=
  (sweep_evict_thinned x now order).ttl

end Table

section Requests

variable (w : World)

variable (p : Path) (plan : OpenPlan) (fh : Option Path) (a : DowngradeArgs) (o : OwnerRef)

@[simp]
theorem consult_store (c : OpenCall) : (w.consult fh c).store = w.store := by
  unfold World.consult
  split <;> rfl

@[simp]
theorem consult_disk (c : OpenCall) : (w.consult fh c).disk = w.disk := by
  unfold World.consult
  split <;> rfl

@[simp]
theorem consult_clock (c : OpenCall) : (w.consult fh c).clock = w.clock := by
  unfold World.consult
  split <;> rfl

theorem consult_thinned (c : OpenCall) : Thinned w.exclusive (w.consult fh c).exclusive := by
  unfold World.consult
  split
  · exact matchesVerf_thinned _ _ _ _
  · exact .refl _

@[simp]
theorem undo_store (existed : Bool) (c : OpenCall) : (w.undo p existed c).store = w.store := by
  unfold World.undo
  split <;> rfl

@[simp]
theorem remember_store (c : OpenCall) : (w.remember p c).store = w.store := by
  unfold World.remember
  split <;> rfl

@[simp]
theorem remember_disk (c : OpenCall) : (w.remember p c).disk = w.disk := by
  unfold World.remember
  split <;> rfl

@[simp]
theorem remember_clock (c : OpenCall) : (w.remember p c).clock = w.clock := by
  unfold World.remember
  split <;> rfl

theorem sequenced_world (opnum seqid : UInt32) (body : World → BodyResult × World) :
    ∃ f, ((w.sequenced o opnum seqid body).1.ran = false ∧
        (w.sequenced o opnum seqid body).2 = w.setStore { w.store with owner := f }) ∨
      ((w.sequenced o opnum seqid body).1.ran = true ∧
        (w.sequenced o opnum seqid body).1.status = (body w).1.status ∧
        (w.sequenced o opnum seqid body).2 =
          (body w).2.setStore { (body w).2.store with owner := f }) := by
  have hrun : ∀ q, ∃ f, ((execute q opnum body w).1.ran = true ∧
      (execute q opnum body w).1.status = (body w).1.status ∧
      (execute q opnum body w).2.2.setStore
          ((execute q opnum body w).2.2.store.setOwner o
            { (execute q opnum body w).2.2.store.owner o with
              seq := (execute q opnum body w).2.1 }) =
        (body w).2.setStore { (body w).2.store with owner := f }) := by
    intro q
    unfold execute
    simp only
    split
    · exact ⟨_, rfl, rfl, rfl⟩
    · exact ⟨_, rfl, rfl, rfl⟩
  unfold World.sequenced withSeqid
  simp only
  split
  · obtain ⟨f, h⟩ := hrun { (w.store.owner o).seq with fresh := false, seqid := seqid }
    exact ⟨f, .inr h⟩
  split
  · split
    · exact ⟨_, .inl ⟨rfl, rfl⟩⟩
    · split
      · exact ⟨_, .inl ⟨rfl, rfl⟩⟩
      · exact ⟨_, .inl ⟨rfl, rfl⟩⟩
  split
  · obtain ⟨f, h⟩ := hrun { (w.store.owner o).seq with seqid := seqid }
    exact ⟨f, .inr h⟩
  · exact ⟨_, .inl ⟨rfl, rfl⟩⟩

theorem applyCalls_store (c : OpenCall) (existed : Bool) (opened : Option Disk) :
    ((w.applyCalls plan c existed opened).1, (w.applyCalls plan c existed opened).2.store) =
      if c.args.openType = openCreate ∧ c.apply ≠ nfs4OK then
        (.error c.apply, w.store.closeFile
          (opened.map fun _ => (⟨w.disk.files, plan.flag⟩ : OpenFile)))
      else (.ok (opened.map fun _ => (⟨w.disk.files, plan.flag⟩ : OpenFile)), w.store) := by
  simp only [World.applyCalls]
  split
  · simp
  split
  · simp [World.setDisk]
  · rfl

/-- The FileSystem calls of OPEN mean to the store what they mean in `NfsOps`. -/
theorem openCalls_store (c : OpenCall) (m : OpenMode) (existed : Bool) {env}
    (hf : env.file = (openNow w.disk plan.target m c.fault).map fun _ => w.disk.files)
    (ha : env.apply = c.apply) :
    openFiles w.store plan c.args env =
      ((w.openCalls plan c m existed).1, (w.openCalls plan c m existed).2.store) := by
  unfold openFiles World.openCalls
  cases hn : plan.needOpen with
  | false =>
    simp only [Bool.false_eq_true, if_false, ha]
    exact (applyCalls_store w plan c existed none).symm
  | true =>
    simp only [if_true, hf, ha]
    cases ho : openNow w.disk plan.target m c.fault with
    | error e => rfl
    | ok d => exact (applyCalls_store w plan c existed (some d)).symm

theorem openCalls_clock (c : OpenCall) (m : OpenMode) (existed : Bool) :
    (w.openCalls plan c m existed).2.clock = w.clock := by
  unfold World.openCalls
  split
  · rfl
  simp only [World.applyCalls]
  split
  · unfold World.undo
    split <;> rfl
  split
  · simp [World.setDisk]
  · rfl

theorem openTarget_ok {fh a env target} (h : openTarget fh a env = .ok target) :
    target = openPath fh a ∧ target ≠ [] ∧
      ((∃ k, env.lookup = .ok k ∧ existingStatus a env k = nfs4OK) ∨
        env.lookup = .error nfs4ErrNoEnt ∧ a.openType ≠ 0) := by
  unfold openTarget at h
  split at h
  · cases h
  rename_i name hname
  split at h
  · cases h
  split at h
  · cases h
  rename_i dir
  split at h
  · cases h
  split at h
  · cases h
  split at h
  · cases h
  split at h
  · rename_i k hk
    split at h
    · cases h
    rename_i hex
    cases h
    exact ⟨by simp [openPath, hname], by simp, .inl ⟨k, hk, not_not.1 hex⟩⟩
  rename_i e he
  split at h
  · cases h
  rename_i hcreate
  rw [not_or, not_not] at hcreate
  cases h
  refine ⟨by simp [openPath, hname], by simp, .inr ⟨?_, hcreate.2⟩⟩
  rw [he, hcreate.1]

theorem openEnv_lookup (c : OpenCall) (e : NfsStat)
    (h : (w.openEnv fh c).lookup = .error e) : e ≠ nfs4OK := by
  simp only [World.openEnv, Disk.lookup] at h
  split at h
  · cases h
  · cases h
    decide

theorem openWith_store (c : OpenCall) :
    NfsOps.openWith w.clock fh o c.args (w.openEnv fh c) w.store =
      ((w.openWith fh o c).1, (w.openWith fh o c).2.store) := by
  unfold NfsOps.openWith World.openWith
  simp only [consult_store, consult_clock]
  cases ht : openTarget fh c.args (w.openEnv fh c) with
  | error e => simp
  | ok target =>
    obtain ⟨rfl, -, -⟩ := openTarget_ok ht
    simp only
    cases hc : openCheck w.store.toTables o (openPath fh c.args) c.args with
    | error e => simp
    | ok plan =>
      have hplan : plan.target = openPath fh c.args := (openCheck_ok hc).2.1
      simp only [openFinish]
      split
      · rfl
      have hcalls := openCalls_store
        ((w.consult fh c).setStore (openRecall w.store w.clock plan c.args).2) plan c
        (w.openMode fh c) (w.disk.lstat (openPath fh c.args)).isSome
        (show (w.openEnv fh c).file = _ by rw [hplan]; simp [World.setStore, World.openEnv]) rfl
      have hclock := openCalls_clock
        ((w.consult fh c).setStore (openRecall w.store w.clock plan c.args).2) plan c
        (w.openMode fh c) (w.disk.lstat (openPath fh c.args)).isSome
      change openFiles (openRecall w.store w.clock plan c.args).2 plan c.args _ = _ at hcalls
      change _ = (w.consult fh c).clock at hclock
      rw [consult_clock] at hclock
      rw [hcalls]
      generalize World.openCalls _ plan c (w.openMode fh c) _ = r at hclock
      obtain ⟨r₁, w₂⟩ := r
      cases r₁ with
      | error e => rfl
      | ok f =>
        simp only at hclock
        simp only [hclock]
        rcases openInstall w₂.store w.clock plan f with ⟨e | g, st⟩
        · rfl
        · rfl

theorem sequenced_store {o} (body : World → BodyResult × World) (body' : Store → BodyResult × Store)
    (h : body' w.store = ((body w).1, (body w).2.store)) (opnum seqid : UInt32) :
    NfsOps.sequenced w.store o opnum seqid body' =
      ((w.sequenced o opnum seqid body).1, (w.sequenced o opnum seqid body).2.store) := by
  simp only [NfsOps.sequenced, World.sequenced]
  rw [withSeqid_project h]
  rfl

/-- OPEN on the world is OPEN on the store in the environment the world makes. -/
theorem openFile_store (c : OpenCall) : NfsOps.openFile w.store w.clock fh c.args (w.openEnv fh c) =
      ((w.openFile fh c).1, (w.openFile fh c).2.store) := by
  unfold NfsOps.openFile World.openFile
  rcases w.store.ownerOf w.clock c.args.clientID c.args.owner with ⟨e | o, st⟩
  · rfl
  · exact sequenced_store (w.setStore st) (fun w => w.openWith fh o c) _
      (openWith_store (w.setStore st) fh o c) opOpen c.args.seqid

theorem openDowngradeBody_store (fault : Option Failure) : NfsOps.openDowngradeBody w.clock fh a
        (((openNow w.disk (fh.getD []) ⟨false, false, false⟩ fault).mapError fhStatus).map
          fun _ => w.disk.files) w.store =
      ((w.openDowngradeBody fh a fault).1, (w.openDowngradeBody fh a fault).2.store) := by
  unfold NfsOps.openDowngradeBody World.openDowngradeBody
  rcases downgradeCheck w.store w.clock fh a with ⟨e | needOpen, st⟩
  · rfl
  cases needOpen with
  | false => rfl
  | true =>
    simp only [if_true, World.setStore]
    cases openNow w.disk (fh.getD []) ⟨false, false, false⟩ fault <;> rfl

theorem openDowngrade_store (fault : Option Failure) : NfsOps.openDowngrade w.store w.clock fh a
        (((openNow w.disk (fh.getD []) ⟨false, false, false⟩ fault).mapError fhStatus).map
          fun _ => w.disk.files) =
      ((w.openDowngrade fh a fault).1, (w.openDowngrade fh a fault).2.store) := by
  unfold NfsOps.openDowngrade byStateid World.openDowngrade
  rcases w.store.ownerForStateid w.clock a.other with ⟨e | o, st⟩
  · rfl
  · exact sequenced_store (w.setStore st) (fun w => w.openDowngradeBody fh a fault) _
      (openDowngradeBody_store (w.setStore st) fh a fault) opOpenDowngrade a.seqid

/-- How far an OPEN comes: it is refused before any FileSystem call, one of these calls fails, or
they are all made. -/
inductive OpenReach (w : World) (fh : Option Path) (o : OwnerRef) (c : OpenCall) :
    BodyResult × World → Prop where
  | stopped (e : NfsStat) (st : Store)
      (store : st = w.store ∨ ∃ plan, st = (openRecall w.store w.clock plan c.args).2)
      (refused : ∀ plan, openTarget fh c.args (w.openEnv fh c) = .ok plan.target →
        openCheck w.store.toTables o plan.target c.args = .ok plan →
        (openRecall w.store w.clock plan c.args).1 ≠ nfs4OK) :
      OpenReach w fh o c (BodyResult.fail e, (w.consult fh c).setStore st)
  | called (plan : OpenPlan) (w' : World) (e : NfsStat)
      (target : openTarget fh c.args (w.openEnv fh c) = .ok plan.target)
      (checked : openCheck w.store.toTables o plan.target c.args = .ok plan)
      (recalled : (openRecall w.store w.clock plan c.args).1 = nfs4OK)
      (calls : ((w.consult fh c).setStore (openRecall w.store w.clock plan c.args).2).openCalls
        plan c (w.openMode fh c) (w.disk.lstat (openPath fh c.args)).isSome = (.error e, w')) :
      OpenReach w fh o c (BodyResult.fail e, w')
  | installed (plan : OpenPlan) (w' : World) (f : Option OpenFile) (r : BodyResult)
      (target : openTarget fh c.args (w.openEnv fh c) = .ok plan.target)
      (checked : openCheck w.store.toTables o plan.target c.args = .ok plan)
      (recalled : (openRecall w.store w.clock plan c.args).1 = nfs4OK)
      (calls : ((w.consult fh c).setStore (openRecall w.store w.clock plan c.args).2).openCalls
        plan c (w.openMode fh c) (w.disk.lstat (openPath fh c.args)).isSome = (.ok f, w')) :
      OpenReach w fh o c (r, w'.setStore (openInstall w'.store w'.clock plan f).2)

theorem openWith_reach (c : OpenCall) : OpenReach w fh o c (w.openWith fh o c) := by
  unfold World.openWith
  simp only
  cases ht : openTarget fh c.args (w.openEnv fh c) with
  | error e =>
    refine .stopped e (w.consult fh c).store (.inl (consult_store w fh c)) fun plan h => ?_
    rw [ht] at h
    cases h
  | ok target =>
    simp only [consult_store, consult_clock]
    cases hc : openCheck w.store.toTables o target c.args with
    | error e =>
      refine .stopped e (w.consult fh c).store (.inl (consult_store w fh c)) fun plan h hp => ?_
      rw [ht] at h
      cases h
      rw [hc] at hp
      cases hp
    | ok plan =>
      obtain rfl : plan.target = target := (openCheck_ok hc).2.1
      simp only
      split
      · rename_i hr
        refine .stopped _ _ (.inr ⟨plan, rfl⟩) fun plan' h hp => ?_
        rw [ht] at h
        rw [← Except.ok.inj h, hc] at hp
        cases hp
        exact hr
      rename_i hr
      rw [not_not] at hr
      split
      · rename_i hcalls
        exact .called plan _ _ ht hc hr hcalls
      rename_i hcalls
      split
      · rename_i e st hi
        have hst := congrArg Prod.snd hi
        simp only at hst
        subst hst
        exact .installed plan _ _ _ ht hc hr hcalls
      rename_i g st hi
      have hst := congrArg Prod.snd hi
      simp only at hst
      subst hst
      exact .installed plan _ _ _ ht hc hr hcalls

end Requests

section Sparing

/-- The table of exclusive creates and the clock stay, and no object and no name is new. -/
structure Spares (w w' : World) : Prop where
  exclusive : w'.exclusive = w.exclusive
  clock : w'.clock = w.clock
  disk : Thins w.disk w'.disk

variable (w : World)

variable (fh : Option Path) (a : DowngradeArgs)

theorem Spares.store (st : Store) : Spares w (w.setStore st) := ⟨rfl, rfl, .refl _⟩

theorem Spares.of_setStore {w w' st} (h : Spares (w.setStore st) w') : Spares w w' :=
  ⟨h.exclusive, h.clock, h.disk⟩

theorem openNow_ok {d d' p m fault} (h : openNow d p m fault = .ok d') : d.openAt p m = .ok d' := by
  cases fault with
  | some e => cases h
  | none => exact h

theorem setSize_thins (d : Disk) (p : Path) (n : Option ℕ) : Thins d (setSize d p n) := by
  cases n with
  | none => exact .refl d
  | some n => exact .truncate p n

theorem request_spares (r : Request) : Spares w (next w (.request r)) := by
  simp only [next]
  split
  · exact .store w _
  · exact .store w w.store

theorem openDowngradeBody_spares (fault : Option Failure) :
    Spares w (w.openDowngradeBody fh a fault).2 := by
  unfold World.openDowngradeBody
  split
  · exact .store w _
  rename_i needOpen st _
  simp only
  split
  · exact .store w st
  rename_i opened hopen
  refine ⟨rfl, rfl, ?_⟩
  cases needOpen with
  | false =>
    cases hopen
    exact .refl _
  | true =>
    simp only [if_true] at hopen
    cases hd : openNow (w.setStore st).disk (fh.getD []) ⟨false, false, false⟩ fault with
    | error e =>
      rw [hd] at hopen
      cases hopen
    | ok d =>
      rw [hd] at hopen
      cases hopen
      exact openAt_thins rfl (openNow_ok hd)

theorem openDowngrade_spares (fault : Option Failure) :
    Spares w (w.openDowngrade fh a fault).2 := by
  unfold World.openDowngrade
  split
  · exact .store w _
  rename_i o st _
  obtain ⟨f, ⟨-, he⟩ | ⟨-, -, he⟩⟩ := sequenced_world (w.setStore st) o opOpenDowngrade a.seqid
    (fun w => w.openDowngradeBody fh a fault)
  · rw [he]
    exact .store w _
  rw [he]
  have hb := openDowngradeBody_spares (w.setStore st) fh a fault
  exact ⟨hb.exclusive, hb.clock, hb.disk⟩

theorem recallFor_world {p other status v} (h : w.recallFor p other = (status, v)) :
    v = w.setStore (w.store.recallDelegations w.clock p (clientForStateid w.store other)).2 :=
  (congrArg Prod.snd h).symm

theorem writeWith_spares (a : WriteArgs) (x : WriteFaults) : Spares w (w.writeWith fh a x).2 := by
  simp only [World.writeWith]
  split
  · exact .store w _
  · exact ⟨rfl, rfl, (Thins.refl _).setData _ _⟩
  · refine ⟨rfl, rfl, ?_⟩
    cases hd : openNow w.disk (fh.getD []) ⟨false, false, false⟩ x.fault with
    | error e => exact (Thins.refl _).setData _ _
    | ok d => exact (openAt_thins rfl (openNow_ok hd)).setData _ _

theorem write_spares (a : WriteArgs) (x : WriteFaults) : Spares w (w.write fh a x).2 := by
  unfold World.write
  split
  · exact .store w w.store
  split
  · exact writeWith_spares w none a x
  rename_i p
  rcases hr : w.recallFor p a.other with ⟨status, v⟩
  obtain rfl := recallFor_world w hr
  simp only
  split
  · exact .store w _
  · exact (writeWith_spares _ (some p) a x).of_setStore

theorem setAttrWith_spares (p : Path) (a : SetAttrArgs) (apply : NfsStat) (sized : Bool) :
    Spares w (w.setAttrWith p a apply sized).2 := by
  simp only [World.setAttrWith]
  split
  · exact .store w _
  split
  · exact .store w _
  split
  · exact .store w _
  refine ⟨rfl, rfl, ?_⟩
  simp only [World.setDisk]
  split
  · exact setSize_thins _ p a.size
  · exact .refl _

theorem setAttr_spares (a : SetAttrArgs) (apply : NfsStat) (sized : Bool) :
    Spares w (w.setAttr fh a apply sized).2 := by
  unfold World.setAttr
  split
  · exact .store w w.store
  · exact .store w w.store
  rename_i p _
  split
  · exact .store w w.store
  split
  · rcases hr : w.recallFor p a.other with ⟨status, v⟩
    obtain rfl := recallFor_world w hr
    simp only
    split
    · exact .store w _
    · exact (setAttrWith_spares _ p a apply sized).of_setStore
  · exact setAttrWith_spares w p a apply sized

theorem remove_spares (name : Except Failure String) (fault : Option Failure) :
    Spares w (w.remove fh name fault).2 := by
  unfold World.remove
  split
  · exact .store w w.store
  · exact .store w w.store
  split
  · exact .store w w.store
  split
  · exact .store w w.store
  simp only [World.removeTarget]
  split
  · exact .store w _
  split
  · exact .store w _
  split
  · exact .store w _
  · exact ⟨rfl, rfl, .removeAll _⟩

end Sparing

end NfsWorld
