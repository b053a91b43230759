import FacetFS.CacheBackend

/-! # The caching file system

The wrapper around the backend: cached attributes, the registry of cached files, the files they
leave on disk when they are closed, and the handles. Operations run one after another, and disk
operations of the cache do not fail. Times and read-ahead are choices of the environment; so is a
failure of the backend, which then has done nothing. -/
namespace CacheWrapper

open FileTree CacheRanges CacheItem CacheRefinement CacheBackend
open Function (update)

section Data

abbrev Path (ν : Type) := List ν

/-- The data and the metadata file of a cached file. -/
structure DiskFile where
  data : Content
  metadata : Option Meta

structure Slot (ν : Type) where
  name : Path ν
  cached : Cached

/-- A handle for reading; `object` is what the name named when it was opened. -/
structure Reader (ν : Type) where
  name : Path ν
  item : ℕ
  off : Int
  object : Option ℕ

/-- A handle for writing. The backend's handle has its own position `pos`. -/
structure Writer (ν : Type) where
  name : Path ν
  object : ℕ
  append : Bool
  item : Option ℕ
  pos : Int
  off : Int

inductive Handle (ν : Type)
  | reader (r : Reader ν)
  | writer (w : Writer ν)
  | closed

def Handle.item {ν : Type} : Handle ν → Option ℕ
  | .reader r => some r.item
  | .writer w => w.item
  | .closed => none

/-- A cached attribute is what a name has, or that there is nothing. -/
structure State (ν : Type) where
  backend : Backend ν
  attr : Path ν → Option (Option Info)
  registry : Path ν → Option ℕ
  slot : ℕ → Slot ν
  nextItem : ℕ
  disk : Path ν → Option DiskFile
  handles : List (Handle ν)

inductive Event (ν : Type)
  | stat (p : Path ν) (ok : Bool)
  | mkdir (p : Path ν) (ok : Bool)
  | openRead (p : Path ν) (ok : Bool) (now : Int)
  | openWrite (p : Path ν) (create trunc append ok : Bool)
  | readAt (h : ℕ) (now : Int) (len : ℕ) (off : Int)
  | read (h : ℕ) (now : Int) (len : ℕ)
  | seek (h : ℕ) (off : ℕ)
  | readThrough (h : ℕ) (n : ℕ)
  | write (h : ℕ) (bs : List UInt8) (n : ℕ)
  | writeAt (h : ℕ) (bs : List UInt8) (n : ℕ) (off : Int)
  | truncate (p : Path ν) (n : ℕ) (ok : Bool)
  | rename (p q : Path ν) (ok : Bool)
  | removeAll (p : Path ν) (ok : Bool)
  | close (h : ℕ)
  | fill (p : Path ν) (r : Rng)
  | flush (p : Path ν)
  | closeIdle (p : Path ν)
  | evict (p : Path ν)
  | forget (p : Path ν)

end Data

variable {ν : Type} [DecidableEq ν]

section BackendCalls

/-- Opening for writing, with the object that is then open. -/
def backendOpen (b : Backend ν) (p : Path ν) (create trunc : Bool) : Option (ℕ × Backend ν) :=
  match fileAt b.tree p with
  | some o => some (o, if trunc then b.modify o ((b.object o).file.resize 0) else b)
  | none =>
    if h : create = true ∧ p ≠ [] ∧ dirAt (b.tree.node p.dropLast) = true ∧
        b.tree.node p = none then
      some (b.next, b.create p h.2.1 h.2.2.1 h.2.2.2)
    else none

def backendMkdir (b : Backend ν) (p : Path ν) : Backend ν :=
  if h : p ≠ [] ∧ dirAt (b.tree.node p.dropLast) = true ∧ b.tree.node p = none then
    b.mkdir p h.1 h.2.1 h.2.2
  else b

def backendRemoveAll (b : Backend ν) (p : Path ν) : Backend ν :=
  if hp : p ≠ [] then b.removeAll p hp else b

/-- Renaming replaces the target, except for a directory that is not empty. -/
def Renamable (b : Backend ν) (p q : Path ν) : Prop :=
  (p ≠ [] ∧ ¬ p <+: q ∧ q ≠ [] ∧ dirAt (b.tree.node q.dropLast) = true) ∧
    b.tree.node p ≠ none ∧ b.tree.children q = []

instance (b : Backend ν) (p q : Path ν) : Decidable (Renamable b p q) :=
  inferInstanceAs (Decidable (_ ∧ _))

def backendRename (b : Backend ν) (p q : Path ν) : Backend ν :=
  if h : Renamable b p q then b.rename p q h.1.1 h.1.2.1 h.1.2.2.1 h.1.2.2.2 else b

end BackendCalls

namespace State

variable (s : State ν)

section Attributes

def invalidateAttr (p : Path ν) : State ν := { s with attr := update s.attr p none }

def invalidateEntry (p : Path ν) : State ν := (s.invalidateAttr p).invalidateAttr p.dropLast

def statCached (p : Path ν) (ok : Bool) : Option Info × State ν :=
  match s.attr p with
  | some info => (info, s)
  | none =>
    if ok then
      (s.backend.stat p, { s with attr := update s.attr p (some (s.backend.stat p)) })
    else (none, s)

end Attributes

section Items

def opens (i : ℕ) : ℕ := s.handles.countP fun h => h.item == some i

def live (i : ℕ) : Bool := (s.slot i).cached.item.live

def setCached (i : ℕ) (c : Cached) : State ν :=
  { s with slot := update s.slot i { s.slot i with cached := c } }

def setDiskFile (p : Path ν) (d : Option DiskFile) : State ν :=
  { s with disk := update s.disk p d }

def setRegistry (p : Path ν) (i : Option ℕ) : State ν :=
  { s with registry := update s.registry p i }

def covers (name p : Path ν) : Bool := decide (name <+: p) && (decide (name ≠ []) || decide (p = []))

def shut (c : Cached) : Cached := { c with item := { c.item with loaded := false, doomed := true } }

/-- A dropped item is shut down unless some handle holds it. -/
def retire (pinned : Bool) (c : Cached) : Cached := if pinned then doom c else shut (doom c)

/-- The items at the given names go, with their files. -/
def drop (cov : Path ν → Bool) : State ν :=
  { s with
    slot := fun i =>
      let sl := s.slot i
      if cov sl.name && s.registry sl.name == some i then
        { sl with cached := retire (decide (0 < s.opens i)) sl.cached }
      else sl
    registry := fun p => if cov p then none else s.registry p
    disk := fun p => if cov p then none else s.disk p }

def invalidateTree (name : Path ν) : State ν := s.drop (covers name)

/-- The item of a name is taken from the registry or loaded. -/
def openItem (p : Path ν) (fpr : Fingerprint) (now : Int) : Option ℕ × State ν :=
  match s.registry p with
  | some i => if s.live i then (some i, s) else (none, s)
  | none =>
    let d := (s.disk p).getD ⟨fun _ => 0, none⟩
    let metadata := d.metadata.filter Meta.valid
    let it := load fpr now metadata
    (some s.nextItem,
      { s with
        registry := update s.registry p (some s.nextItem)
        slot := update s.slot s.nextItem
          ⟨p, it, CacheItem.resize d.data fpr.size, size it.rs⟩
        nextItem := s.nextItem + 1
        disk := update s.disk p (some { d with metadata := metadata }) })

def lookupItem (p : Path ν) : Option ℕ := (s.registry p).filter s.live

def release (i : ℕ) : State ν :=
  if s.opens i = 0 ∧ (s.slot i).cached.item.doomed = true then
    s.setCached i (shut (s.slot i).cached)
  else s

/-- The metadata file is written if the item is dirty. -/
def flushMeta (p : Path ν) (i : ℕ) : State ν :=
  let c := (s.slot i).cached
  if c.item.dirty && c.item.live then
    (s.setDiskFile p (some ⟨c.data, some c.item.snapshot⟩)).setCached i
      { c with item := { c.item with needSync := false, dirty := false } }
  else s

/-- An item that no handle holds is flushed and shut down. Its files stay. -/
def closeIdle (p : Path ν) (i : ℕ) : State ν :=
  let t := s.flushMeta p i
  let c := (t.slot i).cached
  ((t.setCached i (shut c)).setRegistry p none).setDiskFile p
    ((t.disk p).map fun d => { d with data := c.data })

end Items

section Handles

def addHandle (h : Handle ν) : State ν := { s with handles := s.handles ++ [h] }

def setHandle (h : ℕ) (x : Handle ν) : State ν := { s with handles := s.handles.set h x }

def openRead (p : Path ν) (ok : Bool) (now : Int) : State ν :=
  match s.statCached p ok with
  | (some (.file fpr), t) =>
    match t.openItem p fpr now with
    | (some i, u) => u.addHandle (.reader ⟨p, i, 0, fileAt s.backend.tree p⟩)
    | (none, u) => u
  | (_, t) => t

def mirror (target : Option ℕ) (op : Cached → Cached) : State ν :=
  match target with
  | some i => s.setCached i (op (s.slot i).cached)
  | none => s

def openWrite (p : Path ν) (create trunc append : Bool) : State ν :=
  match backendOpen s.backend p create trunc with
  | none => s
  | some (o, b) =>
    let t := { s with backend := b }.invalidateEntry p
    if append then
      (t.invalidateTree p).addHandle (.writer ⟨p, o, true, none, 0, 0⟩)
    else
      (if trunc then t.mirror (t.lookupItem p) (CacheItem.truncate false 0) else t).addHandle
        (.writer ⟨p, o, false, t.lookupItem p, 0, 0⟩)

def readAt (i : ℕ) (now : Int) (len : ℕ) (off : Int) : Option (List UInt8 × Bool) × State ν :=
  let sl := s.slot i
  let r := CacheRefinement.readAt (s.backend.source sl.name) now len off sl.cached
  (r.1, s.setCached i r.2)

/-- Bytes the backend has taken at `off` go to the mirrored item at `mirrorOff`. -/
def writeThrough (w : Writer ν) (bs : List UInt8) (off mirrorOff : Int) : State ν :=
  if bs = [] then s
  else
    let b := s.backend.modify w.object ((s.backend.object w.object).file.write bs off)
    ({ s with backend := b }.mirror w.item (mirrorWrite none bs mirrorOff)).invalidateAttr w.name

def backendPos (w : Writer ν) : Int :=
  if w.append then (s.backend.object w.object).file.size else w.pos

def write (h : ℕ) (w : Writer ν) (bs : List UInt8) : State ν :=
  (s.writeThrough w bs (s.backendPos w) w.off).setHandle h
    (.writer { w with pos := s.backendPos w + bs.length, off := w.off + bs.length })

def truncate (p : Path ν) (n : ℕ) (ok : Bool) : State ν :=
  match (if ok then fileAt s.backend.tree p else none) with
  | some o =>
    let b := s.backend.modify o ((s.backend.object o).file.resize n)
    ({ s with backend := b }.invalidateAttr p).mirror (s.lookupItem p) (CacheItem.truncate false n)
  | none => s.invalidateAttr p

def rename (p q : Path ν) (ok : Bool) : State ν :=
  let b := if ok then backendRename s.backend p q else s.backend
  ((({ s with backend := b }.invalidateEntry p).invalidateEntry q).invalidateTree p).invalidateTree q

def removeAll (p : Path ν) (ok : Bool) : State ν :=
  let b := if ok then backendRemoveAll s.backend p else s.backend
  ({ s with backend := b }.invalidateEntry p).invalidateTree p

def mkdir (p : Path ν) (ok : Bool) : State ν :=
  if ok then { s with backend := backendMkdir s.backend p }.invalidateEntry p else s

def close (h : ℕ) : Handle ν → State ν
  | .reader r => (s.setHandle h .closed).release r.item
  | .writer w =>
    let t := s.setHandle h .closed
    (match w.item with
      | some i => t.release i
      | none => t).invalidateAttr w.name
  | .closed => s

end Handles

end State

def next (s : State ν) : Event ν → Option (State ν)
  | .stat p ok => some (s.statCached p ok).2
  | .mkdir p ok => some (s.mkdir p ok)
  | .openRead p ok now => some (s.openRead p ok now)
  | .openWrite p create trunc append ok =>
    some (if ok then s.openWrite p create trunc append else s)
  | .readAt h now len off =>
    match s.handles[h]? with
    | some (.reader r) => some (s.readAt r.item now len off).2
    | _ => none
  | .read h now len =>
    match s.handles[h]? with
    | some (.reader r) =>
      let (result, t) := s.readAt r.item now len r.off
      some (t.setHandle h (.reader { r with off := r.off + ((result.map (·.1)).getD []).length }))
    | _ => none
  | .seek h off =>
    match s.handles[h]? with
    | some (.reader r) => some (s.setHandle h (.reader { r with off := off }))
    | some (.writer w) => some (s.setHandle h (.writer { w with pos := off, off := off }))
    | _ => none
  | .readThrough h n =>
    match s.handles[h]? with
    | some (.writer w) => some (s.setHandle h (.writer { w with pos := w.pos + n, off := w.off + n }))
    | _ => none
  | .write h bs n =>
    match s.handles[h]? with
    | some (.writer w) => some (s.write h w (bs.take n))
    | _ => none
  | .writeAt h bs n off =>
    match s.handles[h]? with
    | some (.writer w) => if 0 ≤ off then some (s.writeThrough w (bs.take n) off off) else some s
    | _ => none
  | .truncate p n ok => some (s.truncate p n ok)
  | .rename p q ok => some (s.rename p q ok)
  | .removeAll p ok => some (s.removeAll p ok)
  | .close h => (s.handles[h]?).map (s.close h)
  | .fill p r =>
    match s.registry p with
    | some i => some (s.setCached i (download (s.backend.source p) r (s.slot i).cached))
    | none => none
  | .flush p => (s.registry p).map (s.flushMeta p)
  | .closeIdle p =>
    match s.registry p with
    | some i => if s.opens i = 0 then some (s.closeIdle p i) else none
    | none => none
  | .evict p =>
    match s.registry p with
    | some _ => none
    | none => some (s.setDiskFile p none)
  | .forget p => some (s.invalidateAttr p)

/-- A backend and what an earlier life of the cache has left: metadata is of the past, and what it
claims of a file that has not changed since is on disk. -/
structure Start (ν : Type) where
  backend : Backend ν
  disk : Path ν → Option DiskFile
  past : ∀ p d m, disk p = some d → d.metadata = some m → m.fingerprint.mtime < backend.clock
  kept : ∀ p d m o, disk p = some d → d.metadata = some m → fileAt backend.tree p = some o →
    (backend.object o).fingerprint = m.fingerprint → ∀ x, Has m.ranges x →
      x < (backend.object o).file.size → d.data x = (backend.object o).file.data x

def start (st : Start ν) : State ν where
  backend := st.backend
  attr _ := none
  registry _ := none
  slot _ := ⟨[], loadedItem ⟨0, 0⟩ [] false 0, fun _ => 0, 0⟩
  nextItem := 0
  disk := st.disk
  handles := []

end CacheWrapper
