import FacetFS.CacheRangesInt64
import FacetFS.CacheItem

/-! # Loading a cached file

An item is loaded from the metadata on disk and from a stat of the backend. Every disk operation of
an attempt may fail, and an item that could not be loaded is tried again with another stat. The
ranges are read before the last operation that may fail, and a failure there does not undo them. -/
namespace CacheLoad

open CacheRanges (Rng RangeSet Has Normal has_insert has_remove)
open CacheRangesInt64
open CacheItem (Item Meta Fingerprint)

/-- The metadata file of the item. -/
inductive MetaFile
  | missing
  | garbled
  | holds (m : Meta)

structure Load where
  item : Item
  metadata : MetaFile

/-- The operation that ends an attempt with an error. -/
inductive Fault
  | cachePaths
  | mkdirData
  | mkdirMeta
  | openFile
  | truncate

/-- The stat of the backend an attempt is made with, and what the disk answers to it. -/
structure Attempt where
  stat : Fingerprint
  now : Int
  fault : Option Fault
  readable : Bool
  removable : Bool

def loadMeta : MetaFile → Bool → Option Meta
  | .holds m, true => if m.valid then some m else none
  | _, _ => none

/-- The ranges of a metadata file are added to those that are there and cut to the size. -/
def accept (m : Meta) (size : Int) (rs : RangeSet) : RangeSet :=
  remove (m.ranges.foldl insert rs) ⟨size, wrap (2 ^ 62 - size)⟩

def Load.read (s : Load) (a : Attempt) : Load :=
  let it := { s.item with size := a.stat.size, fpr := a.stat, atime := a.now }
  match loadMeta s.metadata a.readable with
  | some m =>
    if m.fingerprint = a.stat then
      { s with item := { it with
          rs := accept m it.size it.rs
          atime := if m.atime > 0 then m.atime else it.atime } }
    else { s with item := { it with dirty := true } }
  -- a file that is there and cannot be used is removed
  | none => ⟨{ it with dirty := true }, if a.removable then .missing else s.metadata⟩

def Load.ensureLoaded (s : Load) (a : Attempt) : Bool × Load :=
  if s.item.doomed then (false, s)
  else if s.item.loaded then (true, s)
  else
    match a.fault with
    | none => (true, { s.read a with item := { (s.read a).item with loaded := true } })
    | some .truncate => (false, s.read a)
    | some _ => (false, s)

def Load.attempts (s : Load) (as : List Attempt) : Load :=
  as.foldl (fun s a => (s.ensureLoaded a).2) s

/-- An item as it is created, before its first attempt. -/
def fresh (file : MetaFile) : Load where
  item := ⟨false, false, [], 0, ⟨0, 0⟩, false, false, 0, 0⟩
  metadata := file

/-- The metadata that an attempt finds valid for its stat. -/
def Attempt.validates (a : Attempt) (file : MetaFile) : Option Meta :=
  (loadMeta file a.readable).filter fun m => m.fingerprint = a.stat

/-- The ranges that the stat of an attempt and the metadata alone give. -/
def Attempt.ranges (a : Attempt) (file : MetaFile) : RangeSet :=
  (a.validates file).elim [] fun m => accept m a.stat.size []

section Attempts

variable {s : Load} {a : Attempt}

theorem read_item (s : Load) (a : Attempt) :
    (s.read a).item.rs =
      (a.validates s.metadata).elim s.item.rs (fun m => accept m a.stat.size s.item.rs) ∧
    (s.read a).item.size = a.stat.size ∧ (s.read a).item.fpr = a.stat ∧
    (s.read a).item.loaded = s.item.loaded := by
  unfold Load.read Attempt.validates
  rcases loadMeta s.metadata a.readable with _ | m
  · exact ⟨rfl, rfl, rfl, rfl⟩
  by_cases hf : m.fingerprint = a.stat <;> simp [hf, Option.filter]

theorem read_metadata (s : Load) (a : Attempt) :
    (s.read a).metadata = s.metadata ∨ (s.read a).metadata = .missing := by
  unfold Load.read
  repeat' split
  all_goals simp

/-- A call that finds the item loaded or doomed changes nothing. Otherwise it succeeds, or it ends
at the truncation, or it ends before anything has changed. -/
theorem ensureLoaded_cases (s : Load) (a : Attempt) :
    (s.item.loaded = false ∧ s.ensureLoaded a =
      (true, { s.read a with item := { (s.read a).item with loaded := true } })) ∨
    (a.fault = some .truncate ∧ s.ensureLoaded a = (false, s.read a)) ∨
    ∃ ok, (ok = true → s.item.loaded = true) ∧ s.ensureLoaded a = (ok, s) := by
  unfold Load.ensureLoaded
  split
  · exact .inr (.inr ⟨false, nofun, rfl⟩)
  split
  · exact .inr (.inr ⟨true, fun _ => ‹_›, rfl⟩)
  rcases a.fault with _ | _ | _ | _ | _ | _
  case none => exact .inl ⟨Bool.eq_false_iff.2 ‹_›, rfl⟩
  case some.truncate => exact .inr (.inl ⟨rfl, rfl⟩)
  all_goals exact .inr (.inr ⟨false, nofun, rfl⟩)

theorem ensureLoaded_ok (hs : s.item.loaded = false) (h : (s.ensureLoaded a).1 = true) :
    (s.ensureLoaded a).2.item = { (s.read a).item with loaded := true } := by
  rcases ensureLoaded_cases s a with ⟨-, he⟩ | ⟨-, he⟩ | ⟨ok, hok, he⟩
  · rw [he]
  · rw [he] at h
    cases h
  · rw [he] at h
    exact absurd (hok h) (by simp [hs])

theorem ensureLoaded_loaded (h : s.item.loaded = true) :
    (s.ensureLoaded a).2.item.loaded = true := by
  rcases ensureLoaded_cases s a with ⟨-, he⟩ | ⟨-, he⟩ | ⟨ok, -, he⟩
  · rw [he]
  · rw [he, (read_item s a).2.2.2, h]
  · rw [he, h]

theorem attempts_loaded (as : List Attempt) {s : Load} (h : s.item.loaded = true) :
    (s.attempts as).item.loaded = true := by
  induction as generalizing s with
  | nil => exact h
  | cons a as ih => exact ih (ensureLoaded_loaded h)

theorem validates_missing (a : Attempt) : a.validates .missing = none := by
  simp [Attempt.validates, loadMeta]

/-- Nothing is carried over from failed attempts none of which validated the metadata. -/
theorem attempts_ranges {file : MetaFile} (as : List Attempt)
    (has : ∀ b ∈ as, b.fault = some .truncate → b.validates file = none) {s : Load}
    (hrs : s.item.rs = []) (hfile : s.metadata = file ∨ s.metadata = .missing)
    (h : (s.attempts as).item.loaded = false) : (s.attempts as).item.rs = [] := by
  induction as generalizing s with
  | nil => exact hrs
  | cons b as ih =>
    have hrest := fun c hc => has c (List.mem_cons_of_mem b hc)
    rcases ensureLoaded_cases s b with ⟨-, he⟩ | ⟨hf, he⟩ | ⟨ok, -, he⟩
    · have hl := attempts_loaded as (s := (s.ensureLoaded b).2) (by rw [he])
      exact absurd (hl.symm.trans h) nofun
    · have hnone : b.validates s.metadata = none := by
        rcases hfile with hfile | hfile
        · exact hfile ▸ has b List.mem_cons_self hf
        · exact hfile ▸ validates_missing b
      refine ih hrest ?_ ?_ h
      · simp only [he, (read_item s b).1, hnone, Option.elim_none, hrs]
      · rcases read_metadata s b with hm | hm
        · simp only [he, hm, hfile]
        · exact .inr (by simp only [he, hm])
    · exact ih hrest (by simp only [he, hrs]) (by simp only [he, hfile]) h

/-- An item that some attempts have not loaded. -/
structure Tried where
  file : MetaFile
  attempts : List Attempt
  unloaded : ((fresh file).attempts attempts).item.loaded = false

def Tried.load (x : Tried) : Load := (fresh x.file).attempts x.attempts

theorem Tried.ensureLoaded_ok (x : Tried) {a} (h : (x.load.ensureLoaded a).1 = true) :
    (x.load.ensureLoaded a).2.item = { (x.load.read a).item with loaded := true } :=
  CacheLoad.ensureLoaded_ok x.unloaded h

/-- The item has what the stat of its last attempt and the metadata on disk give. -/
structure Exact (a : Attempt) (file : MetaFile) (it : Item) : Prop where
  size : it.size = a.stat.size
  fpr : it.fpr = a.stat
  ranges : it.rs = a.ranges file

/-- A loaded item is exact if no failed attempt left ranges. If one did, it is not exact unless the
successful attempt validates the metadata itself. Only an attempt that validated the metadata and
then failed at the truncation leaves ranges. -/
theorem load_exact_iff (x : Tried) (a : Attempt) :
    ((x.load.ensureLoaded a).1 = true →
      (x.load.item.rs = [] → Exact a x.load.metadata (x.load.ensureLoaded a).2.item) ∧
      (a.validates x.load.metadata = none →
        (Exact a x.load.metadata (x.load.ensureLoaded a).2.item ↔ x.load.item.rs = []))) ∧
    ((∀ b ∈ x.attempts, b.fault = some .truncate → b.validates x.file = none) →
      x.load.item.rs = []) := by
  refine ⟨fun hok => ?_, fun has => attempts_ranges x.attempts has rfl (.inl rfl) x.unloaded⟩
  obtain ⟨hrs, hsize, hfpr, -⟩ := read_item x.load a
  have hexact : x.load.item.rs = [] → Exact a x.load.metadata (x.load.ensureLoaded a).2.item := by
    intro hnil
    rw [x.ensureLoaded_ok hok]
    exact ⟨hsize, hfpr, by rw [hrs, hnil, Attempt.ranges]⟩
  refine ⟨hexact, fun hnone => ⟨fun h => ?_, hexact⟩⟩
  have hranges := h.ranges
  rwa [x.ensureLoaded_ok hok, hrs, Attempt.ranges, hnone] at hranges

/-- An attempt validates ten bytes and fails at the truncation. The file is replaced, and the next
attempt keeps the ten bytes under the fingerprint of the new file. -/
theorem stale_ranges_kept :
    ∃ file a b, (((fresh file).ensureLoaded a).2.ensureLoaded b).1 = true ∧
      b.validates ((fresh file).ensureLoaded a).2.metadata = none ∧
      (((fresh file).ensureLoaded a).2.ensureLoaded b).2.item.rs = [⟨0, 10⟩] :=
  ⟨.holds ⟨10, 1, ⟨10, 1⟩, [⟨0, 10⟩]⟩, ⟨⟨10, 1⟩, 2, some .truncate, true, true⟩,
    ⟨⟨10, 7⟩, 8, none, true, true⟩, by decide, by decide, by decide⟩

end Attempts

section Clipping

end Clipping

end CacheLoad
