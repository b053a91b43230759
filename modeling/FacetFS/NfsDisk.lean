import FacetFS.FileTree
import FacetFS.NfsData
import FacetFS.NfsRename

/-! # The FileSystem behind the server

Paths name objects, and an object keeps its bytes when it loses its name, for the files that are
open on it. There are no hard links and no symbolic links. A call that changes something may
fail, and then changes nothing. -/
namespace NfsDisk

open NfsSeqid NfsStore NfsOps FileTree

structure Disk where
  tree : Tree String Unit ℕ
  objects : ℕ
  named : Named tree objects
  data : ℕ → List UInt8
  files : ℕ
  object : ℕ → ℕ

def Disk.empty : Disk where
  tree := .empty ()
  objects := 0
  named := .empty
  data _ := []
  files := 0
  object _ := 0

def resize (n : ℕ) (bytes : List UInt8) : List UInt8 :=
  bytes.take n ++ List.replicate (n - bytes.length) 0

/-- The contents after `new` was written at an offset; a gap is filled with zeros. -/
def overwrite (bytes : List UInt8) (offset : ℕ) (new : List UInt8) : List UInt8 :=
  if new = [] then bytes
  else resize offset bytes ++ new ++ bytes.drop (offset + new.length)

/-- The flags of a FileSystem open beyond the access mode. -/
structure OpenMode where
  create : Bool
  excl : Bool
  trunc : Bool

namespace Disk

variable (d : Disk)

def fileAt (p : Path) : Option ℕ := FileTree.fileAt d.tree p

def lstat (p : Path) : Option Kind :=
  (d.tree.node p).map fun n => if n.isDir then .directory else .regular

def lookup (p : Path) : Except NfsStat Kind :=
  match d.lstat p with
  | some k => .ok k
  | none => .error nfs4ErrNoEnt

def handleKind (p : Path) : Except NfsStat Kind :=
  match d.lstat p with
  | some k => .ok k
  | none => .error nfs4ErrStale

def dirStatus (p : Path) : NfsStat :=
  match d.handleKind p with
  | .error e => e
  | .ok .directory => nfs4OK
  | .ok .symlink => nfs4ErrSymlink
  | .ok .regular => nfs4ErrNotDir

def setData (x : ℕ) (bytes : List UInt8) : Disk :=
  { d with data := Function.update d.data x bytes }

/-- A file opened on an object; its number is the count of files before it. -/
def attach (x : ℕ) : Disk :=
  { d with files := d.files + 1, object := Function.update d.object d.files x }

def create (p : Path) (hp : p ≠ []) (hd : dirAt (d.tree.node p.dropLast) = true)
    (hn : d.tree.node p = none) : Disk where
  tree := d.tree.insert p (.file () d.objects) hp hd hn
  objects := d.objects + 1
  named := d.named.insert_file hp hd hn
  data := Function.update d.data d.objects []
  files := d.files
  object := d.object

def openAt (p : Path) (m : OpenMode) : Except NfsStat Disk :=
  match hn : d.tree.node p with
  | some (.dir _) => .error nfs4ErrIsDir
  | some (.file _ x) =>
    if m.create ∧ m.excl then .error nfs4ErrExist
    else .ok ((if m.trunc then d.setData x [] else d).attach x)
  | none =>
    if h : m.create = true ∧ p ≠ [] ∧ dirAt (d.tree.node p.dropLast) = true then
      .ok ((d.create p h.2.1 h.2.2 hn).attach d.objects)
    else .error nfs4ErrNoEnt

def truncate (p : Path) (n : ℕ) : Disk :=
  match d.fileAt p with
  | some x => d.setData x (resize n (d.data x))
  | none => d

def writeAt (f : ℕ) (offset : ℕ) (bytes : List UInt8) : Disk :=
  d.setData (d.object f) (overwrite (d.data (d.object f)) offset bytes)

def removeAll (p : Path) : Disk :=
  if hp : p ≠ [] then
    { d with tree := d.tree.removeAll p hp, named := d.named.removeAll hp }
  else d

def rename (p q : Path) : Disk :=
  if h : p ≠ [] ∧ ¬ p <+: q ∧ q ≠ [] ∧ dirAt (d.tree.node q.dropLast) = true then
    { d with
      tree := d.tree.rename p q h.1 h.2.1 h.2.2.1 h.2.2.2
      named := d.named.rename h.1 h.2.1 h.2.2.1 h.2.2.2 }
  else d

end Disk

section Names

variable (d : Disk)

variable {p : Path}

theorem lstat_regular (h : d.lstat p = some .regular) : ∃ x, d.fileAt p = some x := by
  unfold Disk.lstat at h
  unfold Disk.fileAt FileTree.fileAt
  cases hn : d.tree.node p with
  | none =>
    rw [hn] at h
    cases h
  | some n =>
    cases n with
    | dir a =>
      rw [hn] at h
      cases h
    | file a x => exact ⟨x, rfl⟩

theorem fileAt_none_of_lstat (h : d.lstat p = none) : d.fileAt p = none := by
  have hn : d.tree.node p = none := by simpa [Disk.lstat] using h
  simp [Disk.fileAt, FileTree.fileAt, hn]

theorem truncate_tree (p : Path) (n : ℕ) : (d.truncate p n).tree = d.tree := by
  unfold Disk.truncate
  split <;> rfl

theorem removeAll_objects (p : Path) : (d.removeAll p).objects = d.objects := by
  unfold Disk.removeAll
  split <;> rfl

theorem fileAt_removeAll_le {q x} (h : (d.removeAll p).fileAt q = some x) :
    d.fileAt q = some x := by
  unfold Disk.removeAll at h
  split at h
  · rename_i hp
    change FileTree.fileAt (d.tree.removeAll p hp) q = some x at h
    rw [FileTree.fileAt_removeAll] at h
    split at h
    · cases h
    · exact h
  · exact h

variable {d' : Disk}

theorem openAt_old {m x} (hx : d.fileAt p = some x) (h : d.openAt p m = .ok d') :
    d' = (if m.trunc then d.setData x [] else d).attach x := by
  unfold Disk.openAt at h
  unfold Disk.fileAt FileTree.fileAt at hx
  split at h
  · cases h
  · rename_i hn
    rw [hn] at hx
    cases hx
    split at h
    · cases h
    · exact (Except.ok.inj h).symm
  · rename_i hn
    rw [hn] at hx
    cases hx

theorem openAt_new {m} (hx : d.fileAt p = none) (h : d.openAt p m = .ok d') :
    m.create = true ∧ d'.objects = d.objects + 1 ∧ d'.files = d.files + 1 ∧
      d'.object = Function.update d.object d.files d.objects ∧
      d'.data = Function.update d.data d.objects [] ∧
      ∀ q, d'.fileAt q = if q = p then some d.objects else d.fileAt q := by
  unfold Disk.openAt at h
  unfold Disk.fileAt FileTree.fileAt at hx
  split at h
  · cases h
  · rename_i hn
    rw [hn] at hx
    cases hx
  split at h
  · rename_i hn hc
    cases h
    refine ⟨hc.1, rfl, rfl, rfl, rfl, fun q => ?_⟩
    exact FileTree.fileAt_insert d.tree hc.2.1 hc.2.2 hn q
  · cases h

/-- No object and no name is new, and the files that were open stay on their objects. -/
structure Thins (d d' : Disk) : Prop where
  objects : d'.objects = d.objects
  files : d.files ≤ d'.files
  object : ∀ f, f < d.files → d'.object f = d.object f
  names : ∀ q x, d'.fileAt q = some x → d.fileAt q = some x

theorem Thins.refl : Thins d d := ⟨rfl, le_refl _, fun _ _ => rfl, fun _ _ h => h⟩

variable {d}

theorem Thins.setData (h : Thins d d') (x : ℕ) (bytes : List UInt8) :
    Thins d (d'.setData x bytes) :=
  ⟨h.objects, h.files, h.object, h.names⟩

theorem Thins.attach (h : Thins d d') (x : ℕ) : Thins d (d'.attach x) := by
  refine ⟨h.objects, Nat.le_succ_of_le h.files, fun f hf => ?_, h.names⟩
  have hne : f ≠ d'.files := Nat.ne_of_lt (Nat.lt_of_lt_of_le hf h.files)
  exact (Function.update_of_ne hne _ _).trans (h.object f hf)

theorem Thins.truncate (p : Path) (n : ℕ) : Thins d (d.truncate p n) := by
  unfold Disk.truncate
  split
  · exact (Thins.refl d).setData _ _
  · exact .refl d

theorem Thins.removeAll (p : Path) : Thins d (d.removeAll p) := by
  refine ⟨removeAll_objects d p, ?_, ?_, fun q x h => fileAt_removeAll_le d h⟩
  · unfold Disk.removeAll
    split <;> exact le_refl _
  · intro f _
    unfold Disk.removeAll
    split <;> rfl

theorem openAt_thins {m} (hm : m.create = false) (h : d.openAt p m = .ok d') : Thins d d' := by
  cases hx : d.fileAt p with
  | none =>
    have hc := (openAt_new d hx h).1
    rw [hm] at hc
    cases hc
  | some x =>
    rw [openAt_old d hx h]
    cases m.trunc with
    | false => exact (Thins.refl d).attach x
    | true => exact ((Thins.refl d).setData x []).attach x

end Names

end NfsDisk
