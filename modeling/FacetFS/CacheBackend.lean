import FacetFS.FileTree
import FacetFS.CacheRefinement

/-! # The backend of the cache

The file system behind the cache: a tree whose files are objects, each with its contents and the
time of its last change. Names do not alias, an object that lost its name stays for the handles on
it, and every change of contents has a time of its own. -/
namespace CacheBackend

open FileTree CacheItem CacheRefinement

variable {ν : Type}

structure Object where
  file : File
  mtime : Int

def Object.fingerprint (o : Object) : Fingerprint := ⟨o.file.size, o.mtime⟩

structure Backend (ν : Type) where
  tree : Tree ν Unit ℕ
  object : ℕ → Object
  next : ℕ
  clock : Int
  bound : ∀ p o, fileAt tree p = some o → o < next
  single : ∀ p q o, fileAt tree p = some o → fileAt tree q = some o → p = q
  past : ∀ o, (object o).mtime < clock

inductive Info
  | dir
  | file (fpr : Fingerprint)
  deriving DecidableEq

namespace Backend

def empty : Backend ν where
  tree := Tree.empty ()
  object _ := ⟨.empty, 0⟩
  next := 0
  clock := 1
  bound := Named.empty.bound
  single := Named.empty.single
  past _ := by simp

section Queries

variable (b : Backend ν)

def stat (p : List ν) : Option Info :=
  match b.tree.node p with
  | some (.dir _) => some .dir
  | some (.file _ o) => some (.file (b.object o).fingerprint)
  | none => none

def source (p : List ν) : Option File := (fileAt b.tree p).map fun o => (b.object o).file

end Queries

section Updates

variable (b : Backend ν)

def modify (o : ℕ) (f : File) : Backend ν where
  tree := b.tree
  object := Function.update b.object o ⟨f, b.clock⟩
  next := b.next
  clock := b.clock + 1
  bound := b.bound
  single := b.single
  past q := by
    by_cases hq : q = o
    · subst hq
      simp
    rw [Function.update_of_ne hq]
    have := b.past q
    omega

variable [DecidableEq ν]

def mkdir (p : List ν) (hp : p ≠ []) (hd : dirAt (b.tree.node p.dropLast) = true)
    (hn : b.tree.node p = none) : Backend ν where
  tree := b.tree.insert p (.dir ()) hp hd hn
  object := b.object
  next := b.next
  clock := b.clock
  bound := (Named.insert_dir ⟨b.bound, b.single⟩ hp hd hn).bound
  single := (Named.insert_dir ⟨b.bound, b.single⟩ hp hd hn).single
  past := b.past

def create (p : List ν) (hp : p ≠ []) (hd : dirAt (b.tree.node p.dropLast) = true)
    (hn : b.tree.node p = none) : Backend ν where
  tree := b.tree.insert p (.file () b.next) hp hd hn
  object := Function.update b.object b.next ⟨.empty, b.clock⟩
  next := b.next + 1
  clock := b.clock + 1
  bound := (Named.insert_file ⟨b.bound, b.single⟩ hp hd hn).bound
  single := (Named.insert_file ⟨b.bound, b.single⟩ hp hd hn).single
  past q := by
    by_cases hq : q = b.next
    · subst hq
      simp
    rw [Function.update_of_ne hq]
    have := b.past q
    omega

def removeAll (p : List ν) (hp : p ≠ []) : Backend ν where
  tree := b.tree.removeAll p hp
  object := b.object
  next := b.next
  clock := b.clock
  bound := (Named.removeAll ⟨b.bound, b.single⟩ hp).bound
  single := (Named.removeAll ⟨b.bound, b.single⟩ hp).single
  past := b.past

/-- A file or a directory moves and replaces what is at the new path. -/
def rename (p q : List ν) (hp : p ≠ []) (hpq : ¬ p <+: q) (hq : q ≠ [])
    (hd : dirAt (b.tree.node q.dropLast) = true) : Backend ν where
  tree := b.tree.rename p q hp hpq hq hd
  object := b.object
  next := b.next
  clock := b.clock
  bound := (Named.rename ⟨b.bound, b.single⟩ hp hpq hq hd).bound
  single := (Named.rename ⟨b.bound, b.single⟩ hp hpq hq hd).single
  past := b.past

end Updates

end Backend

end CacheBackend
