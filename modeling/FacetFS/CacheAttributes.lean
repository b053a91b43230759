import FacetFS.CacheCoherence

/-! # The attribute cache

Answers to Stat and Lstat are kept for a time, with those of a listing, and every change drops the
answers for the names it is made under. The copies of file contents have no part in this. There are
no symbolic links, so the backend answers both calls alike. What a directory handle of the backend
lists is a choice of the environment. -/
namespace CacheAttributes

open EventSystem FileTree CacheRefinement CacheBackend
open CacheCoherence (oneDirectory)
open CacheWrapper (Path backendOpen backendMkdir backendRemoveAll backendRename Renamable)

section Data

/-- A kept answer; without attributes it says that there is nothing. -/
structure Entry where
  info : Option Info
  expire : Int

def Entry.answer (now : Int) (e : Entry) : Option (Option Info) :=
  if now ≥ e.expire then none else some e.info

inductive Handle (ν : Type) where
  | writer (name : Path ν) (object : ℕ) (append : Bool) (pos : Int)
  | directory (name : Path ν)
  | closed

structure State (ν : Type) where
  backend : Backend ν
  attr : Path ν → Bool → Option Entry
  now : Int
  handles : List (Handle ν)

inductive Event (ν : Type) where
  | stat (p : Path ν) (lstat ok : Bool)
  | openRead (p : Path ν) (ok opened : Bool)
  | openWrite (p : Path ν) (create trunc append ok : Bool)
  | write (h : ℕ) (bs : List UInt8) (n : ℕ)
  | writeAt (h : ℕ) (bs : List UInt8) (n off : ℕ)
  | seek (h off : ℕ)
  | readdir (h : ℕ) (infos : List (ν × Info))
  | close (h : ℕ)
  | truncate (p : Path ν) (n : ℕ) (ok : Bool)
  | setAttr (p : Path ν) (ok : Bool)
  | mkdir (p : Path ν) (ok : Bool)
  | rename (p q : Path ν) (ok : Bool)
  | removeAll (p : Path ν) (ok : Bool)
  | remove (p : Path ν) (ok : Bool)
  | tick (d : ℕ)
  | evict (p : Path ν) (lstat : Bool)

/-- The type of a file, and the size of a regular one. -/
inductive Shape where
  | dir
  | file (size : Int)
  deriving DecidableEq

def shape : Info → Shape
  | .dir => .dir
  | .file fpr => .file fpr.size

end Data

variable {ν : Type} [DecidableEq ν] (ttl : Int)

/-- What the backend says of a path: whether it exists, its type and its size. -/
def shapeAt (b : Backend ν) (p : Path ν) : Option Shape := (b.stat p).map shape

namespace State

variable (s : State ν)

section Entries

def get (p : Path ν) (lstat : Bool) : Option (Option Info) :=
  (s.attr p lstat).bind (Entry.answer s.now)

def put (p : Path ν) (lstat : Bool) (info : Option Info) : State ν :=
  { s with attr := fun q l => if q = p ∧ l = lstat then some ⟨info, s.now + ttl⟩ else s.attr q l }

def invalidateAttr (p : Path ν) : State ν :=
  { s with attr := fun q l => if q = p then none else s.attr q l }

def invalidateEntry (p : Path ν) : State ν := (s.invalidateAttr p).invalidateAttr p.dropLast

/-- Stat and Lstat; a backend that fails gives no answer. -/
def statCached (p : Path ν) (lstat ok : Bool) : Option (Option Info) × State ν :=
  match s.get p lstat with
  | some info => (some info, s)
  | none =>
    if ok then (some (s.backend.stat p), s.put ttl p lstat (s.backend.stat p)) else (none, s)

end Entries

section Calls

def addHandle (h : Handle ν) : State ν := { s with handles := s.handles ++ [h] }

def setHandle (h : ℕ) (x : Handle ν) : State ν := { s with handles := s.handles.set h x }

def openRead (p : Path ν) (ok opened : Bool) : State ν :=
  match s.statCached ttl p false ok with
  | (some (some .dir), t) => if opened then t.addHandle (.directory p) else t
  | (_, t) => t

def openWrite (p : Path ν) (create trunc append : Bool) : State ν :=
  match backendOpen s.backend p create trunc with
  | some (o, b) => ({ s with backend := b }.invalidateEntry p).addHandle (.writer p o append 0)
  | none => s

/-- Bytes the backend has taken at `off` for a handle. -/
def writeThrough (name : Path ν) (o : ℕ) (bs : List UInt8) (off : Int) : State ν :=
  if bs = [] then s
  else
    { s with backend := s.backend.modify o ((s.backend.object o).file.write bs off) }.invalidateAttr
      name

/-- A batch of a listing; its attributes serve both calls. -/
def readdir (name : Path ν) (infos : List (ν × Info)) : State ν :=
  infos.foldl (fun t x =>
    (t.put ttl (name ++ [x.1]) true (some x.2)).put ttl (name ++ [x.1]) false (some x.2)) s

def close (h : ℕ) : Handle ν → State ν
  | .writer name _ _ _ => (s.setHandle h .closed).invalidateAttr name
  | .directory _ => s.setHandle h .closed
  | .closed => s

def truncate (p : Path ν) (n : ℕ) (ok : Bool) : State ν :=
  match (if ok then fileAt s.backend.tree p else none) with
  | some o =>
    { s with backend := s.backend.modify o ((s.backend.object o).file.resize n) }.invalidateAttr p
  | none => s.invalidateAttr p

def setAttr (p : Path ν) (ok : Bool) : State ν :=
  match (if ok then fileAt s.backend.tree p else none) with
  | some o => { s with backend := s.backend.modify o (s.backend.object o).file }.invalidateAttr p
  | none => s.invalidateAttr p

def mkdir (p : Path ν) (ok : Bool) : State ν :=
  if ok ∧ p ≠ [] ∧ dirAt (s.backend.tree.node p.dropLast) = true ∧ s.backend.tree.node p = none then
    { s with backend := backendMkdir s.backend p }.invalidateEntry p
  else s

def rename (p q : Path ν) (ok : Bool) : State ν :=
  let b := if ok then backendRename s.backend p q else s.backend
  ({ s with backend := b }.invalidateEntry p).invalidateEntry q

def removeAll (p : Path ν) (ok : Bool) : State ν :=
  let b := if ok then backendRemoveAll s.backend p else s.backend
  { s with backend := b }.invalidateEntry p

def remove (p : Path ν) (ok : Bool) : State ν :=
  let b := if ok ∧ s.backend.tree.children p = [] then backendRemoveAll s.backend p else s.backend
  { s with backend := b }.invalidateEntry p

end Calls

end State

def next (s : State ν) : Event ν → Option (State ν)
  | .stat p lstat ok => some (s.statCached ttl p lstat ok).2
  | .openRead p ok opened => some (s.openRead ttl p ok opened)
  | .openWrite p create trunc append ok =>
    some (if ok then s.openWrite p create trunc append else s)
  | .write h bs n =>
    match s.handles[h]? with
    | some (.writer name o append pos) =>
      let off := if append then (s.backend.object o).file.size else pos
      some ((s.writeThrough name o (bs.take n) off).setHandle h
        (.writer name o append (off + (bs.take n).length)))
    | _ => none
  | .writeAt h bs n off =>
    match s.handles[h]? with
    | some (.writer name o _ _) => some (s.writeThrough name o (bs.take n) off)
    | _ => none
  | .seek h off =>
    match s.handles[h]? with
    | some (.writer name o append _) => some (s.setHandle h (.writer name o append off))
    | _ => none
  | .readdir h infos =>
    match s.handles[h]? with
    | some (.directory name) =>
      if (infos.map Prod.fst).Nodup then some (s.readdir ttl name infos) else none
    | _ => none
  | .close h => (s.handles[h]?).map (s.close h)
  | .truncate p n ok => some (s.truncate p n ok)
  | .setAttr p ok => some (s.setAttr p ok)
  | .mkdir p ok => some (s.mkdir p ok)
  | .rename p q ok => some (s.rename p q ok)
  | .removeAll p ok => some (s.removeAll p ok)
  | .remove p ok => some (s.remove p ok)
  | .tick d => some { s with now := s.now + d }
  | .evict p lstat =>
    some { s with attr := fun q l => if q = p ∧ l = lstat then none else s.attr q l }

def start (b : Backend ν) (now : Int) : State ν := ⟨b, fun _ _ => none, now, []⟩

/-- Stat and Lstat agree with the backend on every path. -/
def Coherent (s : State ν) : Prop :=
  ∀ q lstat, ((s.statCached ttl q lstat true).1).map (Option.map shape) =
    some (shapeAt s.backend q)

section Condition

variable (s : State ν)

/-- No answer is kept that says that something is below a path. -/
def Bare (p : Path ν) : Prop :=
  ∀ r lstat info, p <+: r → r ≠ p → s.get r lstat = some info → info = none

/-- The bytes do not change a size that is known under a name which the handle does not have. -/
def WriteSettled (name : Path ν) (o : ℕ) (bs : List UInt8) (off : Int) : Prop :=
  bs ≠ [] → ∀ r lstat info, fileAt s.backend.tree r = some o → r ≠ name →
    s.get r lstat = some info →
      ((s.backend.object o).file.write bs off).size = (s.backend.object o).file.size

/-- No answer that the step does not drop is made wrong by it: none is kept for what is below a
path that goes or moves, none for what a moved directory brings, none of a size that changes
through a handle with an old name, and a listing is of now. -/
def Settled : Event ν → Prop
  | .removeAll p ok => ok = true → p ≠ [] → Bare s p
  | .rename p q ok => ok = true → Renamable s.backend p q →
      Bare s p ∧ ∀ t lstat info, t ≠ [] → s.get (q ++ t) lstat = some info →
        info.map shape = shapeAt s.backend (p ++ t)
  | .write h bs n => ∀ name o append pos, s.handles[h]? = some (.writer name o append pos) →
      WriteSettled s name o (bs.take n)
        (if append then (s.backend.object o).file.size else pos)
  | .writeAt h bs n off => ∀ name o append pos,
      s.handles[h]? = some (.writer name o append pos) → WriteSettled s name o (bs.take n) off
  | .readdir h infos => 0 < ttl → ∀ name, s.handles[h]? = some (.directory name) →
      ∀ x ∈ infos, some (shape x.2) = shapeAt s.backend (name ++ [x.1])
  | _ => True

end Condition

section Shapes

variable (b : Backend ν)

theorem shapeAt_eq (p : Path ν) : shapeAt b p = (b.tree.node p).map fun n =>
      match n with
      | .dir _ => .dir
      | .file _ o => .file (b.object o).file.size := by
  unfold shapeAt Backend.stat
  rcases b.tree.node p with _ | ⟨⟨⟩ | ⟨⟨⟩, o⟩⟩
  · rfl
  · rfl
  · rfl

theorem shapeAt_of_fileAt {b : Backend ν} {p : Path ν} {o : ℕ} (h : fileAt b.tree p = some o) :
    shapeAt b p = some (.file (b.object o).file.size) := by
  rw [shapeAt_eq]
  unfold fileAt at h
  split at h
  · rename_i hn
    cases h
    rw [hn]
    rfl
  · cases h

theorem shapeAt_modify (o : ℕ) (f : File) (p : Path ν) : shapeAt (b.modify o f) p =
      if fileAt b.tree p = some o then some (.file f.size) else shapeAt b p := by
  split
  · rename_i hp
    have hp' : fileAt (b.modify o f).tree p = some o := hp
    rw [shapeAt_of_fileAt hp']
    simp [Backend.modify]
  rename_i hp
  rw [shapeAt_eq, shapeAt_eq]
  have htree : (b.modify o f).tree = b.tree := rfl
  rw [htree]
  unfold fileAt at hp
  rcases hn : b.tree.node p with _ | ⟨⟨⟩ | ⟨⟨⟩, o'⟩⟩
  · rfl
  · rfl
  · rw [hn] at hp
    have hne : o' ≠ o := by
      rintro rfl
      exact hp rfl
    simp [Backend.modify, Function.update_of_ne hne]

theorem shapeAt_mkdir {p} (hp : p ≠ [])
    (hd : dirAt (b.tree.node p.dropLast) = true) (hn : b.tree.node p = none) {q}
    (hq : q ≠ p) : shapeAt (b.mkdir p hp hd hn) q = shapeAt b q := by
  rw [shapeAt_eq, shapeAt_eq]
  simp only [Backend.mkdir, Tree.insert, Function.update_of_ne hq]

theorem shapeAt_create {p} (hp : p ≠ [])
    (hd : dirAt (b.tree.node p.dropLast) = true) (hn : b.tree.node p = none) {q}
    (hq : q ≠ p) : shapeAt (b.create p hp hd hn) q = shapeAt b q := by
  rw [shapeAt_eq, shapeAt_eq]
  simp only [Backend.create, Tree.insert, Function.update_of_ne hq]
  rcases hq' : b.tree.node q with _ | ⟨⟨⟩ | ⟨⟨⟩, o⟩⟩
  · rfl
  · rfl
  · -- A file that is there already is not the new object.
    have hlt : o < b.next := b.bound q o (by rw [fileAt, hq'])
    simp only [Option.map_some, Function.update_of_ne hlt.ne]

theorem shapeAt_removeAll {p} (hp : p ≠ []) (q : Path ν) :
    shapeAt (b.removeAll p hp) q = if p <+: q then none else shapeAt b q := by
  rw [shapeAt_eq, shapeAt_eq]
  simp only [Backend.removeAll, Tree.removeAll]
  split
  · rfl
  · rfl

end Shapes

section Steps

variable {ttl} {s s' : State ν} {p q : Path ν} {l : Bool} {info : Option Info}

/-- Every answer that is kept is what the backend says. -/
def Right (s : State ν) : Prop :=
  ∀ q l info, s.get q l = some info → info.map shape = shapeAt s.backend q

theorem get_put (s : State ν) (p : Path ν) (l : Bool) (info : Option Info) (q : Path ν)
    (l' : Bool) :
    (s.put ttl p l info).get q l' =
      if q = p ∧ l' = l then (if 0 < ttl then some info else none) else s.get q l' := by
  change (if q = p ∧ l' = l then some ⟨info, s.now + ttl⟩ else s.attr q l').bind
    (Entry.answer s.now) = _
  split
  · change (if s.now ≥ s.now + ttl then none else some info) = _
    by_cases ht : 0 < ttl
    · rw [if_neg (by omega), if_pos ht]
    · rw [if_pos (by omega), if_neg ht]
  · rfl

theorem get_invalidateAttr (s : State ν) (p q : Path ν) (l : Bool) :
    (s.invalidateAttr p).get q l = if q = p then none else s.get q l := by
  change (if q = p then none else s.attr q l).bind (Entry.answer s.now) = _
  split
  · rfl
  · rfl

theorem Right.kept (h : Right s)
    (hk : ∀ q l info, s'.get q l = some info →
      s.get q l = some info ∧ shapeAt s'.backend q = shapeAt s.backend q) : Right s' := by
  intro q l info hq
  obtain ⟨hold, hsame⟩ := hk q l info hq
  rw [hsame]
  exact h q l info hold

theorem Right.invalidateAttr (h : Right s) (p : Path ν) : Right (s.invalidateAttr p) := by
  refine h.kept fun q l info hq => ?_
  rw [get_invalidateAttr] at hq
  split at hq
  · cases hq
  · exact ⟨hq, rfl⟩

theorem Right.change (h : Right s) {b} (hb : ∀ q, q ≠ p → shapeAt b q = shapeAt s.backend q) :
    Right ({ s with backend := b }.invalidateAttr p) := by
  refine h.kept fun q l info hq => ?_
  rw [get_invalidateAttr] at hq
  split at hq
  · cases hq
  · rename_i hne
    exact ⟨hq, hb q hne⟩

theorem Right.changeEntry (h : Right s) {b} (hb : ∀ q, q ≠ p → shapeAt b q = shapeAt s.backend q) :
    Right ({ s with backend := b }.invalidateEntry p) :=
  (h.change hb).invalidateAttr p.dropLast

theorem Right.statCached (h : Right s) (p : Path ν) (l ok : Bool) :
    Right (s.statCached ttl p l ok).2 := by
  unfold State.statCached
  split
  · exact h
  split
  · intro q l' info hq
    rw [get_put] at hq
    split at hq
    · rename_i hqp
      split at hq
      · cases hq
        rw [hqp.1]
        rfl
      · cases hq
    · exact h q l' info hq
  · exact h

theorem Right.openRead (h : Right s) (p : Path ν) (ok opened : Bool) :
    Right (s.openRead ttl p ok opened) := by
  have ht : Right (s.statCached ttl p false ok).2 := h.statCached p false ok
  unfold State.openRead
  generalize s.statCached ttl p false ok = answer at ht ⊢
  obtain ⟨_ | _ | _ | fpr, t⟩ := answer
  · exact ht
  · exact ht
  · simp only
    split
    · exact ht
    · exact ht
  · exact ht

theorem Right.openWrite (h : Right s) (p : Path ν) (create trunc append : Bool) :
    Right (s.openWrite p create trunc append) := by
  unfold State.openWrite
  split
  · rename_i o b hb
    refine Right.changeEntry h (b := b) fun q hq => ?_
    rcases CacheCoherence.backendOpen_cases hb with ⟨ho, ⟨-, rfl⟩ | ⟨-, rfl⟩⟩ | ⟨-, hp, hd, hn, -, rfl⟩
    · rw [shapeAt_modify, if_neg]
      exact fun hqo => hq (s.backend.single q p o hqo ho)
    · rfl
    · exact shapeAt_create _ hp hd hn hq
  · exact h

theorem Right.mkdir (h : Right s) (p : Path ν) (ok : Bool) : Right (s.mkdir p ok) := by
  unfold State.mkdir
  split
  · rename_i hgo
    refine h.changeEntry fun q hq => ?_
    rw [backendMkdir, dif_pos hgo.2]
    exact shapeAt_mkdir _ _ _ _ hq
  · exact h

theorem shapeAt_below {b} (hc : b.tree.children p = []) (hpre : p <+: q) (hne : q ≠ p) :
    shapeAt b q = none := by
  rw [shapeAt_eq, Option.map_eq_none_iff]
  by_contra hn
  obtain ⟨rest, rfl⟩ := hpre
  cases rest with
  | nil => exact hne (List.append_nil p)
  | cons x rest =>
    have hx : (b.tree.node (p ++ [x])).isSome = true := by
      refine b.tree.isSome_of_append (q := rest) ?_
      rw [List.append_assoc]
      exact Option.isSome_iff_ne_none.2 hn
    have hmem := (b.tree.mem_children p x).2 hx
    rw [hc] at hmem
    cases hmem

theorem Right.remove (h : Right s) (p : Path ν) (ok : Bool) : Right (s.remove p ok) := by
  unfold State.remove
  refine h.changeEntry fun q hq => ?_
  split
  · rename_i hgo
    unfold backendRemoveAll
    split
    · rename_i hp
      rw [shapeAt_removeAll]
      split
      · rename_i hpre
        exact (shapeAt_below hgo.2 hpre hq).symm
      · rfl
    · rfl
  · rfl

end Steps

section Listings

variable {ttl} {s : State ν} {name : Path ν}

end Listings

section Result

variable {s s' : State ν} {e : Event ν}

theorem Right.later (h : Right s) (d : ℕ) : Right { s with now := s.now + d } := by
  refine h.kept fun q l info hq => ⟨?_, rfl⟩
  unfold State.get at hq ⊢
  obtain ⟨x, hx, he⟩ := Option.bind_eq_some_iff.1 hq
  have hx' : s.attr q l = some x := hx
  rw [hx', Option.bind_some]
  unfold Entry.answer at he ⊢
  split at he
  · cases he
  rename_i hlt
  rw [if_neg (by simp only at hlt; omega)]
  exact he

theorem Right.evict (h : Right s) (p : Path ν) (lstat : Bool) :
    Right { s with attr := fun q l => if q = p ∧ l = lstat then none else s.attr q l } := by
  refine h.kept fun q l info hq => ⟨?_, rfl⟩
  change (if q = p ∧ l = lstat then none else s.attr q l).bind (Entry.answer s.now) = _ at hq
  split at hq
  · cases hq
  · exact hq

end Result

end CacheAttributes
