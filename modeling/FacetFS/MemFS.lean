import FacetFS.EntryTree
import FacetFS.Names

/-! # The FileSystem in memory

Nodes are numbered as they are made, and number 0 is the root. Paths are cleaned before they are
looked up, symbolic links are followed up to a bound, and the guard of Rename compares cleaned
paths while its parents are looked up. Of the mode of a node only its kind is kept. -/
namespace MemFS

open ByteText EntryTree Relation
open Names (slash)
open Function (update update_of_ne update_self)

inductive Node where
  | dir (children : AList fun _ : Text => ℕ)
  | file (data : Text)
  | link (target : Text)

structure FS where
  node : ℕ → Node
  count : ℕ

inductive Error where
  | notExist
  | exist
  | invalid
  | notEmpty
  | tooManyLinks
  deriving DecidableEq, Repr

def root : ℕ := 0

def newMemFS : FS := ⟨fun _ => .dir ∅, 1⟩

def Node.isDir : Node → Bool
  | .dir _ => true
  | _ => false

def Node.isLink : Node → Bool
  | .link _ => true
  | _ => false

def Node.target : Node → Text
  | .link target => target
  | _ => []

def Node.isEmpty : Node → Bool
  | .dir children => children.keys.isEmpty
  | _ => true

def Node.child : Node → Text → Option ℕ
  | .dir children, k => children.lookup k
  | _, _ => none

/-- The other child, or none, that a directory has under a name. -/
def Node.setChild : Node → Text → Option ℕ → Node
  | .dir children, k, some x => .dir (children.insert k x)
  | .dir children, k, none => .dir (children.erase k)
  | n, _, _ => n

def segments (p : Text) : List Text := cleanSegments (split slash p)

/-- The path to look up once a link was met after `done` with `rest` still to go. -/
def linkSegments (done : List Text) (target : Text) (rest : List Text) : List Text :=
  if target.head? = some slash then cleanSegments (split slash target ++ rest)
  else cleanSegments (done ++ split slash target ++ rest)

namespace FS

variable (m : FS)

def entries : Entries ℕ Text := fun a k => (m.node a).child k

/-- One path from the root, where `again` looks up what a link leads to. -/
def walk (follow : Bool) (again : List Text → Except Error ℕ) :
    List Text → ℕ → List Text → Except Error ℕ
  | _, n, [] => .ok n
  | done, n, segment :: rest =>
    match m.entries n segment with
    | none => .error .notExist
    | some child =>
      if (m.node child).isLink ∧ (rest ≠ [] ∨ follow = true) then
        again (linkSegments done (m.node child).target rest)
      else walk follow again (done ++ [segment]) child rest

/-- Looks up a path with so many links left to follow. -/
def lookup (follow : Bool) : ℕ → List Text → Except Error ℕ
  | 0, s => m.walk follow (fun _ => .error .tooManyLinks) [] root s
  | links + 1, s => m.walk follow (lookup follow links) [] root s

def maxLinks : ℕ := 40

def resolve (p : Text) (follow : Bool) : Except Error ℕ := m.lookup follow maxLinks (segments p)

def parentOf (p : Text) : Except Error (ℕ × Text) :=
  match (segments p).getLast? with
  | none => .error .invalid
  | some base =>
    match m.lookup true maxLinks (segments p).dropLast with
    | .error e => .error e
    | .ok d => if (m.node d).isDir then .ok (d, base) else .error .notExist

def setEntry (a : ℕ) (k : Text) (v : Option ℕ) : FS :=
  { m with node := update m.node a ((m.node a).setChild k v) }

def add (a : ℕ) (k : Text) (n : Node) : FS :=
  FS.setEntry ⟨update m.node m.count n, m.count + 1⟩ a k (some m.count)

def mkdir (name : Text) : Except Error FS :=
  match m.parentOf name with
  | .error e => .error e
  | .ok (d, base) =>
    if (m.entries d base).isSome then .error .exist else .ok (m.add d base (.dir ∅))

def symlink (oldName newName : Text) : Except Error FS :=
  match m.parentOf newName with
  | .error e => .error e
  | .ok (d, base) =>
    if (m.entries d base).isSome then .error .exist else .ok (m.add d base (.link oldName))

def truncate (n : ℕ) : FS :=
  match m.node n with
  | .file _ => { m with node := update m.node n (.file []) }
  | _ => m

def openNode (n : ℕ) (writable trunc : Bool) : Except Error FS :=
  if (m.node n).isDir ∧ writable = true then .error .invalid
  else .ok (if trunc then m.truncate n else m)

def openFile (name : Text) (writable create excl trunc : Bool) : Except Error FS :=
  match m.resolve name true with
  | .ok n => if create ∧ excl then .error .exist else m.openNode n writable trunc
  | .error e =>
    if e = .notExist ∧ create = true then
      match m.parentOf name with
      | .error e => .error e
      | .ok (d, base) => .ok (m.add d base (.file []))
    else .error e

def remove (name : Text) : Except Error FS :=
  match m.parentOf name with
  | .error e => .error e
  | .ok (d, base) =>
    match m.entries d base with
    | none => .error .notExist
    | some n =>
      if (m.node n).isDir ∧ (m.node n).isEmpty = false then .error .notEmpty
      else .ok (m.setEntry d base none)

def removeAll (name : Text) : Except Error FS :=
  if segments name = [] then .error .invalid
  else
    match m.parentOf name with
    | .error e => if e = .notExist then .ok m else .error e
    | .ok (d, base) =>
      if (m.entries d base).isSome then .ok (m.setEntry d base none) else .ok m

/-- Whether Rename refuses the two paths as they are written. -/
def refusesRename (oldName newName : Text) : Bool :=
  segments oldName = [] ∨ segments newName = [] ∨ segments oldName <+: segments newName

/-- The parents, names and the node of a Rename that goes ahead. -/
def renamePlan (oldName newName : Text) : Except Error ((ℕ × Text) × (ℕ × Text) × ℕ) :=
  if refusesRename oldName newName then .error .invalid
  else
    match m.parentOf oldName with
    | .error e => .error e
    | .ok (a, k) =>
      match m.entries a k with
      | none => .error .notExist
      | some x =>
        match m.parentOf newName with
        | .error e => .error e
        | .ok (b, l) =>
          if (m.entries b l).any fun z => (m.node z).isDir && !(m.node z).isEmpty then
            .error .exist
          else .ok ((a, k), (b, l), x)

def rename (oldName newName : Text) : Except Error FS :=
  match m.renamePlan oldName newName with
  | .error e => .error e
  | .ok ((a, k), (b, l), x) => .ok ((m.setEntry a k none).setEntry b l (some x))

end FS

inductive Op where
  | openFile (name : Text) (writable create excl trunc : Bool)
  | mkdir (name : Text)
  | symlink (oldName newName : Text)
  | rename (oldName newName : Text)
  | remove (name : Text)
  | removeAll (name : Text)

def apply (m : FS) : Op → Except Error FS
  | .openFile name writable create excl trunc => m.openFile name writable create excl trunc
  | .mkdir name => m.mkdir name
  | .symlink oldName newName => m.symlink oldName newName
  | .rename oldName newName => m.rename oldName newName
  | .remove name => m.remove name
  | .removeAll name => m.removeAll name

def step (m : FS) (op : Op) : FS :=
  match apply m op with
  | .ok m' => m'
  | .error _ => m

def run (m : FS) (ops : List Op) : FS := ops.foldl step m

/-- Everything below the root has one parent entry there and is not below itself. -/
structure TreeShaped (m : FS) : Prop where
  parent : ∀ x, Below m.entries root x → x ≠ root →
    ∃! p : ℕ × Text, Below m.entries root p.1 ∧ m.entries p.1 p.2 = some x
  top : ∀ a k, Below m.entries root a → m.entries a k ≠ some root
  acyclic : ∀ x, Below m.entries root x → ¬ TransGen (Child m.entries) x x

/-- A Rename detaches nothing from the root but the node that it replaces. -/
def Keeps (m : FS) : Op → Prop
  | .rename oldName newName => ∀ a k b l x, m.renamePlan oldName newName = .ok ((a, k), (b, l), x) →
      ∀ y, Below m.entries root y →
        Below (step m (.rename oldName newName)).entries root y ∨ m.entries b l = some y
  | _ => True

/-- The directory that a Rename moves its node into is neither that node nor below it. -/
def Outside (m : FS) : Op → Prop
  | .rename oldName newName => ∀ a k b l x, m.renamePlan oldName newName = .ok ((a, k), (b, l), x) →
      ¬ Below m.entries x b
  | _ => True

/-- A link under the name that leads nowhere. -/
def Dangling (m : FS) (name : Text) : Prop :=
  m.resolve name true = .error .notExist ∧
    ∃ d base x, m.parentOf name = .ok (d, base) ∧ m.entries d base = some x

structure Invariant (m : FS) : Prop where
  tree : IsTree m.entries root
  bound : ∀ a k x, m.entries a k = some x → a < m.count ∧ x < m.count
  count : 0 < m.count

variable {n : Node}

section Nodes

variable {m : FS} {a : ℕ} {k : Text}

theorem child_setChild (h : n.isDir = true) (k l : Text) (v : Option ℕ) :
    (n.setChild k v).child l = if l = k then v else n.child l := by
  cases n with
  | dir children =>
    cases v with
    | none =>
      simp only [Node.setChild, Node.child]
      split
      · rename_i hl
        rw [hl, AList.lookup_erase]
      · rename_i hl
        rw [AList.lookup_erase_ne hl]
    | some x =>
      simp only [Node.setChild, Node.child]
      split
      · rename_i hl
        rw [hl, AList.lookup_insert]
      · rename_i hl
        rw [AList.lookup_insert_ne hl]
  | file data => cases h
  | link target => cases h

theorem entries_setEntry (h : (m.node a).isDir = true) (k : Text) (v : Option ℕ) :
    (m.setEntry a k v).entries = put m.entries a k v := by
  funext a' k'
  by_cases ha : a' = a
  · subst ha
    simp only [FS.entries, FS.setEntry, update_self, child_setChild h, put, true_and]
  · simp only [FS.entries, FS.setEntry, update_of_ne ha, put, ha, false_and, if_false]

theorem isDir_setEntry (m : FS) (a b : ℕ) (k : Text) (v : Option ℕ) :
    ((m.setEntry a k v).node b).isDir = (m.node b).isDir := by
  by_cases hb : b = a
  · subst hb
    simp only [FS.setEntry, update_self]
    cases m.node b with
    | dir children => cases v <;> rfl
    | file data => rfl
    | link target => rfl
  · simp only [FS.setEntry, update_of_ne hb]

theorem child_of_isEmpty (h : n.isEmpty = true) (k : Text) : n.child k = none := by
  cases n with
  | dir children =>
    have hk : k ∉ children := by
      rw [AList.mem_keys, List.isEmpty_iff.1 h]
      exact List.not_mem_nil
    exact AList.lookup_eq_none.2 hk
  | file data => rfl
  | link target => rfl

end Nodes

variable {x : ℕ}

section Lookups

variable {m : FS}

theorem walk_below {follow again} (hagain : ∀ s x, again s = .ok x → Below m.entries root x)
    {done n rest} (hn : Below m.entries root n) (h : m.walk follow again done n rest = .ok x) :
    Below m.entries root x := by
  induction rest generalizing done n with
  | nil =>
    cases h
    exact hn
  | cons segment rest ih =>
    unfold FS.walk at h
    split at h
    · cases h
    rename_i child hchild
    split at h
    · exact hagain _ x h
    · exact ih (hn.entry hchild) h

theorem lookup_below {follow links s}
    (h : m.lookup follow links s = .ok x) : Below m.entries root x := by
  induction links generalizing s x with
  | zero =>
    refine walk_below (fun s y hy => ?_) .refl h
    cases hy
  | succ links ih => exact walk_below (fun _ _ h => ih h) .refl h

theorem parentOf_ok {p d base} (h : m.parentOf p = .ok (d, base)) :
    Below m.entries root d ∧ (m.node d).isDir = true := by
  unfold FS.parentOf at h
  split at h
  · cases h
  split at h
  · cases h
  rename_i hd
  split at h
  · rename_i hdir
    cases h
    exact ⟨lookup_below hd, hdir⟩
  · cases h

theorem renamePlan_ok {oldName newName a b k l}
    (h : m.renamePlan oldName newName = .ok ((a, k), (b, l), x)) :
    m.parentOf oldName = .ok (a, k) ∧ m.parentOf newName = .ok (b, l) ∧ m.entries a k = some x ∧
      ∀ z, m.entries b l = some z → ∀ j, m.entries z j = none := by
  unfold FS.renamePlan at h
  split at h
  · cases h
  split at h
  · cases h
  rename_i ha
  split at h
  · cases h
  rename_i hx
  split at h
  · cases h
  rename_i hb
  split at h
  · cases h
  rename_i hleaf
  cases h
  refine ⟨ha, hb, hx, fun z hz j => ?_⟩
  simp only [hz, Option.any_some, Bool.and_eq_true, Bool.not_eq_true', not_and,
    Bool.not_eq_false] at hleaf
  cases hd : (m.node z).isDir with
  | true => exact child_of_isEmpty (hleaf hd) j
  | false =>
    change (m.node z).child j = none
    cases hn : m.node z with
    | dir children =>
      rw [hn] at hd
      cases hd
    | file data => rfl
    | link target => rfl

end Lookups

section Steps

variable {m : FS}

theorem Invariant.below (h : Invariant m) (hx : Below m.entries root x) : x < m.count := by
  rcases ReflTransGen.cases_tail hx with rfl | ⟨a, -, k, hk⟩
  · exact h.count
  · exact (h.bound a k x hk).2

theorem Invariant.remove (h : Invariant m) {a} (ha : (m.node a).isDir = true) (k : Text) :
    Invariant (m.setEntry a k none) := by
  have he := entries_setEntry ha k none
  refine ⟨he ▸ h.tree.remove a k, fun b l x hx => ?_, h.count⟩
  rw [he] at hx
  rcases put_eq_some hx with ⟨-, -, hv⟩ | ⟨-, hold⟩
  · cases hv
  · exact h.bound b l x hold

theorem entries_make (h : Invariant m) (hn : ∀ k, n.child k = none) :
    (FS.mk (update m.node m.count n) (m.count + 1)).entries = m.entries := by
  funext a k
  by_cases ha : a = m.count
  · subst ha
    have hnone : m.entries m.count k = none := by
      cases he : m.entries m.count k with
      | none => rfl
      | some x => exact absurd (h.bound _ _ _ he).1 (Nat.lt_irrefl _)
    rw [hnone]
    simp only [FS.entries, update_self, hn]
  · simp only [FS.entries, update_of_ne ha]

theorem entries_add (h : Invariant m) {a} (ha : (m.node a).isDir = true)
    (hb : Below m.entries root a) (k : Text) (hn : ∀ k, n.child k = none) :
    (m.add a k n).entries = put m.entries a k (some m.count) := by
  have hdir : ((FS.mk (update m.node m.count n) (m.count + 1)).node a).isDir = true := by
    change (update m.node m.count n a).isDir = true
    rw [update_of_ne (Nat.ne_of_lt (h.below hb))]
    exact ha
  rw [FS.add, entries_setEntry hdir, entries_make h hn]

theorem Invariant.add (h : Invariant m) {a} (ha : (m.node a).isDir = true)
    (hb : Below m.entries root a) (k : Text) (hn : ∀ k, n.child k = none) :
    Invariant (m.add a k n) := by
  have hlt := h.below hb
  have he := entries_add h ha hb k hn
  have hfresh : Fresh m.entries root m.count := by
    constructor
    · intro l
      cases hl : m.entries m.count l with
      | none => rfl
      | some x => exact absurd (h.bound _ _ _ hl).1 (Nat.lt_irrefl _)
    · exact fun hc => Nat.lt_irrefl _ (h.below hc)
  refine ⟨he ▸ h.tree.insert hfresh a k, fun b l x hx => ?_, Nat.succ_pos _⟩
  change b < m.count + 1 ∧ x < m.count + 1
  rw [he] at hx
  rcases put_eq_some hx with ⟨rfl, -, hv⟩ | ⟨-, hold⟩
  · cases hv
    omega
  · have hb := h.bound b l x hold
    omega

theorem entries_rename {oldName newName a b k l}
    (h : m.renamePlan oldName newName = .ok ((a, k), (b, l), x)) :
    (step m (.rename oldName newName)).entries = move m.entries a k b l x := by
  obtain ⟨ha, hb, -, -⟩ := renamePlan_ok h
  have hdir : ((m.setEntry a k none).node b).isDir = true := by
    rw [isDir_setEntry]
    exact (parentOf_ok hb).2
  have hs : step m (.rename oldName newName) = (m.setEntry a k none).setEntry b l (some x) := by
    simp only [step, apply, FS.rename, h]
  rw [hs, entries_setEntry hdir, entries_setEntry (parentOf_ok ha).2]
  rfl

theorem rename_invariant (h : Invariant m) (oldName newName : Text) :
    Invariant (step m (.rename oldName newName)) := by
  cases hp : m.renamePlan oldName newName with
  | error e =>
    simp only [step, apply, FS.rename, hp]
    exact h
  | ok plan =>
    obtain ⟨⟨a, k⟩, ⟨b, l⟩, x⟩ := plan
    obtain ⟨ha, hb, hx, -⟩ := renamePlan_ok hp
    have he := entries_rename hp
    have hcount : (step m (.rename oldName newName)).count = m.count := by
      simp only [step, apply, FS.rename, hp, FS.setEntry]
    refine ⟨he ▸ h.tree.move (parentOf_ok ha).1 hx b l, fun c j y hy => ?_, hcount ▸ h.count⟩
    rw [hcount]
    rw [he] at hy
    rcases move_eq_some hy with ⟨rfl, -, rfl⟩ | ⟨-, -, hold⟩
    · exact ⟨h.below (parentOf_ok hb).1, (h.bound a k y hx).2⟩
    · exact h.bound c j y hold

theorem entries_truncate (m : FS) (n : ℕ) : (m.truncate n).entries = m.entries := by
  unfold FS.truncate
  split
  · rename_i data hn
    funext a k
    by_cases ha : a = n
    · subst ha
      simp only [FS.entries, update_self, hn, Node.child]
    · simp only [FS.entries, update_of_ne ha]
  · rfl

theorem Invariant.truncate (h : Invariant m) (n : ℕ) : Invariant (m.truncate n) := by
  have he := entries_truncate m n
  have hcount : (m.truncate n).count = m.count := by
    unfold FS.truncate
    split <;> rfl
  exact ⟨he ▸ h.tree, fun a k x hx => hcount ▸ h.bound a k x (he ▸ hx), hcount ▸ h.count⟩

theorem openFile_cases {name writable create excl trunc m'}
    (h : m.openFile name writable create excl trunc = .ok m') :
    (∃ n, m.resolve name true = .ok n ∧ ¬ (create = true ∧ excl = true) ∧
      (m' = m.truncate n ∨ m' = m)) ∨
    m.resolve name true = .error .notExist ∧ ∃ d base, m.parentOf name = .ok (d, base) ∧
      m' = m.add d base (.file []) := by
  unfold FS.openFile at h
  split at h
  · rename_i n hn
    split_ifs at h with hexcl
    simp only [FS.openNode] at h
    split_ifs at h <;> cases h
    · exact .inl ⟨n, hn, hexcl, .inl rfl⟩
    · exact .inl ⟨n, hn, hexcl, .inr rfl⟩
  rename_i e he
  split_ifs at h with hnew
  obtain ⟨rfl, -⟩ := hnew
  split at h
  · cases h
  rename_i d base hd
  cases h
  exact .inr ⟨he, d, base, hd, rfl⟩

theorem openFile_invariant (h : Invariant m) (name : Text) (writable create excl trunc : Bool) :
    Invariant (step m (.openFile name writable create excl trunc)) := by
  simp only [step, apply]
  split
  · rename_i m' hm
    obtain ⟨n, -, -, rfl | rfl⟩ | ⟨-, d, base, hd, rfl⟩ := openFile_cases hm
    · exact h.truncate n
    · exact h
    obtain ⟨hb, hdir⟩ := parentOf_ok hd
    exact h.add hdir hb base fun _ => rfl
  · exact h

theorem make_invariant (h : Invariant m) {name} (hn : ∀ k, n.child k = none)
    {m'} (hm : (match m.parentOf name with
      | .error e => .error e
      | .ok (d, base) =>
        if (m.entries d base).isSome then .error .exist else .ok (m.add d base n)) =
      (.ok m' : Except Error FS)) : Invariant m' := by
  split at hm
  · cases hm
  rename_i d base hd
  split at hm
  · cases hm
  cases hm
  obtain ⟨hb, hdir⟩ := parentOf_ok hd
  exact h.add hdir hb base hn

theorem remove_invariant (h : Invariant m) (name : Text) : Invariant (step m (.remove name)) := by
  simp only [step, apply]
  split
  · rename_i m' hm
    unfold FS.remove at hm
    split at hm
    · cases hm
    rename_i d base hd
    split at hm
    · cases hm
    split at hm
    · cases hm
    · cases hm
      exact h.remove (parentOf_ok hd).2 base
  · exact h

theorem removeAll_invariant (h : Invariant m) (name : Text) :
    Invariant (step m (.removeAll name)) := by
  simp only [step, apply]
  split
  · rename_i m' hm
    unfold FS.removeAll at hm
    split at hm
    · cases hm
    split at hm
    · split at hm
      · cases hm
        exact h
      · cases hm
    rename_i d base hd
    split at hm
    · cases hm
      exact h.remove (parentOf_ok hd).2 base
    · cases hm
      exact h
  · exact h

theorem step_invariant (h : Invariant m) (op : Op) : Invariant (step m op) := by
  cases op with
  | openFile name writable create excl trunc =>
    exact openFile_invariant h name writable create excl trunc
  | mkdir name =>
    simp only [step, apply]
    split
    · rename_i m' hm
      exact make_invariant h (n := .dir ∅) (fun _ => rfl) hm
    · exact h
  | symlink oldName newName =>
    simp only [step, apply]
    split
    · rename_i m' hm
      exact make_invariant h (n := .link oldName) (fun _ => rfl) hm
    · exact h
  | rename oldName newName => exact rename_invariant h oldName newName
  | remove name => exact remove_invariant h name
  | removeAll name => exact removeAll_invariant h name

theorem newMemFS_invariant : Invariant newMemFS := by
  have hnone : ∀ a k, newMemFS.entries a k = none := fun _ _ => rfl
  refine ⟨⟨fun a k b l x _ _ hk => ?_, fun a k _ hk => ?_⟩, fun a k x hk => ?_, Nat.one_pos⟩
  · rw [hnone] at hk
    cases hk
  · rw [hnone] at hk
    cases hk
  · rw [hnone] at hk
    cases hk

theorem run_invariant (h : Invariant m) (ops : List Op) : Invariant (run m ops) := by
  induction ops generalizing m with
  | nil => exact h
  | cons op ops ih => exact ih (step_invariant h op)

theorem Invariant.treeShaped (h : Invariant m) : TreeShaped m where
  parent _ hx hne := h.tree.existsUnique_parent hx hne
  top := h.tree.root
  acyclic _ hx := h.tree.acyclic hx

theorem keeps_iff (h : Invariant m) (op : Op) : Keeps m op ↔ Outside m op := by
  cases op with
  | rename oldName newName =>
    have hiff : ∀ a k b l x, m.renamePlan oldName newName = .ok ((a, k), (b, l), x) →
        ((∀ y, Below m.entries root y →
          Below (step m (.rename oldName newName)).entries root y ∨ m.entries b l = some y) ↔
          ¬ Below m.entries x b) := by
      intro a k b l x hp
      obtain ⟨ha, hb, hx, hleaf⟩ := renamePlan_ok hp
      rw [entries_rename hp]
      exact h.tree.move_keeps_iff (parentOf_ok ha).1 (parentOf_ok hb).1 hx
        fun z hz => .inr (hleaf z hz)
    constructor
    · intro hk a k b l x hp
      exact (hiff a k b l x hp).1 (hk a k b l x hp)
    · intro ho a k b l x hp
      exact (hiff a k b l x hp).2 (ho a k b l x hp)
  | _ => exact Iff.rfl

theorem openFile_replaces {name d base x} (h : Invariant m)
    (hr : m.resolve name true = .error .notExist) (hd : m.parentOf name = .ok (d, base))
    (hx : m.entries d base = some x) (writable excl trunc : Bool) :
    ∃ m', m.openFile name writable true excl trunc = .ok m' ∧ m'.entries d base ≠ some x := by
  obtain ⟨hb, hdir⟩ := parentOf_ok hd
  refine ⟨m.add d base (.file []), by simp only [FS.openFile, hr, hd, and_self, if_true], ?_⟩
  rw [entries_add h hdir hb base fun _ => rfl, put_self]
  rintro ⟨⟩
  exact Nat.lt_irrefl _ (h.bound d base _ hx).2

end Steps

/-- After any operations what is below the root is a tree; and a Rename detaches nothing but what
it replaces exactly if it does not move a node into itself, whatever the paths look like. -/
theorem memFS_tree_iff (ops : List Op) : TreeShaped (run newMemFS ops) ∧
      ∀ op, Keeps (run newMemFS ops) op ↔ Outside (run newMemFS ops) op :=
  ⟨(run_invariant newMemFS_invariant ops).treeShaped,
    keeps_iff (run_invariant newMemFS_invariant ops)⟩

def linked : FS :=
  run newMemFS [.mkdir (text ['/', 'a']), .symlink (text ['/', 'a']) (text ['/', 'l'])]

theorem rename_through_link_detaches :
    ¬ Keeps linked (.rename (text ['/', 'a']) (text ['/', 'l', '/', 'x'])) ∧
      Below linked.entries root 1 ∧
      ¬ Below (step linked (.rename (text ['/', 'a']) (text ['/', 'l', '/', 'x']))).entries root 1 := by
  have hinv : Invariant linked := run_invariant newMemFS_invariant _
  have hplan : linked.renamePlan (text ['/', 'a']) (text ['/', 'l', '/', 'x']) =
      .ok ((0, text ['a']), (1, text ['x']), 1) := by
    rfl
  obtain ⟨ha, -, hx, -⟩ := renamePlan_ok hplan
  refine ⟨fun hk => ?_, (parentOf_ok ha).1.entry hx, fun hy => ?_⟩
  · exact (keeps_iff hinv _).1 hk _ _ _ _ _ hplan .refl
  · rw [entries_rename hplan] at hy
    exact hinv.tree.cut_off (parentOf_ok ha).1 hx .refl hy .refl

/-- OpenFile with O_CREATE keeps every entry, and with O_EXCL creates only where there was none,
exactly if no link under the name leads nowhere. -/
theorem openFile_keeps_iff (ops : List Op) (name : Text) (writable excl trunc : Bool) :
    let m := run newMemFS ops
    ((∀ a k x, m.entries a k = some x →
      (step m (.openFile name writable true excl trunc)).entries a k = some x) ↔
        ¬ Dangling m name) ∧
    ((∀ m', m.openFile name writable true true trunc = .ok m' →
      ∃ d base, m.parentOf name = .ok (d, base) ∧ m.entries d base = none) ↔
        ¬ Dangling m name) := by
  intro m
  have hinv : Invariant m := run_invariant newMemFS_invariant ops
  refine ⟨⟨?_, fun h a k x hx => ?_⟩, ?_, fun h m' hm => ?_⟩
  · rintro hkeep ⟨hr, d, base, x, hd, hx⟩
    obtain ⟨m', hm, hne⟩ := openFile_replaces hinv hr hd hx writable excl trunc
    have hk := hkeep d base x hx
    simp only [step, apply, hm] at hk
    exact hne hk
  · simp only [step, apply]
    split
    · rename_i m' hm
      obtain ⟨n, -, -, rfl | rfl⟩ | ⟨hr, d, base, hd, rfl⟩ := openFile_cases hm
      · rwa [entries_truncate]
      · exact hx
      obtain ⟨hb, hdir⟩ := parentOf_ok hd
      rw [entries_add hinv hdir hb base fun _ => rfl, put_of_ne]
      · exact hx
      · rintro ⟨rfl, rfl⟩
        exact h ⟨hr, a, k, x, hd, hx⟩
    · exact hx
  · rintro hnone ⟨hr, d, base, x, hd, hx⟩
    obtain ⟨m', hm, -⟩ := openFile_replaces hinv hr hd hx writable true trunc
    obtain ⟨d', base', hd', hx'⟩ := hnone m' hm
    rw [hd] at hd'
    cases hd'
    rw [hx] at hx'
    cases hx'
  · obtain ⟨n, -, hexcl, -⟩ | ⟨hr, d, base, hd, -⟩ := openFile_cases hm
    · exact absurd ⟨rfl, rfl⟩ hexcl
    refine ⟨d, base, hd, Option.eq_none_iff_forall_ne_some.2 fun x hx => ?_⟩
    exact h ⟨hr, d, base, x, hd, hx⟩

theorem dangling_link_replaced : ∃ m m',
    m = run newMemFS [.symlink (text ['x']) (text ['a'])] ∧ m.entries root (text ['a']) = some 1 ∧
      m.openFile (text ['a']) true true true false = .ok m' ∧
      m'.entries root (text ['a']) = some 2 :=
  ⟨_, _, rfl, rfl, rfl, rfl⟩

end MemFS
