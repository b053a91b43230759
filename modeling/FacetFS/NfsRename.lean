import FacetFS.NfsExclusion

/-! # RENAME and the state that follows a renamed object

`renamePath` moves the lists recorded under the old name, and under every name below it, behind
whatever the new names already list. The state of a replaced object stays where it is. -/
namespace NfsRename

open NfsSeqid NfsLockRange GroupIndex NfsStore NfsOps NfsTableInvariant

def movedPath (src dst p : Path) : Option Path :=
  if p = src then some dst
  else if src ≠ [] ∧ src <+: p then some (dst ++ p.drop src.length)
  else none

def movedEntries (f : Path → Option Path) (ix : Index Path ℕ) : List ℕ :=
  ix.keys.flatMap fun p => if (f p).isSome then members ix p else []

def renamePath (st : Store) (src dst : Path) : Store :=
  let f := movedPath src dst
  let follow (p : Path) : Path := (f p).getD p
  { st with
    openState := fun k =>
      if k ∈ movedEntries f st.byPath then
        { st.openState k with path := follow (st.openState k).path } else st.openState k
    byPath := regroup f st.byPath
    lockState := fun l =>
      if l ∈ movedEntries f st.locksByPath then
        { st.lockState l with path := follow (st.lockState l).path } else st.lockState l
    locksByPath := regroup f st.locksByPath
    delegation := fun d =>
      if d ∈ movedEntries f st.delegsByPath then
        { st.delegation d with path := follow (st.delegation d).path } else st.delegation d
    delegsByPath := regroup f st.delegsByPath }

abbrev Failure := { s : NfsStat // s ≠ nfs4OK }

/-- A FileSystem error, as the statuses `nameErr` and `fhErr` give for it. -/
structure FsError where
  name : Failure
  fh : Failure

/-- What the FileSystem shows during a RENAME, assumed to be a tree: only directories have
children, and reading a directory that has a child yields an entry. -/
structure FsView where
  lstat : Path → Except FsError Kind
  readdir : Path → Except FsError Bool
  rename : Option FsError
  change : Path → UInt64 × UInt64
  parent : ∀ p q k, q ≠ [] → lstat (p ++ q) = .ok k → lstat p = .ok .directory
  listed : ∀ p n k, lstat (p ++ [n]) = .ok k → readdir p ≠ .ok false

def dirAt (fs : FsView) (p : Path) : NfsStat :=
  match fs.lstat p with
  | .error e => e.fh
  | .ok .directory => nfs4OK
  | .ok .symlink => nfs4ErrSymlink
  | .ok .regular => nfs4ErrNotDir

def requireEmptyDir (fs : FsView) (p : Path) : NfsStat :=
  match fs.readdir p with
  | .error e => e.name
  | .ok true => nfs4ErrNotEmpty
  | .ok false => nfs4OK

/-- The type rules for replacing the target of a rename. -/
def renameTarget (fs : FsView) (fi : Kind) (newPath : Path) : NfsStat :=
  match fs.lstat newPath with
  | .error e => if e.name.1 ≠ nfs4ErrNoEnt then e.name.1 else nfs4OK
  | .ok target =>
    if fi = .directory ∧ target ≠ .directory then nfs4ErrNotDir
    else if fi ≠ .directory ∧ target = .directory then nfs4ErrIsDir
    else if target = .directory then requireEmptyDir fs newPath
    else nfs4OK

def encodeRename (fs : FsView) (saved fh : Path) : BodyResult :=
  BodyResult.ok (encodeChangeInfo (fs.change saved).1 (fs.change saved).2 ++
    encodeChangeInfo (fs.change fh).1 (fs.change fh).2)

/-- The part of RENAME after the type rules, for two different names. -/
def renameMove (st : Store) (now : ℕ) (fs : FsView) (saved fh oldPath newPath : Path) :
    BodyResult × Store :=
  let (s₁, st) := st.recallDelegations now oldPath none
  if s₁ ≠ nfs4OK then (BodyResult.fail s₁, st)
  else
    let (s₂, st) := st.recallDelegations now newPath none
    if s₂ ≠ nfs4OK then (BodyResult.fail s₂, st)
    else
      match fs.rename with
      | some e => (BodyResult.fail e.name, st)
      | none => (encodeRename fs saved fh, renamePath st oldPath newPath)

def rename (st : Store) (now : ℕ) (fs : FsView) (saved fh : Option Path)
    (oldName newName : Except Failure String) : BodyResult × Store :=
  match oldName, newName, saved, fh with
  | .error e, _, _, _ => (BodyResult.fail e, st)
  | .ok _, .error e, _, _ => (BodyResult.fail e, st)
  | .ok oldName, .ok newName, some saved, some fh =>
    if dirAt fs saved ≠ nfs4OK then (BodyResult.fail (dirAt fs saved), st)
    else if dirAt fs fh ≠ nfs4OK then (BodyResult.fail (dirAt fs fh), st)
    else
      let oldPath := saved ++ [oldName]
      let newPath := fh ++ [newName]
      match fs.lstat oldPath with
      | .error e => (BodyResult.fail e.name, st)
      | .ok fi =>
        if fi = .directory ∧ oldPath <+: newPath ∧ newPath ≠ oldPath then
          (BodyResult.fail nfs4ErrInval, st)
        else if newPath = oldPath then (encodeRename fs saved fh, st)
        else if renameTarget fs fi newPath ≠ nfs4OK then
          (BodyResult.fail (renameTarget fs fi newPath), st)
        else renameMove st now fs saved fh oldPath newPath
  | .ok _, .ok _, _, _ => (BodyResult.fail nfs4ErrNoFilehandle, st)

def OpenCompatible (t : Tables) (j k : ℕ) : Prop :=
  ((t.openState j).owner = (t.openState k).owner → j = k) ∧
    ((t.openState j).owner ≠ (t.openState k).owner →
      (t.openState j).access &&& (t.openState k).deny = 0 ∧
        (t.openState k).access &&& (t.openState j).deny = 0)

def LockCompatible (t : Tables) (l m : ℕ) : Prop :=
  ((t.lockState l).owner = (t.lockState m).owner → l = m) ∧
    ((t.lockState l).owner ≠ (t.lockState m).owner →
      ∀ r ∈ (t.lockState l).ranges, ∀ s ∈ (t.lockState m).ranges,
        r.write = true ∨ s.write = true → Disjoint r s)

/-- The states recorded under `p` are compatible with those recorded under `q`. -/
structure Compatible (t : Tables) (p q : Path) : Prop where
  opens : ∀ j ∈ members t.byPath p, ∀ k ∈ members t.byPath q, OpenCompatible t j k
  locks : ∀ l ∈ members t.locksByPath p, ∀ m ∈ members t.locksByPath q, LockCompatible t l m

/-- Exclusion on one path: its states are compatible with one another. -/
def PathExclusive (t : Tables) (p : Path) : Prop := Compatible t p p

theorem OpenCompatible.symm {t j k} (h : OpenCompatible t j k) : OpenCompatible t k j :=
  ⟨fun e => (h.1 e.symm).symm, fun e => (h.2 (Ne.symm e)).symm⟩

theorem LockCompatible.symm {t l m} (h : LockCompatible t l m) : LockCompatible t m l :=
  ⟨fun e => (h.1 e.symm).symm,
    fun e r hr s hs hw => (h.2 (Ne.symm e) s hs r hr hw.symm).symm⟩

variable {p q : Path}

section Moved

variable {src dst : Path}

theorem movedPath_eq_some (hs : src ≠ []) :
    movedPath src dst p = some q ↔ ∃ s, p = src ++ s ∧ q = dst ++ s := by
  unfold movedPath
  constructor
  · intro h
    split at h
    · rename_i hp
      cases h
      exact ⟨[], by simpa using hp, by simp⟩
    split at h
    · rename_i hp
      obtain ⟨s, rfl⟩ := hp.2
      cases h
      exact ⟨s, rfl, by simp⟩
    · cases h
  · rintro ⟨s, rfl, rfl⟩
    cases s with
    | nil => simp
    | cons n s => simp [hs]

theorem movedPath_stays (hs : src ≠ []) (h₁ : ¬ src <+: dst) (h₂ : ¬ dst <+: src)
    (h : movedPath src dst p = some q) : movedPath src dst q = none := by
  obtain ⟨s, -, rfl⟩ := (movedPath_eq_some hs).1 h
  by_contra hn
  obtain ⟨r, hr⟩ := Option.ne_none_iff_exists'.1 hn
  obtain ⟨s', he, -⟩ := (movedPath_eq_some hs).1 hr
  rcases List.prefix_or_prefix_of_prefix (he ▸ List.prefix_append src s')
    (List.prefix_append dst s) with hp | hp
  · exact h₁ hp
  · exact h₂ hp

theorem movedPath_injective (hs : src ≠ []) {p'} (h : movedPath src dst p = some q)
    (h' : movedPath src dst p' = some q) : p' = p := by
  obtain ⟨s, rfl, rfl⟩ := (movedPath_eq_some hs).1 h
  obtain ⟨s', rfl, he⟩ := (movedPath_eq_some hs).1 h'
  rw [List.append_cancel_left he]

end Moved

section RenamePath

variable {st : Store} {src dst : Path}

theorem renamePath_openCompatible (j k : ℕ) :
    OpenCompatible (renamePath st src dst).toTables j k ↔ OpenCompatible st.toTables j k := by
  simp only [OpenCompatible, renamePath]
  split <;> split <;> rfl

theorem renamePath_lockCompatible (l m : ℕ) :
    LockCompatible (renamePath st src dst).toTables l m ↔ LockCompatible st.toTables l m := by
  simp only [LockCompatible, renamePath]
  split <;> split <;> rfl

theorem compatible_append {R : ℕ → ℕ → Prop} (hsymm : ∀ j k, R j k → R k j) (a b : List ℕ) :
    (∀ j ∈ a ++ b, ∀ k ∈ a ++ b, R j k) ↔
      (∀ j ∈ a, ∀ k ∈ a, R j k) ∧ (∀ j ∈ b, ∀ k ∈ b, R j k) ∧ ∀ j ∈ a, ∀ k ∈ b, R j k := by
  constructor
  · intro h
    refine ⟨fun j hj k hk => ?_, fun j hj k hk => ?_, fun j hj k hk => ?_⟩
    · exact h j (List.mem_append_left _ hj) k (List.mem_append_left _ hk)
    · exact h j (List.mem_append_right _ hj) k (List.mem_append_right _ hk)
    · exact h j (List.mem_append_left _ hj) k (List.mem_append_right _ hk)
  rintro ⟨ha, hb, hab⟩ j hj k hk
  rcases List.mem_append.1 hj with hj | hj <;> rcases List.mem_append.1 hk with hk | hk
  · exact ha j hj k hk
  · exact hab j hj k hk
  · exact hsymm k j (hab k hk j hj)
  · exact hb j hj k hk

theorem renamePath_target (hs : src ≠ []) (h₁ : ¬ src <+: dst) (h₂ : ¬ dst <+: src)
    (hpq : movedPath src dst p = some q) :
    PathExclusive (renamePath st src dst).toTables q ↔
      PathExclusive st.toTables q ∧ PathExclusive st.toTables p ∧
        Compatible st.toTables q p := by
  have hstay : ∀ p q, movedPath src dst p = some q → movedPath src dst q = none :=
    fun p q => movedPath_stays hs h₁ h₂
  have ho := members_regroup_target hstay st.byPath hpq fun k hk => movedPath_injective hs hpq hk
  have hl := members_regroup_target hstay st.locksByPath hpq
    fun k hk => movedPath_injective hs hpq hk
  have hopens := compatible_append (R := OpenCompatible st.toTables) (fun _ _ h => h.symm)
    (members st.byPath q) (members st.byPath p)
  have hlocks := compatible_append (R := LockCompatible st.toTables) (fun _ _ h => h.symm)
    (members st.locksByPath q) (members st.locksByPath p)
  constructor
  · rintro ⟨h, h'⟩
    simp only [renamePath_openCompatible, renamePath_lockCompatible] at h h'
    simp only [renamePath, ho, hl] at h h'
    obtain ⟨h1, h2, h3⟩ := hopens.1 h
    obtain ⟨h1', h2', h3'⟩ := hlocks.1 h'
    exact ⟨⟨h1, h1'⟩, ⟨h2, h2'⟩, ⟨h3, h3'⟩⟩
  rintro ⟨hq, hp, hqp⟩
  constructor
  · simp only [renamePath_openCompatible]
    simp only [renamePath, ho]
    exact hopens.2 ⟨hq.opens, hp.opens, hqp.opens⟩
  · simp only [renamePath_lockCompatible]
    simp only [renamePath, hl]
    exact hlocks.2 ⟨hq.locks, hp.locks, hqp.locks⟩

theorem renamePath_other (hs : src ≠ []) (h₁ : ¬ src <+: dst) (h₂ : ¬ dst <+: src)
    (hq : ∀ p, movedPath src dst p ≠ some q) (h : PathExclusive st.toTables q) :
    PathExclusive (renamePath st src dst).toTables q := by
  have hstay : ∀ p q, movedPath src dst p = some q → movedPath src dst q = none :=
    fun p q => movedPath_stays hs h₁ h₂
  have hsub : ∀ ix : Index Path ℕ, members (regroup (movedPath src dst) ix) q ⊆ members ix q := by
    intro ix
    rw [members_regroup_other hstay ix hq]
    split <;> simp
  constructor
  · simp only [renamePath_openCompatible]
    exact fun j hj k hk => h.opens j (hsub _ hj) k (hsub _ hk)
  · simp only [renamePath_lockCompatible]
    exact fun l hl m hm => h.locks l (hsub _ hl) m (hsub _ hm)

theorem renamePath_pathExclusive_iff (hs : src ≠ []) (h₁ : ¬ src <+: dst) (h₂ : ¬ dst <+: src)
    (h : ∀ p, PathExclusive st.toTables p) :
    (∀ p, PathExclusive (renamePath st src dst).toTables p) ↔
      ∀ p q, movedPath src dst p = some q → Compatible st.toTables q p := by
  constructor
  · intro hafter p q hpq
    exact ((renamePath_target hs h₁ h₂ hpq).1 (hafter q)).2.2
  · intro hc q
    by_cases hq : ∃ p, movedPath src dst p = some q
    · obtain ⟨p, hpq⟩ := hq
      exact (renamePath_target hs h₁ h₂ hpq).2 ⟨h q, h p, hc p q hpq⟩
    · exact renamePath_other hs h₁ h₂ (fun p hp => hq ⟨p, hp⟩) (h q)

end RenamePath

section Nesting

variable {fs : FsView} {saved fh : Path} {oldName newName : String}

theorem dirAt_ok (h : dirAt fs p = nfs4OK) : fs.lstat p = .ok .directory := by
  unfold dirAt at h
  split at h
  · rename_i e _
    exact absurd h e.fh.2
  · assumption
  · cases h
  · cases h

theorem not_old_prefix_new {fi} (hold : fs.lstat (saved ++ [oldName]) = .ok fi)
    (hfh : fs.lstat fh = .ok .directory) (hne : fh ++ [newName] ≠ saved ++ [oldName])
    (hinv : ¬ (fi = .directory ∧ saved ++ [oldName] <+: fh ++ [newName] ∧
      fh ++ [newName] ≠ saved ++ [oldName])) :
    ¬ saved ++ [oldName] <+: fh ++ [newName] := by
  intro hp
  apply hinv
  refine ⟨?_, hp, hne⟩
  rcases List.prefix_concat_iff.1 hp with he | hp'
  · exact absurd he.symm hne
  obtain ⟨q, hq⟩ := hp'
  by_cases hnil : q = []
  · subst hnil
    rw [List.append_nil] at hq
    rw [hq, hfh] at hold
    cases hold
    rfl
  rw [← hq] at hfh
  rw [fs.parent _ q _ hnil hfh] at hold
  cases hold
  rfl

/-- Nor does it replace a directory above the object: that directory is not empty. -/
theorem not_new_prefix_old {fi} (hold : fs.lstat (saved ++ [oldName]) = .ok fi)
    (hne : fh ++ [newName] ≠ saved ++ [oldName])
    (ht : renameTarget fs fi (fh ++ [newName]) = nfs4OK) :
    ¬ fh ++ [newName] <+: saved ++ [oldName] := by
  rintro ⟨q, hq⟩
  cases q with
  | nil => exact hne (by simpa using hq)
  | cons n q =>
    have hdir := fs.parent _ (n :: q) fi (by simp) (by rw [hq]; exact hold)
    have hchild : ∃ k, fs.lstat (fh ++ [newName] ++ [n]) = .ok k := by
      have hq' : fh ++ [newName] ++ [n] ++ q = saved ++ [oldName] := by
        rw [← hq]
        simp
      by_cases hnil : q = []
      · subst hnil
        rw [List.append_nil] at hq'
        exact ⟨fi, by rw [hq']; exact hold⟩
      · exact ⟨_, fs.parent _ q fi hnil (by rw [hq']; exact hold)⟩
    obtain ⟨k, hk⟩ := hchild
    have hlist := fs.listed _ _ _ hk
    simp only [renameTarget, hdir] at ht
    split at ht
    · cases ht
    split at ht
    · cases ht
    rw [if_pos trivial, requireEmptyDir] at ht
    split at ht
    · rename_i e _
      exact absurd ht e.name.2
    · cases ht
    · rename_i hempty
      exact hlist hempty

end Nesting

/-- The state moved by a RENAME meets no conflicting state under its new names. -/
def ClearTarget (t : Tables) (saved fh : Option Path) (oldName newName : Except Failure String) :
    Prop :=
  ∀ s f o n, saved = some s → fh = some f → oldName = .ok o → newName = .ok n →
    s ++ [o] = f ++ [n] ∨
      ∀ p q, movedPath (s ++ [o]) (f ++ [n]) p = some q → Compatible t q p

theorem rename_outcomes (st : Store) (now : ℕ) (fs : FsView) (saved fh : Option Path)
    (oldName newName : Except Failure String) :
    (rename st now fs saved fh oldName newName).2 = st ∨
      ∃ s f o n, ¬ s ++ [o] <+: f ++ [n] ∧ ¬ f ++ [n] <+: s ++ [o] ∧
        rename st now fs saved fh oldName newName =
          renameMove st now fs s f (s ++ [o]) (f ++ [n]) := by
  unfold rename
  split
  · exact .inl rfl
  · exact .inl rfl
  · rename_i o n s f
    split
    · exact .inl rfl
    rename_i hsd
    split
    · exact .inl rfl
    rename_i hfd
    simp only
    split
    · exact .inl rfl
    rename_i fi hold
    split
    · exact .inl rfl
    rename_i hinv
    split
    · exact .inl rfl
    rename_i hne
    split
    · exact .inl rfl
    rename_i ht
    exact .inr ⟨s, f, o, n,
      not_old_prefix_new hold (dirAt_ok (not_not.1 hfd)) hne hinv,
      not_new_prefix_old hold hne (not_not.1 ht), rfl⟩
  · exact .inl rfl

theorem renameMove_outcomes (st : Store) (now : ℕ) (fs : FsView) (saved fh src dst : Path) :
    ∃ st₁ st₂, st₁ = (st.recallDelegations now src none).2 ∧
      st₂ = (st₁.recallDelegations now dst none).2 ∧
      ((renameMove st now fs saved fh src dst).2 = st₁ ∨
        (renameMove st now fs saved fh src dst).2 = st₂ ∨
        (renameMove st now fs saved fh src dst).2 = renamePath st₂ src dst) := by
  refine ⟨_, _, rfl, rfl, ?_⟩
  unfold renameMove
  rcases st.recallDelegations now src none with ⟨s₁, st₁⟩
  simp only
  split
  · exact .inl rfl
  right
  rcases st₁.recallDelegations now dst none with ⟨s₂, st₂⟩
  simp only
  split
  · exact .inl rfl
  split
  · exact .inl rfl
  · exact .inr rfl

theorem renameMove_ok {st now fs saved fh src dst}
    (h : (renameMove st now fs saved fh src dst).1.status = nfs4OK) :
    ∃ st', st'.toTables = st.toTables ∧
      (renameMove st now fs saved fh src dst).2 = renamePath st' src dst := by
  have ht₁ := st.recallDelegations_tables now src none
  simp only [renameMove] at h ⊢
  split at h
  · rename_i h₁
    exact absurd h h₁
  have ht₂ := (st.recallDelegations now src none).2.recallDelegations_tables now dst none
  split at h
  · rename_i h₂
    exact absurd h h₂
  rename_i h₁ h₂
  split at h
  · rename_i e _
    exact absurd h e.name.2
  rename_i hr
  refine ⟨_, ht₂.trans ht₁, ?_⟩
  simp [h₁, h₂]

theorem rename_ok {st now fs saved fh oldName newName}
    (h : (rename st now fs saved fh oldName newName).1.status = nfs4OK) :
    ∃ s f o n, saved = some s ∧ fh = some f ∧ oldName = .ok o ∧ newName = .ok n ∧
      ((s ++ [o] = f ++ [n] ∧ (rename st now fs saved fh oldName newName).2 = st) ∨
        (s ++ [o] ≠ f ++ [n] ∧ ¬ s ++ [o] <+: f ++ [n] ∧ ¬ f ++ [n] <+: s ++ [o] ∧
          ∃ st', st'.toTables = st.toTables ∧
            (rename st now fs saved fh oldName newName).2 =
              renamePath st' (s ++ [o]) (f ++ [n]))) := by
  unfold rename at h ⊢
  split at h
  · rename_i e
    exact absurd h e.2
  · rename_i e
    exact absurd h e.2
  · rename_i o n s f
    refine ⟨s, f, o, n, rfl, rfl, rfl, rfl, ?_⟩
    by_cases hs : dirAt fs s = nfs4OK
    · by_cases hf : dirAt fs f = nfs4OK
      · cases hold : fs.lstat (s ++ [o]) with
        | error e =>
          simp only [hs, hf, hold, ne_eq, not_true_eq_false, if_false] at h
          exact absurd h e.name.2
        | ok fi =>
          simp only [hs, hf, hold, ne_eq, not_true_eq_false, if_false] at h ⊢
          split at h
          · cases h
          rename_i hinv
          rw [if_neg hinv]
          by_cases he : f ++ [n] = s ++ [o]
          · exact .inl ⟨he.symm, by rw [if_pos he]⟩
          rw [if_neg he] at h ⊢
          split at h
          · rename_i hr
            exact absurd h hr
          rename_i hr
          rw [not_not] at hr
          obtain ⟨st', hst, hmove⟩ := renameMove_ok h
          refine .inr ⟨Ne.symm he, not_old_prefix_new hold (dirAt_ok hf) he hinv,
            not_new_prefix_old hold he hr, st', hst, ?_⟩
          rw [if_neg (not_not.2 hr)]
          exact hmove
      · simp only [hs, hf, ne_eq, not_true_eq_false, if_false, not_false_eq_true, if_true] at h
        exact absurd h hf
    · simp only [hs, ne_eq, not_false_eq_true, if_true] at h
      exact absurd h hs
  · cases h

theorem rename_ok_dir {st now fs saved f oldName newName}
    (h : (rename st now fs saved (some f) oldName newName).1.status = nfs4OK) :
    fs.lstat f = .ok .directory := by
  unfold rename at h
  split at h
  · rename_i e
    exact absurd h e.2
  · rename_i e
    exact absurd h e.2
  · rename_i hf
    cases hf
    split at h
    · rename_i hs
      exact absurd h hs
    split at h
    · rename_i hd
      exact absurd h hd
    · rename_i hd
      exact dirAt_ok (not_not.1 hd)
  · cases h

theorem rename_failed {st now fs saved fh oldName newName}
    (h : (rename st now fs saved fh oldName newName).1.status ≠ nfs4OK) :
    (rename st now fs saved fh oldName newName).2.toTables = st.toTables := by
  have hmove : ∀ s f src dst, (renameMove st now fs s f src dst).1.status ≠ nfs4OK →
      (renameMove st now fs s f src dst).2.toTables = st.toTables := by
    intro s f src dst hfail
    have ht₁ := st.recallDelegations_tables now src none
    have ht₂ := (st.recallDelegations now src none).2.recallDelegations_tables now dst none
    simp only [renameMove] at hfail ⊢
    split
    · exact ht₁
    rename_i h₁
    rw [if_neg h₁] at hfail
    split
    · exact ht₂.trans ht₁
    rename_i h₂
    rw [if_neg h₂] at hfail
    split
    · exact ht₂.trans ht₁
    rename_i hr
    rw [hr] at hfail
    exact absurd rfl hfail
  unfold rename at h ⊢
  split
  · rfl
  · rfl
  · simp only at h ⊢
    split
    · rfl
    rename_i hs
    rw [if_neg hs] at h
    split
    · rfl
    rename_i hd
    rw [if_neg hd] at h
    split
    · rfl
    rename_i hl
    rw [hl] at h
    simp only at h
    split
    · rfl
    rename_i hinv
    rw [if_neg hinv] at h
    split
    · rfl
    rename_i hne
    rw [if_neg hne] at h
    split
    · rfl
    rename_i ht
    rw [if_neg ht] at h
    exact hmove _ _ _ _ h
  · rfl

/-- RENAME keeps exclusion exactly when the state it moves is compatible with the state its
new names already carry. -/
theorem rename_keeps_exclusion_iff {st : Store} {now : ℕ} {fs : FsView} {saved fh : Option Path}
    {oldName newName : Except Failure String} (h : ∀ p, PathExclusive st.toTables p)
    (hok : (rename st now fs saved fh oldName newName).1.status = nfs4OK) :
    (∀ p, PathExclusive (rename st now fs saved fh oldName newName).2.toTables p) ↔
      ClearTarget st.toTables saved fh oldName newName := by
  obtain ⟨s, f, o, n, rfl, rfl, rfl, rfl, hcase⟩ := rename_ok hok
  have hclear : ClearTarget st.toTables (some s) (some f) (.ok o) (.ok n) ↔
      s ++ [o] = f ++ [n] ∨
        ∀ p q, movedPath (s ++ [o]) (f ++ [n]) p = some q → Compatible st.toTables q p := by
    constructor
    · intro hc
      exact hc s f o n rfl rfl rfl rfl
    rintro hc s' f' o' n' hs hf ho hn
    cases hs
    cases hf
    cases ho
    cases hn
    exact hc
  rw [hclear]
  rcases hcase with ⟨heq, hst⟩ | ⟨hne, h₁, h₂, st', ht, hst⟩
  · rw [hst]
    exact ⟨fun _ => .inl heq, fun _ => h⟩
  rw [hst, renamePath_pathExclusive_iff (by simp) h₁ h₂ (by rwa [ht]), ht]
  constructor
  · exact .inr
  · rintro (he | hc)
    · exact absurd he hne
    · exact hc

theorem pathExclusive_of_inv {t : Tables} (h : Inv t) (p : Path) : PathExclusive t p where
  opens j hj k hk := by
    obtain ⟨hj, hjp⟩ := (h.opens.index.mem p j).1 hj
    obtain ⟨hk, hkp⟩ := (h.opens.index.mem p k).1 hk
    refine ⟨h.opens.unique j hj k hk (hjp.trans hkp.symm), fun ho => ⟨?_, ?_⟩⟩
    · exact h.opens.share j hj k hk (hjp.trans hkp.symm) ho
    · exact h.opens.share k hk j hj (hkp.trans hjp.symm) (Ne.symm ho)
  locks l hl m hm := by
    obtain ⟨hl, hlp⟩ := (h.locks.index.mem p l).1 hl
    obtain ⟨hm, hmp⟩ := (h.locks.index.mem p m).1 hm
    refine ⟨h.locks.unique l hl m hm (hlp.trans hmp.symm), fun ho r hr s hs hw x hrx hsx => ?_⟩
    have ht := h.locks.types_false hm hl (hlp.trans hmp.symm) ho ⟨s, hs, rfl, hsx⟩
      ⟨r, hr, rfl, hrx⟩
    rw [ht.1, ht.2] at hw
    simp at hw

theorem noEnt_ne_ok : nfs4ErrNoEnt ≠ nfs4OK := by decide

def twoFiles : FsView where
  lstat p :=
    if p = [] then .ok .directory
    else if p = ["a"] ∨ p = ["b"] then .ok .regular
    else .error ⟨⟨nfs4ErrNoEnt, noEnt_ne_ok⟩, ⟨nfs4ErrNoEnt, noEnt_ne_ok⟩⟩
  readdir _ := .ok true
  rename := none
  change _ := (0, 0)
  parent p q k hq h := by
    have hp : p = [] := by
      by_contra hp
      have hlen : 2 ≤ (p ++ q).length := by
        have := List.length_pos_iff.2 hp
        have := List.length_pos_iff.2 hq
        rw [List.length_append]
        omega
      have h0 : p ++ q ≠ [] := by simp [hp]
      have h1 : ¬ (p ++ q = ["a"] ∨ p ++ q = ["b"]) := by
        rintro (e | e) <;> rw [e] at hlen <;> simp at hlen
      rw [if_neg h0, if_neg h1] at h
      cases h
    simp [hp]
  listed p n k h := by simp

/-- Two owners of one client, one writing `a`, one reading `b` and denying writers. -/
def twoOwners (accessA denyB : UInt32) : List NfsExclusion.Request :=
  let openAs (owner : Bytes) (access deny : UInt32) (name : String) : NfsExclusion.Request :=
    .openFile 0 (some [])
      ⟨1, access, deny, 1, owner, 0, 0, 0, .ok name, false, .ok none⟩
      ⟨nfs4OK, .ok .regular, false, .ok 0, nfs4OK, 0, 0, []⟩
  [.setClientID 0 [1] 7 9 "none", .setClientIDConfirm 0 1 9, openAs [10] accessA 0 "a",
    openAs [11] 1 denyB "b"]

def twoOwnersStore (accessA denyB : UInt32) : Store :=
  NfsExclusion.serve ⟨90, 90, 5, false⟩ (twoOwners accessA denyB)

theorem twoOwners_clearTarget :
    ClearTarget (twoOwnersStore 2 0).toTables (some []) (some []) (.ok "a") (.ok "b") := by
  intro s f o n hs hf ho hn
  cases hs
  cases hf
  cases ho
  cases hn
  refine .inr fun p q hpq => ?_
  obtain ⟨t, rfl, rfl⟩ := (movedPath_eq_some (by simp)).1 hpq
  have hkeys : (twoOwnersStore 2 0).byPath.keys = [["b"], ["a"]] := by decide +kernel
  have hlocks : (twoOwnersStore 2 0).locksByPath.keys = [] := by decide +kernel
  constructor
  · intro j hj k hk
    have ht : t = [] := by simpa [hkeys] using mem_keys_of_mem_members hj
    subst ht
    obtain rfl : j = 2 := by
      have hm : members (twoOwnersStore 2 0).byPath ["b"] = [2] := by decide +kernel
      simpa [hm] using hj
    obtain rfl : k = 1 := by
      have hm : members (twoOwnersStore 2 0).byPath ["a"] = [1] := by decide +kernel
      simpa [hm] using hk
    exact ⟨fun e => absurd e (by decide +kernel), fun _ => by decide +kernel⟩
  · intro l hl
    simpa [hlocks] using mem_keys_of_mem_members hl

theorem rename_keeps_exclusion_undenied :
    (rename (twoOwnersStore 2 0) 0 twoFiles (some []) (some []) (.ok "a") (.ok "b")).1.status =
        nfs4OK ∧
      ∀ p, PathExclusive
        (rename (twoOwnersStore 2 0) 0 twoFiles (some []) (some []) (.ok "a") (.ok "b")).2.toTables
        p := by
  have hok : (rename (twoOwnersStore 2 0) 0 twoFiles (some []) (some []) (.ok "a")
      (.ok "b")).1.status = nfs4OK := by decide +kernel
  have hstart : ∀ p, PathExclusive (twoOwnersStore 2 0).toTables p :=
    pathExclusive_of_inv (NfsExclusion.serve_inv _ _)
  exact ⟨hok, (rename_keeps_exclusion_iff hstart hok).2 twoOwners_clearTarget⟩

/-- Replacing a file on which another owner denies writing hands that denial to a writer. -/
theorem rename_merges_conflicting_opens : (∀ p, PathExclusive (twoOwnersStore 2 2).toTables p) ∧
      (rename (twoOwnersStore 2 2) 0 twoFiles (some []) (some []) (.ok "a") (.ok "b")).1.status =
        nfs4OK ∧
      ¬ ∀ p, PathExclusive
        (rename (twoOwnersStore 2 2) 0 twoFiles (some []) (some []) (.ok "a") (.ok "b")).2.toTables
        p := by
  refine ⟨pathExclusive_of_inv (NfsExclusion.serve_inv _ _), by decide +kernel, fun h => ?_⟩
  have hc := (h ["b"]).opens 1 (by decide +kernel) 2 (by decide +kernel)
  have hbits := hc.2 (by decide +kernel)
  exact absurd hbits.1 (by decide +kernel)

end NfsRename
