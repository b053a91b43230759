import FacetFS.NfsOutcomes

/-! # READ and WRITE

The stateid of a READ, a WRITE or a SETATTR may be special, or that of an open state, a lock
state or a delegation. The store is consulted under its mutex; the file that was found is used
after the mutex is free. -/
namespace NfsData

open NfsSeqid NfsLockRange GroupIndex NfsStore NfsOps NfsOutcomes

/-- What an I/O stateid stands for. A special stateid and a delegation come with no file. -/
structure IoState where
  file : Option OpenFile
  access : UInt32
  special : Bool
  deriving DecidableEq, Repr

def resolveIOStateid (st : Store) (now : ℕ) (seq : UInt32) (other : Other) (p : Path) :
    Except NfsStat IoState × Store :=
  let k := other.count
  if other.special then
    if k = 0 ∧ seq ≠ 0 ∨ k ≠ 0 ∧ seq ≠ 2 ^ 32 - 1 then (.error nfs4ErrBadStateID, st)
    else (.ok ⟨none, 0, true⟩, st)
  else if st.checkOther other ≠ nfs4OK then (.error (st.checkOther other), st)
  else if (st.revokedDelegs k).isSome then (.error nfs4ErrAdminRevoked, st)
  else if k ∈ st.opens then
    let o := st.openState k
    let st := st.renewClient o.client now
    if seq < o.seq then (.error nfs4ErrOldStateID, st)
    else if seq > o.seq ∨ o.path ≠ p ∨ (st.owner o.owner).confirmed = false then
      (.error nfs4ErrBadStateID, st)
    else (.ok ⟨o.file, o.access, false⟩, st)
  else if k ∈ st.locks then
    let l := st.lockState k
    let st := st.renewClient l.client now
    if seq < l.seq then (.error nfs4ErrOldStateID, st)
    else if seq > l.seq ∨ l.path ≠ p then (.error nfs4ErrBadStateID, st)
    else (.ok ⟨(st.openState l.opened).file, (st.openState l.opened).access, false⟩, st)
  else if k ∈ st.delegs then
    let dl := st.delegation k
    let st := st.renewClient dl.client now
    if seq < dl.seq then (.error nfs4ErrOldStateID, st)
    else if seq > dl.seq ∨ dl.path ≠ p then (.error nfs4ErrBadStateID, st)
    else (.ok ⟨none, shareRead, false⟩, st)
  else (.error nfs4ErrBadStateID, st)

def clientForStateid (st : Store) (other : Other) : Option ClientID :=
  let k := other.count
  if other.special then none
  else if k ∈ st.opens then some (st.openState k).client
  else if k ∈ st.locks then some (st.lockState k).client
  else if k ∈ st.delegs then some (st.delegation k).client
  else none

def neededAccess (write : Bool) : UInt32 := if write then shareWrite else shareRead

def denyBlocksAnonymous (t : Tables) (p : Path) (write : Bool) : Bool :=
  (members t.byPath p).any fun k => (t.openState k).deny &&& neededAccess write ≠ 0

/-- The section of READ and WRITE that looks up the stateid: the file of a state, or none when
the request has to open one for itself. -/
def ioResolve (st : Store) (now : ℕ) (fh : Option Path) (lookup : Except NfsStat Kind)
    (seq : UInt32) (other : Other) (write : Bool) : Except NfsStat (Option OpenFile) × Store :=
  match lockFH fh lookup with
  | .error e => (.error e, st)
  | .ok p =>
    match resolveIOStateid st now seq other p with
    | (.error e, st) => (.error e, st)
    | (.ok s, st) =>
      if s.special then (.ok none, st)
      else if s.access &&& neededAccess write = 0 then (.error nfs4ErrOpenMode, st)
      else (.ok s.file, st)

/-- The file a READ or a WRITE is served by: the one of a state, or one opened for the length of
the request. -/
inductive IoFile where
  | held (f : OpenFile)
  | temporary (handle : ℕ)
  deriving DecidableEq, Repr

def ioState (st : Store) (now : ℕ) (fh : Option Path) (lookup : Except NfsStat Kind)
    (seq : UInt32) (other : Other) (write : Bool) (file : Except NfsStat ℕ) :
    Except NfsStat IoFile × Store :=
  match ioResolve st now fh lookup seq other write with
  | (.error e, st) => (.error e, st)
  | (.ok (some f), st) => (.ok (.held f), st)
  | (.ok none, st) =>
    if denyBlocksAnonymous st.toTables (fh.getD []) write then (.error nfs4ErrLocked, st)
    else (file.map .temporary, st)

/-- The open state whose file an I/O stateid leads to. -/
def ioHolder (t : Tables) (other : Other) : Option ℕ :=
  let k := other.count
  if k ∈ t.opens then some k
  else if k ∈ t.locks then some (t.lockState k).opened
  else none

def ioPath (t : Tables) (other : Other) : Path :=
  if other.count ∈ t.opens then (t.openState other.count).path
  else (t.lockState other.count).path

theorem resolveIOStateid_renews (st : Store) (now : ℕ) (seq : UInt32) (other : Other)
    (p : Path) : (resolveIOStateid st now seq other p).2 = st ∨
      ∃ c, (resolveIOStateid st now seq other p).2 = st.renewClient c now := by
  unfold resolveIOStateid
  simp only
  split
  · split
    · exact .inl rfl
    · exact .inl rfl
  split
  · exact .inl rfl
  split
  · exact .inl rfl
  split
  · right
    split
    · exact ⟨_, rfl⟩
    split
    · exact ⟨_, rfl⟩
    · exact ⟨_, rfl⟩
  split
  · right
    split
    · exact ⟨_, rfl⟩
    split
    · exact ⟨_, rfl⟩
    · exact ⟨_, rfl⟩
  split
  · right
    split
    · exact ⟨_, rfl⟩
    split
    · exact ⟨_, rfl⟩
    · exact ⟨_, rfl⟩
  · exact .inl rfl

theorem resolveIOStateid_ok {st now seq other p s}
    (h : (resolveIOStateid st now seq other p).1 = .ok s) :
    (other.special = true ∧ s = ⟨none, 0, true⟩) ∨
    (other.special = false ∧ ∃ k, ioHolder st.toTables other = some k ∧
      ioPath st.toTables other = p ∧
      s = ⟨(st.openState k).file, (st.openState k).access, false⟩) ∨
    (other.special = false ∧ s = ⟨none, shareRead, false⟩) := by
  unfold resolveIOStateid at h
  simp only at h
  split at h
  · rename_i hs
    split at h
    · cases h
    · exact .inl ⟨hs, (Except.ok.inj h).symm⟩
  rename_i hs
  rw [Bool.not_eq_true] at hs
  split at h
  · cases h
  split at h
  · cases h
  split at h
  · rename_i hopen
    split at h
    · cases h
    split at h
    · cases h
    rename_i hp
    simp only [not_or, not_not] at hp
    refine .inr (.inl ⟨hs, other.count, by simp [ioHolder, hopen], ?_, ?_⟩)
    · simpa [ioPath, hopen] using hp.2.1
    · exact (Except.ok.inj h).symm
  rename_i hopen
  split at h
  · rename_i hlock
    split at h
    · cases h
    split at h
    · cases h
    rename_i hp
    simp only [not_or, not_not] at hp
    refine .inr (.inl ⟨hs, (st.lockState other.count).opened,
      by simp [ioHolder, hopen, hlock], ?_, ?_⟩)
    · simpa [ioPath, hopen] using hp.2
    · exact (Except.ok.inj h).symm
  split at h
  · split at h
    · cases h
    · split at h
      · cases h
      · exact .inr (.inr ⟨hs, (Except.ok.inj h).symm⟩)
  · cases h

theorem ioResolve_renews (st : Store) (now : ℕ) (fh : Option Path) (lookup : Except NfsStat Kind)
    (seq : UInt32) (other : Other) (write : Bool) :
    (ioResolve st now fh lookup seq other write).2 = st ∨
      ∃ c, (ioResolve st now fh lookup seq other write).2 = st.renewClient c now := by
  unfold ioResolve
  split
  · exact .inl rfl
  rename_i p _
  have hr := resolveIOStateid_renews st now seq other p
  split
  · rename_i he
    rw [he] at hr
    exact hr
  rename_i he
  rw [he] at hr
  split
  · exact hr
  split
  · exact hr
  · exact hr

/-- A file comes from the state that the stateid leads to, which allows the access. -/
theorem ioResolve_file {st now fh lookup seq other write f}
    (h : (ioResolve st now fh lookup seq other write).1 = .ok (some f)) :
    other.special = false ∧ ∃ k, ioHolder st.toTables other = some k ∧
      (st.openState k).file = some f ∧ (st.openState k).access &&& neededAccess write ≠ 0 := by
  unfold ioResolve at h
  split at h
  · cases h
  split at h
  · cases h
  rename_i s st₁ he
  split at h
  · cases h
  split at h
  · cases h
  rename_i hacc
  have hfile := Except.ok.inj h
  rcases resolveIOStateid_ok (congrArg Prod.fst he) with
    ⟨-, rfl⟩ | ⟨hs, k, hk, -, rfl⟩ | ⟨-, rfl⟩
  · cases hfile
  · exact ⟨hs, k, hk, hfile, hacc⟩
  · cases hfile

end NfsData
