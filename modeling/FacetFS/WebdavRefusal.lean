import FacetFS.WebdavLocking

/-! # Refused requests

A request that is answered 412 or 423 leaves the resources and the live locks as they were. The
checks of every method come before its first change; only a LOCK that created a placeholder has
something to take back. -/
namespace WebdavRefusal

open ByteText FileTree WebdavHandler WebdavCopyMove WebdavMethods WebdavProtection WebdavLockTable
open WebdavLocking (granting)

/-- The errors that are answered with 423. -/
def Lockish (e : FsError) : Prop := e = .locked ∨ e = .tooManyLocks

def Refused (status : Option ℕ) : Prop := status = some 412 ∨ status = some 423

/-- The file system and the body do not fail with the errors of the lock system, and what is to be
removed is removed. -/
structure Sincere (env : Surroundings) (req : MethodRequest) : Prop where
  fault : ∀ c e, env.fault c = some e → ¬ Lockish e
  body : ∀ e, req.bodyError = some e → ¬ Lockish e
  removes : ∀ p, env.fault (.removeAll p) = none

variable {env : Surroundings} {req : MethodRequest} {t t' : FsTree} {p q : Path} {e : FsError}

theorem refused_writeError : Refused (writeError e) ↔ Lockish e := by
  unfold Refused Lockish
  cases e <;> decide

theorem refused_some {n : ℕ} : Refused (some n) ↔ n = 412 ∨ n = 423 := by
  simp [Refused]

section Errors

theorem create_error {n} (h : create t p n = (.error e, t')) : ¬ Lockish e := by
  grind [create, Lockish]

theorem setData_error {data} (h : setData t p data = (.error e, t')) : ¬ Lockish e := by
  grind [setData, Lockish]

variable (hf : ∀ c e, env.fault c = some e → ¬ Lockish e)
include hf

theorem openWrite_error {perm} (h : openWrite env.toEnv t p perm = (.error e, t')) :
    ¬ Lockish e := by
  grind [openWrite, create_error, setData_error]

theorem mkdir_error {perm} (h : mkdir env.toEnv t p perm = (.error e, t')) : ¬ Lockish e := by
  grind [mkdir, create_error]

theorem removeAll_error (h : removeAll env.toEnv t p = (.error e, t')) : ¬ Lockish e := by
  grind [removeAll, Lockish]

theorem moved_error (h : rename env.toEnv t p q = (.error e, t')) : ¬ Lockish e := by
  grind [rename, Lockish]

theorem createEmpty_error (h : createEmpty env t p = (.error e, t')) : ¬ Lockish e := by
  grind [createEmpty, create_error]

theorem putChunks_error (chunks : List Text) {i t}
    (h : putChunks env p i chunks t = (.error e, t')) : ¬ Lockish e := by
  induction chunks generalizing i t with
  | nil => cases h
  | cons chunk rest ih => grind [putChunks, writeChunk, setData_error]

theorem copyChunks_error (chunks : List Text) {i t}
    (h : copyChunks env.toEnv q p i chunks t = (.error e, t')) : ¬ Lockish e := by
  induction chunks generalizing i t with
  | nil => grind [copyChunks]
  | cons chunk rest ih => grind [copyChunks, writeChunk, setData_error]

theorem copyFile_error {perm} (h : copyFile env.toEnv t q p perm = (.error e, t')) :
    ¬ Lockish e := by
  unfold copyFile openRead at h
  repeat' split at h
  all_goals grind [Lockish, openWrite_error hf, copyChunks_error hf]

theorem copyEntries_error (entries : List WalkEntry) {t}
    (h : copyEntries env.toEnv q p entries t = (.error e, t')) : ¬ Lockish e := by
  induction entries generalizing t with
  | nil => cases h
  | cons entry rest ih => grind [copyEntries, copyEntry, mkdir_error hf, copyFile_error hf]

end Errors

section Methods

variable {srv : Server} {st st' : State} {segs : Path} {status : Option ℕ}
  {locks locks' locks'' : MemLS}

/-- The same locks are live at every time after the request. -/
def Alike (env : Surroundings) (locks locks' : MemLS) : Prop :=
  ∀ root now, env.now ≤ now → env.later ≤ now → (live locks' root now).1 = (live locks root now).1

theorem Alike.refl : Alike env locks locks := fun _ _ _ _ => rfl

theorem Alike.trans (h : Alike env locks locks') (h' : Alike env locks' locks'') :
    Alike env locks locks'' :=
  fun root now hn hl => (h' root now hn hl).trans (h root now hn hl)

theorem Alike.of_shrinks {now} (h : Shrinks now locks locks')
    (hn : now = env.now ∨ now = env.later) : Alike env locks locks' := by
  intro root now _ _
  have := h root
  grind [live]

theorem checkIf_alike {hd now resource etag governed o}
    (hc : checkIf hd env.toEnv req.toRequest now resource etag governed locks = (o, locks'))
    (hn : now = env.now ∨ now = env.later) : Alike env locks locks' := by
  have hl := checkIf_shrinks hd env.toEnv req.toRequest now resource etag governed locks
  rw [hc] at hl
  exact .of_shrinks hl hn

theorem acquire_alike (h : acquire env req segs locks = (.error e, locks')) :
    Alike env locks locks' := by
  have hc := createLock_cases env.later (fsPath segs) (parseTimeout req.timeout) env.random locks
  grind [acquire, Alike.of_shrinks, Alike.refl]

theorem refresh_alike {root token d} (h : refresh env.now root token d locks = (none, locks')) :
    Alike env locks locks' := by
  have hm := matching_cases env.now root token locks
  grind [refresh, Alike.of_shrinks]

theorem lockStat_alike {a} (h : lockStat srv env req st segs = (a, st')) :
    Alike env st.locks st'.locks ∧ st'.tree = st.tree ∧
      (a = .unmapped → st.tree.node segs = none) := by
  have hn : statInfo env st.tree segs = .ok none → st.tree.node segs = none := fun h => by
    simpa using (statInfo_ok env h).symm
  unfold lockStat at h
  repeat' split at h
  all_goals grind [Alike.refl, checkIf_alike]

theorem discard_restores (hr : ∀ p, env.fault (.removeAll p) = none) (hn : t.node p = none)
    (hc : createEmpty env t p = (.ok (), t')) : (discardEmpty env t' p).node = t.node := by
  have hp : p ≠ [] := by
    rintro rfl
    exact absurd t.root (by simp [hn, dirAt])
  funext q
  have hd : (discardEmpty env t' p).node q = if p <+: q then none else t'.node q := by
    simp only [discardEmpty, removeAll, hr, dif_pos hp]
    rfl
  have := createEmpty_other env p t (r := q)
  by_cases hq : p <+: q
  · obtain ⟨rel, rfl⟩ := hq
    rw [hd, if_pos (List.prefix_append _ _), t.node_append_of_none hn rel]
  · grind

variable (hs : Sincere env req)
include hs

theorem storeBody_error {srv e} (h : storeBody srv env req p t = (.error e, t')) :
    ¬ Refused e.status := by
  have hf := hs.fault
  have hb := hs.body
  have hr := fun e => (refused_writeError (e := e)).1
  grind [storeBody, putChunks_error hf, PutError.status, refused_some, statusRequestEntityTooLarge]

theorem lock_refused (h : lock srv env req st segs = (status, st')) (hr : Refused status) :
    st'.tree.node = st.tree.node ∧ Alike env st.locks st'.locks := by
  have hf := hs.fault
  have hd := fun t' => @discard_restores env st.tree t' segs hs.removes
  unfold lock refreshLock lockNew lockMapped lockCreated at h
  repeat' split at h
  all_goals grind [refused_some, refused_writeError, Alike.refl, → Alike.trans, → refresh_alike,
    → acquire_alike, → lockStat_alike, createEmpty_error hf, hs.removes, statusOK, statusCreated]

/-- Every branch of a method ends before the first change, or with an error of the file system. -/
theorem handle_refused {method} (h : handle srv env req method st segs = (status, st'))
    (hr : Refused status) : st'.tree.node = st.tree.node ∧ Alike env st.locks st'.locks := by
  have hf := hs.fault
  cases method <;> simp only [handle, put, mkcol, mkcolStatus, remove, copy, move, removeExisting,
    proppatch, unlock] at h
  all_goals repeat' split at h
  all_goals grind [refused_some, refused_writeError, Alike.refl, → Alike.trans, → checkIf_alike,
    openWrite_error hf, storeBody_error, mkdir_error hf, removeAll_error hf, copyEntries_error hf,
    moved_error hf, lock_refused, doneStatus, statusNoContent, statusCreated, statusConflict,
    statusMultiStatus, statusUnsupportedMediaType, statusMethodNotAllowed]

end Methods

/-- A refusal changes nothing. -/
theorem refusals_change_nothing (srv : Server) (env : Surroundings) (req : MethodRequest)
    (method : Method) (st : State) (hs : Sincere env req)
    (hr : Refused (serveHTTP srv env req method st).1) :
    (serveHTTP srv env req method st).2.tree.node = st.tree.node ∧
      Alike env st.locks (serveHTTP srv env req method st).2.locks := by
  unfold serveHTTP at hr ⊢
  split
  · exact ⟨rfl, .refl⟩
  · rename_i hsegs
    rw [hsegs] at hr
    exact handle_refused hs rfl hr

/-- The lock of `/a` outlived the resource. -/
def strayLock : State := ⟨Tree.empty 0o755, AList.singleton [47, 97] ⟨[], 1⟩⟩

def lockRequest : MethodRequest := { requestFor [47, 97] [] with body := [120] }

/-- The LOCK creates a placeholder and takes it back. -/
theorem refusal_restores_strayLock :
    (serveHTTP plainServer granting lockRequest .lock strayLock).2.tree.node =
      strayLock.tree.node :=
  (refusals_change_nothing _ _ _ _ _ ⟨by simp [granting, pathsOnly],
    by simp [lockRequest, requestFor], fun _ => rfl⟩ (.inr (by decide +kernel))).1

end WebdavRefusal
