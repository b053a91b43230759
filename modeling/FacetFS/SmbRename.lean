import FacetFS.SmbDisk

/-! # Renames and the handles of a file

SET_INFO renames by path and moves the table entry of that one path. An open handle follows the file
when its path moves along, it is listed there, and its byte locks are kept there. A rename keeps
every handle attached exactly when no open handle is below the renamed path and, for a rename of a
path to itself, no open handle holds a byte lock on it. -/
namespace SmbRename

open SmbState SmbTables SmbSections SmbWire SmbServer SmbHandlers GroupIndex EventSystem

/-- Where a rename takes a path: the renamed name and everything below it move. -/
def moved (oldName newName p : Path) : Path :=
  if oldName <+: p then newName ++ p.drop oldName.length else p

def heldBy (h : HandleRef) (locks : List ByteLock) : List ByteLock :=
  locks.filter fun l => l.handle = h

structure Follows (st st' : State) (oldName newName : Path) (h : HandleRef) : Prop where
  path : (st'.handle h).path = moved oldName newName (st.handle h).path
  listed : ∀ p, h ∈ members st'.opens p ↔ p = (st'.handle h).path
  locks : ∀ p, heldBy h (members st'.locks p) =
    if p = (st'.handle h).path then heldBy h (members st.locks (st.handle h).path) else []

def Attached (st st' : State) (oldName newName : Path) : Prop :=
  ∀ h, Open st h → Follows st st' oldName newName h

def Movable (st : State) (oldName newName : Path) : Prop :=
  if newName = oldName then ∀ l ∈ members st.locks oldName, ¬ Open st l.handle
  else ∀ h, Open st h → oldName <+: (st.handle h).path → (st.handle h).path = oldName

section Tables

variable {st : State} {oldName newName : Path} {h : HandleRef}

theorem moved_self (p : Path) : moved oldName oldName p = p := by
  rw [moved]
  split
  · rename_i hp
    obtain ⟨rest, rfl⟩ := hp
    rw [List.drop_left]
  · rfl

theorem moved_eq (newName : Path) : moved oldName newName oldName = newName := by
  simp [moved]

theorem heldBy_eq_nil {locks} (hl : ∀ l ∈ locks, l.handle ≠ h) : heldBy h locks = [] := by
  rw [heldBy, List.filter_eq_nil_iff]
  intro l hm
  simpa using hl l hm

theorem heldBy_elsewhere (hp : Placed st) (ho : h ∈ members st.opens (st.handle h).path) {p}
    (hne : p ≠ (st.handle h).path) : heldBy h (members st.locks p) = [] := by
  apply heldBy_eq_nil
  rintro l hl rfl
  exact hne (hp.lockKey p _ l hl ho).symm

theorem renameOpens_path (hp : Placed st) (ho : h ∈ members st.opens (st.handle h).path) :
    ((renameOpens st oldName newName).handle h).path =
      if (st.handle h).path = oldName then newName else (st.handle h).path := by
  rw [renameOpens_handle]
  by_cases he : (st.handle h).path = oldName
  · rw [he] at ho
    rw [if_pos ho, if_pos he]
  rw [if_neg, if_neg he]
  intro hm
  exact he (hp.key oldName h hm)

theorem renameOpens_listed (hp : Placed st) (ho : h ∈ members st.opens (st.handle h).path)
    (p : Path) : h ∈ members (renameOpens st oldName newName).opens p ↔
      p = ((renameOpens st oldName newName).handle h).path := by
  rw [mem_renameOpens, renameOpens_path hp ho]
  have hmem : ∀ q, h ∈ members st.opens q ↔ q = (st.handle h).path := by
    intro q
    constructor
    · intro hm
      exact (hp.key q h hm).symm
    · rintro rfl
      exact ho
  rw [hmem, hmem]
  by_cases he : (st.handle h).path = oldName
  · rw [if_pos he]
    constructor
    · rintro (⟨rfl, -⟩ | ⟨hne, rfl⟩)
      · rfl
      · exact absurd he hne
    · rintro rfl
      exact .inl ⟨rfl, he.symm⟩
  rw [if_neg he]
  constructor
  · rintro (⟨-, h'⟩ | ⟨-, rfl⟩)
    · exact absurd h'.symm he
    · rfl
  · rintro rfl
    exact .inr ⟨he, rfl⟩

theorem heldBy_append (h : HandleRef) (l m : List ByteLock) :
    heldBy h (l ++ m) = heldBy h l ++ heldBy h m :=
  List.filter_append l m

theorem follows_renameOpens (hp : Placed st) (ho : h ∈ members st.opens (st.handle h).path)
    (hne : newName ≠ oldName) (hb : oldName <+: (st.handle h).path → (st.handle h).path = oldName) :
    Follows st (renameOpens st oldName newName) oldName newName h where
  path := by
    rw [renameOpens_path hp ho]
    by_cases he : (st.handle h).path = oldName
    · rw [if_pos he, he, moved_eq]
    rw [if_neg he, moved, if_neg]
    intro hpre
    exact he (hb hpre)
  listed := renameOpens_listed hp ho
  locks p := by
    have away : ∀ {q}, q ≠ (st.handle h).path → heldBy h (members st.locks q) = [] :=
      heldBy_elsewhere hp ho
    rw [members_locks_renameOpens, renameOpens_path hp ho]
    by_cases he : (st.handle h).path = oldName
    · rw [he] at away ⊢
      rw [if_pos rfl]
      by_cases hpo : p = oldName
      · rw [if_pos hpo, hpo, if_neg (Ne.symm hne)]
        rfl
      rw [if_neg hpo]
      by_cases hpn : p = newName
      · rw [if_pos hpn, if_pos hpn, heldBy_append, away hne, List.nil_append]
      · rw [if_neg hpn, if_neg hpn, away hpo]
    rw [if_neg he]
    have hold : heldBy h (members st.locks oldName) = [] := away (Ne.symm he)
    by_cases hpp : p = (st.handle h).path
    · rw [if_pos hpp, hpp, if_neg he]
      by_cases hpn : (st.handle h).path = newName
      · rw [if_pos hpn, heldBy_append, hold, List.append_nil, hpn]
      · rw [if_neg hpn]
    rw [if_neg hpp]
    by_cases hpo : p = oldName
    · rw [if_pos hpo]
      rfl
    rw [if_neg hpo]
    by_cases hpn : p = newName
    · rw [if_pos hpn, heldBy_append, hold, List.append_nil, ← hpn, away hpp]
    · rw [if_neg hpn, away hpp]

theorem follows_renameOpens_self (hp : Placed st) (ho : h ∈ members st.opens (st.handle h).path)
    (hl : ∀ l ∈ members st.locks oldName, l.handle ≠ h) :
    Follows st (renameOpens st oldName oldName) oldName oldName h := by
  have hpath : ((renameOpens st oldName oldName).handle h).path = (st.handle h).path := by
    rw [renameOpens_path hp ho]
    split
    · rename_i he
      exact he.symm
    · rfl
  refine ⟨?_, renameOpens_listed hp ho, ?_⟩
  · rw [hpath, moved_self]
  intro p
  rw [members_locks_renameOpens, hpath]
  by_cases hpp : p = (st.handle h).path
  · rw [if_pos hpp, ← hpp]
    by_cases hpo : p = oldName
    · rw [if_pos hpo, hpo, heldBy_eq_nil hl]
      rfl
    · rw [if_neg hpo, if_neg hpo]
  rw [if_neg hpp]
  by_cases hpo : p = oldName
  · rw [if_pos hpo]
    rfl
  · rw [if_neg hpo, if_neg hpo, heldBy_elsewhere hp ho hpp]

theorem Follows.path_eq (hp : Placed st) (ho : h ∈ members st.opens (st.handle h).path)
    (hf : Follows st (renameOpens st oldName newName) oldName newName h) (hne : newName ≠ oldName)
    (hpre : oldName <+: (st.handle h).path) : (st.handle h).path = oldName := by
  by_contra he
  have hpath := hf.path
  rw [renameOpens_path hp ho, if_neg he, moved, if_pos hpre] at hpath
  obtain ⟨rest, hrest⟩ := hpre
  rw [← hrest, List.drop_left] at hpath
  exact hne (List.append_cancel_right hpath).symm

theorem Follows.no_lock (hp : Placed st) (ho : h ∈ members st.opens (st.handle h).path)
    (hf : Follows st (renameOpens st oldName oldName) oldName oldName h) {l}
    (hl : l ∈ members st.locks oldName) : l.handle ≠ h := by
  rintro rfl
  have hpath : (st.handle l.handle).path = oldName := hp.lockKey oldName _ l hl ho
  have hlocks := hf.locks oldName
  rw [members_locks_renameOpens, if_pos rfl, renameOpens_path hp ho, if_pos hpath, if_pos rfl,
    hpath] at hlocks
  have hmem : l ∈ heldBy l.handle (members st.locks oldName) := by
    rw [heldBy, List.mem_filter]
    exact ⟨hl, by simp⟩
  rw [← hlocks] at hmem
  cases hmem

theorem attached_iff (hp : Placed st) (oldName newName : Path) :
    Attached st (renameOpens st oldName newName) oldName newName ↔ Movable st oldName newName := by
  rw [Movable]
  split
  · rename_i he
    subst he
    constructor
    · intro ha l hl hopen
      exact Follows.no_lock hp ((hp.open_iff _).1 hopen) (ha _ hopen) hl rfl
    · intro hm h hopen
      apply follows_renameOpens_self hp ((hp.open_iff h).1 hopen)
      rintro l hl rfl
      exact hm l hl hopen
  rename_i hne
  constructor
  · intro ha h hopen
    exact Follows.path_eq hp ((hp.open_iff h).1 hopen) (ha h hopen) hne
  · intro hm h hopen
    exact follows_renameOpens hp ((hp.open_iff h).1 hopen) hne (hm h hopen)

end Tables

section Requests

variable {φ : Type}

/-- The message is a SET_INFO with a rename class from one name to another. -/
def RenameRequest (srv : Server φ) (w : World φ) (c : ConnRef) (m : Message)
    (oldName newName : Path) : Prop :=
  (m.body.getD 3 0 = 10 ∨ m.body.getD 3 0 = 65) ∧
    ∃ data h, infoBuffer srv m = some data ∧ Addresses w c m 16 h ∧
      (w.tables.handle h).path = oldName ∧ renameTarget srv data = .ok newName

theorem setInfo_rename {srv : Server φ} {w w' : World φ} {c : ConnRef} {m : Message}
    {oldName newName : Path} {reply : Reply} (hr : RenameRequest srv w c m oldName newName)
    (h : setInfo srv c m w = .ok reply w') : w'.tables = renameOpens w.tables oldName newName := by
  obtain ⟨hcls, data, k, hd, hk, rfl, ht⟩ := hr
  obtain ⟨data', k', hd', hk', hc⟩ := setInfo_eq_ok h
  obtain rfl := Option.some.inj (hd.symm.trans hd')
  obtain rfl := hk.unique hk'
  have hne : m.body.getD 3 0 ≠ 4 := by
    rcases hcls with hc | hc <;> rw [hc] <;> decide
  rw [setClass, if_neg hne, if_pos hcls] at hc
  obtain ⟨newName', ht', hw⟩ := setRename_tables hc
  obtain rfl := Except.ok.inj (ht.symm.trans ht')
  exact hw

/-- In every state the sections of the server reach, a SET_INFO rename that succeeds keeps every
open handle attached to its file exactly when the rename is movable. -/
theorem rename_attached_iff (srv : Server φ) (c : ConnRef) (m : Message) (es : List Section)
    (w w' : World φ) (reply : Reply) (oldName newName : Path)
    (hes : run enter newServerState es = some w.tables)
    (hr : RenameRequest srv w c m oldName newName) (h : setInfo srv c m w = .ok reply w') :
    Attached w.tables w'.tables oldName newName ↔ Movable w.tables oldName newName := by
  rw [setInfo_rename hr h]
  exact attached_iff (run_placed hes) oldName newName

end Requests

section Runs

open SmbDisk EffectTriple

def dir : Name := ['d']
def file : Name := ['f']
def target : Name := ['e']

def fileOpen : List Section := loggedOn ++ opening 0 0 [file] accessDelete

/-- Handles on the directory `d` and on the file `d/f`. -/
def directoryOpen : List Section :=
  loggedOn ++ opening 0 0 [dir] accessDelete ++ opening 1 1 [dir, file] accessReadData

def fileLocked : List Section := fileOpen ++ [.lock 0 [⟨0, 10, flagExclusive⟩]]

def names : Disk := Disk.create [dir, file] (Disk.create [file] (Disk.create [dir] Disk.empty))

def start (es : List Section) : World Disk := world (reached es) names

/-- A rename of the file of the first handle, with replacement. -/
def renameMessage (name : Name) : Message :=
  message cmdSetInfo 7 1 (setInfoBody 10 ⟨6, 6⟩ (renameData 1 name))

theorem renameRequest_of {es oldName name} (hs : session (reached es) 7 0 = some 0)
    (ha : ((reached es).session 0).authenticated = true)
    (ht : (1 : UInt32) ∈ ((reached es).session 0).trees)
    (hh : handle (reached es) 0 1 ⟨6, 6⟩ = some 0) (ho : ((reached es).handle 0).path = oldName)
    (hn : (infoBuffer server (renameMessage name)).map (renameTarget server) = some (.ok [name]))
    (hid : requestFileID (renameMessage name) 16 = some ⟨6, 6⟩) :
    RenameRequest server (start es) 0 (renameMessage name) oldName [name] := by
  obtain ⟨data, hd, hdn⟩ := Option.map_eq_some_iff.1 hn
  exact ⟨.inl rfl, data, 0, hd, ⟨0, ⟨6, 6⟩, ⟨hs, ha⟩, ht, hid, hh⟩, ho, hdn⟩

theorem fileOpen_request : RenameRequest server (start fileOpen) 0 (renameMessage target) [file]
    [target] := by
  apply renameRequest_of <;> decide +kernel

theorem directoryOpen_request : RenameRequest server (start directoryOpen) 0 (renameMessage target)
    [dir] [target] := by
  apply renameRequest_of <;> decide +kernel

theorem fileLocked_request : RenameRequest server (start fileLocked) 0 (renameMessage file) [file]
    [file] := by
  apply renameRequest_of <;> decide +kernel

/-- A file that no other handle is below and that is renamed to a new name takes its handle along. -/
theorem rename_attached_iff_oneFile :
    run enter newServerState fileOpen = some (start fileOpen).tables ∧
    RenameRequest server (start fileOpen) 0 (renameMessage target) [file] [target] ∧
    ∃ reply w', setInfo server 0 (renameMessage target) (start fileOpen) = .ok reply w' ∧
      Attached (start fileOpen).tables w'.tables [file] [target] := by
  have hrun : run enter newServerState fileOpen = some (start fileOpen).tables := rfl
  obtain ⟨reply, w', h⟩ := exists_of_succeeds
    (r := setInfo server 0 (renameMessage target) (start fileOpen)) (by decide +kernel)
  refine ⟨hrun, fileOpen_request, reply, w', h, ?_⟩
  apply (rename_attached_iff server 0 _ fileOpen _ _ reply _ _ hrun fileOpen_request h).2
  rw [Movable, if_neg (by decide)]
  intro k hk hpre
  have hlt : k < 1 := (run_placed hrun).known _ k (((run_placed hrun).open_iff k).1 hk)
  obtain rfl := Nat.lt_one_iff.1 hlt
  decide +kernel

/-- Renaming the directory leaves the handle of the file in it behind, and renaming the file to its
own name loses its lock. -/
theorem rename_detaches_handle :
    (run enter newServerState directoryOpen = some (start directoryOpen).tables ∧
      RenameRequest server (start directoryOpen) 0 (renameMessage target) [dir] [target] ∧
      ∃ reply w', setInfo server 0 (renameMessage target) (start directoryOpen) = .ok reply w' ∧
        ¬ Attached (start directoryOpen).tables w'.tables [dir] [target]) ∧
    run enter newServerState fileLocked = some (start fileLocked).tables ∧
      RenameRequest server (start fileLocked) 0 (renameMessage file) [file] [file] ∧
      ∃ reply w', setInfo server 0 (renameMessage file) (start fileLocked) = .ok reply w' ∧
        ¬ Attached (start fileLocked).tables w'.tables [file] [file] := by
  constructor
  · have hrun : run enter newServerState directoryOpen = some (start directoryOpen).tables := rfl
    obtain ⟨reply, w', h⟩ := exists_of_succeeds
      (r := setInfo server 0 (renameMessage target) (start directoryOpen)) (by decide +kernel)
    refine ⟨hrun, directoryOpen_request, reply, w', h, ?_⟩
    rw [setInfo_rename directoryOpen_request h, attached_iff (run_placed hrun), Movable,
      if_neg (by decide)]
    intro hm
    have hopen : Open (start directoryOpen).tables 1 := .inl (by decide +kernel)
    exact absurd (hm 1 hopen (by decide +kernel)) (by decide +kernel)
  have hrun : run enter newServerState fileLocked = some (start fileLocked).tables := rfl
  obtain ⟨reply, w', h⟩ := exists_of_succeeds
    (r := setInfo server 0 (renameMessage file) (start fileLocked)) (by decide +kernel)
  refine ⟨hrun, fileLocked_request, reply, w', h, ?_⟩
  rw [setInfo_rename fileLocked_request h, attached_iff (run_placed hrun), Movable, if_pos rfl]
  intro hm
  have hopen : Open (start fileLocked).tables 0 := .inl (by decide +kernel)
  exact hm ⟨0, 0, 10, true⟩ (by decide +kernel) hopen

end Runs

end SmbRename
