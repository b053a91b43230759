import FacetFS.NfsDenyWrite

/-! # What a creating OPEN reports

An OPEN that creates and succeeds should leave a file at its path and a stateid of that file. One
that finds an open state of its owner with the right flags opens nothing: it trusts that the path
still names what it named then. So does the answer to a repeated request. -/
namespace NfsCreateTruth

open EventSystem
open NfsSeqid GroupIndex NfsStore NfsOps NfsRename NfsDisk NfsWorld NfsOutcomes NfsStoreChange
open FileTree
open NfsDenyWrite (Sound Settled openCalls_opened openCalls_tables setSize_spec next_sound)
open Function (update update_of_ne update_self)

def nf4Reg : UInt32 := 1
def nf4Dir : UInt32 := 2
def nf4Blk : UInt32 := 3
def nf4Chr : UInt32 := 4
def nf4Lnk : UInt32 := 5
def nf4Sock : UInt32 := 6
def nf4Fifo : UInt32 := 7

def nfs4ErrBadType : NfsStat := 10007

structure CreateArgs where
  kind : UInt32
  name : Except Failure String
  attrs : Except Failure (Option ℕ)

/-- What CREATE says about the kind of object; the FileSystem has no symbolic links. -/
def kindStatus (kind : UInt32) (size : Option ℕ) : NfsStat :=
  if kind = nf4Reg then nfs4ErrInval
  else if kind = nf4Blk ∨ kind = nf4Chr ∨ kind = nf4Sock ∨ kind = nf4Fifo then nfs4ErrBadType
  else if kind = nf4Lnk then nfs4ErrNotSupp
  else if kind = nf4Dir then if size.isSome then nfs4ErrInval else nfs4OK
  else nfs4ErrBadType

def mkdir (d : Disk) (p : Path) : Disk :=
  if h : p ≠ [] ∧ dirAt (d.tree.node p.dropLast) = true ∧ d.tree.node p = none then
    { d with
      tree := d.tree.insert p (.dir ()) h.1 h.2.1 h.2.2
      named := d.named.insert_dir h.1 h.2.1 h.2.2 }
  else d

/-- CREATE of a directory, which is removed again if its attributes cannot be set. -/
def create (w : World) (fh : Option Path) (a : CreateArgs) (fault : Option Failure)
    (apply : NfsStat) : NfsStat × World :=
  match a.name, a.attrs, fh with
  | .error e, _, _ => (e.1, w)
  | .ok _, .error e, _ => (e.1, w)
  | .ok _, .ok _, none => (nfs4ErrNoFilehandle, w)
  | .ok name, .ok size, some dir =>
    if w.disk.dirStatus dir ≠ nfs4OK then (w.disk.dirStatus dir, w)
    else if kindStatus a.kind size ≠ nfs4OK then (kindStatus a.kind size, w)
    else
      match w.disk.lookup (dir ++ [name]) with
      | .ok _ => (nfs4ErrExist, w)
      | .error e =>
        if e ≠ nfs4ErrNoEnt then (e, w)
        else
          match fault with
          | some e => (e.1, w)
          | none =>
            let d := mkdir w.disk (dir ++ [name])
            if apply ≠ nfs4OK then (apply, w.setDisk (d.removeAll (dir ++ [name])))
            else (nfs4OK, w.setDisk d)

inductive Event where
  | served (e : NfsWorld.Event)
  | create (fh : Option Path) (a : CreateArgs) (fault : Option Failure) (apply : NfsStat)

def next (w : World) : Event → World
  | .served e => NfsWorld.next w e
  | .create fh a fault apply => (create w fh a fault apply).2

def serve (w : World) (e : Event) : Option World := some (next w e)

/-- An OPEN whose undecodable arguments come with an error. -/
structure Call where
  call : OpenCall
  name : ∀ e, call.args.name = .error e → e ≠ nfs4OK
  attrs : ∀ e, call.args.attrs = .error e → e ≠ nfs4OK

/-- The open state `k` has a file on the object at the path. -/
def Current (w : World) (p : Path) (k : ℕ) : Prop :=
  ∃ f, (w.store.openState k).file = some f ∧ w.disk.fileAt p = some (w.disk.object f.handle)

/-- The reply carries the stateid of the open state that the owner has on the path, and its file
is on the object there. -/
def Stands (w : World) (reply : List UInt8) (p : Path) (o : OwnerRef) : Prop :=
  ∃ k seq, w.store.toTables.findOpen p o = some k ∧
    XdrCodec.uint32 nfs4OK ++ encodeStateid w.store seq k <+: reply ∧ Current w p k

section Requests

variable (w : World) (fh : Option Path) (c : OpenCall)

def ownerOf : Except NfsStat OwnerRef :=
  (w.store.ownerOf w.clock c.args.clientID c.args.owner).1

def Truthful : Prop :=
  (w.openFile fh c).1.status = nfs4OK → c.args.openType = openCreate →
    ∀ o, ownerOf w c = .ok o →
      Stands (w.openFile fh c).2 (w.openFile fh c).1.reply (openPath fh c.args) o

end Requests

variable {m : OpenMode} {plan : OpenPlan}

section Errors

variable (w : World)

theorem openTarget_status {fh e} (c : Call)
    (h : openTarget fh c.call.args (w.openEnv fh c.call) = .error e) : e ≠ nfs4OK := by
  rcases openTarget_error h with
    hn | ⟨-, hr⟩ | rfl | ⟨-, hd⟩ | ha | rfl | ⟨k, -, hk⟩ | hl
  · exact c.name e hn
  · exact hr
  · decide
  · exact hd
  · exact c.attrs e ha
  · decide
  · exact hk
  · exact openEnv_lookup w fh c.call e hl

theorem openNow_error {d p fault e} (h : openNow d p m fault = .error e) : e ≠ nfs4OK := by
  cases fault with
  | some f =>
    cases h
    exact f.2
  | none =>
    simp only [openNow, Disk.openAt] at h
    split at h
    · cases h
      decide
    · split at h
      · cases h
        decide
      · cases h
    · split at h
      · cases h
      · cases h
        decide

theorem openCalls_error {c existed e w'} (h : w.openCalls plan c m existed = (.error e, w')) :
    e ≠ nfs4OK := by
  unfold World.openCalls at h
  split at h
  · rename_i e' he
    cases h
    split at he
    · cases ho : openNow w.disk plan.target m c.fault with
      | error f =>
        rw [ho] at he
        cases he
        exact openNow_error ho
      | ok d =>
        rw [ho] at he
        cases he
    · cases he
  simp only [World.applyCalls] at h
  split at h
  · rename_i ha
    cases h
    exact ha.2
  · split at h <;> cases h

end Errors

section Opening

variable {w : World} {fh : Option Path} {o : OwnerRef}

/-- What a successful OPEN did. -/
structure Opened (w : World) (fh : Option Path) (o : OwnerRef) (c : OpenCall) (plan : OpenPlan)
    (f : Option OpenFile) (w' : World) (g : Granted) (st : Store) : Prop where
  target : openTarget fh c.args (w.openEnv fh c) = .ok plan.target
  checked : openCheck w.store.toTables o plan.target c.args = .ok plan
  calls : ((w.consult fh c).setStore (openRecall w.store w.clock plan c.args).2).openCalls
    plan c (w.openMode fh c) (w.disk.lstat (openPath fh c.args)).isSome = (.ok f, w')
  installed : openInstall w'.store w'.clock plan f = (.ok g, st)
  result : w.openWith fh o c = (openReply st plan (w.openEnv fh c) g, w'.setStore st)

theorem openWith_ok (c : Call) (h : (w.openWith fh o c.call).1.status = nfs4OK) :
    ∃ plan f w' g st, Opened w fh o c.call plan f w' g st := by
  cases ht : openTarget fh c.call.args (w.openEnv fh c.call) with
  | error e =>
    simp only [World.openWith, ht] at h
    exact absurd h (openTarget_status w c ht)
  | ok target =>
    cases hc : openCheck w.store.toTables o target c.call.args with
    | error e =>
      simp only [World.openWith, ht, consult_store, hc] at h
      rw [openCheck_error hc] at h
      exact absurd h (by decide)
    | ok plan =>
      obtain rfl : plan.target = target := (openCheck_ok hc).2.1
      by_cases hr : (openRecall w.store w.clock plan c.call.args).1 = nfs4OK
      · rcases hcalls : ((w.consult fh c.call).setStore
            (openRecall w.store w.clock plan c.call.args).2).openCalls plan c.call
            (w.openMode fh c.call) (w.disk.lstat (openPath fh c.call.args)).isSome with
          ⟨e | f, w'⟩
        · simp only [World.openWith, ht, consult_store, consult_clock, hc, hr, ne_eq,
            not_true_eq_false, if_false, hcalls] at h
          exact absurd h (openCalls_error _ hcalls)
        rcases hi : openInstall w'.store w'.clock plan f with ⟨e | g, st⟩
        · simp only [World.openWith, ht, consult_store, consult_clock, hc, hr, ne_eq,
            not_true_eq_false, if_false, hcalls, hi] at h
          rcases openInstall_error (congrArg Prod.fst hi) with rfl | ⟨rfl, -⟩
          · exact absurd h (by decide)
          · exact absurd h (by decide)
        · refine ⟨plan, f, w', g, st, ht, hc, hcalls, hi, ?_⟩
          simp only [World.openWith, ht, consult_store, consult_clock, hc, hr, ne_eq,
            not_true_eq_false, if_false, hcalls, hi]
      · simp only [World.openWith, ht, consult_store, consult_clock, hc, ne_eq, hr,
          not_false_eq_true, if_true] at h
        exact absurd h hr

variable {f : Option OpenFile}

end Opening

section Truth

variable {w w' : World} {fh : Option Path} {o : OwnerRef}

end Truth

section Runs

variable {w : World}

end Runs

/-- An OPEN that creates `f` in the root for reading and writing, by the client number 1. -/
def createCall (owner : UInt8) (seqid : UInt32) : Call where
  call := {
    args := ⟨seqid, 3, 0, 1, [owner], 1, 0, 0, .ok "f", true, .ok none⟩
    verf := 0
    order := []
    fault := none
    apply := nfs4OK
    sized := false
    before := 0
    after := 0
    applied := [] }
  name := nofun
  attrs := nofun

def registered : List Event :=
  [.served (.request (.setClientID 0 [1] 7 9 "none")),
    .served (.request (.setClientIDConfirm 0 1 9))]

/-- The file of an owner is removed while it is open, and perhaps made anew by another owner. -/
def removed : List Event :=
  registered ++ [.served (.openFile (some []) (createCall 10 1).call),
    .served (.request (.openConfirm 0 (some ["f"]) 1 ⟨5, 1⟩ 2)),
    .served (.remove (some []) (.ok "f") none)]

def replaced : List Event :=
  removed ++ [.served (.openFile (some []) (createCall 11 1).call)]

end NfsCreateTruth
