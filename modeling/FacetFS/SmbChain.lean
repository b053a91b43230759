import FacetFS.SmbAccess
import FacetFS.SmbGate

/-! # Related messages of a chain

A related message belongs to the group of the message before it. It takes over the ids of the group,
and it is not carried out once the group has failed. -/
namespace SmbChain

open SmbState SmbPath SmbWire SmbResponse SmbServer SmbFrame SmbDisk LittleEndian

variable {φ : Type}

section Turns

/-- A message of a frame as it stands on the wire, with the variables of the walk and the world it
met. -/
structure Turn (φ : Type) where
  env : Env
  wire : Message
  walk : Walk φ
  world : World φ

variable (srv : Server φ) (c : ConnRef) (t : Turn φ)

def Turn.msg : Message := inherit t.walk t.wire
def Turn.group : Walk φ := regroup t.walk t.wire
def Turn.ruling : Ruling := SmbFrame.ruling srv.lib t.world c t.group t.msg
def Turn.ruled : Reply × Walk φ × World φ := rule srv c t.env t.msg t.group t.world
def Turn.handled : Walk φ × World φ := handleMessage srv c t.env t.msg t.group t.world
def Turn.step : Step φ :=
  ⟨t.msg, (t.ruling srv c).dispatches, t.world, t.world, (t.ruled srv c).2.2⟩

/-- The messages of a frame in the order in which the walk takes them. -/
def turns (envs : ℕ → Env) (frame : Bytes) : ℕ → ℕ → Walk φ → World φ → List (Turn φ)
  | 0, _, _, _ => []
  | fuel + 1, count, wk, w =>
    match readMessage frame wk.offset with
    | none => []
    | some m =>
      match admitMessage w c m with
      | (false, _) => []
      | (true, w) =>
        if related m ∧ count = 0 then []
        else
          let t : Turn φ := ⟨envs count, m, wk, w⟩
          let (wk', w') := t.handled srv c
          t :: if m.hdr.nextCommand = 0 then []
            else turns envs frame fuel (count + 1) { wk' with offset := wk.offset + m.raw.length } w'

def messages (envs : ℕ → Env) (frame : Bytes) (w : World φ) : List (Turn φ) :=
  turns srv c envs frame maxChainedMessages 0 .start w

variable {srv c t} (srv c)

theorem rule_walk (env : Env) (m : Message) (wk : Walk φ) (w : World φ) :
    ∃ failed sig close, (rule srv c env m wk w).2.1 =
      { wk with relatedFailed := failed, sigFailed := sig, closeAfter := close } := by
  unfold rule
  split
  · exact ⟨_, _, _, rfl⟩
  · exact ⟨_, _, _, rfl⟩
  · exact ⟨_, _, _, rfl⟩
  · exact ⟨_, _, _, rfl⟩
  · simp only
    split
    · exact ⟨_, _, _, rfl⟩
    · exact ⟨_, _, _, rfl⟩

/-- The variables of the walk after a message. -/
structure Leaves (srv : Server φ) (c : ConnRef) (t : Turn φ) (wk : Walk φ) : Prop where
  sessionID : wk.sessionID = t.msg.hdr.sessionID
  treeID : wk.treeID = t.msg.hdr.treeID
  relatedFileID : wk.relatedFileID =
    (t.ruled srv c).1.resultFileID.orElse fun _ => t.group.relatedFileID
  relatedFailed : wk.relatedFailed = (t.ruled srv c).2.1.relatedFailed
  sigFailed : wk.sigFailed = (t.ruled srv c).2.1.sigFailed
  steps : wk.steps = t.walk.steps ++ [t.step srv c]

theorem handled_leaves (t : Turn φ) : Leaves srv c t (t.handled srv c).1 := by
  have hgroup : t.group.sessionID = t.msg.hdr.sessionID ∧ t.group.treeID = t.msg.hdr.treeID ∧
      t.group.steps = t.walk.steps := by
    unfold Turn.group Turn.msg regroup inherit
    split
    · exact ⟨rfl, rfl, rfl⟩
    · exact ⟨rfl, rfl, rfl⟩
  obtain ⟨hs, ht, hsteps⟩ := hgroup
  obtain ⟨f, g, b, hr⟩ := rule_walk srv c t.env t.msg t.group t.world
  have hsame : ∀ wk : Walk φ, wk.sessionID = t.group.sessionID → wk.treeID = t.group.treeID →
      wk.relatedFileID = ((t.ruled srv c).1.resultFileID.orElse fun _ => t.group.relatedFileID) →
      wk.relatedFailed = f → wk.sigFailed = g → wk.steps = t.group.steps ++ [t.step srv c] →
      Leaves srv c t wk := by
    intro wk h₁ h₂ h₃ h₄ h₅ h₆
    refine ⟨h₁.trans hs, h₂.trans ht, h₃, ?_, ?_, h₆.trans (by rw [hsteps])⟩
    · rw [h₄, Turn.ruled, hr]
    · rw [h₅, Turn.ruled, hr]
  simp only [Turn.handled, handleMessage, conclude, hr]
  split
  · exact hsame _ rfl rfl rfl rfl rfl rfl
  · exact hsame _ rfl rfl rfl rfl rfl rfl

variable (envs : ℕ → Env) (frame : Bytes)

theorem finish_steps (wk : Walk φ) (w : World φ) : (finish srv c wk w).steps = wk.steps := by
  unfold finish
  split
  · rfl
  · split
    · rfl
    · rfl

theorem walk_steps (fuel count : ℕ) (wk : Walk φ) (w : World φ) :
    (walk srv c envs frame fuel count wk w).steps =
      wk.steps ++ (turns srv c envs frame fuel count wk w).map (Turn.step srv c) := by
  induction fuel generalizing count wk w with
  | zero => simp [walk, turns, drop]
  | succ fuel ih =>
    cases hm : readMessage frame wk.offset with
    | none => simp [walk, turns, hm, drop]
    | some m =>
      rcases ha : admitMessage w c m with ⟨_ | _, w'⟩
      · simp [walk, turns, hm, ha, drop]
      by_cases hfirst : related m = true ∧ count = 0
      · simp [walk, turns, hm, ha, hfirst, drop]
      have hs := (handled_leaves srv c ⟨envs count, m, wk, w'⟩).steps
      simp only [Turn.handled, Turn.msg, Turn.group] at hs
      simp only [walk, turns, hm, ha, hfirst, if_false, Turn.handled, Turn.msg, Turn.group]
      split
      · rw [finish_steps, hs]
        rfl
      · rw [ih, hs]
        simp

def Follows (srv : Server φ) (c : ConnRef) (t u : Turn φ) : Prop :=
  ∃ offset, u.walk = { (t.handled srv c).1 with offset := offset }

variable {srv c}

theorem Follows.leaves {u} (h : Follows srv c t u) : Leaves srv c t u.walk := by
  obtain ⟨offset, hu⟩ := h
  rw [hu]
  exact { handled_leaves srv c t with }

variable (srv c)

theorem turns_chain (fuel count : ℕ) (wk : Walk φ) (w : World φ) :
    (∀ t ∈ (turns srv c envs frame fuel count wk w).head?, t.walk = wk) ∧
      (turns srv c envs frame fuel count wk w).IsChain (Follows srv c) := by
  induction fuel generalizing count wk w with
  | zero => simp [turns]
  | succ fuel ih =>
    simp only [turns]
    split
    · simp
    split
    · simp
    split
    · simp
    refine ⟨fun t ht => by rw [← Option.some.inj ht], ?_⟩
    split
    · exact .singleton _
    obtain ⟨hhead, hchain⟩ := ih _ _ _
    exact List.isChain_cons.2 ⟨fun u hu => ⟨_, hhead u hu⟩, hchain⟩

end Turns

section Failures

variable {srv : Server φ} {c : ConnRef} {t u : Turn φ}

/-- A walk that dispatches nothing until a new group begins. -/
def Stuck (wk : Walk φ) : Prop := wk.sigFailed = true ∨ wk.relatedFailed.isSome = true

/-- A group fails with a status that is a failure. -/
def Sound (wk : Walk φ) : Prop := ∀ status, wk.relatedFailed = some status → failed status = true

/-- What the ruling on a message does to the walk, with the ruling and its outcome. -/
structure Ruled (srv : Server φ) (c : ConnRef) (t : Turn φ) (q : Ruling)
    (r : Reply × Walk φ × World φ) : Prop where
  sound : Sound r.2.1
  stuck : Stuck t.group → Stuck r.2.1 ∧ q.dispatches = false
  fails : failed r.1.status = true → Stuck r.2.1 ∨ q = .unsigned
  caught : r.2.1.sigFailed = true →
    t.group.sigFailed = true ∨ SignatureFails srv.lib t.world c t.msg
  idle : q.dispatches = false → failed r.1.status = true ∧ r.2.2 = t.world

theorem ruled (srv : Server φ) (c : ConnRef) (h : Sound t.group) :
    Ruled srv c t (t.ruling srv c) (t.ruled srv c) := by
  unfold Turn.ruled rule Turn.ruling SmbFrame.ruling
  split_ifs with hs hf hm
  · exact ⟨h, fun hg => ⟨hg, rfl⟩, fun _ => .inl (.inl hs), .inl, fun _ => ⟨rfl, rfl⟩⟩
  · exact ⟨h, fun _ => ⟨.inl rfl, rfl⟩, fun _ => .inl (.inl rfl), fun _ => .inr hf,
      fun _ => ⟨rfl, rfl⟩⟩
  · exact ⟨h, fun hg => ⟨hg, rfl⟩, fun _ => .inr rfl, .inl, fun _ => ⟨rfl, rfl⟩⟩
  split
  · rename_i status hstatus
    exact ⟨h, fun hg => ⟨hg, rfl⟩, fun _ => .inl (.inr (by rw [hstatus]; rfl)), .inl,
      fun _ => ⟨h status hstatus, rfl⟩⟩
  rename_i hnone
  have hfree : ¬ Stuck t.group := by simp [Stuck, hs, hnone]
  simp only
  split
  · rename_i hfailed
    refine ⟨?_, fun hg => absurd hg hfree, fun _ => .inl (.inr rfl), .inl, nofun⟩
    rintro status ⟨⟩
    exact hfailed
  · rename_i hok
    exact ⟨h, fun hg => absurd hg hfree, fun hfailed => absurd hfailed hok, .inl, nofun⟩

theorem Sound.group (h : Sound t.walk) : Sound t.group := by
  unfold Turn.group regroup
  split
  · exact h
  · exact nofun

theorem Follows.sound (h : Follows srv c t u) (ht : Sound t.walk) : Sound u.walk := by
  intro status hs
  rw [h.leaves.relatedFailed] at hs
  exact (ruled srv c ht.group).sound status hs

variable {ts : List (Turn φ)}

/-- The message with the given flags and distance to the next one, in session 7 and tree 1. -/
def chained (command : UInt16) (messageID : UInt64) (flags next : UInt32) (body : Bytes) : Bytes :=
  let hdr : Header := ⟨⟨1, command, 16, messageID⟩, 0, flags, next, 1, 7, zeros 16⟩
  hdr.encode ++ body

end Failures

section Ids

structure Context where
  sessionID : UInt64
  treeID : UInt32
  fileID : Option FileID
  deriving DecidableEq

/-- Where the commands that carry a FileId have it. -/
def carriedOffset (command : UInt16) : Option ℕ :=
  if command = cmdQueryInfo then some 24
  else if command = cmdQueryDirectory ∨ command = cmdIOCtl ∨ command = cmdChangeNotify ∨
    command = cmdOplockBreak then some 8
  else SmbAccess.fileIDOffset command

variable (srv : Server φ) (c : ConnRef) (t : Turn φ)

def Turn.used : Context := ⟨t.msg.hdr.sessionID, t.msg.hdr.treeID, t.msg.relatedFileID⟩

def Turn.contained : Option FileID := (carriedOffset t.wire.hdr.command).bind (requestFileID t.msg)

/-- The ids for a related message behind this one, as the protocol has them: of the session or tree
that it established, and the file it generated or contained. -/
def Turn.passes : Context where
  sessionID :=
    if t.wire.hdr.command = cmdSessionSetup ∧ (t.ruled srv c).1.status = .success then
      (t.ruled srv c).1.sessionID.getD t.msg.hdr.sessionID
    else t.msg.hdr.sessionID
  treeID :=
    if t.wire.hdr.command = cmdTreeConnect ∧ (t.ruled srv c).1.status = .success then
      (t.ruled srv c).1.treeID.getD t.msg.hdr.treeID
    else t.msg.hdr.treeID
  fileID := ((t.ruled srv c).1.resultFileID.orElse fun _ => t.contained).orElse
    fun _ => t.group.relatedFileID

/-- The message established nothing new, and contained no other file than its group has. -/
structure Kept : Prop where
  session : t.wire.hdr.command = cmdSessionSetup → (t.ruled srv c).1.status = .success →
    ∀ id, (t.ruled srv c).1.sessionID = some id → id = t.msg.hdr.sessionID
  tree : t.wire.hdr.command = cmdTreeConnect → (t.ruled srv c).1.status = .success →
    ∀ id, (t.ruled srv c).1.treeID = some id → id = t.msg.hdr.treeID
  file : (t.ruled srv c).1.resultFileID = none →
    ∀ id, t.contained = some id → t.group.relatedFileID = some id

variable {srv c t}

theorem used_eq_passes_iff {u} (h : Follows srv c t u) (hrel : related u.wire = true) :
    u.used = t.passes srv c ↔ Kept srv c t := by
  have hl := h.leaves
  have hu : u.used = ⟨t.msg.hdr.sessionID, t.msg.hdr.treeID,
      (t.ruled srv c).1.resultFileID.orElse fun _ => t.group.relatedFileID⟩ := by
    rw [← hl.sessionID, ← hl.treeID, ← hl.relatedFileID]
    simp only [Turn.used, Turn.msg, inherit, hrel, if_true]
  rw [hu, Turn.passes, Context.mk.injEq]
  constructor
  · rintro ⟨hs, ht, hf⟩
    refine ⟨fun hc hok id hid => ?_, fun hc hok id hid => ?_, fun hnone id hid => ?_⟩
    · simpa [hc, hok, hid] using hs.symm
    · simpa [hc, hok, hid] using ht.symm
    · simpa [hnone, hid] using hf
  intro hk
  refine ⟨?_, ?_, ?_⟩
  · split
    · rename_i hc
      cases hid : (t.ruled srv c).1.sessionID with
      | none => rfl
      | some id => exact (hk.session hc.1 hc.2 id hid).symm
    · rfl
  · split
    · rename_i hc
      cases hid : (t.ruled srv c).1.treeID with
      | none => rfl
      | some id => exact (hk.tree hc.1 hc.2 id hid).symm
    · rfl
  cases hres : (t.ruled srv c).1.resultFileID with
  | some id => rfl
  | none =>
    cases hid : t.contained with
    | none => rfl
    | some id => exact hk.file hres id hid

/-- A related message uses the ids that the one before it passes on if and only if these are the
ids of the group. -/
theorem related_ids_iff (srv : Server φ) (c : ConnRef) (envs : ℕ → Env) (frame : Bytes)
    (w : World φ) :
    (messages srv c envs frame w).IsChain fun t u =>
      related u.wire = true → (u.used = t.passes srv c ↔ Kept srv c t) :=
  (turns_chain _ _ _ _ _ _ _ _).2.imp fun _ _ h hrel => used_eq_passes_iff h hrel

def connectThenEcho : Bytes :=
  chained cmdTreeConnect 0 0 96
      (treeConnectBody ([backslash, backslash, 'h', backslash] ++ server.share) ++ zeros 6) ++
    chained cmdEcho 1 flagRelatedOps 0 (bytes 2 4 ++ zeros 2)

def flushThenClose : Bytes :=
  chained cmdFlush 0 0 88 (bytes 2 24 ++ zeros 6 ++ fileIDBytes ⟨6, 6⟩) ++
    chained cmdClose 1 flagRelatedOps 0 (bytes 2 24 ++ zeros 6 ++ fileIDBytes allOnes)

/-- A message after a TREE_CONNECT does not get the new tree, and one after a FLUSH does not get its
file. -/
theorem related_ids_lost : EventSystem.run SmbSections.enter newServerState SmbAccess.readOnlyOpen =
      some SmbAccess.start.tables ∧
    ((messages server 0 (fun _ => env) connectThenEcho SmbAccess.start).map fun t =>
      ((t.ruled server 0).1.status, t.used.treeID, (t.passes server 0).treeID)) =
        [(.success, 1, 2), (.success, 1, 1)] ∧
    ((messages server 0 (fun _ => env) flushThenClose SmbAccess.start).map fun t =>
      ((t.ruled server 0).1.status, t.used.fileID, (t.passes server 0).fileID)) =
        [(.success, none, some ⟨6, 6⟩), (.invalidParameter, none, none)] :=
  ⟨rfl, by decide +kernel, by decide +kernel⟩

end Ids

end SmbChain
