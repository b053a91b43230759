import FacetFS.XdrCodec

/-! # The sequence discipline of an NFSv4 owner

`withSeqid` gives an owner a one-slot reply cache. The bodies it runs are arbitrary:
they act on some world, return a status, and encode a result that starts with it. -/
namespace NfsSeqid

abbrev NfsStat := UInt32
abbrev Path := List String

def nfs4OK : NfsStat := 0
def nfs4ErrNoEnt : NfsStat := 2
def nfs4ErrIO : NfsStat := 5
def nfs4ErrExist : NfsStat := 17
def nfs4ErrNotDir : NfsStat := 20
def nfs4ErrIsDir : NfsStat := 21
def nfs4ErrInval : NfsStat := 22
def nfs4ErrNotEmpty : NfsStat := 66
def nfs4ErrStale : NfsStat := 70
def nfs4ErrNotSupp : NfsStat := 10004
def nfs4ErrDelay : NfsStat := 10008
def nfs4ErrDenied : NfsStat := 10010
def nfs4ErrExpired : NfsStat := 10011
def nfs4ErrLocked : NfsStat := 10012
def nfs4ErrShareDenied : NfsStat := 10015
def nfs4ErrClidInUse : NfsStat := 10017
def nfs4ErrResource : NfsStat := 10018
def nfs4ErrMoved : NfsStat := 10019
def nfs4ErrNoFilehandle : NfsStat := 10020
def nfs4ErrStaleClientID : NfsStat := 10022
def nfs4ErrStaleStateID : NfsStat := 10023
def nfs4ErrOldStateID : NfsStat := 10024
def nfs4ErrBadStateID : NfsStat := 10025
def nfs4ErrBadSeqID : NfsStat := 10026
def nfs4ErrSymlink : NfsStat := 10029
def nfs4ErrNoGrace : NfsStat := 10033
def nfs4ErrBadXDR : NfsStat := 10036
def nfs4ErrLocksHeld : NfsStat := 10037
def nfs4ErrOpenMode : NfsStat := 10038
def nfs4ErrAdminRevoked : NfsStat := 10047

def opClose : UInt32 := 4
def opLock : UInt32 := 12
def opLockU : UInt32 := 14
def opOpen : UInt32 := 18
def opOpenConfirm : UInt32 := 20
def opOpenDowngrade : UInt32 := 21

def noAdvance (st : NfsStat) : Bool :=
  st == nfs4ErrBadSeqID || st == nfs4ErrStaleClientID || st == nfs4ErrStaleStateID ||
    st == nfs4ErrBadStateID || st == nfs4ErrBadXDR || st == nfs4ErrResource ||
    st == nfs4ErrNoFilehandle || st == nfs4ErrMoved

/-- The fields of an owner that its sequence discipline reads and writes. -/
structure OwnerSeq where
  seqid : UInt32
  fresh : Bool
  lastOp : UInt32
  lastReply : Option (List UInt8)
  lastFH : Path
  deriving DecidableEq

def OwnerSeq.new : OwnerSeq := ⟨0, true, 0, none, []⟩

/-- What a body produces. Only a successful OPEN moves the current filehandle, which it
also leaves in the owner. -/
structure BodyResult where
  status : NfsStat
  body : List UInt8
  fh : Option Path
  fh_ok : fh.isSome → status = nfs4OK

def BodyResult.bytes (r : BodyResult) : List UInt8 := XdrCodec.uint32 r.status ++ r.body

/-- The reply appended for a request, the filehandle it sets, and whether its body ran. -/
structure Outcome where
  status : NfsStat
  reply : List UInt8
  fh : Option Path
  ran : Bool
  deriving DecidableEq

variable {σ : Type*}

def refuse (o : OwnerSeq) (w : σ) : Outcome × OwnerSeq × σ :=
  (⟨nfs4ErrBadSeqID, XdrCodec.uint32 nfs4ErrBadSeqID, none, false⟩, o, w)

/-- The part of `withSeqid` after the sequence id was accepted. -/
def execute (o : OwnerSeq) (opnum : UInt32) (fn : σ → BodyResult × σ) (w : σ) :
    Outcome × OwnerSeq × σ :=
  let r := (fn w).1
  if noAdvance r.status then
    (⟨r.status, XdrCodec.uint32 r.status, none, true⟩,
      { o with seqid := o.seqid - 1, fresh := o.lastReply.isNone || o.fresh }, (fn w).2)
  else
    (⟨r.status, XdrCodec.opaqueFixed r.bytes, r.fh, true⟩,
      { o with
        lastOp := opnum, lastReply := some r.bytes, lastFH := r.fh.getD o.lastFH }, (fn w).2)

def withSeqid (o : OwnerSeq) (opnum seqid : UInt32) (fn : σ → BodyResult × σ) (w : σ) :
    Outcome × OwnerSeq × σ :=
  if o.fresh then execute { o with fresh := false, seqid := seqid } opnum fn w
  else if seqid = o.seqid then
    match o.lastReply with
    | none => refuse o w
    | some reply =>
      if o.lastOp ≠ opnum then refuse o w
      else
        let st := XdrCodec.headUint32 reply
        (⟨st, XdrCodec.opaqueFixed reply,
          if opnum = opOpen ∧ st = nfs4OK then some o.lastFH else none, false⟩, o, w)
  else if seqid = o.seqid + 1 then execute { o with seqid := seqid } opnum fn w
  else refuse o w

theorem withSeqid_project {τ : Type*} {f : σ → τ} {fn : σ → BodyResult × σ}
    {fn' : τ → BodyResult × τ} {w : σ} (h : fn' (f w) = ((fn w).1, f (fn w).2)) (o : OwnerSeq)
    (opnum seqid : UInt32) :
    withSeqid o opnum seqid fn' (f w) =
      ((withSeqid o opnum seqid fn w).1, (withSeqid o opnum seqid fn w).2.1,
        f (withSeqid o opnum seqid fn w).2.2) := by
  have hexec : ∀ q, execute q opnum fn' (f w) =
      ((execute q opnum fn w).1, (execute q opnum fn w).2.1, f (execute q opnum fn w).2.2) := by
    intro q
    simp only [execute, h]
    split <;> rfl
  unfold withSeqid
  split
  · exact hexec _
  split
  · split
    · rfl
    · split <;> rfl
  split
  · exact hexec _
  · rfl

/-- The owner once a sequence id has been accepted for execution, if it is. -/
def accept (o : OwnerSeq) (seqid : UInt32) : Option OwnerSeq :=
  if o.fresh then some { o with fresh := false, seqid := seqid }
  else if seqid = o.seqid then none
  else if seqid = o.seqid + 1 then some { o with seqid := seqid }
  else none

/-- The owner once the body of an accepted request has returned. -/
def settle (o : OwnerSeq) (opnum : UInt32) (r : BodyResult) : OwnerSeq :=
  (execute o opnum (fun _ : Unit => (r, ())) ()).2.1

structure Request (σ : Type*) where
  opnum : UInt32
  seqid : UInt32
  fn : σ → BodyResult × σ

/-- A request whose body was executed to a cached result. -/
structure Entry where
  opnum : UInt32
  seqid : UInt32
  outcome : Outcome
  deriving DecidableEq

/-- An owner, the world its bodies act on, and the cached executions, newest first. -/
structure History (σ : Type*) where
  owner : OwnerSeq
  world : σ
  accepted : List Entry

def History.submit (h : History σ) (r : Request σ) : History σ :=
  let (out, owner, world) := withSeqid h.owner r.opnum r.seqid r.fn h.world
  ⟨owner, world,
    if out.ran && !noAdvance out.status then ⟨r.opnum, r.seqid, out⟩ :: h.accepted
    else h.accepted⟩

def runRequests (w : σ) (rs : List (Request σ)) : History σ :=
  rs.foldl History.submit ⟨.new, w, []⟩

def outcomes (o : OwnerSeq) (w : σ) : List (Request σ) → List Outcome
  | [] => []
  | r :: rs =>
    let (out, o', w') := withSeqid o r.opnum r.seqid r.fn w
    out :: outcomes o' w' rs

/-- The reply cache holds the result of the newest cached execution. -/
def Caches (o : OwnerSeq) : List Entry → Prop
  | [] => o.fresh = true ∧ o.lastReply = none
  | a :: _ => o.fresh = false ∧ o.seqid = a.seqid ∧ o.lastOp = a.opnum ∧
    ∃ reply, o.lastReply = some reply ∧ XdrCodec.opaqueFixed reply = a.outcome.reply ∧
      XdrCodec.headUint32 reply = a.outcome.status ∧
      ∀ p, a.outcome.fh = some p → a.outcome.status = nfs4OK ∧ o.lastFH = p

variable {o : OwnerSeq}

theorem succ_ne (s : UInt32) : s + 1 ≠ s := by
  intro he
  have hnat := congrArg UInt32.toNat he
  rw [UInt32.toNat_add] at hnat
  have hlt := s.toNat_lt
  have hone : (1 : UInt32).toNat = 1 := rfl
  omega

variable {es : List Entry}

theorem withSeqid_replay {a} (h : Caches o (a :: es)) (fn : σ → BodyResult × σ) (w : σ) :
    ∃ fh, withSeqid o a.opnum a.seqid fn w = (⟨a.outcome.status, a.outcome.reply, fh, false⟩, o, w) ∧
      (a.opnum = opOpen → ∀ p, a.outcome.fh = some p → fh = some p) := by
  obtain ⟨hf, hs, hop, reply, hr, hreply, hst, hfh⟩ := h
  refine ⟨if a.opnum = opOpen ∧ a.outcome.status = nfs4OK then some o.lastFH else none, ?_, ?_⟩
  · simp [withSeqid, hf, hs, hop, hr, hreply, hst]
  · intro hopen p hp
    obtain ⟨hok, hlast⟩ := hfh p hp
    simp [hopen, hok, hlast]

theorem withSeqid_refuse {a} (h : Caches o (a :: es)) {opnum seqid} (hnext : seqid ≠ a.seqid + 1)
    (hlast : seqid = a.seqid → opnum ≠ a.opnum) (fn : σ → BodyResult × σ) (w : σ) :
    withSeqid o opnum seqid fn w = refuse o w := by
  obtain ⟨hf, hs, hop, reply, hr, -⟩ := h
  by_cases he : seqid = a.seqid
  · simp [withSeqid, hf, hs, hop, hr, he, (hlast he).symm]
  · simp [withSeqid, hf, hs, he, hnext]

theorem execute_status (o : OwnerSeq) (opnum : UInt32) (fn : σ → BodyResult × σ) (w : σ) :
    (execute o opnum fn w).1.status = (fn w).1.status ∧
      (execute o opnum fn w).1.ran = true := by
  cases hn : noAdvance (fn w).1.status <;> simp [execute, hn]

theorem withSeqid_world (o : OwnerSeq) (opnum seqid : UInt32) (fn : σ → BodyResult × σ) (w : σ) :
    (withSeqid o opnum seqid fn w).2.2 = w ∨ (withSeqid o opnum seqid fn w).2.2 = (fn w).2 := by
  have hexec : ∀ q, (execute q opnum fn w).2.2 = (fn w).2 := by
    intro q
    cases hn : noAdvance (fn w).1.status <;> simp [execute, hn]
  unfold withSeqid
  split
  · exact .inr (hexec _)
  split
  · split
    · exact .inl rfl
    · split <;> exact .inl rfl
  split
  · exact .inr (hexec _)
  · exact .inl rfl

theorem execute_noAdvance {opnum : UInt32} {fn : σ → BodyResult × σ} {w : σ}
    (hn : noAdvance (fn w).1.status = true) :
    execute o opnum fn w = (⟨(fn w).1.status, XdrCodec.uint32 (fn w).1.status, none, true⟩,
      { o with seqid := o.seqid - 1, fresh := o.lastReply.isNone || o.fresh }, (fn w).2) := by
  simp [execute, hn]

theorem execute_cached {opnum : UInt32} {fn : σ → BodyResult × σ} {w : σ}
    (hn : noAdvance (fn w).1.status = false) :
    execute o opnum fn w =
      (⟨(fn w).1.status, XdrCodec.opaqueFixed (fn w).1.bytes, (fn w).1.fh, true⟩,
        { o with
          lastOp := opnum, lastReply := some (fn w).1.bytes
          lastFH := (fn w).1.fh.getD o.lastFH }, (fn w).2) := by
  simp [execute, hn]

theorem cached_caches (o : OwnerSeq) (opnum seqid : UInt32) (r : BodyResult) (es : List Entry) :
    Caches { o with
        fresh := false, seqid := seqid, lastOp := opnum, lastReply := some r.bytes
        lastFH := r.fh.getD o.lastFH }
      (⟨opnum, seqid, ⟨r.status, XdrCodec.opaqueFixed r.bytes, r.fh, true⟩⟩ :: es) := by
  refine ⟨rfl, rfl, rfl, r.bytes, rfl, rfl, XdrCodec.headUint32_uint32 _ _, ?_⟩
  intro p hp
  change r.fh = some p at hp
  exact ⟨r.fh_ok (by simp [hp]), by simp [hp]⟩

/-- A request is executed, then it is the first or the successor of the last one; or its body does
not run and nothing changes. -/
theorem withSeqid_cases (h : Caches o es) (opnum seqid : UInt32) (fn : σ → BodyResult × σ) (w : σ) :
    (withSeqid o opnum seqid fn w = execute { o with fresh := false, seqid := seqid } opnum fn w ∧
      ∀ a es', es = a :: es' → seqid = a.seqid + 1) ∨
    (withSeqid o opnum seqid fn w).1.ran = false ∧ (withSeqid o opnum seqid fn w).2 = (o, w) := by
  cases es with
  | nil => exact .inl ⟨by simp [withSeqid, h.1], nofun⟩
  | cons a es =>
    by_cases hs : seqid = a.seqid + 1
    · obtain ⟨hf, hseq, -, -⟩ := h
      refine .inl ⟨by simp [withSeqid, hf, hseq, hs], fun b bs hb => ?_⟩
      rw [hs, (List.cons.inj hb).1]
    by_cases hd : seqid = a.seqid ∧ opnum = a.opnum
    · obtain ⟨rfl, rfl⟩ := hd
      obtain ⟨fh, hw, -⟩ := withSeqid_replay h fn w
      rw [hw]
      exact .inr ⟨rfl, rfl⟩
    · rw [withSeqid_refuse h hs fun he hop => hd ⟨he, hop⟩]
      exact .inr ⟨rfl, rfl⟩

/-- A rolled-back request restores the owner: exactly, or up to the sequence id of an
owner that never accepted one. -/
theorem rolled_back (h : Caches o es) {opnum seqid : UInt32}
    {fn : σ → BodyResult × σ} {w : σ} (hran : (withSeqid o opnum seqid fn w).1.ran = true)
    (hn : noAdvance (withSeqid o opnum seqid fn w).1.status = true) :
    (withSeqid o opnum seqid fn w).2.1 = o ∨
      (es = [] ∧ ∃ q, (withSeqid o opnum seqid fn w).2.1 = { o with seqid := q }) := by
  rcases withSeqid_cases h opnum seqid fn w with ⟨hw, hsucc⟩ | ⟨hno, -⟩
  · rw [hw] at hn ⊢
    rw [(execute_status _ _ _ _).1] at hn
    rw [execute_noAdvance hn]
    cases es with
    | nil => exact .inr ⟨rfl, seqid - 1, by simp [h.2, h.1]⟩
    | cons a es =>
      obtain ⟨hf, hseq, -, reply, hr, -⟩ := h
      have hback : seqid - 1 = o.seqid := by
        rw [hseq, hsucc a es rfl, UInt32.add_sub_cancel]
      rw [hback]
      cases o
      simp_all
  · rw [hno] at hran
    cases hran

/-- One request: the accepted executions grow only by a successor of the last one, and
the cache follows. -/
theorem submit_spec {h : History σ} (hc : Caches h.owner h.accepted) (r : Request σ) :
    Caches (h.submit r).owner (h.submit r).accepted ∧
    ((h.submit r).accepted = h.accepted ∨
      ∃ out, (h.submit r).accepted = ⟨r.opnum, r.seqid, out⟩ :: h.accepted ∧
        ∀ a es, h.accepted = a :: es → r.seqid = a.seqid + 1) := by
  rcases withSeqid_cases hc r.opnum r.seqid r.fn h.world with ⟨hw, hsucc⟩ | ⟨hno, hsame⟩
  · cases hn : noAdvance (r.fn h.world).1.status with
    | false =>
      rw [History.submit, hw, execute_cached hn]
      simp only [hn, Bool.not_false, Bool.and_self, if_true]
      exact ⟨cached_caches _ _ _ _ _, .inr ⟨_, rfl, hsucc⟩⟩
    | true =>
      have hstatus := execute_status { h.owner with fresh := false, seqid := r.seqid } r.opnum r.fn
        h.world
      rw [← hw] at hstatus
      have hback := rolled_back hc hstatus.2 (by rw [hstatus.1, hn])
      have hacc : (h.submit r).accepted = h.accepted := by
        simp [History.submit, hstatus.1, hn]
      rw [hacc]
      refine ⟨?_, .inl rfl⟩
      change Caches (withSeqid h.owner r.opnum r.seqid r.fn h.world).2.1 h.accepted
      rcases hback with he | ⟨hnil, q, he⟩
      · rwa [he]
      rw [he, hnil]
      rw [hnil] at hc
      exact hc
  · have hacc : (h.submit r).accepted = h.accepted := by simp [History.submit, hno]
    have howner : (h.submit r).owner = h.owner := congrArg Prod.fst hsame
    rw [hacc, howner]
    exact ⟨hc, .inl rfl⟩

theorem runRequests_concat (w : σ) (rs : List (Request σ)) (r : Request σ) :
    runRequests w (rs ++ [r]) = (runRequests w rs).submit r := by
  simp [runRequests]

theorem runRequests_caches (w : σ) (rs : List (Request σ)) :
    Caches (runRequests w rs).owner (runRequests w rs).accepted := by
  induction rs using List.reverseRecOn with
  | nil => exact ⟨rfl, rfl⟩
  | append_singleton rs r ih =>
    rw [runRequests_concat]
    exact (submit_spec ih r).1

theorem runRequests_successive (w : σ) (rs : List (Request σ)) :
    (runRequests w rs).accepted.IsChain (fun newer older => newer.seqid = older.seqid + 1) := by
  induction rs using List.reverseRecOn with
  | nil => exact List.IsChain.nil
  | append_singleton rs r ih =>
    rw [runRequests_concat]
    rcases (submit_spec (runRequests_caches w rs) r).2 with he | ⟨out, he, hsucc⟩
    · rwa [he]
    rw [he]
    cases hacc : (runRequests w rs).accepted with
    | nil => exact List.IsChain.singleton _
    | cons a es =>
      rw [hacc] at ih
      exact List.IsChain.cons_cons (hsucc a es hacc) ih

theorem outcomes_fresh_seqid (h : o.fresh = true) (q : UInt32) (w : σ)
    (rs : List (Request σ)) : outcomes { o with seqid := q } w rs = outcomes o w rs := by
  cases rs with
  | nil => rfl
  | cons r rs => simp [outcomes, withSeqid, h]

/-- For every owner and every sequence of requests with arbitrary bodies: each cached
execution advances the sequence by one; a repetition of the last accepted request is
answered with the same bytes, without running a body, and restores the filehandle of a
successful OPEN; any other sequence id but the successor is answered BAD_SEQID and changes
nothing; and a rolled-back request cannot be told from one that was never sent. -/
theorem withSeqid_exactly_once (w : σ) (rs : List (Request σ)) :
    (runRequests w rs).accepted.IsChain (fun newer older => newer.seqid = older.seqid + 1) ∧
    (∀ a es, (runRequests w rs).accepted = a :: es →
      (runRequests w rs).owner.seqid = a.seqid ∧
      (∀ (fn : σ → BodyResult × σ) (w' : σ), ∃ fh,
        withSeqid (runRequests w rs).owner a.opnum a.seqid fn w' =
          (⟨a.outcome.status, a.outcome.reply, fh, false⟩, (runRequests w rs).owner, w') ∧
        (a.opnum = opOpen → ∀ p, a.outcome.fh = some p → fh = some p)) ∧
      (∀ (opnum seqid : UInt32) (fn : σ → BodyResult × σ) (w' : σ), seqid ≠ a.seqid + 1 →
        (seqid = a.seqid → opnum ≠ a.opnum) →
        withSeqid (runRequests w rs).owner opnum seqid fn w' =
          (⟨nfs4ErrBadSeqID, XdrCodec.uint32 nfs4ErrBadSeqID, none, false⟩,
            (runRequests w rs).owner, w'))) ∧
    (∀ (opnum seqid : UInt32) (fn : σ → BodyResult × σ) (w' : σ),
      (withSeqid (runRequests w rs).owner opnum seqid fn w').1.ran = true →
      noAdvance (withSeqid (runRequests w rs).owner opnum seqid fn w').1.status = true →
      ∀ (w'' : σ) (later : List (Request σ)),
        outcomes (withSeqid (runRequests w rs).owner opnum seqid fn w').2.1 w'' later =
          outcomes (runRequests w rs).owner w'' later) := by
  have hc := runRequests_caches w rs
  refine ⟨runRequests_successive w rs, ?_, ?_⟩
  · intro a es ha
    rw [ha] at hc
    exact ⟨hc.2.1, fun fn w' => withSeqid_replay hc fn w',
      fun opnum seqid fn w' hnext hlast => withSeqid_refuse hc hnext hlast fn w'⟩
  · intro opnum seqid fn w' hran hn w'' later
    rcases rolled_back hc hran hn with he | ⟨hnil, q, he⟩
    · rw [he]
    · rw [hnil] at hc
      rw [he, outcomes_fresh_seqid hc.1]

end NfsSeqid
