import FacetFS.ByteText
import FacetFS.NfsSeqid

/-! # READDIR

A page of a directory is cut by two budgets: one for the bytes of the reply, one for the names. An
entry that exceeds a budget is taken back, and if it was the first one the request fails. A listing
is served from a snapshot or is read again. -/
namespace NfsReadDir

open ByteText NfsSeqid XdrCodec

def nfs4ErrBadCookie : NfsStat := 10003
def nfs4ErrTooSmall : NfsStat := 10005

variable {α : Type}

structure Entry (α : Type) where
  name : Text
  info : α

structure Args where
  cookie : ℕ
  verf : ℕ
  dircount : ℕ
  maxcount : ℕ

/-- What READDIR meets: the status of its filehandle, the snapshot for its verifier, the directory
as it is read now, a new verifier, the server's cap, the bytes already in the reply, and how the
attributes asked for are encoded. -/
structure Env (α : Type) where
  dirFH : NfsStat
  held : Option (List (Entry α))
  read : Except NfsStat (List (Entry α))
  mint : ℕ
  responseCap : ℕ
  mark : ℕ
  fattr : Entry α → List UInt8
  dirFH_ne : dirFH ≠ nfs4ErrTooSmall
  read_ne : read ≠ .error nfs4ErrTooSmall

/-- Entries go with their indexes in the listing. -/
structure Page (α : Type) where
  verf : ℕ
  entries : List (Entry α × ℕ)
  eof : Bool

def encodeEntry (fattr : Entry α → List UInt8) (e : Entry α × ℕ) : List UInt8 :=
  bool true ++ uint64 (UInt64.ofNat (e.2 + 3)) ++ opaqueVar e.1.name ++ fattr e.1

/-- The entries that fit, and whether they are all. -/
def takeFitting (fattr : Entry α → List UInt8) (size names : Int) :
    ℕ → List (Entry α × ℕ) → List (Entry α × ℕ) × Bool
  | _, [] => ([], true)
  | body, e :: es =>
    let body := body + (encodeEntry fattr e).length
    let names := names - (e.1.name.length + 8)
    if size - 8 < body ∨ names < 0 then ([], false)
    else
      let (taken, eof) := takeFitting fattr size names body es
      (e :: taken, eof)

def sizeBudget (a : Args) (env : Env α) : Int :=
  min a.maxcount (env.responseCap - env.mark - 128)

def resume (cookie len : ℕ) : ℕ := if cookie = 0 then 0 else min (cookie - 2) len

def entriesFor (a : Args) (env : Env α) : Except NfsStat (List (Entry α)) :=
  match if a.cookie = 0 then none else env.held with
  | some entries => .ok entries
  | none => env.read

def remaining (a : Args) (listing : List (Entry α)) : List (Entry α × ℕ) :=
  listing.zipIdx.drop (resume a.cookie listing.length)

def readDir (a : Args) (env : Env α) : Except NfsStat (Page α) :=
  if a.cookie = 1 ∨ a.cookie = 2 ∨ a.cookie = 0 ∧ a.verf ≠ 0 then .error nfs4ErrBadCookie
  else if env.dirFH ≠ nfs4OK then .error env.dirFH
  else
    match entriesFor a env with
    | .error st => .error st
    | .ok listing =>
      let (taken, eof) :=
        takeFitting env.fattr (sizeBudget a env) a.dircount 0 (remaining a listing)
      if taken = [] ∧ eof = false then .error nfs4ErrTooSmall
      else .ok ⟨if a.cookie = 0 then env.mint else a.verf, taken, eof⟩

/-- The result of READDIR after its status. -/
def Page.encode (fattr : Entry α → List UInt8) (p : Page α) : List UInt8 :=
  uint64 (UInt64.ofNat p.verf) ++ p.entries.flatMap (encodeEntry fattr) ++ bool false ++ bool p.eof

section Fitting

variable {fattr : Entry α → List UInt8} {size names : Int}

theorem takeFitting_spec (fattr : Entry α → List UInt8) (es : List (Entry α × ℕ)) (size names : Int)
    (body : ℕ) :
    ∃ rest, es = (takeFitting fattr size names body es).1 ++ rest ∧
      ((takeFitting fattr size names body es).2 = true ↔ rest = []) := by
  induction es generalizing names body with
  | nil => exact ⟨[], rfl, by simp [takeFitting]⟩
  | cons e es ih =>
    simp only [takeFitting]
    split
    · exact ⟨e :: es, rfl, by simp⟩
    obtain ⟨rest, hes, heof⟩ := ih (names - (e.1.name.length + 8))
      (body + (encodeEntry fattr e).length)
    refine ⟨rest, ?_, heof⟩
    rw [List.cons_append, ← hes]

end Fitting

section Pages

variable {a : Args} {env : Env α} {listing : List (Entry α)} {e : Entry α × ℕ}

/-- The request comes as far as its listing. -/
def Serves (a : Args) (env : Env α) (listing : List (Entry α)) : Prop :=
  ¬ (a.cookie = 1 ∨ a.cookie = 2 ∨ a.cookie = 0 ∧ a.verf ≠ 0) ∧ env.dirFH = nfs4OK ∧
    entriesFor a env = .ok listing

def cut (a : Args) (env : Env α) (size : Int) (listing : List (Entry α)) :
    List (Entry α × ℕ) × Bool :=
  takeFitting env.fattr size a.dircount 0 (remaining a listing)

theorem readDir_serves (h : Serves a env listing) : readDir a env =
      if (cut a env (sizeBudget a env) listing).1 = [] ∧
          (cut a env (sizeBudget a env) listing).2 = false then .error nfs4ErrTooSmall
      else .ok ⟨if a.cookie = 0 then env.mint else a.verf, (cut a env (sizeBudget a env) listing).1,
        (cut a env (sizeBudget a env) listing).2⟩ := by
  obtain ⟨hcookie, hfh, hl⟩ := h
  rw [readDir, if_neg hcookie, if_neg (not_not.2 hfh), hl]
  rfl

theorem readDir_cases (a : Args) (env : Env α) :
    (∃ listing, Serves a env listing) ∨ ∃ st, st ≠ nfs4ErrTooSmall ∧ readDir a env = .error st := by
  by_cases hcookie : a.cookie = 1 ∨ a.cookie = 2 ∨ a.cookie = 0 ∧ a.verf ≠ 0
  · exact .inr ⟨nfs4ErrBadCookie, by decide, by rw [readDir, if_pos hcookie]⟩
  by_cases hfh : env.dirFH = nfs4OK
  · cases hl : entriesFor a env with
    | ok listing => exact .inl ⟨listing, hcookie, hfh, hl⟩
    | error st =>
      refine .inr ⟨st, fun hst => ?_, by simp [readDir, hcookie, hfh, hl]⟩
      subst hst
      unfold entriesFor at hl
      split at hl
      · cases hl
      · exact env.read_ne hl
  · exact .inr ⟨_, env.dirFH_ne, by rw [readDir, if_neg hcookie, if_pos hfh]⟩

theorem readDir_ok {p} (h : readDir a env = .ok p) : ∃ listing, Serves a env listing ∧
      p.entries = (cut a env (sizeBudget a env) listing).1 ∧
      p.eof = (cut a env (sizeBudget a env) listing).2 ∧
      ¬ (p.entries = [] ∧ p.eof = false) := by
  obtain ⟨listing, hs⟩ | ⟨st, -, hst⟩ := readDir_cases a env
  · rw [readDir_serves hs] at h
    split at h
    · cases h
    rename_i hne
    cases h
    exact ⟨listing, hs, rfl, rfl, hne⟩
  · cases hst.symm.trans h

theorem readDir_splits {p} (h : readDir a env = .ok p) :
    ∃ listing rest, Serves a env listing ∧ remaining a listing = p.entries ++ rest ∧
      (p.eof = true ↔ rest = []) ∧ ¬ (p.entries = [] ∧ p.eof = false) := by
  obtain ⟨listing, hs, hes, heof, hne⟩ := readDir_ok h
  obtain ⟨rest, hrest, hend⟩ := takeFitting_spec env.fattr (remaining a listing) (sizeBudget a env)
    a.dircount 0
  refine ⟨listing, rest, hs, ?_, ?_, hne⟩
  · rw [hes]
    exact hrest
  · rw [heof]
    exact hend

theorem length_encode (p : Page α) : (p.encode env.fattr).length =
    (p.entries.flatMap (encodeEntry env.fattr)).length + 16 := by
  simp [Page.encode, uint64, XdrCodec.bool, uint32]

/-- A directory with one entry whose name and attributes take eight bytes each. -/
def single : Env Unit :=
  { dirFH := nfs4OK, held := none, read := .ok [⟨[97], ()⟩], mint := 1, responseCap := 65536
    mark := 0, fattr := fun _ => List.replicate 8 0, dirFH_ne := by decide, read_ne := nofun }

/-- The entry and the fixed parts of the result do not fit into `maxcount`, or into the cap with
the status. -/
def TooBig (a : Args) (env : Env α) (e : Entry α × ℕ) : Prop :=
  a.maxcount < (encodeEntry env.fattr e).length + 16 ∨
    env.responseCap < env.mark + (encodeEntry env.fattr e).length + 20

/-- The first entry that is left makes the request fail only if it is too big, and is served
otherwise. -/
def Progresses (a : Args) (env : Env α) : Prop :=
  (readDir a env = .error nfs4ErrTooSmall →
    ∃ listing e es, Serves a env listing ∧ remaining a listing = e :: es ∧ TooBig a env e) ∧
  ∀ listing e es, Serves a env listing → remaining a listing = e :: es → ¬ TooBig a env e →
    ∃ p, readDir a env = .ok p ∧ e ∈ p.entries

/-- An entry that is not too big is within `dircount`, and within the cap less the reserve. -/
def HintAdmits (a : Args) (env : Env α) : Prop :=
  ∀ listing e es, Serves a env listing → remaining a listing = e :: es → ¬ TooBig a env e →
    e.1.name.length + 8 ≤ a.dircount ∧
      env.mark + (encodeEntry env.fattr e).length + 136 ≤ env.responseCap

/-- The first entry is within both budgets. -/
def Fits (a : Args) (env : Env α) (e : Entry α × ℕ) : Prop :=
  (encodeEntry env.fattr e).length ≤ sizeBudget a env - 8 ∧ e.1.name.length + 8 ≤ a.dircount

theorem readDir_fits {es} (hs : Serves a env listing) (hr : remaining a listing = e :: es) :
    (Fits a env e → ∃ p, readDir a env = .ok p ∧ e ∈ p.entries) ∧
      (¬ Fits a env e → readDir a env = .error nfs4ErrTooSmall) := by
  rw [readDir_serves hs]
  have hover : sizeBudget a env - 8 < ↑(0 + (encodeEntry env.fattr e).length) ∨
      (a.dircount : Int) - (e.1.name.length + 8) < 0 ↔ ¬ Fits a env e := by
    unfold Fits
    omega
  simp only [cut, hr, takeFitting]
  constructor
  · intro hfits
    rw [if_neg (mt hover.1 (not_not.2 hfits))]
    exact ⟨_, if_neg (by simp), by simp⟩
  · intro hfits
    rw [if_pos (hover.2 hfits)]
    rfl

theorem progresses_iff (a : Args) (env : Env α) : Progresses a env ↔ HintAdmits a env := by
  have hbudget : ∀ e : Entry α × ℕ, ¬ TooBig a env e → (Fits a env e ↔
      e.1.name.length + 8 ≤ a.dircount ∧
        env.mark + (encodeEntry env.fattr e).length + 136 ≤ env.responseCap) := by
    intro e hbig
    unfold TooBig at hbig
    unfold Fits sizeBudget
    omega
  constructor
  · rintro ⟨-, hserved⟩ listing e es hs hr hbig
    rw [← hbudget e hbig]
    by_contra hfits
    obtain ⟨p, hp, -⟩ := hserved listing e es hs hr hbig
    cases hp.symm.trans ((readDir_fits hs hr).2 hfits)
  intro hadmits
  have hserved : ∀ listing e es, Serves a env listing → remaining a listing = e :: es →
      ¬ TooBig a env e → ∃ p, readDir a env = .ok p ∧ e ∈ p.entries :=
    fun listing e es hs hr hbig =>
      (readDir_fits hs hr).1 ((hbudget e hbig).2 (hadmits listing e es hs hr hbig))
  refine ⟨fun hsmall => ?_, hserved⟩
  obtain ⟨listing, hs⟩ | ⟨st, hne, hst⟩ := readDir_cases a env
  · cases hr : remaining a listing with
    | nil =>
      rw [readDir_serves hs] at hsmall
      simp [cut, hr, takeFitting] at hsmall
    | cons e es =>
      refine ⟨listing, e, es, hs, hr, by_contra fun hbig => ?_⟩
      obtain ⟨p, hp, -⟩ := hserved listing e es hs hr hbig
      cases hp.symm.trans hsmall
  · cases hst.symm.trans hsmall
    exact absurd rfl hne

theorem zero_dircount_too_small : readDir ⟨0, 0, 0, 4096⟩ single = .error nfs4ErrTooSmall ∧
      ¬ TooBig ⟨0, 0, 0, 4096⟩ single (⟨[97], ()⟩, 0) := by
  refine ⟨?_, ?_⟩
  · have hs : Serves ⟨0, 0, 0, 4096⟩ single [⟨[97], ()⟩] := ⟨by decide, rfl, rfl⟩
    rw [readDir_serves hs]
    exact if_pos (by decide +kernel)
  · unfold TooBig
    decide +kernel

end Pages

section Listing

/-- The directory does not change while it is listed: a call finds its listing, or is refused. -/
structure Call (listing : List (Entry α)) where
  dircount : ℕ
  maxcount : ℕ
  env : Env α
  held : ∀ l, env.held = some l → l = listing
  read : ∀ l, env.read = .ok l → l = listing

structure Client (α : Type) where
  cookie : ℕ := 0
  verf : ℕ := 0
  pages : List (Page α) := []

def Client.listed (c : Client α) : List (Entry α × ℕ) := c.pages.flatMap (·.entries)

variable {listing : List (Entry α)}

/-- The client asks again after the last entry it was given. -/
def Client.call (c : Client α) (k : Call listing) : Client α :=
  match readDir ⟨c.cookie, c.verf, k.dircount, k.maxcount⟩ k.env with
  | .error _ => c
  | .ok p =>
    { cookie := (p.entries.getLast?.map (·.2 + 3)).getD c.cookie, verf := p.verf
      pages := c.pages ++ [p] }

/-- The pages, in order, list a beginning of the directory, the cookie is that of its end, and a
page says so when it is the whole. -/
structure Client.Invariant (listing : List (Entry α)) (c : Client α) : Prop where
  listed : c.listed = listing.zipIdx.take (resume c.cookie listing.length)
  cookie : c.cookie ≤ listing.length + 2
  page : ∀ ps p qs, c.pages = ps ++ p :: qs →
    (p.eof = true ↔ (ps ++ [p]).flatMap (·.entries) = listing.zipIdx) ∧
      (p.eof = false → p.entries ≠ [])

theorem entriesFor_call (k : Call listing) {a l}
    (h : entriesFor a k.env = .ok l) : l = listing := by
  unfold entriesFor at h
  split at h
  · rename_i entries heq
    cases h
    split at heq
    · cases heq
    · exact k.held l heq
  · exact k.read l h

theorem index_of_zipIdx {as bs x} (h : listing.zipIdx = as ++ x :: bs) : x.2 = as.length := by
  have hget : listing.zipIdx[as.length]? = some x := by simp [h]
  rw [List.getElem?_zipIdx] at hget
  obtain ⟨e, -, rfl⟩ := Option.map_eq_some_iff.1 hget
  simp

theorem Client.Invariant.call {c : Client α} (h : c.Invariant listing) (k : Call listing) :
    (c.call k).Invariant listing := by
  unfold Client.call
  split
  · exact h
  rename_i p hp
  obtain ⟨l, rest, hs, hrest, hend, hne⟩ := readDir_splits hp
  cases entriesFor_call k hs.2.2
  have hall : listing.zipIdx = c.listed ++ p.entries ++ rest := by
    rw [List.append_assoc, ← hrest, h.listed]
    exact (List.take_append_drop _ _).symm
  have hlen : listing.length = (c.listed ++ p.entries).length + rest.length := by
    rw [← List.length_append, ← hall, List.length_zipIdx]
  have hcookie : c.listed ++ p.entries = listing.zipIdx.take
      (resume ((p.entries.getLast?.map (·.2 + 3)).getD c.cookie) listing.length) ∧
        (p.entries.getLast?.map (·.2 + 3)).getD c.cookie ≤ listing.length + 2 := by
    obtain hnil | ⟨init, last, hlast⟩ := List.eq_nil_or_concat p.entries
    · rw [hnil, List.append_nil]
      exact ⟨h.listed, h.cookie⟩
    have hsplit : listing.zipIdx = (c.listed ++ init) ++ last :: rest := by
      rw [hall, hlast]
      simp
    have hindex : last.2 + 1 = (c.listed ++ p.entries).length := by
      rw [index_of_zipIdx hsplit, hlast]
      simp
      omega
    have hresume : resume (last.2 + 3) listing.length = (c.listed ++ p.entries).length := by
      unfold resume
      rw [if_neg (by omega)]
      omega
    have hgiven : (p.entries.getLast?.map (·.2 + 3)).getD c.cookie = last.2 + 3 := by simp [hlast]
    rw [hgiven, hresume, hall]
    exact ⟨List.take_left.symm, by omega⟩
  refine ⟨?_, hcookie.2, fun ps q qs hpages => ?_⟩
  · rw [← hcookie.1]
    simp [Client.listed]
  obtain rfl | ⟨qs', last, rfl⟩ := List.eq_nil_or_concat qs
  · obtain ⟨rfl, hq⟩ := List.append_inj' hpages rfl
    cases hq
    refine ⟨?_, fun hfalse hnil => hne ⟨hnil, hfalse⟩⟩
    rw [hend, hall, List.flatMap_append, ← Client.listed]
    simp
  · rw [List.concat_eq_append, ← List.cons_append, ← List.append_assoc] at hpages
    exact h.page ps q qs' (List.append_inj' hpages rfl).1

/-- A listing that is resumed where its last page ended misses nothing and repeats nothing, and
only its end is called one. -/
theorem paging_complete (listing : List (Entry α)) (calls : List (Call listing)) :
    (calls.foldl Client.call {}).listed <+: listing.zipIdx ∧
      (∀ p ∈ (calls.foldl Client.call {}).pages, p.eof = true →
        (calls.foldl Client.call {}).listed = listing.zipIdx) ∧
      ∀ ps p qs, (calls.foldl Client.call {}).pages = ps ++ p :: qs →
        (p.eof = true ↔ (ps ++ [p]).flatMap (·.entries) = listing.zipIdx) ∧
          (p.eof = false → p.entries ≠ []) := by
  have hinv : ∀ c : Client α, c.Invariant listing →
      (calls.foldl Client.call c).Invariant listing := by
    induction calls with
    | nil => exact fun c hc => hc
    | cons k calls ih => exact fun c hc => ih _ (hc.call k)
  have h := hinv {} ⟨rfl, Nat.zero_le _, by simp⟩
  generalize calls.foldl Client.call {} = c at h
  have hpre : c.listed <+: listing.zipIdx := h.listed ▸ List.take_prefix _ _
  refine ⟨hpre, fun p hp heof => ?_, h.page⟩
  obtain ⟨ps, qs, hpages⟩ := List.append_of_mem hp
  have hwhole := ((h.page ps p qs hpages).1).1 heof
  refine hpre.eq_of_length_le ?_
  rw [← hwhole, Client.listed, hpages]
  simp

end Listing

end NfsReadDir
