import FacetFS.NfsSeqid

/-! # The COMPOUND procedure

One call carries many operations. The server runs them in order against the filehandle slots of
the call, and a reply holds one result for each operation up to the first that fails. The
operations are arbitrary: they decode their arguments, act on the server and encode a result that
starts with the status they return. -/
namespace NfsCompound

open NfsSeqid XdrCodec

def nfs4ErrMinorVersMismatch : NfsStat := 10021
def nfs4ErrOpIllegal : NfsStat := 10044
def opAccess : UInt32 := 3
def opIllegal : UInt32 := 10044
def maxCompoundOps : ℕ := 128
def maxTagBytes : ℕ := 1024

/-- The execution state of one COMPOUND, with the server it acts on. -/
structure Compound (σ : Type) where
  server : σ
  fh : Option Path
  saved : Option Path

/-- What an operation returns and leaves: its status, the bytes it appends, the slots and the
server, and the decoder after its arguments. -/
structure Answer (σ : Type) where
  status : NfsStat
  appended : List UInt8
  c : Compound σ
  d : Decoder
  status_first : uint32 status <+: appended

abbrev OpFunc (σ : Type) := Compound σ → Decoder → Answer σ

abbrev OpTable (σ : Type) := Fin 40 → Option (OpFunc σ)

section Source

variable {σ : Type} (table : OpTable σ)

def OpTable.op (opnum : UInt32) : Option (OpFunc σ) :=
  if h : opAccess ≤ opnum ∧ opnum.toNat < 40 then table ⟨opnum.toNat, h.2⟩ else none

/-- The variables of the loop over the operations. -/
structure Loop (σ : Type) where
  c : Compound σ
  d : Decoder
  e : List UInt8
  status : NfsStat
  count : ℕ

/-- The number and the status that answer an operation without an entry in the table. -/
def refusal (opnum : UInt32) : UInt32 × NfsStat :=
  if opAccess ≤ opnum ∧ opnum.toNat < 40 then (opnum, nfs4ErrNotSupp)
  else (opIllegal, nfs4ErrOpIllegal)

def Loop.run (cap resultsFrom : ℕ) : ℕ → Loop σ → Loop σ
  | 0, l => l
  | n + 1, l =>
    let (opnum, d) := l.d.uint32
    -- Garbled in mid-stream: the reply holds the operations already run.
    if d.failed then { l with d := d }
    else
      match table.op opnum with
      | none =>
        let (num, status) := refusal opnum
        ⟨l.c, d, l.e ++ uint32 num ++ uint32 status, status, l.count + 1⟩
      | some op =>
        let mark := l.e.length
        let a := op l.c d
        let e := l.e ++ uint32 opnum ++ a.appended
        let (e, status) :=
          if e.length - resultsFrom > cap then
            (truncate e mark ++ uint32 opnum ++ uint32 nfs4ErrResource, nfs4ErrResource)
          else (e, a.status)
        let l : Loop σ := ⟨a.c, a.d, e, status, l.count + 1⟩
        if status ≠ nfs4OK then l else Loop.run cap resultsFrom n l

/-- The arguments before the operations, with the decoder after them. -/
structure Header where
  tag : List UInt8
  minor : UInt32
  numOps : UInt32
  d : Decoder

def header (d : Decoder) : Header :=
  let (tag, d) := d.opaqueVar maxTagBytes
  let (minor, d) := d.uint32
  let (numOps, d) := d.uint32
  ⟨tag, minor, numOps, d⟩

/-- A call gives the encoder with its reply, or none when the arguments did not decode, and the
server it leaves. -/
def compound (sweepDue : σ → σ) (cap : ℕ) (server : σ) (d : Decoder) (e : List UInt8) :
    Option (List UInt8) × σ :=
  let server := sweepDue server
  let ⟨tag, minor, numOps, d⟩ := header d
  if d.failed then (none, server)
  else
    let statusAt := e.length
    let e := e ++ uint32 0 ++ opaqueVar tag
    let countAt := e.length
    let e := e ++ uint32 0
    let start : Loop σ := ⟨⟨server, none, none⟩, d, e, nfs4OK, 0⟩
    let l :=
      if minor ≠ 0 then { start with status := nfs4ErrMinorVersMismatch }
      else if numOps.toNat > maxCompoundOps then { start with status := nfs4ErrResource }
      else start.run table cap e.length numOps.toNat
    (some (patchUint32 (patchUint32 l.e statusAt l.status) countAt (UInt32.ofNat l.count)),
      l.c.server)

end Source

/-- One entry of a reply. -/
structure Result where
  opnum : UInt32
  status : NfsStat
  body : List UInt8
  deriving DecidableEq

def Result.encode (r : Result) : List UInt8 := uint32 r.opnum ++ (uint32 r.status ++ r.body)

def encodeAll (results : List Result) : List UInt8 := results.flatMap Result.encode

/-- The result of an operation that ran after `used` bytes of results. One that makes the results
too long is answered by an error in place of what it encoded. -/
def report {σ : Type} (cap used : ℕ) (opnum : UInt32) (a : Answer σ) : Result :=
  if used + (4 + a.appended.length) > cap then ⟨opnum, nfs4ErrResource, []⟩
  else ⟨opnum, a.status, a.appended.drop 4⟩

section Meaning

variable {σ : Type} {table : OpTable σ} {cap : ℕ}

/-- What a COMPOUND means: with `n` operations left and `used` bytes of results so far it runs
the operations of the first list, reports the results of the second, and leaves the last slots. -/
inductive Answers (table : OpTable σ) (cap : ℕ) : ℕ → Compound σ → Decoder → ℕ →
    List (UInt32 × Answer σ) → List Result → Compound σ → Prop where
  | finished (c : Compound σ) (d : Decoder) (used : ℕ) : Answers table cap 0 c d used [] [] c
  | garbled {n : ℕ} {d : Decoder} (c : Compound σ) (used : ℕ) (h : d.uint32.2.failed = true) :
      Answers table cap (n + 1) c d used [] [] c
  | refused {n : ℕ} {d : Decoder} (c : Compound σ) (used : ℕ) (h : d.uint32.2.failed = false)
      (hop : table.op d.uint32.1 = none) :
      Answers table cap (n + 1) c d used []
        [⟨(refusal d.uint32.1).1, (refusal d.uint32.1).2, []⟩] c
  | failed {n used : ℕ} {d : Decoder} {c : Compound σ} {op : OpFunc σ}
      (h : d.uint32.2.failed = false) (hop : table.op d.uint32.1 = some op)
      (hr : (report cap used d.uint32.1 (op c d.uint32.2)).status ≠ nfs4OK) :
      Answers table cap (n + 1) c d used [(d.uint32.1, op c d.uint32.2)]
        [report cap used d.uint32.1 (op c d.uint32.2)] (op c d.uint32.2).c
  | next {n used : ℕ} {d : Decoder} {c c' : Compound σ} {op : OpFunc σ}
      {ran : List (UInt32 × Answer σ)} {results : List Result}
      (h : d.uint32.2.failed = false) (hop : table.op d.uint32.1 = some op)
      (hr : (report cap used d.uint32.1 (op c d.uint32.2)).status = nfs4OK)
      (rest : Answers table cap n (op c d.uint32.2).c (op c d.uint32.2).d
        (used + (report cap used d.uint32.1 (op c d.uint32.2)).encode.length) ran results c') :
      Answers table cap (n + 1) c d used ((d.uint32.1, op c d.uint32.2) :: ran)
        (report cap used d.uint32.1 (op c d.uint32.2) :: results) c'

variable {n used : ℕ} {c c' : Compound σ} {d : Decoder} {ran : List (UInt32 × Answer σ)}
  {results : List Result} {opnum : UInt32} {a : Answer σ}

theorem report_opnum : (report cap used opnum a).opnum = opnum := by
  unfold report
  split <;> rfl

theorem report_ok (h : (report cap used opnum a).status = nfs4OK) : a.status = nfs4OK ∧
    used + (report cap used opnum a).encode.length ≤ cap := by
  obtain ⟨rest, hrest⟩ := a.status_first
  have hlen := congrArg List.length hrest
  simp only [List.length_append, length_uint32] at hlen
  unfold report at h ⊢
  split at h
  · cases h
  rename_i hfit
  rw [if_neg hfit]
  refine ⟨h, ?_⟩
  simp only [Result.encode, List.length_append, List.length_drop, length_uint32]
  omega

theorem encode_report_le (h : used ≤ cap) :
    used + (report cap used opnum a).encode.length ≤ cap + 8 := by
  unfold report
  split
  · simp only [Result.encode, List.length_append, length_uint32, List.length_nil]
    omega
  rename_i hfit
  obtain ⟨rest, hrest⟩ := a.status_first
  have hlen := congrArg List.length hrest
  simp only [List.length_append, length_uint32] at hlen
  simp only [Result.encode, List.length_append, List.length_drop, length_uint32]
  omega

theorem Answers.results_ok (h : Answers table cap n c d used ran results c') :
    ∀ r ∈ results.dropLast, r.status = nfs4OK := by
  induction h with
  | finished | garbled | refused | failed =>
    intro r hr
    cases hr
  | @next n used d c c' op ran results _ _ hok _ ih =>
    intro r hr
    cases results with
    | nil => cases hr
    | cons r' results =>
      rcases List.mem_cons.1 hr with rfl | hr
      · exact hok
      · exact ih r hr

theorem Answers.ran_ok (h : Answers table cap n c d used ran results c') :
    (∀ x ∈ ran.dropLast, x.2.status = nfs4OK) ∧
      ran.map Prod.fst <+: results.map Result.opnum ∧ results.length ≤ n := by
  induction h with
  | finished => exact ⟨nofun, List.prefix_rfl, Nat.le_refl _⟩
  | garbled => exact ⟨nofun, List.prefix_rfl, Nat.zero_le _⟩
  | refused => exact ⟨nofun, List.nil_prefix, Nat.le_add_left _ _⟩
  | failed =>
    simp only [List.map_singleton, report_opnum]
    exact ⟨nofun, List.prefix_rfl, Nat.le_add_left _ _⟩
  | @next n used d c c' op ran results _ _ hok _ ih =>
    obtain ⟨hran, hnums, hlen⟩ := ih
    refine ⟨fun x hx => ?_, ?_, Nat.succ_le_succ hlen⟩
    · cases ran with
      | nil => cases hx
      | cons y ran =>
        rcases List.mem_cons.1 hx with rfl | hx
        · exact (report_ok hok).1
        · exact hran x hx
    · rw [List.map_cons, List.map_cons, report_opnum]
      exact (List.prefix_cons_inj _).2 hnums

theorem Answers.bounded (h : Answers table cap n c d used ran results c') (hused : used ≤ cap) :
    used + (encodeAll results).length ≤ cap + 8 := by
  induction h with
  | finished | garbled =>
    simp only [encodeAll, List.flatMap_nil, List.length_nil]
    omega
  | refused =>
    simp only [encodeAll, List.flatMap_cons, List.flatMap_nil, Result.encode, List.length_append,
      length_uint32, List.length_nil]
    omega
  | failed =>
    simp only [encodeAll, List.flatMap_cons, List.flatMap_nil, List.append_nil]
    exact encode_report_le hused
  | next _ _ hok _ ih =>
    have hrest := ih (report_ok hok).2
    simp only [encodeAll, List.flatMap_cons, List.length_append] at hrest ⊢
    omega

end Meaning

section Refinement

variable {σ : Type} (table : OpTable σ) (cap : ℕ)

/-- The status of the last result, or another one when there is none. -/
def lastStatus (init : NfsStat) (results : List Result) : NfsStat :=
  (results.getLast?.map Result.status).getD init

theorem lastStatus_cons (init : NfsStat) (r : Result) (results : List Result) :
    lastStatus init (r :: results) = lastStatus r.status results := by
  rw [lastStatus, lastStatus, List.getLast?_cons]
  cases results.getLast? <;> rfl

theorem append_report (pre e : List UInt8) (opnum : UInt32) (a : Answer σ) :
    (if (pre ++ e ++ uint32 opnum ++ a.appended).length - pre.length > cap then
        (truncate (pre ++ e ++ uint32 opnum ++ a.appended) (pre ++ e).length ++ uint32 opnum ++
          uint32 nfs4ErrResource, nfs4ErrResource)
      else (pre ++ e ++ uint32 opnum ++ a.appended, a.status)) =
      (pre ++ (e ++ (report cap e.length opnum a).encode),
        (report cap e.length opnum a).status) := by
  obtain ⟨rest, hrest⟩ := a.status_first
  have hlen : (pre ++ e ++ uint32 opnum ++ a.appended).length - pre.length =
      e.length + (4 + a.appended.length) := by
    simp only [List.length_append, length_uint32]
    omega
  rw [hlen, report]
  split
  · rw [List.append_assoc (pre ++ e), truncate_append]
    simp only [Result.encode, List.append_nil, List.append_assoc]
  have hdrop : uint32 a.status ++ a.appended.drop 4 = a.appended := by
    rw [← hrest]
    rfl
  simp only [Result.encode, hdrop, List.append_assoc]

theorem run_answers (pre : List UInt8) (n : ℕ) : ∀ (l : Loop σ) (e : List UInt8), l.e = pre ++ e →
    ∃ ran results, Answers table cap n l.c l.d e.length ran results
        (l.run table cap pre.length n).c ∧
      (l.run table cap pre.length n).e = pre ++ (e ++ encodeAll results) ∧
      (l.run table cap pre.length n).count = l.count + results.length ∧
      (l.run table cap pre.length n).status = lastStatus l.status results := by
  induction n with
  | zero =>
    intro l e he
    refine ⟨[], [], .finished .., ?_, rfl, rfl⟩
    rw [encodeAll, List.flatMap_nil, List.append_nil]
    exact he
  | succ n ih =>
    intro l e he
    obtain ⟨c, d, e', status, count⟩ := l
    simp only at he
    subst he
    rw [Loop.run]
    simp only
    split
    · rename_i hfail
      refine ⟨[], [], .garbled _ _ hfail, ?_, rfl, rfl⟩
      rw [encodeAll, List.flatMap_nil, List.append_nil]
    rename_i hfail
    have hfail := Bool.eq_false_iff.2 hfail
    split
    · rename_i hop
      refine ⟨[], _, .refused _ _ hfail hop, ?_, rfl, rfl⟩
      simp only [encodeAll, List.flatMap_cons, List.flatMap_nil, Result.encode, List.append_nil,
        List.append_assoc]
    rename_i op hop
    rw [append_report]
    simp only
    split
    · rename_i hr
      refine ⟨_, _, .failed hfail hop hr, ?_, rfl, rfl⟩
      simp only [encodeAll, List.flatMap_cons, List.flatMap_nil, List.append_nil]
    rename_i hr
    obtain ⟨ran, results, h, hbytes, hcount, hstatus⟩ := ih
      ⟨(op c d.uint32.2).c, (op c d.uint32.2).d, _, _, count + 1⟩ _ rfl
    rw [List.length_append] at h
    refine ⟨_, _, .next hfail hop (not_not.1 hr) h, ?_, ?_, ?_⟩
    · rw [hbytes]
      simp only [encodeAll, List.flatMap_cons, List.append_assoc]
    · rw [hcount, List.length_cons, Nat.add_assoc, Nat.add_comm 1]
    · rw [hstatus, lastStatus_cons]

/-- The status a call gets from its header alone. -/
def Header.status (h : Header) : NfsStat :=
  if h.minor ≠ 0 then nfs4ErrMinorVersMismatch
  else if h.numOps.toNat > maxCompoundOps then nfs4ErrResource
  else nfs4OK

/-- The operations a call may run. -/
def Header.ops (h : Header) : ℕ := if h.status = nfs4OK then h.numOps.toNat else 0

theorem Header.ops_le (h : Header) : h.ops ≤ maxCompoundOps := by
  unfold Header.ops Header.status
  split
  · exact Nat.zero_le _
  split
  · exact Nat.zero_le _
  · rw [if_pos rfl]
    omega

theorem compound_eq (sweepDue : σ → σ) (server : σ) (d : Decoder) (e : List UInt8)
    (hd : (header d).d.failed = false) : ∃ l : Loop σ,
      l = (⟨⟨sweepDue server, none, none⟩, (header d).d,
        e ++ uint32 0 ++ opaqueVar (header d).tag ++ uint32 0, (header d).status, 0⟩ : Loop σ).run
          table cap (e ++ uint32 0 ++ opaqueVar (header d).tag ++ uint32 0).length (header d).ops ∧
      compound table sweepDue cap server d e =
        (some (patchUint32 (patchUint32 l.e e.length l.status)
          (e ++ uint32 0 ++ opaqueVar (header d).tag).length (UInt32.ofNat l.count)),
          l.c.server) := by
  refine ⟨_, rfl, ?_⟩
  unfold compound Header.ops Header.status
  simp only [hd, Bool.false_eq_true, if_false]
  split
  · rfl
  split
  · rfl
  · rfl

theorem compound_consistent (sweepDue : σ → σ) (server : σ) (d : Decoder) (e : List UInt8) :
    ((compound table sweepDue cap server d e).1 = none ↔ (header d).d.failed = true) ∧
      ∀ reply, (compound table sweepDue cap server d e).1 = some reply →
        ∃ status ran results c',
          reply = e ++ (uint32 status ++ (opaqueVar (header d).tag ++
            (uint32 (UInt32.ofNat results.length) ++ encodeAll results))) ∧
          Answers table cap (header d).ops ⟨sweepDue server, none, none⟩ (header d).d 0 ran
            results c' ∧
          (compound table sweepDue cap server d e).2 = c'.server ∧
          results.length ≤ maxCompoundOps ∧
          (∀ r ∈ results.dropLast, r.status = nfs4OK) ∧
          status = lastStatus (header d).status results ∧
          (∀ x ∈ ran.dropLast, x.2.status = nfs4OK) ∧
          ran.map Prod.fst <+: results.map Result.opnum ∧
          (encodeAll results).length ≤ cap + 8 := by
  cases hd : (header d).d.failed with
  | true =>
    have hnone : (compound table sweepDue cap server d e).1 = none := by
      simp only [compound, hd, if_true]
    refine ⟨iff_of_true hnone rfl, fun reply h => ?_⟩
    rw [hnone] at h
    cases h
  | false =>
    obtain ⟨l, hl, heq⟩ := compound_eq table cap sweepDue server d e hd
    rw [heq]
    refine ⟨iff_of_false nofun nofun, ?_⟩
    rintro reply ⟨⟩
    obtain ⟨ran, results, h, hbytes, hcount, hstatus⟩ := run_answers table cap
      (e ++ uint32 0 ++ opaqueVar (header d).tag ++ uint32 0) (header d).ops
      ⟨⟨sweepDue server, none, none⟩, (header d).d, _, (header d).status, 0⟩ []
      (List.append_nil _).symm
    rw [← hl] at h hbytes hcount hstatus
    obtain ⟨hran, hnums, hlen⟩ := h.ran_ok
    refine ⟨_, ran, results, l.c, ?_, h, rfl, Nat.le_trans hlen (header d).ops_le, h.results_ok,
      hstatus, hran, hnums, ?_⟩
    · rw [hbytes, hcount, Nat.zero_add, List.nil_append]
      simp only [List.append_assoc]
      rw [patchUint32_append, ← List.append_assoc (uint32 _), ← List.append_assoc e,
        show (e ++ (uint32 0 ++ opaqueVar (header d).tag)).length =
          (e ++ (uint32 l.status ++ opaqueVar (header d).tag)).length from by
            simp only [List.length_append, length_uint32],
        patchUint32_append]
      simp only [List.append_assoc]
    · have hbound := h.bounded (Nat.zero_le cap)
      rwa [List.length_nil, Nat.zero_add] at hbound

end Refinement

end NfsCompound
