import FacetFS.EventSystem
import FacetFS.SmbMessageWindow

/-! # Credits and message ids of one SMB connection

The server side is `admit`, `grant` and the SMB1 step-up of the source. The client
side is a conforming client: it numbers its messages consecutively, charges at most
the credits it holds, and receives grants in any order and at any later point.
Messages are admitted in the order they were sent. -/
namespace SmbCreditRun

open SmbMessageWindow

structure Header where
  creditCharge : UInt16
  command : UInt16
  credits : UInt16
  messageID : UInt64
  deriving DecidableEq

def cmdNegotiate : UInt16 := 0x0000
def cmdCancel : UInt16 := 0x000C

structure Connection where
  negotiated : Bool
  smb1 : Bool
  credits : ℤ
  window : MessageWindow

/-- One credit is granted implicitly so that the client may send its first request. -/
def Connection.fresh : Connection := ⟨false, false, 1, .fresh⟩

def Header.charge (h : Header) : ℕ :=
  if h.creditCharge = 0 then 1 else h.creditCharge.toNat

def Connection.admitMessage (conn : Connection) (h : Header) : Bool × Connection :=
  if h.command = cmdCancel then (true, conn)
  else if (h.charge : ℤ) > conn.credits then (false, conn)
  else
    match conn.window.take h.messageID h.charge with
    | (false, w) => (false, { conn with window := w })
    | (true, w) => (true, { conn with window := w, credits := conn.credits - h.charge })

def Connection.grant (conn : Connection) (request : UInt16) : ℕ × Connection :=
  let want : ℤ := max request.toNat 1
  let room : ℤ := maxCredits - conn.credits
  if room ≤ 0 then (0, conn)
  else
    let want := if want > room then room else want
    (want.toNat, { conn with credits := conn.credits + want })

section StepUp

def smb1HeaderSize : ℕ := 32
def smb1MinNegotiate : ℕ := smb1HeaderSize + 3
def smb1CmdNegotiate : UInt8 := 0x72

def smb1DialectWildcard : List UInt8 := [0x53, 0x4D, 0x42, 0x20, 0x32, 0x2E, 0x3F, 0x3F, 0x3F]

/-- The dialect loop; every round consumes at least two bytes, so the length bounds it. -/
def offersDialect : ℕ → List UInt8 → Bool
  | 0, _ => false
  | _ + 1, [] => false
  | k + 1, d :: rest =>
    if d ≠ 0x02 then false
    else
      match rest.findIdx? (· == 0) with
      | none => false
      | some stop =>
        if rest.take stop = smb1DialectWildcard then true
        else offersDialect k (rest.drop (stop + 1))

def smb1OffersWildcard (frame : List UInt8) : Bool :=
  if frame.length < smb1MinNegotiate ∨ frame[4]? ≠ some smb1CmdNegotiate ∨
      frame[smb1HeaderSize]? ≠ some 0 then false
  else
    let count := (frame.getD (smb1HeaderSize + 1) 0).toNat +
      256 * (frame.getD (smb1HeaderSize + 2) 0).toNat
    if smb1MinNegotiate + count > frame.length then false
    else offersDialect (count + 1) ((frame.drop smb1MinNegotiate).take count)

/-- The answer carries message id zero and one credit. Neither the window nor the
credit balance of the connection is touched. -/
def Connection.smb1Negotiate (conn : Connection) (frame : List UInt8) : Bool × Connection :=
  (!conn.negotiated && !conn.smb1 && smb1OffersWildcard frame, { conn with smb1 := true })

end StepUp

structure State where
  conn : Connection
  nextID : ℕ
  held : ℕ
  sent : List Header
  unanswered : List UInt16
  inFlight : List ℕ
  offered : ℕ
  refused : Bool

/-- How the client opens the connection: in SMB2, or with an SMB1 multi-protocol frame. -/
inductive Opening where
  | direct
  | stepUp (frame : List UInt8)
  deriving DecidableEq

/-- After a step-up the answer used id zero and its credit, so the client goes on with
id one and the credit of that answer. -/
def started : Opening → Option State
  | .direct => some ⟨.fresh, 0, 1, [], [], [], 0, false⟩
  | .stepUp frame =>
    match Connection.fresh.smb1Negotiate frame with
    | (true, conn) => some ⟨conn, 1, 1, [], [], [], 1, false⟩
    | (false, _) => none

inductive Event where
  | send (h : Header)
  | admitNext
  | respond (i : ℕ)
  | receive (i : ℕ)
  deriving DecidableEq

/-- What a conforming client may send: a CANCEL names some earlier id and is neither
charged nor numbered, every other message takes the next ids. -/
def Conforming (s : State) (h : Header) : Prop :=
  h.command = cmdCancel ∨
    (h.messageID.toNat = s.nextID ∧ h.charge ≤ s.held ∧ s.nextID + h.charge ≤ 2 ^ 64)

instance (s : State) (h : Header) : Decidable (Conforming s h) :=
  inferInstanceAs (Decidable (_ ∨ (_ ∧ _ ∧ _)))

def next (s : State) : Event → Option State
  | .send h =>
    if s.refused = false ∧ Conforming s h then
      if h.command = cmdCancel then some { s with sent := s.sent ++ [h] }
      else some { s with
        sent := s.sent ++ [h], nextID := s.nextID + h.charge, held := s.held - h.charge }
    else none
  | .admitNext =>
    if s.refused then none
    else
      match s.sent with
      | [] => none
      | h :: rest =>
        if h.command = cmdCancel then
          some { s with sent := rest, conn := (s.conn.admitMessage h).2 }
        else
          some { s with
            sent := rest
            conn := (s.conn.admitMessage h).2
            offered := h.messageID.toNat + h.charge
            refused := !(s.conn.admitMessage h).1
            unanswered := s.unanswered ++ [h.credits] }
  | .respond i =>
    if s.refused then none
    else
      match s.unanswered[i]? with
      | none => none
      | some request =>
        some { s with
          unanswered := s.unanswered.eraseIdx i
          conn := (s.conn.grant request).2
          inFlight := s.inFlight ++ [(s.conn.grant request).1] }
  | .receive i =>
    if s.refused then none
    else
      match s.inFlight[i]? with
      | none => none
      | some g => some { s with inFlight := s.inFlight.eraseIdx i, held := s.held + g }

/-- The queued messages are numbered consecutively from `a` up to `b`. -/
def Numbered : ℕ → List Header → ℕ → Prop
  | a, [], b => a = b
  | a, h :: hs, b =>
    if h.command = cmdCancel then Numbered a hs b
    else h.messageID.toNat = a ∧ a + h.charge ≤ 2 ^ 64 ∧ Numbered (a + h.charge) hs b

def queuedCharge (hs : List Header) : ℕ :=
  (hs.map fun h => if h.command = cmdCancel then 0 else h.charge).sum

theorem charge_pos (h : Header) : 0 < h.charge := by
  unfold Header.charge
  split_ifs with hz
  · exact Nat.one_pos
  · have : h.creditCharge.toNat ≠ 0 := fun he => hz (UInt16.toNat_inj.mp (by simpa using he))
    omega

theorem Numbered.append {a b c hs gs} (hn : Numbered a hs b) (hg : Numbered b gs c) :
    Numbered a (hs ++ gs) c := by
  induction hs generalizing a with
  | nil =>
    obtain rfl : a = b := hn
    exact hg
  | cons h hs ih =>
    by_cases hc : h.command = cmdCancel
    · simp only [Numbered, hc, if_true, List.cons_append] at hn ⊢
      exact ih hn
    · simp only [Numbered, hc, if_false, List.cons_append] at hn ⊢
      exact ⟨hn.1, hn.2.1, ih hn.2.2⟩

theorem grant_spec (conn : Connection) (request : UInt16) (h : conn.credits ≤ 512) :
    (conn.grant request).2.credits = conn.credits + (conn.grant request).1 ∧
    (conn.grant request).2.credits ≤ 512 ∧
    (conn.grant request).2.window = conn.window := by
  have hm : (maxCredits : ℤ) = 512 := rfl
  unfold Connection.grant
  simp only [hm]
  split_ifs <;> refine ⟨?_, ?_, rfl⟩ <;> simp only [] <;> omega

/-- `first` is the first id of the client: zero, or one after a step-up. Between the
two counters of the connection lie the grants under way and the queued charges. -/
structure Balanced (first : ℕ) (s : State) : Prop where
  credits : s.conn.credits = s.held + s.inFlight.sum + queuedCharge s.sent
  bound : s.conn.credits ≤ 512
  numbered : Numbered s.offered s.sent s.nextID
  start : first ≤ s.offered
  tracks : s.offered < 2 ^ 64 →
    Tracks s.conn.window (fun i => first ≤ i ∧ i < s.offered)

theorem queuedCharge_concat (hs : List Header) (h : Header) (hc : h.command ≠ cmdCancel) :
    queuedCharge (hs ++ [h]) = queuedCharge hs + h.charge := by
  simp [queuedCharge, hc]

theorem queuedCharge_cons (hs : List Header) (h : Header) (hc : h.command ≠ cmdCancel) :
    queuedCharge (h :: hs) = h.charge + queuedCharge hs := by
  simp [queuedCharge, hc]

theorem admit_cancel (conn : Connection) {h} (hc : h.command = cmdCancel) :
    conn.admitMessage h = (true, conn) := by
  simp [Connection.admitMessage, hc]

theorem admit_charged {conn : Connection} {h : Header} (hc : h.command ≠ cmdCancel)
    (hcr : (h.charge : ℤ) ≤ conn.credits) :
    (conn.admitMessage h).1 = (conn.window.take h.messageID h.charge).1 ∧
    ((conn.window.take h.messageID h.charge).1 = true →
      (conn.admitMessage h).2 = { conn with
        window := (conn.window.take h.messageID h.charge).2
        credits := conn.credits - h.charge }) := by
  unfold Connection.admitMessage
  rw [if_neg hc, if_neg (by omega)]
  cases hw : conn.window.take h.messageID h.charge with
  | mk ok w => cases ok <;> simp

theorem Balanced.head_covered {first s} (hb : Balanced first s) {h rest} (hs : s.sent = h :: rest)
    (hc : h.command ≠ cmdCancel) : (h.charge : ℤ) ≤ s.conn.credits ∧ h.charge ≤ 512 := by
  have := hb.credits
  have := hb.bound
  rw [hs, queuedCharge_cons _ _ hc] at *
  omega

/-- The window accepts the oldest message exactly when its range lies in the window:
always after a direct opening, up to id 1023 after a step-up. -/
theorem Balanced.take_head {first : ℕ} (hfirst : first ≤ 1) {s : State}
    (hb : Balanced first s) {h : Header} (hid : h.messageID.toNat = s.offered)
    (h64 : s.offered + h.charge ≤ 2 ^ 64) (hle : h.charge ≤ 512) :
    (s.conn.window.take h.messageID h.charge).1 = true ↔
      first = 0 ∨ s.offered + h.charge ≤ 1024 := by
  have hpos := charge_pos h
  have htr := hb.tracks (by omega)
  have hspan : span = 1024 := rfl
  rw [take_iff htr, hid, hspan]
  rcases Nat.le_one_iff_eq_zero_or_eq_one.mp hfirst with rfl | rfl
  · have hbase : s.conn.window.base = s.offered := htr.base_eq (by simp)
    rw [hbase]
    simp only [true_or, iff_true]
    exact ⟨by omega, fun i h₁ h₂ => by omega⟩
  have hbase : s.conn.window.base = 0 := by
    have := htr.base_isLeast.2 (show ¬ (1 ≤ 0 ∧ 0 < s.offered) by omega)
    omega
  rw [hbase]
  constructor
  · rintro ⟨_, hall⟩
    have := hall (s.offered + h.charge - 1) (by omega) (by omega)
    omega
  · intro hfit
    exact ⟨by omega, fun i h₁ h₂ => by omega⟩

theorem Balanced.admit_head {first : ℕ} (hfirst : first ≤ 1) {s : State} (hb : Balanced first s)
    {h : Header} {rest : List Header} (hs : s.sent = h :: rest) (hc : h.command ≠ cmdCancel)
    (hok : first = 0 ∨ s.offered + h.charge ≤ 1024) (us : List UInt16) :
    (s.conn.admitMessage h).1 = true ∧
    Balanced first { s with
      sent := rest
      conn := (s.conn.admitMessage h).2
      offered := h.messageID.toNat + h.charge
      refused := !(s.conn.admitMessage h).1
      unanswered := us } := by
  obtain ⟨hcr, hle⟩ := hb.head_covered hs hc
  have hnum := hb.numbered
  rw [hs] at hnum
  simp only [Numbered, hc, if_false] at hnum
  obtain ⟨hid, h64, hrest⟩ := hnum
  have htake := (hb.take_head hfirst hid h64 hle).mpr hok
  obtain ⟨hadm, hconn⟩ := admit_charged hc hcr
  have hpos := charge_pos h
  rw [hconn htake, hadm, htake, hid]
  have hcredits := hb.credits
  have hbound := hb.bound
  have hstart := hb.start
  rw [hs, queuedCharge_cons _ _ hc] at hcredits
  refine ⟨rfl, ?_, ?_, hrest, ?_, ?_⟩
  · change s.conn.credits - h.charge = s.held + s.inFlight.sum + queuedCharge rest
    omega
  · change s.conn.credits - (h.charge : ℤ) ≤ 512
    omega
  · change first ≤ s.offered + h.charge
    omega
  intro hlt
  change s.offered + h.charge < 2 ^ 64 at hlt
  have htr := take_tracks (hb.tracks (by omega)) htake (m := s.offered + h.charge)
    (by simp only [hid, Int.toNat_natCast]; omega) hlt
  have hset : (fun i => first ≤ i ∧ i < s.offered + h.charge) = fun i =>
      (first ≤ i ∧ i < s.offered) ∨
        (h.messageID.toNat ≤ i ∧ i < h.messageID.toNat + (h.charge : ℤ).toNat) := by
    funext i
    simp only [hid, Int.toNat_natCast, eq_iff_iff]
    omega
  change Tracks (s.conn.window.take h.messageID h.charge).2
    (fun i => first ≤ i ∧ i < s.offered + h.charge)
  rwa [hset]

theorem Balanced.send {first s t h} (hb : Balanced first s) (ht : next s (.send h) = some t) :
    Balanced first t ∧ t.refused = s.refused ∧ t.offered = s.offered := by
  simp only [next] at ht
  split_ifs at ht with hg hc
  · cases ht
    refine ⟨⟨?_, hb.bound, hb.numbered.append (by simp [Numbered, hc]), hb.start, hb.tracks⟩, rfl, rfl⟩
    simpa [queuedCharge, hc] using hb.credits
  cases ht
  obtain ⟨hid, hheld, h64⟩ := hg.2.resolve_left hc
  refine ⟨⟨?_, hb.bound, hb.numbered.append (by simpa [Numbered, hc, hid]), hb.start,
    hb.tracks⟩,
    rfl, rfl⟩
  have hcredits := hb.credits
  change s.conn.credits = (s.held - h.charge : ℕ) + s.inFlight.sum + queuedCharge (s.sent ++ [h])
  rw [queuedCharge_concat _ _ hc]
  omega

theorem Balanced.respond {first s t i} (hb : Balanced first s) (ht : next s (.respond i) = some t) :
    Balanced first t ∧ t.refused = s.refused ∧ t.offered = s.offered := by
  simp only [next] at ht
  split_ifs at ht with hr
  cases hu : s.unanswered[i]? with
  | none => simp [hu] at ht
  | some request =>
    simp only [hu] at ht
    cases ht
    obtain ⟨hsum, hle, hw⟩ := grant_spec s.conn request hb.bound
    refine ⟨⟨?_, hle, hb.numbered, hb.start, ?_⟩, rfl, rfl⟩
    · have hcredits := hb.credits
      change (s.conn.grant request).2.credits =
        s.held + (s.inFlight ++ [(s.conn.grant request).1]).sum + queuedCharge s.sent
      rw [hsum, List.sum_append, List.sum_singleton]
      omega
    · simpa [hw] using hb.tracks

theorem Balanced.receive {first s t i} (hb : Balanced first s) (ht : next s (.receive i) = some t) :
    Balanced first t ∧ t.refused = s.refused ∧ t.offered = s.offered := by
  simp only [next] at ht
  split_ifs at ht with hr
  cases hg : s.inFlight[i]? with
  | none => simp [hg] at ht
  | some g =>
    simp only [hg] at ht
    cases ht
    obtain ⟨hi, hgi⟩ := List.getElem?_eq_some_iff.mp hg
    have hsum : g + (s.inFlight.eraseIdx i).sum = s.inFlight.sum := by
      rw [← hgi]
      exact (List.getElem_cons_eraseIdx_perm hi).sum_eq
    refine ⟨⟨?_, hb.bound, hb.numbered, hb.start, hb.tracks⟩, rfl, rfl⟩
    have hcredits := hb.credits
    change s.conn.credits = (s.held + g : ℕ) + (s.inFlight.eraseIdx i).sum + queuedCharge s.sent
    omega

/-- Either every message so far was accepted, or the connection was stepped up and
its last range left the window. -/
def Verdict (first : ℕ) (s : State) : Prop :=
  (s.refused = false ∧ Balanced first s ∧ (first = 0 ∨ s.offered ≤ 1024)) ∨
  (s.refused = true ∧ first = 1 ∧ 1024 < s.offered)

theorem Balanced.admitNext {first} (hfirst : first ≤ 1) {s t} (hb : Balanced first s)
    (hfit : first = 0 ∨ s.offered ≤ 1024) (ht : next s .admitNext = some t) : Verdict first t := by
  simp only [next] at ht
  split_ifs at ht with hr
  cases hs : s.sent with
  | nil => simp [hs] at ht
  | cons h rest =>
    simp only [hs] at ht
    split_ifs at ht with hc
    · cases ht
      refine .inl ⟨by simpa using hr, ?_, hfit⟩
      rw [admit_cancel _ hc]
      have hnum := hb.numbered
      have hcredits := hb.credits
      rw [hs] at hnum hcredits
      simp only [Numbered, hc, if_true] at hnum
      refine ⟨?_, hb.bound, hnum, hb.start, hb.tracks⟩
      simpa [queuedCharge, hc] using hcredits
    cases ht
    obtain ⟨hcr, hle⟩ := hb.head_covered hs hc
    have hnum := hb.numbered
    rw [hs] at hnum
    simp only [Numbered, hc, if_false] at hnum
    obtain ⟨hid, h64, _⟩ := hnum
    by_cases hok : first = 0 ∨ s.offered + h.charge ≤ 1024
    · obtain ⟨hadm, hbal⟩ := hb.admit_head hfirst hs hc hok (s.unanswered ++ [h.credits])
      refine .inl ⟨by simp [hadm], hbal, ?_⟩
      simpa [hid] using hok
    have hno := mt (hb.take_head hfirst hid h64 hle).mp hok
    rw [← (admit_charged hc hcr).1, Bool.not_eq_true] at hno
    refine .inr ⟨by simp [hno], by omega, ?_⟩
    change 1024 < h.messageID.toNat + h.charge
    omega

theorem next_verdict {first} (hfirst : first ≤ 1) (s : State) (e : Event) (t : State)
    (h : Verdict first s) (ht : next s e = some t) : Verdict first t := by
  rcases h with ⟨hr, hb, hfit⟩ | ⟨hr, -, -⟩
  · cases e with
    | send h =>
      obtain ⟨hbt, hrt, hot⟩ := hb.send ht
      exact .inl ⟨hrt.trans hr, hbt, hot ▸ hfit⟩
    | admitNext => exact hb.admitNext hfirst hfit ht
    | respond i =>
      obtain ⟨hbt, hrt, hot⟩ := hb.respond ht
      exact .inl ⟨hrt.trans hr, hbt, hot ▸ hfit⟩
    | receive i =>
      obtain ⟨hbt, hrt, hot⟩ := hb.receive ht
      exact .inl ⟨hrt.trans hr, hbt, hot ▸ hfit⟩
  · cases e <;> simp [next, hr] at ht

def Opening.first : Opening → ℕ
  | .direct => 0
  | .stepUp _ => 1

theorem Opening.first_le_one (o : Opening) : o.first ≤ 1 := by
  cases o <;> simp [Opening.first]

theorem fresh_tracks_from (first : ℕ) :
    Tracks MessageWindow.fresh (fun i => first ≤ i ∧ i < first) := by
  have hempty : (fun i => first ≤ i ∧ i < first) = fun _ => False := by
    funext i
    simp only [eq_iff_iff, iff_false]
    omega
  rw [hempty]
  exact fresh_tracks

theorem started_verdict {o s} (h : started o = some s) : Verdict o.first s := by
  cases o with
  | direct =>
    cases h
    refine .inl ⟨rfl, ⟨?_, ?_, rfl, le_rfl, fun _ => fresh_tracks_from 0⟩, .inl rfl⟩ <;>
      simp [Connection.fresh, queuedCharge]
  | stepUp frame =>
    simp only [started, Connection.smb1Negotiate] at h
    split at h
    · next conn he =>
      cases h
      obtain rfl := (Prod.mk.inj he).2
      refine .inl ⟨rfl, ⟨?_, ?_, rfl, le_rfl, fun _ => fresh_tracks_from 1⟩,
        .inr (by decide)⟩ <;> simp [Connection.fresh, queuedCharge]
    · simp at h

theorem run_verdict {o s₀ s es} (h₀ : started o = some s₀)
    (h : EventSystem.run next s₀ es = some s) : Verdict o.first s :=
  EventSystem.run_invariant (next_verdict o.first_le_one) (started_verdict h₀) h

theorem Verdict.accepted_of_stepUp {s} (h : Verdict 1 s) :
    s.refused = false ↔ s.offered ≤ 1024 := by
  rcases h with ⟨hr, -, hfit⟩ | ⟨hr, -, hlt⟩
  · simpa [hr] using hfit
  · simp [hr, hlt]

/-- For every opening and every run of a conforming client, of any length: the server
accepted every message exactly when the connection was not stepped up from SMB1, or no
message reached past the 1024 ids above the unused id zero. -/
theorem conforming_run_admitted_iff {o : Opening} {s₀ s : State} {es : List Event}
    (h₀ : started o = some s₀) (h : EventSystem.run next s₀ es = some s) :
    s.refused = false ↔ o = .direct ∨ s.offered ≤ 1024 := by
  have hv := run_verdict h₀ h
  cases o with
  | direct =>
    rcases hv with ⟨hr, -, -⟩ | ⟨-, hone, -⟩
    · simp [hr]
    · simp [Opening.first] at hone
  | stepUp frame => simpa using Verdict.accepted_of_stepUp hv

/-- An SMB1 NEGOTIATE whose only dialect is the wildcard. -/
def wildcardFrame : List UInt8 :=
  [0xFF, 0x53, 0x4D, 0x42, smb1CmdNegotiate] ++ List.replicate 27 0 ++ [0, 11, 0, 0x02] ++
    smb1DialectWildcard ++ [0]

def echo (id : ℕ) : Header := ⟨1, 0x000D, 1, UInt64.ofNat id⟩

def exchange (id : ℕ) : List Event := [.send (echo id), .admitNext, .respond 0, .receive 0]

theorem conforming_run_admitted_stepUp : ∃ s₀ s, started (.stepUp wildcardFrame) = some s₀ ∧
      EventSystem.run next s₀ (exchange 1) = some s ∧ s.refused = false := by
  obtain ⟨s₀, h₀⟩ : ∃ s₀, started (.stepUp wildcardFrame) = some s₀ := ⟨_, rfl⟩
  obtain ⟨s, hrun, hoff⟩ : ∃ s, EventSystem.run next s₀ (exchange 1) = some s ∧
      s.offered ≤ 1024 := by
    cases h₀
    exact ⟨_, rfl, by decide⟩
  exact ⟨s₀, s, h₀, hrun, (conforming_run_admitted_iff h₀ hrun).mpr (.inr hoff)⟩

/-- Nothing is under way, and the client holds its one credit. -/
structure Idle (k : ℕ) (s : State) : Prop where
  refused : s.refused = false
  sent : s.sent = []
  unanswered : s.unanswered = []
  inFlight : s.inFlight = []
  held : s.held = 1
  nextID : s.nextID = k
  offered : s.offered = k

theorem echo_charge (k : ℕ) : (echo k).charge = 1 := by
  simp [Header.charge, echo]

theorem echo_ne_cancel (k : ℕ) : (echo k).command ≠ cmdCancel := by
  simp only [echo]
  decide

theorem echo_messageID {k} (hk : k < 2 ^ 64) : (echo k).messageID.toNat = k :=
  UInt64.toNat_ofNat_of_lt' hk

theorem idle_send_admitNext {k} (hk : k < 2 ^ 64) {s} (hi : Idle k s) :
    ∃ t, EventSystem.run next s [.send (echo k), .admitNext] = some t ∧
      t.refused = !(s.conn.admitMessage (echo k)).1 ∧ t.conn = (s.conn.admitMessage (echo k)).2 ∧
      t.sent = [] ∧ t.unanswered = [1] ∧ t.inFlight = [] ∧ t.held = 0 ∧
      t.nextID = k + 1 ∧ t.offered = k + 1 := by
  have hconf : s.refused = false ∧ Conforming s (echo k) := by
    refine ⟨hi.refused, .inr ?_⟩
    rw [echo_messageID hk, echo_charge, hi.nextID, hi.held]
    omega
  have hsend : next s (.send (echo k)) = some { s with
      sent := [echo k], nextID := s.nextID + (echo k).charge, held := s.held - (echo k).charge } := by
    simp only [next]
    rw [if_pos hconf, if_neg (echo_ne_cancel k), hi.sent]
    rfl
  refine ⟨{ s with
    sent := [], conn := (s.conn.admitMessage (echo k)).2, nextID := k + 1, held := 0, offered := k + 1
    refused := !(s.conn.admitMessage (echo k)).1, unanswered := [1] }, ?_, ?_⟩
  · refine EventSystem.run_cons.mpr ⟨_, hsend, EventSystem.run_cons.mpr ⟨_, ?_, rfl⟩⟩
    simp only [next, hi.refused, Bool.false_eq_true, if_false, echo_ne_cancel k, hi.unanswered,
      hi.held, hi.nextID, echo_charge, echo_messageID hk, List.nil_append]
    rfl
  · exact ⟨rfl, rfl, rfl, rfl, hi.inFlight, rfl, rfl, rfl⟩

theorem idle_exchange {k : ℕ} (hk : k < 2 ^ 64) {s : State} (hi : Idle k s)
    (hcr : s.conn.credits = 1) (hok : (s.conn.admitMessage (echo k)).1 = true) :
    ∃ t, EventSystem.run next s (exchange k) = some t ∧ Idle (k + 1) t ∧
      t.conn.credits = 1 := by
  obtain ⟨t, hrun, href, hconn, hsent, hun, hfl, hheld, hnext, hoff⟩ := idle_send_admitNext hk hi
  have hadm := admit_charged (echo_ne_cancel k)
    (show ((echo k).charge : ℤ) ≤ s.conn.credits by rw [echo_charge, hcr]; rfl)
  have hz : t.conn.credits = 0 := by
    rw [hconn, hadm.2 (hadm.1 ▸ hok), echo_charge]
    simp [hcr]
  have hgrant : (t.conn.grant 1).1 = 1 ∧ (t.conn.grant 1).2.credits = 1 := by
    simp [Connection.grant, hz, maxCredits]
  rw [hok] at href
  refine ⟨{ t with
    unanswered := [], conn := (t.conn.grant 1).2, inFlight := [], held := 1 }, ?_, ?_, ?_⟩
  · change EventSystem.run next s ([.send (echo k), .admitNext] ++ [.respond 0, .receive 0]) = _
    refine EventSystem.run_append.mpr ⟨t, hrun, ?_⟩
    simp [EventSystem.run, next, href, hun, hfl, hheld, hgrant.1]
  · exact ⟨by simpa using href, hsent, rfl, rfl, rfl, hnext, hoff⟩
  · exact hgrant.2

def exchanges (n : ℕ) : List Event := (List.range n).flatMap fun k => exchange (k + 1)

theorem exchanges_idle {s₀} (h₀ : started (.stepUp wildcardFrame) = some s₀)
    (n : ℕ) (hn : n ≤ 1023) :
    ∃ s, EventSystem.run next s₀ (exchanges n) = some s ∧ Idle (n + 1) s ∧
      s.conn.credits = 1 := by
  induction n with
  | zero =>
    cases h₀
    exact ⟨_, rfl, ⟨rfl, rfl, rfl, rfl, rfl, rfl, rfl⟩, rfl⟩
  | succ n ih =>
    obtain ⟨s, hrun, hi, hcr⟩ := ih (by omega)
    obtain ⟨t, hadm, hrefused, -, -, -, -, -, -, hoff⟩ :=
      idle_send_admitNext (k := n + 1) (by omega) hi
    have hall := (run_verdict h₀
      (EventSystem.run_append.mpr ⟨s, hrun, hadm⟩)).accepted_of_stepUp.mpr (by omega)
    have hok : (s.conn.admitMessage (echo (n + 1))).1 = true := by
      rw [hrefused] at hall
      simpa using hall
    obtain ⟨u, hex, hidle, hcredits⟩ := idle_exchange (by omega) hi hcr hok
    refine ⟨u, ?_, hidle, hcredits⟩
    rw [exchanges, List.range_succ, List.flatMap_append, List.flatMap_singleton]
    exact EventSystem.run_append.mpr ⟨s, hrun, hex⟩

/-- A client that stepped up and keeps every rule is cut off at id 1024. -/
theorem stepUp_refuses_id_1024 : ∃ s₀ s, started (.stepUp wildcardFrame) = some s₀ ∧
      EventSystem.run next s₀ (exchanges 1023 ++ [.send (echo 1024), .admitNext]) = some s ∧
      s.refused = true := by
  obtain ⟨s₀, h₀⟩ : ∃ s₀, started (.stepUp wildcardFrame) = some s₀ := ⟨_, rfl⟩
  obtain ⟨s, hrun, hi, -⟩ := exchanges_idle h₀ 1023 le_rfl
  obtain ⟨t, hadm, -, -, -, -, -, -, -, hoff⟩ := idle_send_admitNext (k := 1024) (by omega) hi
  have hall := EventSystem.run_append.mpr ⟨s, hrun, hadm⟩
  refine ⟨s₀, t, h₀, hall, ?_⟩
  have hiff := (run_verdict h₀ hall).accepted_of_stepUp
  rw [hoff] at hiff
  simpa using hiff

section Accounts

/-- A connection with the messages it admitted and has not answered yet, and the totals of
what it granted and charged. -/
structure Accounts where
  conn : Connection
  unanswered : List Header
  granted : ℕ
  charged : ℕ

inductive Call where
  | admitMessage (h : Header)
  | grant (h : Header)

/-- A CANCEL is admitted without a charge, and no answer to it carries credits. -/
def Accounts.call (a : Accounts) : Call → Option Accounts
  | .admitMessage h =>
    let (ok, conn) := a.conn.admitMessage h
    if ok = true ∧ h.command ≠ cmdCancel then
      some { a with
        conn := conn, unanswered := h :: a.unanswered, charged := a.charged + h.charge }
    else some { a with conn := conn }
  | .grant h =>
    if h ∈ a.unanswered then
      let (n, conn) := a.conn.grant h.credits
      some { a with
        conn := conn, unanswered := a.unanswered.erase h, granted := a.granted + n }
    else none

structure Solvent (a : Accounts) : Prop where
  nonneg : 0 ≤ a.conn.credits
  bound : a.conn.credits ≤ 512
  total : a.conn.credits = 1 + a.granted - a.charged
  usable : a.unanswered = [] → 1 ≤ a.conn.credits

theorem admit_cases (conn : Connection) (h : Header) :
    ((conn.admitMessage h).2.credits = conn.credits ∧
      ((conn.admitMessage h).1 = true → h.command = cmdCancel)) ∨
    (h.command ≠ cmdCancel ∧ (conn.admitMessage h).1 = true ∧ (h.charge : ℤ) ≤ conn.credits ∧
      (conn.admitMessage h).2.credits = conn.credits - h.charge) := by
  by_cases hc : h.command = cmdCancel
  · exact .inl ⟨by rw [admit_cancel _ hc], fun _ => hc⟩
  rw [Connection.admitMessage, if_neg hc]
  split_ifs with hle
  · exact .inl ⟨rfl, nofun⟩
  split
  · exact .inl ⟨rfl, nofun⟩
  · exact .inr ⟨hc, rfl, not_lt.1 hle, rfl⟩

theorem grant_pos (conn : Connection) (request : UInt16) (h : 0 ≤ conn.credits) :
    1 ≤ (conn.grant request).2.credits := by
  have hm : (maxCredits : ℤ) = 512 := rfl
  rw [Connection.grant]
  simp only [hm]
  split_ifs
  · change 1 ≤ conn.credits
    omega
  · change 1 ≤ conn.credits + (512 - conn.credits)
    omega
  · change 1 ≤ conn.credits + max _ 1
    omega

theorem Solvent.call {a e b} (hs : Solvent a) (h : a.call e = some b) : Solvent b := by
  obtain ⟨hn, hb, ht, hu⟩ := hs
  cases e with
  | admitMessage m =>
    simp only [Accounts.call] at h
    obtain ⟨hsame, hcancel⟩ | ⟨hc, hok, hle, hcredits⟩ := admit_cases a.conn m
    · rw [if_neg fun hm => hm.2 (hcancel hm.1)] at h
      cases h
      exact ⟨hsame ▸ hn, hsame ▸ hb, hsame ▸ ht, hsame ▸ hu⟩
    rw [if_pos ⟨hok, hc⟩] at h
    cases h
    exact ⟨by simpa [hcredits] using hle, by simp only [hcredits]; omega,
      by simp only [hcredits]; push_cast; omega, nofun⟩
  | grant m =>
    simp only [Accounts.call] at h
    obtain ⟨-, rfl⟩ := Option.ite_some_none_eq_some.1 h
    obtain ⟨hsum, hle, -⟩ := grant_spec a.conn m.credits hb
    have hpos := grant_pos a.conn m.credits hn
    exact ⟨le_trans zero_le_one hpos, hle, by simp only [hsum]; push_cast; omega, fun _ => hpos⟩

theorem credits_accounted {es : List Call} {a : Accounts}
    (h : EventSystem.run Accounts.call ⟨.fresh, [], 0, 0⟩ es = some a) : Solvent a :=
  EventSystem.run_invariant (I := Solvent) (fun _ _ _ hs => hs.call)
    ⟨by decide, by decide, by decide, fun _ => le_refl _⟩ h

theorem credits_accounted_echo : ∃ a, EventSystem.run Accounts.call ⟨.fresh, [], 0, 0⟩
      [.admitMessage (echo 0), .grant (echo 0)] = some a ∧ Solvent a :=
  EventSystem.exists_run (P := fun _ => True) rfl fun _ h _ => credits_accounted h

end Accounts

end SmbCreditRun
