import FacetFS.EventSystem
import FacetFS.NfsExclusion

/-! # How many ranges a lock state holds

LOCK refuses to leave more than `maxLockRanges` ranges. LOCKU has no such check, and a cut in
the middle of a range leaves two. -/
namespace NfsLockBounds

open NfsSeqid NfsLockRange GroupIndex NfsStore NfsOps NfsOutcomes NfsTableInvariant NfsExclusion
open EventSystem

def Bounded (t : Tables) : Prop :=
  ∀ l ∈ t.locks, (t.lockState l).ranges.length ≤ maxLockRanges

/-- Every lock state there is afterwards was there before, as it is. -/
def Keeps (t t' : Tables) : Prop :=
  ∀ l ∈ t'.locks, l ∈ t.locks ∧ t'.lockState l = t.lockState l

theorem Keeps.refl (t : Tables) : Keeps t t := fun _ hl => ⟨hl, rfl⟩

variable {t : Tables}

theorem Keeps.of_eq {t'} (h : t' = t) : Keeps t t' := h ▸ .refl t

theorem Keeps.trans {t' t₂} (h : Keeps t t') (h' : Keeps t' t₂) : Keeps t t₂ := by
  intro l hl
  obtain ⟨hl', he'⟩ := h' l hl
  obtain ⟨hl₀, he⟩ := h l hl'
  exact ⟨hl₀, he'.trans he⟩

theorem Bounded.keeps {t'} (h : Bounded t) (hk : Keeps t t') : Bounded t' := by
  intro l hl
  obtain ⟨hl', he⟩ := hk l hl
  rw [he]
  exact h l hl'

section Requests

variable {st : Store}

end Requests

section Locks

variable {st : Store}

theorem Bounded.installLock (h : Bounded t) {s}
    (hs : s.ranges.length ≤ maxLockRanges) : Bounded (t.installLock s) := by
  intro l hl
  by_cases he : l = t.nextOther + 1
  · subst he
    simpa [Tables.installLock] using hs
  · have hlive : l ∈ t.locks := (List.mem_cons.1 hl).resolve_left he
    simpa [Tables.installLock, he] using h l hlive

theorem Bounded.setLock (h : Bounded t) {l} (hl : l ∈ t.locks) {s} :
    Bounded (t.setLock l s) ↔ s.ranges.length ≤ maxLockRanges := by
  constructor
  · intro hb
    have := hb l hl
    simpa [Tables.setLock] using this
  · intro hs m hm
    by_cases he : m = l
    · subst he
      simpa [Tables.setLock] using hs
    · simpa [Tables.setLock, he] using h m hm

end Locks

/-- A LOCKU that takes effect leaves no more ranges than a LOCK may. -/
def Leaves (st : Store) : Request → Prop
  | .lockU now fh lookup a other =>
    (lockU st now fh lookup a other).2.lockState other.count ≠ st.lockState other.count →
      ∀ rng, a.range false = .ok rng →
        (subtractRange (st.lockState other.count).ranges rng).length ≤ maxLockRanges
  | _ => True

def next (st : Store) (r : Request) : Option Store := some (step st r)

theorem serve_concat (cfg : Config) (rs : List Request) (r : Request) :
    serve cfg (rs ++ [r]) = step (serve cfg rs) r := by
  rw [serve, List.foldl_append]
  rfl

section FullOwner

def locker : OwnerRef := ⟨1, true, [6], 1⟩

def lockStart : List Request :=
  [.setClientID 0 [1] 7 9 "none", .setClientIDConfirm 0 1 9,
    .openFile 0 (some []) ⟨1, 3, 0, 1, [5], 0, 0, 0, .ok "a", false, .ok none⟩
      ⟨nfs4OK, .ok .regular, false, .ok 0, nfs4OK, 0, 0, []⟩,
    .openConfirm 0 (some ["a"]) 1 ⟨0, 1⟩ 2,
    .lockNew 0 (some ["a"]) (.ok .regular) ⟨2, false, 0, 3, 1, 1⟩ 3 ⟨0, 1⟩ 1 [6]]

def lockArgs (n : ℕ) : LockArgs :=
  ⟨2, false, UInt64.ofNat (8 * (n + 1)), 1, UInt32.ofNat (n + 1), UInt32.ofNat (n + 2)⟩

/-- One more range, behind those held and apart from them. -/
def lockMore (n : ℕ) : Request :=
  .lockExisting 0 (some ["a"]) (.ok .regular) (lockArgs n) ⟨0, 2⟩

def unlockMiddle (n : ℕ) : Request :=
  .lockU 0 (some ["a"]) (.ok .regular)
    ⟨2, false, 1, 1, UInt32.ofNat (n + 1), UInt32.ofNat (n + 2)⟩ ⟨0, 2⟩

def farRanges (n : ℕ) : List LockRange :=
  (List.range n).map fun i => ⟨8 * (i + 1), 8 * (i + 1) + 1, false, true⟩

/-- The lock-owner holds the first three bytes and `n` single bytes behind them. -/
structure Held (n : ℕ) (st : Store) : Prop where
  other : st.checkOther ⟨0, 2⟩ = nfs4OK
  owner : st.stateOwners 2 = some locker
  live : 2 ∈ st.locks
  opened : 1 ∈ st.opens
  access : (st.openState 1).access = 3
  members : members st.locksByPath ["a"] = [2]
  lockSeq : (st.lockState 2).seq = UInt32.ofNat (n + 1)
  lockOwner : (st.lockState 2).owner = locker
  lockOpen : (st.lockState 2).opened = 1
  lockPath : (st.lockState 2).path = ["a"]
  ranges : (st.lockState 2).ranges = ⟨0, 3, false, true⟩ :: farRanges n
  fresh : (st.owner locker).seq.fresh = false
  seqid : (st.owner locker).seq.seqid = UInt32.ofNat (n + 1)

theorem held_zero : Held 0 (serve ⟨90, 10, 0, false⟩ lockStart) := by
  constructor <;> decide +kernel

theorem canonical_held (n : ℕ) (hn : n ≤ maxLockRanges) :
    Canonical (⟨0, 3, false, true⟩ :: farRanges n) := by
  have hmax : maxLockRanges = 4096 := rfl
  constructor
  · intro r hr
    rcases List.mem_cons.1 hr with rfl | hr
    · exact ⟨by decide, fun _ => by decide, nofun⟩
    obtain ⟨i, hi, rfl⟩ := List.mem_map.1 hr
    have hi' := List.mem_range.1 hi
    refine ⟨?_, fun _ => ⟨?_, ?_⟩, nofun⟩ <;> simp only [maxUint64] <;> omega
  rw [List.pairwise_cons]
  constructor
  · intro r hr
    obtain ⟨i, hi, rfl⟩ := List.mem_map.1 hr
    refine ⟨⟨rfl, ?_⟩, fun _ => ?_⟩ <;> simp only <;> omega
  · rw [farRanges, List.pairwise_map]
    refine List.pairwise_lt_range.imp fun {i j} hij => ?_
    refine ⟨⟨rfl, ?_⟩, fun _ => ?_⟩ <;> simp only <;> omega

theorem farRanges_succ (n : ℕ) :
    farRanges (n + 1) = farRanges n ++ [⟨8 * (n + 1), 8 * (n + 1) + 1, false, true⟩] := by
  simp [farRanges, List.range_succ]

theorem length_farRanges (n : ℕ) : (farRanges n).length = n := by
  simp [farRanges]

variable {n : ℕ}

theorem lockArgs_target (hn : n < maxLockRanges) :
    lockTarget (lockArgs n) (some ["a"]) (.ok .regular) =
      .ok (⟨8 * (n + 1), 8 * (n + 1) + 1, false, true⟩, ["a"]) := by
  have hmax : maxLockRanges = 4096 := rfl
  have hoffset : (UInt64.ofNat (8 * (n + 1))).toNat = 8 * (n + 1) := by
    rw [UInt64.toNat_ofNat', Nat.mod_eq_of_lt (by omega)]
  have hone : (1 : UInt64).toNat = 1 := rfl
  have hrange : (lockArgs n).range true = .ok ⟨8 * (n + 1), 8 * (n + 1) + 1, false, true⟩ := by
    simp only [LockArgs.range, lockArgs, makeLockRange, hoffset, hone, maxUint64]
    rw [if_neg (by omega), if_neg (by omega), if_neg (by omega)]
  have htype : lockType (lockArgs n).typ = .ok true := rfl
  rw [lockTarget, htype]
  simp only [hrange]
  rfl

theorem setLockRange_held (hn : n < maxLockRanges) :
    setLockRange (⟨0, 3, false, true⟩ :: farRanges n) ⟨8 * (n + 1), 8 * (n + 1) + 1, false, true⟩ =
      ⟨0, 3, false, true⟩ :: farRanges (n + 1) := by
  have hcan := canonical_held (n + 1) hn
  rw [farRanges_succ] at hcan ⊢
  exact setLockRange_append hcan

theorem seq_succ (n : ℕ) : UInt32.ofNat (n + 1) + 1 = UInt32.ofNat (n + 2) := by
  rw [UInt32.ofNat_add n 2, UInt32.ofNat_add n 1, UInt32.add_assoc]
  rfl

theorem Held.renew {st} (h : Held n st) (c : ClientID) (now : ℕ) : Held n (st.renewClient c now) :=
  { h with }

theorem Held.resolve {st} (h : Held n st) :
    st.resolveLockStateid 0 (UInt32.ofNat (n + 1)) ⟨0, 2⟩ ["a"] =
      (.ok 2, st.renewClient (st.lockState 2).client 0) := by
  simp only [Store.resolveLockStateid, h.other, h.live, h.lockSeq, h.lockPath, ne_eq,
    not_true_eq_false, if_false, UInt32.lt_irrefl, gt_iff_lt, or_self]

theorem Held.sequenced {st} (h : Held n st) (opnum : UInt32)
    (body : OwnerRef → Store → BodyResult × Store)
    (hok : noAdvance (body locker (st.renewClient 1 0)).1.status = false) :
    ∃ q : OwnerSeq, q.fresh = false ∧ q.seqid = UInt32.ofNat (n + 2) ∧
      (byStateid st 0 ⟨0, 2⟩ opnum (UInt32.ofNat (n + 2)) body).2 =
        (body locker (st.renewClient 1 0)).2.setOwner locker
          { (body locker (st.renewClient 1 0)).2.owner locker with seq := q } := by
  have hne : UInt32.ofNat (n + 2) ≠ UInt32.ofNat (n + 1) := by
    rw [← seq_succ]
    exact NfsSeqid.succ_ne _
  have howner : st.ownerForStateid 0 ⟨0, 2⟩ = (.ok locker, st.renewClient 1 0) := by
    simp only [Store.ownerForStateid, h.other, h.owner, ne_eq, not_true_eq_false, if_false]
    rfl
  have hseq := (h.renew 1 0).seqid
  have hfresh := (h.renew 1 0).fresh
  rw [byStateid, howner]
  simp only [NfsOps.sequenced, withSeqid, hfresh, hseq, hne, seq_succ, if_true, if_false, execute,
    hok, Bool.false_eq_true]
  exact ⟨_, rfl, rfl, rfl⟩

theorem Held.lockConflict {st} (h : Held n st) (rng : LockRange) :
    st.toTables.lockConflict ["a"] locker rng = none := by
  simp [Tables.lockConflict, h.members, h.lockOwner]

theorem Held.lockExistingBody {st} (h : Held n st) (hn : n + 1 < maxLockRanges) :
    ∃ body, lockExistingBody 0 (some ["a"]) (.ok .regular) (lockArgs n) ⟨0, 2⟩ locker st =
      (BodyResult.ok body, ((st.renewClient (st.lockState 2).client 0).setTables
        (st.toTables.setLock 2 { st.lockState 2 with
          ranges := ⟨0, 3, false, true⟩ :: farRanges (n + 1)
          seq := UInt32.ofNat (n + 2)
          opened := 1 })).renewClient (st.lockState 2).client 0) := by
  have h₁ := h.renew (st.lockState 2).client 0
  have hlength : (⟨0, 3, false, true⟩ :: farRanges (n + 1)).length = n + 2 := by
    rw [List.length_cons, length_farRanges]
  have hmode : Tables.modeAllows 3 true = true := by decide
  rw [NfsOps.lockExistingBody, lockArgs_target (by omega)]
  have hres : st.resolveLockStateid 0 (lockArgs n).stateSeq ⟨0, 2⟩ ["a"] = _ := h.resolve
  simp only [hres, h₁.lockOpen, h₁.opened, h₁.access, hmode, h₁.lockConflict, h₁.ranges,
    setLockRange_held (Nat.lt_of_succ_lt hn), hlength, h₁.lockSeq, seq_succ]
  rw [if_neg (by simp), if_neg (by simp), if_neg (by omega)]
  exact ⟨_, rfl⟩

theorem Held.step {st} (h : Held n st) (hn : n + 1 < maxLockRanges) :
    Held (n + 1) (step st (lockMore n)) := by
  obtain ⟨body, hbody⟩ := (h.renew 1 0).lockExistingBody hn
  obtain ⟨q, hfresh, hseqid, he⟩ := h.sequenced opLock
    (NfsOps.lockExistingBody 0 (some ["a"]) (.ok .regular) (lockArgs n) ⟨0, 2⟩) (by rw [hbody]; rfl)
  have hstep : NfsExclusion.step st (lockMore n) = _ := he
  rw [hstep, hbody]
  refine ⟨h.other, h.owner, h.live, h.opened, h.access, h.members, rfl, h.lockOwner, rfl,
    h.lockPath, rfl, ?_, ?_⟩
  · simpa only [Store.setOwner, Function.update_self] using hfresh
  · simpa only [Store.setOwner, Function.update_self] using hseqid

theorem held (n : ℕ) (hn : n < maxLockRanges) :
    Held n (serve ⟨90, 10, 0, false⟩ (lockStart ++ (List.range n).map lockMore)) := by
  induction n with
  | zero => exact held_zero
  | succ n ih =>
    have hstep := (ih (Nat.lt_of_succ_lt hn)).step hn
    rw [List.range_succ, List.map_append, ← List.append_assoc, List.map_singleton, serve_concat]
    exact hstep

theorem subtractRange_middle (n : ℕ) (hn : n ≤ maxLockRanges) :
    (subtractRange (⟨0, 3, false, true⟩ :: farRanges n) ⟨1, 2, false, false⟩).length = n + 2 := by
  have hcan := canonical_held n hn
  obtain ⟨hfirst, hfar⟩ := List.pairwise_cons.1 hcan.apart
  have hover : ∀ r ∈ farRanges n, rangesOverlap r ⟨1, 2, false, false⟩ = false := by
    intro r hr
    obtain ⟨i, -, rfl⟩ := List.mem_map.1 hr
    have hlt : decide (2 > 8 * (i + 1)) = false := decide_eq_false (by omega)
    simp only [rangesOverlap, hlt, Bool.or_false, Bool.and_false]
  have hcut : cutRange ⟨1, 2, false, false⟩ ⟨0, 3, false, true⟩ =
      [⟨0, 1, false, true⟩, ⟨2, 3, false, true⟩] := by decide
  have hcanon : Canonical (⟨0, 1, false, true⟩ :: ⟨2, 3, false, true⟩ :: farRanges n) := by
    constructor
    · intro r hr
      rcases List.mem_cons.1 hr with rfl | hr
      · exact ⟨by decide, fun _ => by decide, fun h => by cases h⟩
      rcases List.mem_cons.1 hr with rfl | hr
      · exact ⟨by decide, fun _ => by decide, fun h => by cases h⟩
      · exact hcan.nonEmpty r (List.mem_cons_of_mem _ hr)
    refine List.pairwise_cons.2 ⟨fun r hr => ?_, List.pairwise_cons.2 ⟨fun r hr => ?_, hfar⟩⟩
    · rcases List.mem_cons.1 hr with rfl | hr
      · exact ⟨⟨rfl, by decide⟩, fun _ => by decide⟩
      · obtain ⟨⟨-, hle⟩, -⟩ := hfirst r hr
        refine ⟨⟨rfl, ?_⟩, fun _ => ?_⟩ <;> simp only at hle ⊢ <;> omega
    · obtain ⟨⟨-, hle⟩, hlt⟩ := hfirst r hr
      exact ⟨⟨rfl, hle⟩, hlt⟩
  rw [subtractRange, List.flatMap_cons, flatMap_cutRange_of_apart hover, hcut]
  change (canonicalRanges (⟨0, 1, false, true⟩ :: ⟨2, 3, false, true⟩ :: farRanges n)).length = _
  rw [canonicalRanges_of_canonical hcanon, List.length_cons, List.length_cons, length_farRanges]

theorem Held.unlocked {st} (h : Held n st) (hn : n ≤ maxLockRanges) :
    2 ∈ (NfsExclusion.step st (unlockMiddle n)).locks ∧
      ((NfsExclusion.step st (unlockMiddle n)).lockState 2).ranges.length = n + 2 := by
  have hbody : ∀ {st : Store}, Held n st → ∃ body,
      lockUBody 0 (some ["a"]) (.ok .regular)
        ⟨2, false, 1, 1, UInt32.ofNat (n + 1), UInt32.ofNat (n + 2)⟩ ⟨0, 2⟩ st =
      (BodyResult.ok body, ((st.renewClient (st.lockState 2).client 0).setTables
        (st.toTables.setLock 2 { st.lockState 2 with
          ranges := subtractRange (⟨0, 3, false, true⟩ :: farRanges n) ⟨1, 2, false, false⟩
          seq := UInt32.ofNat (n + 2)
          opened := 1 })).renewClient (st.lockState 2).client 0) := by
    intro st h
    have h₁ := h.renew (st.lockState 2).client 0
    have hrange : ∀ a : LockArgs, a.offset = 1 → a.length = 1 →
        a.range false = .ok ⟨1, 2, false, false⟩ := by
      intro a ho hl
      rw [LockArgs.range, ho, hl]
      rfl
    have htype : lockType 2 = .ok true := rfl
    simp only [lockUBody, htype, hrange, lockFH, h.resolve, h₁.lockOpen, h₁.opened, h₁.ranges,
      h₁.lockSeq, seq_succ, not_true_eq_false, if_false]
    exact ⟨_, rfl⟩
  obtain ⟨body, hb⟩ := hbody (h.renew 1 0)
  obtain ⟨q, -, -, he⟩ := h.sequenced opLockU (fun _ => lockUBody 0 (some ["a"]) (.ok .regular)
    ⟨2, false, 1, 1, UInt32.ofNat (n + 1), UInt32.ofNat (n + 2)⟩ ⟨0, 2⟩) (by rw [hb]; rfl)
  have hstep : NfsExclusion.step st (unlockMiddle n) = _ := he
  rw [hstep, hb]
  exact ⟨h.live, subtractRange_middle n hn⟩

end FullOwner

end NfsLockBounds
