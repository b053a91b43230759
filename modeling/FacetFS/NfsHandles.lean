import FacetFS.Names
import FacetFS.NfsSeqid

/-! # Filehandles

A filehandle is a path under a message authentication code. A long path is represented by its hash;
the server finds the path again in a table of bounded size, or has it resolved. -/
namespace NfsHandles

open ByteText NfsSeqid Names
open Function (update update_apply update_of_ne update_self)

def nfs4ErrBadHandle : NfsStat := 10001
def nfs4ErrFHExpired : NfsStat := 10014

def fhShort : UInt8 := 0x01
def fhLong : UInt8 := 0x02
def fhMacLen : ℕ := 16
def maxFHBytes : ℕ := 128
def shortPathMax : ℕ := maxFHBytes - fhMacLen - 1
def longTableMax : ℕ := 4096
def sumSize : ℕ := 32

/-- The keyed code, the hash and the resolver of a server. -/
structure Codec where
  mac : UInt8 → Text → Text
  sum : Text → Text
  resolve : Text → Option Text
  mac_length : ∀ form payload, (mac form payload).length = fhMacLen
  sum_length : ∀ path, (sum path).length = sumSize

/-- The paths of long handles, and their hashes with the oldest first. -/
structure Table where
  long : Text → Option Text
  order : List Text

namespace Table

def empty : Table := ⟨fun _ => none, []⟩

def evict (t : Table) : Table :=
  if longTableMax ≤ t.order.length then
    ⟨update t.long (t.order.headD []) none, t.order.tail⟩
  else t

def remember (t : Table) (sum path : Text) : Table :=
  if (t.long sum).isSome then t
  else ⟨update t.evict.long sum (some path), t.evict.order ++ [sum]⟩

end Table

namespace Codec

variable (c : Codec)

/-- The bytes that stand for a path. -/
def handle (path : Text) : Text :=
  if path.length ≤ shortPathMax then fhShort :: (c.mac fhShort path ++ path)
  else fhLong :: (c.mac fhLong (c.sum path) ++ c.sum path)

def sealFH (t : Table) (path : Text) : Text × Table :=
  (c.handle path, if path.length ≤ shortPathMax then t else t.remember (c.sum path) path)

/-- The path behind a hash; what the resolver returns has to have that hash. -/
def find (t : Table) (sum : Text) : Except NfsStat Text × Table :=
  match t.long sum with
  | some path => (.ok path, t)
  | none =>
    match c.resolve sum with
    | some path =>
      if c.sum path = sum then (.ok path, t.remember sum path) else (.error nfs4ErrFHExpired, t)
    | none => (.error nfs4ErrFHExpired, t)

def unsealFH (t : Table) (fh : Text) : Except NfsStat Text × Table :=
  if fh.length < 1 + fhMacLen ∨ maxFHBytes < fh.length then (.error nfs4ErrBadHandle, t)
  else
    let form := fh.headD 0
    let mac := fh.tail.take fhMacLen
    let payload := fh.tail.drop fhMacLen
    if form = fhShort then
      if mac = c.mac fhShort payload then (.ok payload, t) else (.error nfs4ErrFHExpired, t)
    else if form = fhLong then
      if payload.length = sumSize ∧ mac = c.mac fhLong payload then c.find t payload
      else (.error nfs4ErrFHExpired, t)
    else (.error nfs4ErrBadHandle, t)

end Codec

inductive Call where
  | sealFH (path : Text)
  | unsealFH (fh : Text)

def perform (c : Codec) (t : Table) : Call → Table
  | .sealFH path => (c.sealFH t path).2
  | .unsealFH fh => (c.unsealFH t fh).2

/-- The hash tells apart the paths in use, among them those that the resolver finds. -/
structure CollisionFree (c : Codec) (Used : Text → Prop) : Prop where
  injective : ∀ p q, Used p → Used q → c.sum p = c.sum q → p = q
  resolved : ∀ p, c.resolve (c.sum p) = some p → Used p

/-- Nobody but a holder of the key makes a string that passes the check of the long form. -/
def Unforged (c : Codec) (Used : Text → Prop) : Call → Prop
  | .sealFH path => Used path
  | .unsealFH fh => ∀ payload, fh = fhLong :: (c.mac fhLong payload ++ payload) →
      ∃ p, Used p ∧ fh = c.handle p

/-- The table and its order agree, and every entry is a long path under its own hash. -/
structure Invariant (c : Codec) (Used : Text → Prop) (t : Table) : Prop where
  keys : ∀ k, (t.long k).isSome ↔ k ∈ t.order
  nodup : t.order.Nodup
  bounded : t.order.length ≤ longTableMax
  entries : ∀ k p, t.long k = some p → c.sum p = k ∧ Used p ∧ shortPathMax < p.length

variable {path : Text}

section Tables

variable {c : Codec} {Used : Text → Prop} {t : Table}

theorem Invariant.evict (h : Invariant c Used t) :
    Invariant c Used t.evict ∧ t.evict.order.length < longTableMax := by
  unfold Table.evict
  split
  · rename_i hfull
    obtain ⟨oldest, order, ho⟩ : ∃ k ks, t.order = k :: ks :=
      List.exists_cons_of_ne_nil fun h0 => by simp [h0, longTableMax] at hfull
    have hn := h.nodup
    have hb := h.bounded
    rw [ho, List.nodup_cons] at hn
    rw [ho, List.length_cons, Nat.succ_le_iff] at hb
    rw [ho, List.headD_cons, List.tail_cons]
    refine ⟨⟨fun k => ?_, hn.2, Nat.le_of_lt hb, fun k p hp => ?_⟩, hb⟩
    · rcases eq_or_ne k oldest with rfl | hk
      · simpa using hn.1
      · have hkeys := h.keys k
        rw [ho, List.mem_cons] at hkeys
        simpa [update_of_ne hk, hk] using hkeys
    · rcases eq_or_ne k oldest with rfl | hk
      · simp at hp
      · exact h.entries k p (by simpa [update_of_ne hk] using hp)
  · exact ⟨h, by omega⟩

theorem evict_of_none {k} (hk : t.long k = none) : t.evict.long k = none := by
  unfold Table.evict
  split
  · dsimp only
    rw [update_apply, hk, ite_self]
  · exact hk

theorem Invariant.remember (h : Invariant c Used t) (hp : Used path)
    (hl : shortPathMax < path.length) : Invariant c Used (t.remember (c.sum path) path) := by
  unfold Table.remember
  split
  · exact h
  rename_i hnew
  rw [Option.not_isSome_iff_eq_none] at hnew
  obtain ⟨he, hroom⟩ := h.evict
  have hfresh : c.sum path ∉ t.evict.order := by
    rw [← he.keys, evict_of_none hnew]
    exact Bool.false_ne_true
  refine ⟨fun k => ?_, ?_, ?_, fun k p hk => ?_⟩
  · rcases eq_or_ne k (c.sum path) with rfl | hk
    · simp
    · simpa [update_of_ne hk, hk] using he.keys k
  · exact List.nodup_append_comm.1 (List.nodup_cons.2 ⟨hfresh, he.nodup⟩)
  · rw [List.length_append]
    exact hroom
  dsimp only at hk
  rw [update_apply] at hk
  split at hk
  · cases hk
    exact ⟨by symm; assumption, hp, hl⟩
  · exact he.entries k p hk

theorem Invariant.sealFH (h : Invariant c Used t) (hp : Used path) :
    Invariant c Used (c.sealFH t path).2 := by
  simp only [Codec.sealFH]
  split
  · exact h
  · exact h.remember hp (by omega)

/-- A hash that a long handle carries leads to the path of that handle only. -/
theorem find_spec (h : Invariant c Used t) (free : CollisionFree c Used) {q} (hq : Used q)
    (hl : shortPathMax < q.length) :
    (∀ p, (c.find t (c.sum q)).1 = .ok p → p = q) ∧ Invariant c Used (c.find t (c.sum q)).2 := by
  unfold Codec.find
  split
  · rename_i path hpath
    obtain ⟨hsum, hu, -⟩ := h.entries _ path hpath
    refine ⟨fun p hp => ?_, h⟩
    cases hp
    exact free.injective path q hu hq hsum
  split
  · rename_i path hpath
    split
    · rename_i hsum
      obtain rfl := free.injective path q (free.resolved path (hsum ▸ hpath)) hq hsum
      exact ⟨fun p hp => (Except.ok.inj hp).symm, h.remember hq hl⟩
    · exact ⟨nofun, h⟩
  · exact ⟨nofun, h⟩

end Tables

section Handles

variable {c : Codec} {Used : Text → Prop} {t : Table}

theorem unsealFH_short (hs : path.length ≤ shortPathMax) :
    c.unsealFH t (c.handle path) = (.ok path, t) := by
  have hmac := c.mac_length fhShort path
  have hlen : ¬ ((c.handle path).length < 1 + fhMacLen ∨ maxFHBytes < (c.handle path).length) := by
    simp only [Codec.handle, if_pos hs, List.length_cons, List.length_append, hmac]
    simp only [shortPathMax] at hs
    have : fhMacLen + 1 ≤ maxFHBytes := by decide
    omega
  simp only [Codec.unsealFH, if_neg hlen]
  simp only [Codec.handle, if_pos hs, List.headD_cons, List.tail_cons, List.drop_left' hmac,
    List.take_left' hmac, if_true]

theorem unsealFH_long (hl : shortPathMax < path.length) :
    c.unsealFH t (c.handle path) = c.find t (c.sum path) := by
  have hmac := c.mac_length fhLong (c.sum path)
  have hsum := c.sum_length path
  have hlen : ¬ ((c.handle path).length < 1 + fhMacLen ∨ maxFHBytes < (c.handle path).length) := by
    simp only [Codec.handle, if_neg (Nat.not_le.2 hl), List.length_cons, List.length_append, hmac,
      hsum]
    decide
  simp only [Codec.unsealFH, if_neg hlen]
  simp only [Codec.handle, if_neg (Nat.not_le.2 hl), List.headD_cons, List.tail_cons,
    List.drop_left' hmac, List.take_left' hmac, hsum, show fhLong ≠ fhShort by decide, if_false,
    if_true, and_self]

theorem unsealFH_cases {fh r} (h : c.unsealFH t fh = r) (hu : Unforged c Used (.unsealFH fh)) :
    (∃ p, fh = c.handle p ∧ (p.length ≤ shortPathMax ∨ Used p)) ∨ ∃ e, r = (.error e, t) := by
  unfold Codec.unsealFH at h
  split at h
  · exact .inr ⟨_, h.symm⟩
  rename_i hlen
  have hfh : fh.headD 0 :: (fh.tail.take fhMacLen ++ fh.tail.drop fhMacLen) = fh := by
    rw [List.take_append_drop]
    cases fh with
    | nil => simp [fhMacLen] at hlen
    | cons form rest => rfl
  dsimp only at h
  by_cases hform : fh.headD 0 = fhShort
  · rw [if_pos hform] at h
    split_ifs at h with hmac
    · have hshort : (fh.tail.drop fhMacLen).length ≤ shortPathMax := by
        simp only [List.length_drop, List.length_tail, shortPathMax]
        omega
      refine .inl ⟨fh.tail.drop fhMacLen, ?_, .inl hshort⟩
      rw [Codec.handle, if_pos hshort, ← hmac, ← hform, hfh]
    · exact .inr ⟨_, h.symm⟩
  rw [if_neg hform] at h
  split_ifs at h with hlong hmac
  · obtain ⟨p, hp, hp'⟩ := hu (fh.tail.drop fhMacLen) (by rw [← hmac.2, ← hlong, hfh])
    exact .inl ⟨p, hp', .inr hp⟩
  · exact .inr ⟨_, h.symm⟩
  · exact .inr ⟨_, h.symm⟩

theorem unsealFH_spec (h : Invariant c Used t) (free : CollisionFree c Used) {fh}
    (hu : Unforged c Used (.unsealFH fh)) :
    (∀ p, (c.unsealFH t fh).1 = .ok p → fh = c.handle p) ∧ Invariant c Used (c.unsealFH t fh).2 := by
  rcases unsealFH_cases (t := t) rfl hu with ⟨q, rfl, hq⟩ | ⟨e, he⟩
  · rcases Nat.lt_or_ge shortPathMax q.length with hl | hs
    · have hused : Used q := hq.resolve_left (Nat.not_le.2 hl)
      rw [unsealFH_long hl]
      obtain ⟨hp, ht⟩ := find_spec h free hused hl
      exact ⟨fun p hok => by rw [hp p hok], ht⟩
    · rw [unsealFH_short hs]
      exact ⟨fun p hok => by rw [Except.ok.inj hok], h⟩
  · rw [he]
    exact ⟨nofun, h⟩

theorem perform_invariant (h : Invariant c Used t) (free : CollisionFree c Used) {call}
    (hu : Unforged c Used call) : Invariant c Used (perform c t call) := by
  cases call with
  | sealFH path => exact h.sealFH hu
  | unsealFH fh => exact (unsealFH_spec h free hu).2

theorem run_invariant (free : CollisionFree c Used) {calls : List Call}
    (hu : ∀ call ∈ calls, Unforged c Used call) (h : Invariant c Used t) :
    Invariant c Used (calls.foldl (perform c) t) := by
  induction calls generalizing t with
  | nil => exact h
  | cons call calls ih =>
    rw [List.forall_mem_cons] at hu
    exact ih hu.2 (perform_invariant h free hu.1)

end Handles

end NfsHandles
