import FacetFS.WebdavProtection
import FacetFS.EventSystem

/-! # The table of locks over time

Calls are made at times that never go back. A lock expires without a call: whoever looks at its path
afterwards drops it, and a full table is purged of all that have expired. -/
namespace WebdavLockTable

open ByteText WebdavHandler WebdavMethods WebdavProtection EventSystem

section Calls

inductive Call where
  | create (root : Text) (duration : Int) (random : Option Text)
  | refresh (root token : Text) (duration : Int)
  | unlock (root token : Text)
  | guard (root : Text) (tokens : List Text)
  | holder (root : Text)

structure Table where
  clock : ℕ
  locks : MemLS

def effect (now : ℕ) (locks : MemLS) : Call → MemLS
  | .create root duration random => (createLock now root duration random locks).2
  | .refresh root token duration => (refresh now root token duration locks).2
  | .unlock root token => (unlockRoot now root token locks).2
  | .guard root tokens => (WebdavHandler.guard now root tokens locks).2
  | .holder root => (holder now root locks).2

def next (s : Table) (e : ℕ × Call) : Option Table :=
  if s.clock ≤ e.1 then some ⟨e.1, effect e.1 s.locks e.2⟩ else none

/-- The call creates or refreshes the lock on the path. -/
def Grants (locks : MemLS) (root : Text) (duration : Int) (held : LockDetails) (e : ℕ × Call) :
    Prop :=
  (∃ random, e.2 = .create root duration random ∧
    (createLock e.1 root duration random locks).1 = .ok held) ∨
  ∃ token, e.2 = .refresh root token duration ∧
    (refresh e.1 root token duration locks).1 = some held

/-- The call does not refresh the lock, and what it creates has another token. -/
def Foreign (root token : Text) (s : Table) (e : ℕ × Call) : Prop :=
  ∀ duration held, Grants s.locks root duration held e → held.token ≠ token

variable (now : ℕ) (locks : MemLS) (root : Text)

/-- Every call finds the lock on its path. -/
structure Holds (held : LockDetails) : Prop where
  found : holder now root locks = (some held, locks)
  guarded : ∀ tokens, WebdavHandler.guard now root tokens locks =
    (if held.token ∈ tokens then none else some held, locks)
  occupied : ∀ duration random, createLock now root duration random locks = (.error .locked, locks)
  refreshed : ∀ token ≠ held.token, ∀ duration, refresh now root token duration locks = (none, locks)
  unlocked : ∀ token ≠ held.token, unlockRoot now root token locks = (false, locks)

/-- No call finds the lock with the token; one that finds a lock finds another. -/
structure Unseen (token : Text) : Prop where
  found : ∀ l, (holder now root locks).1 = some l → l.token ≠ token
  guarded : ∀ tokens l, (WebdavHandler.guard now root tokens locks).1 = some l → l.token ≠ token
  occupied : ∀ duration random, (createLock now root duration random locks).1 = .error .locked →
    ∃ l, (holder now root locks).1 = some l
  refreshed : ∀ duration, (refresh now root token duration locks).1 = none
  unlocked : (unlockRoot now root token locks).1 = false

end Calls

section Effects

variable {now : ℕ} {locks locks' : MemLS} {root token : Text} {held : LockDetails}

theorem live_cases (locks : MemLS) (root : Text) (now : ℕ) :
    (∃ held, locks.lookup root = some held ∧ now < held.expires ∧
      live locks root now = (some held, locks)) ∨
    ∃ locks', live locks root now = (none, locks') ∧ Shrinks now locks locks' ∧
      locks'.lookup root = none := by
  have hs := live_shrinks locks root now
  grind [live, AList.lookup_erase]

theorem dropExpired_shrinks (now : ℕ) (locks : MemLS) :
    Shrinks now locks (dropExpired now locks) := by
  refine List.foldlRecOn locks.entries _ (.refl _ _) fun kept hk e he => ?_
  split_ifs with hexp
  · intro root
    by_cases hr : root = e.1
    · subst hr
      exact .inr ⟨AList.lookup_erase _ _, e.2, AList.mem_lookup_iff.2 he, hexp⟩
    · rw [AList.lookup_erase_ne hr]
      exact hk root
  · exact hk

/-- A lock is created on a free path of a table that is not full. -/
theorem createLock_cases (now root duration random) (locks : MemLS) :
    (∃ held, locks.lookup root = some held ∧ now < held.expires ∧
      createLock now root duration random locks = (.error .locked, locks)) ∨
    ∃ locks', Shrinks now locks locks' ∧ locks'.lookup root = none ∧
      ((∃ e, createLock now root duration random locks = (.error e, locks')) ∨
        random ≠ none ∧ ∃ held, locks'.entries.length < maxHeldLocks ∧
          createLock now root duration random locks = (.ok held, locks'.insert root held)) := by
  obtain ⟨held, hl, ht, hlive⟩ | ⟨locks', hlive, hs, hfree⟩ := live_cases locks root now
  · exact .inl ⟨held, hl, ht, by rw [createLock, hlive]⟩
  have hdrop : Shrinks now locks' (if locks'.entries.length ≥ maxHeldLocks then
      dropExpired now locks' else locks') := by
    split_ifs
    · exact dropExpired_shrinks now locks'
    · exact .refl _ _
  refine .inr ⟨_, hs.trans hdrop, hdrop.free hfree, ?_⟩
  simp only [createLock, hlive]
  generalize (if locks'.entries.length ≥ maxHeldLocks then _ else _) = kept
  split_ifs with hfull
  · exact .inl ⟨_, rfl⟩
  cases random with
  | none => exact .inl ⟨_, rfl⟩
  | some buf => exact .inr ⟨nofun, _, not_le.1 hfull, rfl⟩

theorem matching_cases (now : ℕ) (root token : Text) (locks : MemLS) :
    (∃ held, locks.lookup root = some held ∧ held.token = token ∧
      matching now root token locks = (some held, locks)) ∨
    ∃ locks', Shrinks now locks locks' ∧ matching now root token locks = (none, locks') := by
  have hs := live_shrinks locks root now
  grind [live, matching]

/-- What a call does to the table: expired locks are dropped, a lock is granted, or one is released
with its token. -/
theorem effect_cases (now : ℕ) (locks : MemLS) (c : Call) :
    Shrinks now locks (effect now locks c) ∨
    (∃ root duration held locks', Grants locks root duration held (now, c) ∧
      Shrinks now locks locks' ∧ effect now locks c = locks'.insert root held ∧
      (locks'.lookup root = none ∧ locks'.entries.length < maxHeldLocks ∨
        ∃ l, locks.lookup root = some l ∧ locks' = locks ∧ l.token = held.token)) ∨
    ∃ root held, locks.lookup root = some held ∧ c = .unlock root held.token ∧
      effect now locks c = locks.erase root := by
  have hsame := Shrinks.refl now locks
  cases c with
  | create root duration random =>
    obtain ⟨-, -, -, h⟩ | ⟨locks', hs, hfree, ⟨e, h⟩ | ⟨-, held, hlen, h⟩⟩ :=
      createLock_cases now root duration random locks
    · simp [effect, h, hsame]
    · simp [effect, h, hs]
    · exact .inr (.inl ⟨root, duration, held, locks', .inl ⟨random, rfl, by rw [h]⟩, hs,
        by rw [effect, h], .inl ⟨hfree, hlen⟩⟩)
  | refresh root token duration =>
    obtain ⟨l, hl, rfl, h⟩ | ⟨locks', hs, h⟩ := matching_cases now root token locks
    · exact .inr (.inl ⟨root, duration, ⟨l.token, now + (clampLockDuration duration).toNat⟩, locks,
        .inr ⟨l.token, rfl, by rw [refresh, h]⟩, hsame, by rw [effect, refresh, h],
        .inr ⟨l, hl, rfl, rfl⟩⟩)
    · simp [effect, refresh, h, hs]
  | unlock root token =>
    obtain ⟨l, hl, rfl, h⟩ | ⟨locks', hs, h⟩ := matching_cases now root token locks
    · exact .inr (.inr ⟨root, l, hl, rfl, by rw [effect, unlockRoot, h]⟩)
    · simp [effect, unlockRoot, h, hs]
  | guard root tokens => exact .inl (guard_shrinks now root tokens locks)
  | holder root => exact .inl (live_shrinks locks root now)

theorem holds_of_lookup (hl : locks.lookup root = some held) (ht : now < held.expires) :
    Holds now locks root held := by
  have h := live_held hl ht
  refine ⟨h, fun tokens => ?_, fun _ _ => ?_, fun token hne _ => ?_, fun token hne => ?_⟩
  · grind [WebdavHandler.guard]
  · rw [createLock, h]
  · simp [refresh, matching, h, hne.symm]
  · simp [unlockRoot, matching, h, hne.symm]

theorem unseen_of_lookup
    (h : ∀ l, locks.lookup root = some l → l.token = token → l.expires ≤ now) :
    Unseen now locks root token := by
  have hheld : ∀ l, (live locks root now).1 = some l → l.token ≠ token := by
    grind [live]
  have hmatch : (matching now root token locks).1 = none := by
    grind [matching]
  refine ⟨hheld, fun tokens l hl => hheld l ?_, fun d r hc => ?_, fun d => ?_, ?_⟩
  · grind [WebdavHandler.guard]
  · grind [createLock, holder]
  · grind [refresh]
  · grind [unlockRoot]

theorem length_le_of_lookup (h : ∀ a, locks.lookup a = none → locks'.lookup a = none) :
    locks'.entries.length ≤ locks.entries.length := by
  have hsub : locks'.keys ⊆ locks.keys := by
    intro a ha
    by_contra hn
    exact AList.lookup_eq_none.1 (h a (AList.lookup_eq_none.2 hn)) ha
  simpa [AList.keys, List.keys] using
    (List.subperm_of_subset locks'.keys_nodup hsub).length_le

theorem effect_bound (h : locks.entries.length ≤ maxHeldLocks) (c : Call) :
    (effect now locks c).entries.length ≤ maxHeldLocks := by
  obtain hs | ⟨root, -, held, locks', -, -, he, ⟨-, hlen⟩ | ⟨l, hl, rfl, -⟩⟩ | ⟨root, _, -, -, he⟩ :=
    effect_cases now locks c
  · exact (length_le_of_lookup fun a => hs.free).trans h
  · rw [he, AList.entries_insert]
    exact Nat.succ_le_of_lt ((List.kerase_sublist root _).length_le.trans_lt hlen)
  · rw [he]
    refine (length_le_of_lookup fun a ha => ?_).trans h
    rw [AList.lookup_insert_ne, ha]
    rintro rfl
    simp [hl] at ha
  · rw [he]
    exact (List.kerase_sublist root _).length_le.trans h

/-- What a call by others does to the lock: nothing, unless it has expired. -/
theorem effect_lookup {s : Table} {c : Call} (hf : Foreign root token s (now, c)) {l : LockDetails}
    (htok : l.token = token) :
    ((effect now s.locks c).lookup root = some l → s.locks.lookup root = some l) ∧
    (now < l.expires → c ≠ .unlock root token → s.locks.lookup root = some l →
      (effect now s.locks c).lookup root = some l) := by
  obtain hs | ⟨r, d, held, locks', hg, hs, he, hr⟩ | ⟨r, held, hheld, hc, he⟩ :=
    effect_cases now s.locks c
  · grind [Shrinks]
  · by_cases hne : root = r
    · grind [Shrinks, Foreign, AList.lookup_insert]
    · grind [Shrinks, AList.lookup_insert_ne]
  · by_cases hne : root = r
    · grind [AList.lookup_erase]
    · grind [AList.lookup_erase_ne]

end Effects

section Runs

theorem next_eq {s s' : Table} {e : ℕ × Call} :
    next s e = some s' ↔ s.clock ≤ e.1 ∧ ⟨e.1, effect e.1 s.locks e.2⟩ = s' :=
  Option.ite_some_none_eq_some

theorem lookup_of_grants {locks root duration held} {e : ℕ × Call}
    (h : Grants locks root duration held e) :
    held.expires = e.1 + (clampLockDuration duration).toNat ∧
      (effect e.1 locks e.2).lookup root = some held := by
  obtain ⟨now, c⟩ := e
  obtain ⟨random, rfl, h⟩ | ⟨token, rfl, h⟩ := h
  · grind [createLock, effect, AList.lookup_insert]
  · grind [refresh, effect, AList.lookup_insert]

/-- A lock that is created or refreshed is found by every call on its path until it expires, unless
it is released with its token, and by none afterwards, unless it is refreshed again. -/
theorem locks_disciplined :
    (∀ es s, run next ⟨0, ∅⟩ es = some s → s.locks.entries.length ≤ 65536) ∧
    ∀ s e s' root duration held, next s e = some s' → Grants s.locks root duration held e →
      held.expires = e.1 + (clampLockDuration duration).toNat ∧
      ∀ es u now, run next s' es = some u → u.clock ≤ now →
        (now < held.expires → Meets next (fun s e => Foreign root held.token s e ∧
          e.2 ≠ .unlock root held.token) s' es → Holds now u.locks root held) ∧
        (held.expires ≤ now → Meets next (Foreign root held.token) s' es →
          Unseen now u.locks root held.token) := by
  refine ⟨fun es s h => ?_, fun s e s' root duration held he hg => ?_⟩
  · refine run_invariant (I := fun s : Table => s.locks.entries.length ≤ 65536) ?_ (by decide) h
    intro s e s' hs he
    obtain ⟨-, rfl⟩ := next_eq.1 he
    exact effect_bound hs e.2
  obtain ⟨-, rfl⟩ := next_eq.1 he
  obtain ⟨hexp, hl⟩ := lookup_of_grants hg
  refine ⟨hexp, fun es u now hrun hnow => ⟨fun ht hm => ?_, fun ht hm => ?_⟩⟩
  · refine holds_of_lookup (run_invariant_of_meets (I := fun s : Table =>
      s.clock < held.expires → s.locks.lookup root = some held) ?_ (fun _ => hl) hm hrun
      (hnow.trans_lt ht)) ht
    intro s e s' hs hf he hlt
    obtain ⟨hle, rfl⟩ := next_eq.1 he
    exact (effect_lookup hf.1 rfl).2 hlt hf.2 (hs (hle.trans_lt hlt))
  · refine unseen_of_lookup (run_invariant_of_meets (I := fun s : Table => ∀ l,
      s.locks.lookup root = some l → l.token = held.token → l.expires ≤ now) ?_ ?_ hm hrun)
    · intro s e s' hs hf he l hl' htok
      obtain ⟨-, rfl⟩ := next_eq.1 he
      exact hs l ((effect_lookup hf htok).1 hl') htok
    · intro l hl' _
      cases hl.symm.trans hl'
      exact ht

end Runs

end WebdavLockTable
