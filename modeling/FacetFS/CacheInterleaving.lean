import FacetFS.CacheRefinement

/-! # Fills and writes of one cached file at the same time

A fetch reads the backend and publishes the bytes later; a write or a truncate reaches the backend
first and the cached copy later. Between the two steps of one operation any others may run. The
cached copy stands for an older file, from which the operations in flight lead to the backend's. -/
namespace CacheInterleaving

open CacheRanges CacheItem CacheRefinement EventSystem

section Replay

variable {σ ο : Type*} (act : ο → σ → σ)

def replay (os : List ο) (s : σ) : σ := os.foldl (fun s o => act o s) s

theorem replay_append (os os' : List ο) (s : σ) :
    replay act (os ++ os') s = replay act os' (replay act os s) :=
  List.foldl_append

theorem replay_first {os os' o} (h : ∀ e ∈ os, ∀ s, act o (act e s) = act e (act o s)) (s : σ) :
    replay act (os ++ o :: os') s = replay act (os ++ os') (act o s) := by
  induction os generalizing s with
  | nil => rfl
  | cons e os ih =>
    change replay act (os ++ o :: os') (act e s) = replay act (os ++ os') (act e (act o s))
    rw [ih (fun e' he' => h e' (List.mem_cons_of_mem e he')), h e (List.mem_cons_self ..)]

end Replay

section Operations

/-- What a wrapper does to the backend and then to the cached copy. -/
inductive Op where
  | write (p : List UInt8) (off : Int)
  | truncate (n : ℕ)

/-- The bytes the backend acknowledged; without any there is nothing to mirror. -/
def Op.Valid : Op → Prop
  | .write p off => p ≠ [] ∧ 0 ≤ off
  | .truncate _ => True

instance (o : Op) : Decidable o.Valid := by
  cases o <;> unfold Op.Valid <;> infer_instance

def Op.onFile : Op → File → File
  | .write p off, f => f.write p off
  | .truncate n, f => f.resize n

/-- With a fault the operation on the data file fails. -/
def Op.onItem : Op → Option ℕ → Cached → Cached
  | .write p off, fault, c => mirrorWrite fault p off c
  | .truncate n, fault, c => CacheItem.truncate fault.isSome n c

/-- A byte that was read before the operation is not the file's after it. -/
def Op.Replaces : Op → Int → Prop
  | .write p off, x => (span p off).Has x
  | .truncate n, x => n ≤ x

def Op.Conflicts : Op → Op → Prop
  | .write p off, .write q off' => ∃ x, (span p off).Has x ∧ (span q off').Has x ∧
      p.getD (x - off).toNat 0 ≠ q.getD (x - off').toNat 0
  | .write p off, .truncate n => n < (span p off).stop
  | .truncate n, .write p off => n < (span p off).stop
  | .truncate n, .truncate n' => n ≠ n'

/-- A fault that leaves a copy with absent bytes: the failed write lies within the size. -/
def Op.Survives : Op → Option ℕ → Cached → Prop
  | .write p off, fault, c => fault = none ∨ (span p off).stop ≤ c.item.size
  | .truncate _, fault, _ => fault = none

end Operations

section System

/-- Bytes read from the backend and not published yet. -/
structure Fetch where
  pos : Int
  bytes : List UInt8

/-- `ops` are the operations the backend has and the cached copy has not, in the backend's order. -/
structure State where
  file : File
  cached : Cached
  fetches : List Fetch
  ops : List Op

inductive Event where
  | read (r : Rng) (n : ℕ)
  | publish (i : ℕ) (fault : ℕ → Option ℕ)
  | backend (o : Op)
  | settle (i : ℕ) (fault : Option ℕ)

def next (s : State) : Event → Option State
  | .read r n => some { s with fetches := s.fetches ++ [⟨r.pos, (s.file.fetch r).take n⟩] }
  | .publish i fault =>
    match s.fetches[i]? with
    | none => none
    | some b => some { s with
        cached := writeNoOverwrite fault b.bytes b.pos s.cached
        fetches := s.fetches.eraseIdx i }
  | .backend o =>
    if o.Valid then some { s with file := o.onFile s.file, ops := s.ops ++ [o] } else none
  | .settle i fault =>
    match s.ops[i]? with
    | none => none
    | some o => some { s with
        cached := o.onItem fault s.cached
        ops := s.ops.eraseIdx i }

def start (c : Cached) (f : File) : State := ⟨f, c, [], []⟩

def Quiet (s : State) : Prop := s.fetches = [] ∧ s.ops = []

def Coherent (s : State) : Prop :=
  (∀ x, Has s.cached.item.rs x → s.cached.data x = s.file.data x) ∧
    s.cached.item.size = s.file.size

/-- The bytes a fetch would add are the backend's, or an operation in flight replaces them. -/
def Fresh (s : State) (b : Fetch) : Prop :=
  ∀ x, (span b.bytes b.pos).Has x → x < s.cached.item.size → ¬ Has s.cached.item.rs x →
    b.bytes.getD (x - b.pos).toNat 0 = s.file.data x ∨ ∃ o ∈ s.ops, o.Replaces x

/-- Operations whose order matters reach the copy in the backend's order, and no fetch is stale. -/
def Orderly (s : State) : Event → Prop
  | .publish i _ => ∀ b, s.fetches[i]? = some b → Fresh s b
  | .settle i fault => ∀ o, s.ops[i]? = some o →
      (∀ e ∈ s.ops.take i, ¬ e.Conflicts o) ∧ o.Survives fault s.cached
  | _ => True

end System

section Files

theorem file_eq {f g : File} (hs : f.size = g.size) (hd : ∀ x, f.data x = g.data x) : f = g := by
  cases f
  cases g
  obtain rfl : _ = _ := hs
  obtain rfl : _ = _ := funext hd
  rfl

theorem write_data (f : File) (p : List UInt8) (off x : Int) :
    (f.write p off).data x = if (span p off).Has x then p.getD (x - off).toNat 0 else f.data x := rfl

theorem resize_data (f : File) (n : ℕ) (x : Int) :
    (f.resize n).data x = if x < n then f.data x else 0 := rfl

theorem resize_write (f : File) {p : List UInt8} {off : Int} {n : ℕ} (h : (span p off).stop ≤ n) :
    (f.write p off).resize n = (f.resize n).write p off := by
  refine file_eq (max_eq_left h).symm fun x => ?_
  simp only [write_data, resize_data]
  by_cases hx : (span p off).Has x
  · rw [if_pos (hx.2.trans_le h), if_pos hx, if_pos hx]
  · rw [if_neg hx, if_neg hx]

theorem onFile_comm {e o : Op} (h : ¬ e.Conflicts o) (f : File) :
    o.onFile (e.onFile f) = e.onFile (o.onFile f) := by
  cases e with
  | write p off =>
    cases o with
    | write q off' =>
      refine file_eq (max_right_comm _ _ _) fun x => ?_
      change ((f.write p off).write q off').data x = ((f.write q off').write p off).data x
      simp only [write_data]
      split
      · rename_i hq
        split
        · rename_i hp
          by_contra hne
          exact h ⟨x, hp, hq, fun he => hne he.symm⟩
        · rfl
      · rfl
    | truncate n => exact resize_write f (not_lt.1 h)
  | truncate n =>
    cases o with
    | write q off' => exact (resize_write f (not_lt.1 h)).symm
    | truncate n' =>
      obtain rfl : n = n' := not_not.1 h
      rfl

theorem onFile_conflict {e o : Op} (h : e.Conflicts o) (f : File) :
    (o.onFile (e.onFile f)).size ≠ (e.onFile (o.onFile f)).size ∨
      ∃ x, ∃ p off, e = .write p off ∧ (span p off).Has x ∧
        (o.onFile (e.onFile f)).data x ≠ (e.onFile (o.onFile f)).data x := by
  cases e with
  | write p off =>
    cases o with
    | write q off' =>
      obtain ⟨x, hp, hq, hne⟩ := h
      refine .inr ⟨x, p, off, rfl, hp, fun he => hne ?_⟩
      simp only [Op.onFile, write_data] at he
      rw [if_pos hq, if_pos hp] at he
      exact he.symm
    | truncate n =>
      left
      have hlt : (n : Int) < (span p off).stop := h
      change (n : Int) ≠ max (n : Int) (span p off).stop
      omega
  | truncate n =>
    left
    cases o with
    | write q off' =>
      have hlt : (n : Int) < (span q off').stop := h
      change max (n : Int) (span q off').stop ≠ (n : Int)
      omega
    | truncate n' =>
      have hne : n ≠ n' := h
      change (n' : Int) ≠ (n : Int)
      omega

theorem onFile_size {o : Op} {f g : File} (h : f.size = g.size) :
    (o.onFile f).size = (o.onFile g).size := by
  cases o with
  | write p off => exact congrArg (max · _) h
  | truncate n => rfl

theorem onFile_data {o : Op} {f g : File} {x : Int} (h : f.data x = g.data x ∨ o.Replaces x) :
    (o.onFile f).data x = (o.onFile g).data x := by
  cases o with
  | write p off =>
    simp only [Op.onFile, write_data]
    split
    · rfl
    · rename_i hx
      exact h.resolve_right hx
  | truncate n =>
    simp only [Op.onFile, resize_data]
    split
    · rename_i hx
      exact h.resolve_right (not_le.2 hx)
    · rfl

/-- Two files that differ only where an operation replaces the bytes become equal. -/
theorem replay_congr {os f g} (hs : f.size = g.size)
    (hd : ∀ x, f.data x = g.data x ∨ ∃ o ∈ os, o.Replaces x) :
    replay Op.onFile os f = replay Op.onFile os g := by
  induction os generalizing f g with
  | nil => exact file_eq hs fun x => (hd x).resolve_right (by simp)
  | cons o os ih =>
    refine ih (onFile_size hs) fun x => ?_
    rcases hd x with he | ⟨e, he, hx⟩
    · exact .inl (onFile_data (.inl he))
    rcases List.mem_cons.1 he with rfl | he
    · exact .inl (onFile_data (.inr hx))
    · exact .inr ⟨e, he, hx⟩

theorem onFile_data_same {o : Op} {f : File} {x : Int} (h : ¬ o.Replaces x) :
    (o.onFile f).data x = f.data x := by
  cases o with
  | write p off => exact if_neg h
  | truncate n => exact if_pos (not_le.1 h)

theorem replay_data {os f x} (h : ∀ o ∈ os, ¬ o.Replaces x) :
    (replay Op.onFile os f).data x = f.data x := by
  induction os generalizing f with
  | nil => rfl
  | cons o os ih =>
    change (replay Op.onFile os (o.onFile f)).data x = _
    rw [ih fun e he => h e (List.mem_cons_of_mem o he)]
    exact onFile_data_same (h o (List.mem_cons_self ..))

end Files

section Copies

variable {c : Cached} {f : File} {o : Op}

theorem survives_none (o : Op) (c : Cached) : o.Survives none c := by
  cases o with
  | write p off => exact .inl rfl
  | truncate n => rfl

theorem agrees_onItem (h : Agrees c f) (hl : c.item.live = true) (hv : o.Valid) {fault}
    (hs : o.Survives fault c) :
    Agrees (o.onItem fault c) (o.onFile f) ∧ (o.onItem fault c).item.live = true := by
  cases o with
  | write p off =>
    cases fault with
    | none =>
      refine ⟨h.mirror hv.1 hv.2 hl, ?_⟩
      change (mirrorWrite none p off c).item.live = true
      rw [(mirrorWrite_spec h.normal hv.1 hv.2 hl).same]
      exact hl
    | some k =>
      have hle : (span p off).stop ≤ c.item.size := hs.resolve_left nofun
      have hitem : mirrorWrite (some k) p off c =
          ⟨{ c.item with rs := remove c.item.rs (span p off) }, store c.data (p.take k) off,
            c.cachedBytes + (size (remove c.item.rs (span p off)) - size c.item.rs)⟩ := by
        rw [mirrorWrite, if_neg (by simp [hv.1, hv.2, hl])]
      have htake : ∀ x, (span (p.take k) off).Has x → (span p off).Has x := by
        intro x hx
        simp only [span, Rng.Has, Rng.stop, List.length_take] at hx ⊢
        omega
      change Agrees (mirrorWrite (some k) p off c) (f.write p off) ∧ _
      simp only [Op.onItem, hitem]
      refine ⟨⟨h.normal.remove _, ?_, fun x hx => ?_, fun x hx => ?_⟩, hl⟩
      · change c.item.size = max f.size (span p off).stop
        rw [← h.size, max_eq_left hle]
      · have hfx : f.size ≤ x := (le_max_left _ _).trans hx
        have hout : ¬ (span p off).Has x := fun hs => absurd hs.2 (not_lt.2 ((le_max_right _ _).trans hx))
        change store c.data (p.take k) off x = 0
        rw [store_other fun hk => hout (htake x hk), h.beyond x hfx]
      · obtain ⟨hrs, hout⟩ := (has_remove h.normal _ x).1 hx
        change store c.data (p.take k) off x = store f.data p off x
        rw [store_other fun hk => hout (htake x hk), store_other hout, h.bytes x hrs]
  | truncate n =>
    obtain rfl : fault = none := hs
    refine ⟨h.truncate n hl, ?_⟩
    change (CacheItem.truncate false n c).item.live = true
    rw [(truncate_spec h.normal (Int.natCast_nonneg n) hl).same]
    exact hl

theorem onItem_kept (hn : Normal c.item.rs) (hl : c.item.live = true) (hv : o.Valid) {x}
    (hx : Has c.item.rs x) (hr : ¬ o.Replaces x) :
    Has (o.onItem none c).item.rs x ∧ (o.onItem none c).data x = c.data x := by
  cases o with
  | write p off =>
    obtain ⟨-, -, hhas, hdata⟩ := mirrorWrite_spec hn hv.1 hv.2 hl
    refine ⟨(hhas x).2 (.inl hx), ?_⟩
    change (mirrorWrite none p off c).data x = _
    rw [hdata, store_other hr]
  | truncate n =>
    obtain ⟨-, -, hhas, hdata⟩ := truncate_spec hn (Int.natCast_nonneg n) hl
    have hlt : x < n := not_le.1 hr
    refine ⟨(hhas x).2 (.inl ⟨hx, fun ht => hr ((has_tail n x).1 ht).1⟩), ?_⟩
    change (CacheItem.truncate false n c).data x = _
    rw [hdata]
    exact if_pos hlt

/-- The file a copy stands for once fetched bytes were published: the new bytes are in it. -/
def published (c' : Cached) (f : File) (h : ∀ x, f.size ≤ x → c'.data x = 0) : File where
  size := f.size
  data x := if Has c'.item.rs x then c'.data x else f.data x
  nonneg := f.nonneg
  beyond x hx := by
    split
    · exact h x hx
    · exact f.beyond x hx

end Copies

section Runs

variable {s t : State} {base : File}

/-- The copy stands for a file from which the operations in flight lead to the backend's. -/
structure Tracks (s : State) (base : File) : Prop where
  agrees : Agrees s.cached base
  live : s.cached.item.live = true
  file : s.file = replay Op.onFile s.ops base
  valid : ∀ o ∈ s.ops, o.Valid

theorem publish_tracks (h : Tracks s base) {b} (hf : Fresh s b) (fault : ℕ → Option ℕ)
    (fetches : List Fetch) :
    ∃ base', Tracks { s with
      cached := writeNoOverwrite fault b.bytes b.pos s.cached, fetches := fetches } base' := by
  obtain ⟨hsame, hnormal, hkept, hnew, -, -⟩ :=
    writeNoOverwrite_spec fault b.bytes b.pos h.agrees.normal
  have hbeyond := fun (x : Int) (hx : base.size ≤ x) =>
    (writeNoOverwrite_beyond fault b.bytes b.pos h.agrees.normal (h.agrees.size.trans_le hx)).trans
      (h.agrees.beyond x hx)
  generalize writeNoOverwrite fault b.bytes b.pos s.cached = c' at hsame hnormal hkept hnew hbeyond
  refine ⟨published c' base hbeyond, ⟨hnormal, ?_, hbeyond, fun x hx => (if_pos hx).symm⟩, ?_, ?_,
    h.valid⟩
  · rw [hsame]
    exact h.agrees.size
  · rw [hsame]
    exact h.live
  rw [h.file]
  refine replay_congr rfl fun x => ?_
  change base.data x = (if Has c'.item.rs x then c'.data x else base.data x) ∨ _
  by_cases hx : Has c'.item.rs x
  · rw [if_pos hx]
    by_cases hold : Has s.cached.item.rs x
    · rw [(hkept x hold).2, h.agrees.bytes x hold]
      exact .inl rfl
    obtain ⟨hspan, hlt, hdata⟩ := (hnew x hx).resolve_left hold
    by_cases hr : ∃ o ∈ s.ops, o.Replaces x
    · exact .inr hr
    left
    rw [hdata, (hf x hspan hlt hold).resolve_right hr, h.file,
      replay_data fun o ho hox => hr ⟨o, ho, hox⟩]
  · rw [if_neg hx]
    exact .inl rfl

theorem settle_tracks (h : Tracks s base) {i : ℕ} {o : Op} (hi : s.ops[i]? = some o)
    (hc : ∀ e ∈ s.ops.take i, ¬ e.Conflicts o) {fault : Option ℕ} (hs : o.Survives fault s.cached) :
    Tracks { s with cached := o.onItem fault s.cached, ops := s.ops.eraseIdx i }
      (o.onFile base) := by
  have hsplit : s.ops = s.ops.take i ++ o :: s.ops.drop (i + 1) := by
    obtain ⟨hlt, ho⟩ := List.getElem?_eq_some_iff.1 hi
    rw [← ho, List.getElem_cons_drop, List.take_append_drop]
  have hv : o.Valid := h.valid o (List.mem_of_getElem? hi)
  obtain ⟨ha, hl⟩ := agrees_onItem h.agrees h.live hv hs
  refine ⟨ha, hl, ?_, fun e he => h.valid e (List.mem_of_mem_eraseIdx he)⟩
  rw [List.eraseIdx_eq_take_drop_succ, ← replay_first Op.onFile
    (fun e he f => onFile_comm (hc e he) f), ← hsplit]
  exact h.file

theorem next_tracks {e} (h : ∃ base, Tracks s base) (hg : Orderly s e)
    (hn : next s e = some t) : ∃ base, Tracks t base := by
  obtain ⟨base, h⟩ := h
  cases e with
  | read r n =>
    cases hn
    exact ⟨base, h.agrees, h.live, h.file, h.valid⟩
  | publish i fault =>
    rw [next] at hn
    split at hn
    · cases hn
    rename_i b hb
    cases hn
    exact publish_tracks h (hg b hb) fault _
  | backend o =>
    rw [next] at hn
    split at hn
    · rename_i hv
      cases hn
      refine ⟨base, h.agrees, h.live, ?_, fun e he => ?_⟩
      · rw [replay_append, ← h.file]
        rfl
      · rcases List.mem_append.1 he with he | he
        · exact h.valid e he
        · rw [List.mem_singleton.1 he]
          exact hv
    · cases hn
  | settle i fault =>
    rw [next] at hn
    split at hn
    · cases hn
    rename_i o ho
    cases hn
    obtain ⟨hc, hs⟩ := hg o ho
    exact ⟨_, settle_tracks h ho hc hs⟩

theorem run_tracks {c f} (hc : Agrees c f) (hl : c.item.live = true)
    {es} (hm : Meets next Orderly (start c f) es)
    (h : run next (start c f) es = some t) : ∃ base, Tracks t base :=
  run_invariant_of_meets (fun _ _ _ hb hg hn => next_tracks hb hg hn)
    ⟨f, hc, hl, rfl, fun _ ho => absurd ho List.not_mem_nil⟩ hm h

theorem Tracks.agrees_quiet (h : Tracks s base) (hq : s.ops = []) : Agrees s.cached s.file := by
  have hf := h.file
  rw [hq] at hf
  rw [hf]
  exact h.agrees

theorem coherent_of_agrees (h : Agrees s.cached s.file) : Coherent s := ⟨h.bytes, h.size⟩

end Runs

section Staleness

variable {s : State} {x : Int}

/-- A present byte is wrong and no operation in flight replaces it. -/
structure Stale (s : State) (x : Int) : Prop where
  normal : Normal s.cached.item.rs
  live : s.cached.item.live = true
  valid : ∀ o ∈ s.ops, o.Valid
  present : Has s.cached.item.rs x
  wrong : s.cached.data x ≠ s.file.data x
  kept : ∀ o ∈ s.ops, ¬ o.Replaces x

theorem Stale.not_coherent (h : Stale s x) : ¬ Coherent s :=
  fun hc => h.wrong (hc.1 x h.present)

theorem onItem_normal {c : Cached} {o : Op} (hn : Normal c.item.rs) (hl : c.item.live = true)
    (hv : o.Valid) : Normal (o.onItem none c).item.rs ∧ (o.onItem none c).item.live = true := by
  cases o with
  | write p off =>
    have hm := mirrorWrite_spec hn hv.1 hv.2 hl
    refine ⟨hm.normal, ?_⟩
    change (mirrorWrite none p off c).item.live = true
    rw [hm.same]
    exact hl
  | truncate n =>
    have hr := truncate_spec hn (Int.natCast_nonneg n) hl
    refine ⟨hr.normal, ?_⟩
    change (CacheItem.truncate false n c).item.live = true
    rw [hr.same]
    exact hl

theorem Stale.settles (h : Stale s x) {os} (hos : s.ops = os) :
    ∃ es u, run next s es = some u ∧ u.ops = [] ∧ Stale u x := by
  induction os generalizing s with
  | nil => exact ⟨[], s, rfl, hos, h⟩
  | cons o os ih =>
    have ho : o ∈ s.ops := hos ▸ List.mem_cons_self ..
    have hmem : ∀ e ∈ os, e ∈ s.ops := fun e he => hos ▸ List.mem_cons_of_mem o he
    obtain ⟨hn, hl⟩ := onItem_normal h.normal h.live (h.valid o ho)
    obtain ⟨hhas, hdata⟩ := onItem_kept h.normal h.live (h.valid o ho) h.present (h.kept o ho)
    let v : State := { s with cached := o.onItem none s.cached, ops := os }
    have hstep : next s (.settle 0 none) = some v := by
      rw [next, hos]
      rfl
    have hv : Stale v x := by
      refine ⟨hn, hl, fun e he => h.valid e (hmem e he), hhas, ?_, fun e he => h.kept e (hmem e he)⟩
      change (o.onItem none s.cached).data x ≠ s.file.data x
      rw [hdata]
      exact h.wrong
    obtain ⟨es, u, hrun, hu, hus⟩ := ih hv rfl
    exact ⟨_ :: es, u, run_cons.2 ⟨v, hstep, hrun⟩, hu, hus⟩

theorem Stale.publish (h : Stale s x) (b : Fetch) (fetches : List Fetch) : Stale { s with
      cached := writeNoOverwrite (fun _ => none) b.bytes b.pos s.cached, fetches := fetches } x := by
  obtain ⟨hsame, hnormal, hkept, -, -, -⟩ :=
    writeNoOverwrite_spec (fun _ => none) b.bytes b.pos h.normal
  refine ⟨hnormal, ?_, h.valid, (hkept x h.present).1, ?_, h.kept⟩
  · rw [hsame]
    exact h.live
  · rw [(hkept x h.present).2]
    exact h.wrong

theorem Stale.publishes (h : Stale s x) (hops : s.ops = []) {bs}
    (hbs : s.fetches = bs) : ∃ es u, run next s es = some u ∧ Quiet u ∧ Stale u x := by
  induction bs generalizing s with
  | nil => exact ⟨[], s, rfl, ⟨hbs, hops⟩, h⟩
  | cons b bs ih =>
    obtain ⟨es, u, hrun, hu⟩ := ih (h.publish b bs) hops rfl
    refine ⟨.publish 0 (fun _ => none) :: es, u, run_cons.2 ⟨_, ?_, hrun⟩, hu⟩
    rw [next, hbs]
    rfl

theorem Stale.ends (h : Stale s x) : ∃ es u, run next s es = some u ∧ Quiet u ∧ ¬ Coherent u := by
  obtain ⟨es, v, hes, hv, hstale⟩ := h.settles rfl
  obtain ⟨fs, u, hfs, hu, hstale'⟩ := hstale.publishes hv rfl
  exact ⟨es ++ fs, u, run_append.2 ⟨v, hes, hfs⟩, hu, hstale'.not_coherent⟩

end Staleness

section Coherence

variable {t : State} {base : File}

theorem stale_publish (h : Tracks t base) {i b} (hb : t.fetches[i]? = some b) (hf : ¬ Fresh t b) :
    ∃ es u, run next t (.publish i (fun _ => none) :: es) = some u ∧ Quiet u ∧ ¬ Coherent u := by
  simp only [Fresh, not_forall, not_or, not_exists, not_and] at hf
  obtain ⟨x, hspan, hlt, hmissing, hwrong, hkept⟩ := hf
  obtain ⟨hsame, hnormal, -, hnew, -, -⟩ :=
    writeNoOverwrite_spec (fun _ => none) b.bytes b.pos h.agrees.normal
  have hpresent := writeNoOverwrite_present b.bytes b.pos h.agrees.normal h.live hspan hlt
  have hstale : Stale { t with
      cached := writeNoOverwrite (fun _ => none) b.bytes b.pos t.cached
      fetches := t.fetches.eraseIdx i } x := by
    refine ⟨hnormal, ?_, h.valid, hpresent, ?_, hkept⟩
    · rw [hsame]
      exact h.live
    · rw [((hnew x hpresent).resolve_left hmissing).2.2]
      exact hwrong
  obtain ⟨es, u, hrun, hu⟩ := hstale.ends
  refine ⟨es, u, run_cons.2 ⟨_, ?_, hrun⟩, hu⟩
  rw [next, hb]

theorem crossed_coherent_iff {c : Cached} {f : File} (hc : Agrees c f) (hl : c.item.live = true)
    {e o : Op} (he : e.Valid) (ho : o.Valid) :
    Coherent ⟨o.onFile (e.onFile f), e.onItem none (o.onItem none c), [], []⟩ ↔
      ¬ e.Conflicts o := by
  obtain ⟨ha, hl'⟩ := agrees_onItem hc hl ho (survives_none o c)
  obtain ⟨ha', -⟩ := agrees_onItem ha hl' he (survives_none e _)
  constructor
  · intro hcoh hconf
    rcases onFile_conflict hconf f with hsize | ⟨x, p, off, rfl, hx, hdata⟩
    · exact hsize (hcoh.2.symm.trans ha'.size)
    have hpresent : Has (Op.onItem (.write p off) none (o.onItem none c)).item.rs x :=
      ((mirrorWrite_spec ha.normal he.1 he.2 hl').has x).2 (.inr hx)
    exact hdata ((hcoh.1 x hpresent).symm.trans (ha'.bytes x hpresent))
  · intro hconf
    rw [onFile_comm hconf]
    exact coherent_of_agrees ha'

/-- If operations whose order matters reach the copy in the backend's order and no stale fetch is
published, the copy is right whenever nothing is in flight. Neither condition can be dropped: a stale
fetch can only end in a wrong copy, and two operations alone that cross end in one exactly when
their order matters. -/
theorem coherent_when_orderly (c : Cached) (f : File) (hc : Agrees c f)
    (hl : c.item.live = true) (es : List Event) (t : State)
    (h : run next (start c f) es = some t) (hm : Meets next Orderly (start c f) es) :
    (Quiet t → Coherent t) ∧
    (∀ i b, t.fetches[i]? = some b → ¬ Fresh t b → ∃ es' u,
      run next t (.publish i (fun _ => none) :: es') = some u ∧ Quiet u ∧ ¬ Coherent u) ∧
    ∀ e o : Op, e.Valid → o.Valid → Quiet t → ∃ u,
      run next t [.backend e, .backend o, .settle 1 none, .settle 0 none] = some u ∧ Quiet u ∧
        (Coherent u ↔ ¬ e.Conflicts o) := by
  obtain ⟨base, ht⟩ := run_tracks hc hl hm h
  refine ⟨fun hq => coherent_of_agrees (ht.agrees_quiet hq.2), fun i b => stale_publish ht, ?_⟩
  intro e o he ho hq
  refine ⟨⟨o.onFile (e.onFile t.file), e.onItem none (o.onItem none t.cached), [], []⟩, ?_,
    ⟨rfl, rfl⟩, crossed_coherent_iff (ht.agrees_quiet hq.2) ht.live he ho⟩
  obtain ⟨file, cached, fetches, ops⟩ := t
  obtain ⟨rfl, rfl⟩ := hq
  simp [run, next, he, ho]

def fourBytes : File := File.empty.write [1, 2, 3, 4] 0

def coldCopy : Cached := ⟨load ⟨4, 0⟩ 0 none, CacheItem.resize (fun _ => 0) 4, 0⟩

theorem coldCopy_agrees : Agrees coldCopy fourBytes :=
  Agrees.load rfl 0 none _ nofun 0

def overtaken : List Event :=
  [.read ⟨0, 4⟩ 4, .backend (.write [9] 1), .publish 0 (fun _ => none), .settle 0 none]

theorem coherent_when_orderly_overtaken :
    ∃ t, run next (start coldCopy fourBytes) overtaken = some t ∧ Quiet t ∧ Coherent t ∧
      t.file.data 1 = 9 ∧ Has t.cached.item.rs 1 := by
  have hrun : run next (start coldCopy fourBytes) overtaken = some _ := rfl
  refine ⟨_, hrun, ⟨rfl, rfl⟩, ?_, by decide, by decide⟩
  refine (coherent_when_orderly coldCopy fourBytes coldCopy_agrees rfl _ _ hrun ?_).1 ⟨rfl, rfl⟩
  refine .cons rfl trivial (.cons rfl trivial (.cons rfl ?_ (.cons rfl ?_ trivial)))
  · intro b hb x hx hlt _
    cases hb
    have h0 : 0 ≤ x := hx.1
    have h4 : x < 4 := hlt
    obtain rfl | rfl | rfl | rfl : x = 0 ∨ x = 1 ∨ x = 2 ∨ x = 3 := by omega
    · exact .inl rfl
    · exact .inr ⟨_, List.mem_singleton_self _, show (span [9] 1).Has 1 by decide⟩
    · exact .inl rfl
    · exact .inl rfl
  · intro o ho
    exact ⟨nofun, survives_none o _⟩

/-- A truncate and a write that extends the file again get between the two steps of a fetch. -/
def regrown : List Event :=
  [.read ⟨0, 4⟩ 4, .backend (.truncate 0), .settle 0 none, .backend (.write [9] 3),
    .settle 0 none, .publish 0 (fun _ => none)]

/-- Two writers of the same byte reach the copy in the opposite order. -/
def crossed : List Event :=
  [.backend (.write [5] 0), .backend (.write [6] 0), .settle 1 none, .settle 0 none]

/-- The fetched bytes of the old contents are taken for the zeros of the gap, and the copy keeps the
byte of the first writer. -/
theorem quiet_copy_wrong : (Agrees coldCopy fourBytes ∧ coldCopy.item.live = true) ∧
    (∃ t, run next (start coldCopy fourBytes) regrown = some t ∧ Quiet t ∧
      Has t.cached.item.rs 0 ∧ t.cached.data 0 = 1 ∧ t.file.data 0 = 0) ∧
    ∃ t, run next (start coldCopy fourBytes) crossed = some t ∧ Quiet t ∧
      Has t.cached.item.rs 0 ∧ t.cached.data 0 = 5 ∧ t.file.data 0 = 6 :=
  ⟨⟨coldCopy_agrees, rfl⟩, ⟨_, rfl, ⟨rfl, rfl⟩, by decide, by decide, by decide⟩,
    ⟨_, rfl, ⟨rfl, rfl⟩, by decide, by decide, by decide⟩⟩

end Coherence

end CacheInterleaving
