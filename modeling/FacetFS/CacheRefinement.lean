import FacetFS.CacheItem
import FacetFS.EventSystem

/-! # A cached file stands for a file

The backend file as its size and its bytes, where everything past the end is zero, and what it
means that a cached file agrees with it: the sizes are equal and each byte that is present is the
file's. Every operation that does the same to both keeps this, and reading from a cached file that
agrees is reading from the file. -/
namespace CacheRefinement

open CacheRanges CacheItem EventSystem

variable {off : Int}

section Files

/-- A file with zeros past its end. -/
structure File where
  size : Int
  data : Content
  nonneg : 0 ≤ size
  beyond : ∀ x, size ≤ x → data x = 0

def File.empty : File := ⟨0, fun _ => 0, le_rfl, fun _ _ => rfl⟩

def File.write (f : File) (p : List UInt8) (off : Int) : File where
  size := max f.size (span p off).stop
  data := store f.data p off
  nonneg := le_max_of_le_left f.nonneg
  beyond x hx := by
    have hout : ¬ (span p off).Has x := fun h => by
      have := h.2
      omega
    rw [store_other hout]
    exact f.beyond x (by omega)

def File.resize (f : File) (n : ℕ) : File where
  size := n
  data := CacheItem.resize f.data n
  nonneg := Int.natCast_nonneg n
  beyond _ hx := if_neg (not_lt.2 hx)

def bytesAt (c : Content) (off : Int) (n : ℕ) : List UInt8 :=
  (List.range n).map fun k : ℕ => c (off + k)

/-- Reading up to `len` bytes; the flag is the end of the file. -/
def File.read (f : File) (len : ℕ) (off : Int) : List UInt8 × Bool :=
  if f.size ≤ off then ([], true)
  else (bytesAt f.data off (min (len : Int) (f.size - off)).toNat, decide (f.size - off < len))

def File.fetch (f : File) (r : Rng) : List UInt8 :=
  bytesAt f.data r.pos (min r.size (f.size - r.pos)).toNat

theorem length_bytesAt (c : Content) (off : Int) (n : ℕ) : (bytesAt c off n).length = n := by
  simp [bytesAt]

theorem getD_bytesAt {c x n} (h : (span (bytesAt c off n) off).Has x) :
    (bytesAt c off n).getD (x - off).toNat 0 = c x := by
  simp only [span, Rng.Has, Rng.stop, length_bytesAt] at h
  have hk : (x - off).toNat < n := by omega
  have hx : off + ((x - off).toNat : Int) = x := by omega
  simp only [bytesAt, List.getD_eq_getElem?_getD, List.getElem?_map, List.getElem?_range hk,
    Option.map_some, Option.getD_some, hx]

theorem bytesAt_congr {c d : Content} {n : ℕ}
    (h : ∀ x, off ≤ x → x < off + n → c x = d x) : bytesAt c off n = bytesAt d off n := by
  refine List.map_congr_left fun k hk => h _ (by omega) ?_
  rw [List.mem_range] at hk
  omega

end Files

section Reads

def download (source : Option File) (r : Rng) (c : Cached) : Cached :=
  if present c.item.rs r then c
  else
    match source with
    | some f => writeNoOverwrite (fun _ => none) (f.fetch r) r.pos c
    | none => c

def readAt (source : Option File) (now : Int) (len : ℕ) (off : Int) (c : Cached) :
    Option (List UInt8 × Bool) × Cached :=
  if off < 0 then (none, c)
  else if c.item.size ≤ off then (some ([], true), c)
  else
    let n := min (len : Int) (c.item.size - off)
    let r : Rng := ⟨off, n⟩
    let filled := download source r c
    if present filled.item.rs r then
      (some (bytesAt filled.data off n.toNat, decide (n < len)), touch now (off + n) filled)
    else (none, filled)

end Reads

section Agreement

/-- The cached file is a copy of a part of the file. -/
structure Agrees (c : Cached) (f : File) : Prop where
  normal : Normal c.item.rs
  size : c.item.size = f.size
  beyond : ∀ x, f.size ≤ x → c.data x = 0
  bytes : ∀ x, Has c.item.rs x → c.data x = f.data x

variable {c : Cached} {f : File}

theorem Agrees.fill (h : Agrees c f) (r : Rng) (fault : ℕ → Option ℕ) :
    Agrees (writeNoOverwrite fault (f.fetch r) r.pos c) f := by
  obtain ⟨hsame, hnormal, hkept, hnew, hout, -⟩ :=
    writeNoOverwrite_spec fault (f.fetch r) r.pos h.normal
  refine ⟨hnormal, ?_, fun x hx => ?_, fun x hx => ?_⟩
  · rw [hsame]
    exact h.size
  · rw [hout x fun hs => ?_]
    · exact h.beyond x hx
    · simp only [File.fetch, span, Rng.Has, Rng.stop, length_bytesAt] at hs
      omega
  · rcases hnew x hx with hold | ⟨hs, -, hdata⟩
    · rw [(hkept x hold).2]
      exact h.bytes x hold
    · exact hdata.trans (getD_bytesAt hs)

theorem Agrees.mirror (h : Agrees c f) {p} (hp : p ≠ []) (hoff : 0 ≤ off)
    (hl : c.item.live = true) : Agrees (mirrorWrite none p off c) (f.write p off) := by
  obtain ⟨hsame, hnormal, hhas, hdata⟩ := mirrorWrite_spec h.normal hp hoff hl
  refine ⟨hnormal, ?_, fun x hx => ?_, fun x hx => ?_⟩
  · rw [hsame]
    show max c.item.size _ = max f.size _
    rw [h.size]
  · have hx' : f.size ≤ x := (le_max_left _ _).trans hx
    have hout : ¬ (span p off).Has x := fun hs => absurd hs.2 (not_lt.2 ((le_max_right _ _).trans hx))
    rw [hdata, store_other hout]
    exact h.beyond x hx'
  · rw [hdata]
    by_cases hs : (span p off).Has x
    · exact (store_span hs).trans (store_span hs).symm
    · rw [store_other hs]
      exact (h.bytes x (((hhas x).1 hx).resolve_right hs)).trans (store_other hs).symm

theorem Agrees.truncate (h : Agrees c f) (n : ℕ) (hl : c.item.live = true) :
    Agrees (CacheItem.truncate false n c) (f.resize n) := by
  obtain ⟨hsame, hnormal, hhas, hdata⟩ := truncate_spec h.normal (Int.natCast_nonneg n) hl
  refine ⟨hnormal, by rw [hsame]; rfl, fun x hx => ?_, fun x hx => ?_⟩
  · rw [hdata]
    exact if_neg (not_lt.2 hx)
  rw [hdata]
  show (if x < (n : Int) then c.data x else 0) = if x < (n : Int) then f.data x else 0
  split
  · rcases (hhas x).1 hx with ⟨hrs, -⟩ | ⟨hge, -⟩
    · exact h.bytes x hrs
    · rw [h.size] at hge
      rw [h.beyond x hge, f.beyond x hge]
  · rfl

theorem Agrees.punch (h : Agrees c f) (align : Int) (fault : ℕ → Bool) :
    Agrees (punchItem align fault c) f := by
  by_cases hl : c.item.live = true
  · obtain ⟨hsame, hnormal, hhas, hdata⟩ := punchItem_spec align fault h.normal hl
    refine ⟨hnormal, by rw [hsame]; exact h.size, fun x hx => ?_, fun x hx => ?_⟩
    · rw [hdata, h.beyond x hx, ite_self]
    · obtain ⟨hrs, hout⟩ := (hhas x).1 hx
      rw [hdata, if_neg hout]
      exact h.bytes x hrs
  · rw [punchItem, if_neg hl]
    exact h

theorem Agrees.of_eq {c'} (h : Agrees c f) (hrs : c'.item.rs = c.item.rs)
    (hsize : c'.item.size = c.item.size) (hdata : c'.data = c.data) : Agrees c' f :=
  ⟨hrs ▸ h.normal, hsize.trans h.size, hdata ▸ h.beyond, fun x hx => by
    rw [hdata]
    exact h.bytes x (hrs ▸ hx)⟩

theorem Agrees.load {fpr} (hsize : fpr.size = f.size) (now : Int) (m : Option Meta)
    (data : Content) (hm : ∀ m₀, m = some m₀ → m₀.fingerprint = fpr →
      ∀ x, Has m₀.ranges x → x < f.size → data x = f.data x) (n : Int) :
    Agrees ⟨load fpr now m, resize data fpr.size, n⟩ f := by
  refine ⟨load_normal fpr now m, ?_, fun x hx => ?_, fun x hx => ?_⟩
  · rw [(load_same fpr now m).2.1, hsize]
  · exact if_neg (not_lt.2 (hsize ▸ hx))
  show (if x < fpr.size then data x else 0) = f.data x
  rw [hsize]
  split
  · rename_i hlt
    rcases load_cases fpr now m with ⟨m₀, hm₀, hf, -, hrs⟩ | ⟨-, -, hrs⟩
    · rw [hrs, has_loadRanges] at hx
      exact hm m₀ hm₀ hf x hx.1 hlt
    · rw [hrs] at hx
      exact absurd hx (has_nil x)
  · rename_i hge
    exact (f.beyond x (not_lt.1 hge)).symm

theorem Agrees.download (h : Agrees c f) {source}
    (hs : ∀ g, source = some g → g = f) (r : Rng) : Agrees (download source r c) f := by
  unfold CacheRefinement.download
  split
  · exact h
  split
  · rename_i g
    obtain rfl := hs g rfl
    exact h.fill r _
  · exact h

theorem Agrees.read_eq (h : Agrees c f) {source} (hs : ∀ g, source = some g → g = f)
    {now len result}
    (hr : (readAt source now len off c).1 = some result) : result = f.read len off := by
  unfold readAt at hr
  unfold File.read
  rw [h.size] at hr
  split at hr
  · cases hr
  split at hr
  · rename_i hend
    rw [if_pos hend]
    exact (Option.some.inj hr).symm
  rename_i hin
  rw [if_neg hin]
  have hd := h.download hs ⟨off, min (len : Int) (f.size - off)⟩
  simp only at hr
  split at hr
  · rename_i hp
    rw [← Option.some.inj hr]
    refine Prod.ext (bytesAt_congr fun x hx hx' => hd.bytes x ?_) ?_
    · refine (present_iff hd.normal _).1 hp x ⟨hx, ?_⟩
      simp only [Rng.stop]
      omega
    · simp
  · cases hr

end Agreement

section SingleBytes

theorem bytesAt_one (c : Content) (x : Int) : bytesAt c x 1 = [c x] := by simp [bytesAt]

theorem File.read_one (f : File) {x} (hx : x < f.size) : f.read 1 x = ([f.data x], false) := by
  have hmin : (min ((1 : ℕ) : Int) (f.size - x)).toNat = 1 := by omega
  rw [File.read, if_neg (not_le.2 hx), hmin, bytesAt_one]
  exact Prod.ext rfl (decide_eq_false (by omega))

theorem readAt_one (source : Option File) (now : Int) {c x} (h₀ : 0 ≤ x)
    (hx : x < c.item.size) (hp : present c.item.rs ⟨x, 1⟩ = true) :
    (readAt source now 1 x c).1 = some ([c.data x], false) := by
  have hmin : min ((1 : ℕ) : Int) (c.item.size - x) = 1 := by omega
  have hd : download source ⟨x, 1⟩ c = c := if_pos hp
  rw [readAt, if_neg (not_lt.2 h₀), if_neg (not_le.2 hx)]
  simp only [hmin, hd, hp, if_true]
  exact congrArg some (Prod.ext (bytesAt_one c.data x) rfl)

end SingleBytes

section Runs

/-- A copy with the length of its data file, and the file it is a copy of. -/
structure Pair where
  copy : Cached
  length : Int
  file : File

inductive Step where
  | fill (r : Rng)
  | write (p : List UInt8) (off : Int)
  | truncate (n : Int)
  | punch (align : Int)
  | touch (now head : Int)

/-- The length of a file after writes to some ranges. -/
def lengthAfter (ms : List Rng) (n : Int) : Int := ms.foldl (fun n m => max n m.stop) n

/-- The parts that a fill writes. -/
def filledParts (p : List UInt8) (off : Int) (c : Cached) : List Rng :=
  if c.item.live = false ∨ (clip c.item p off).size ≤ 0 then []
  else missingWithin c.item.rs (clip c.item p off)

/-- Each operation is done to the file and to its copy at once; fills and punches leave the file
alone. -/
def Pair.next (s : Pair) : Step → Pair
  | .fill r =>
    if r.pos < 0 then s
    else { s with
      copy := writeNoOverwrite (fun _ => none) (s.file.fetch r) r.pos s.copy
      length := lengthAfter (filledParts (s.file.fetch r) r.pos s.copy) s.length }
  | .write p off =>
    if p = [] ∨ off < 0 then s
    else ⟨mirrorWrite none p off s.copy, max s.length (span p off).stop, s.file.write p off⟩
  | .truncate n =>
    if n < 0 then s else ⟨CacheItem.truncate false n s.copy, n, s.file.resize n.toNat⟩
  | .punch align => { s with copy := punchItem align (fun _ => false) s.copy }
  | .touch now head => { s with copy := touch now head s.copy }

/-- The copy is a part of the file, and its data file is as long. -/
structure Refines (s : Pair) : Prop where
  live : s.copy.item.live = true
  agrees : Agrees s.copy s.file
  inside : ∀ x, Has s.copy.item.rs x → 0 ≤ x ∧ x < s.copy.item.size
  length : s.length = s.copy.item.size

/-- A truncate leaves no byte behind that is past its reach. -/
def Reached (s : Pair) : Step → Prop
  | .truncate n => 0 ≤ n → ∀ x, Has s.copy.item.rs x → x < n ∨ x < 2 ^ 62
  | _ => True

theorem lengthAfter_eq {ms n} (h : ∀ m ∈ ms, m.stop ≤ n) : lengthAfter ms n = n := by
  induction ms with
  | nil => rfl
  | cons m ms ih =>
    rw [List.forall_mem_cons] at h
    rw [lengthAfter, List.foldl_cons, max_eq_left h.1]
    exact ih h.2

variable {s : Pair}

theorem Refines.fill (h : Refines s) {r} (hr : 0 ≤ r.pos) : Refines (s.next (.fill r)) := by
  obtain ⟨hsame, -, -, hnew, -, -⟩ :=
    writeNoOverwrite_spec (fun _ => none) (s.file.fetch r) r.pos h.agrees.normal
  simp only [Pair.next, if_neg (not_lt.2 hr)]
  refine ⟨by rw [hsame]; exact h.live, h.agrees.fill r _, fun x hx => ?_, ?_⟩
  · rw [hsame]
    rcases hnew x hx with hold | ⟨hs, hlt, -⟩
    · exact h.inside x hold
    · exact ⟨hr.trans hs.1, hlt⟩
  rw [hsame]
  refine (lengthAfter_eq fun m hm => ?_).trans h.length
  unfold filledParts at hm
  split at hm
  · cases hm
  have hstop := (missingWithin_bounds h.agrees.normal hm).2.2
  rw [clip_eq] at hstop
  simp only [Rng.stop] at hstop ⊢
  rw [h.length]
  omega

theorem Refines.write (h : Refines s) {p} (hp : p ≠ []) (ho : 0 ≤ off) :
    Refines (s.next (.write p off)) := by
  obtain ⟨hsame, -, hhas, -⟩ := mirrorWrite_spec h.agrees.normal hp ho h.live
  simp only [Pair.next, if_neg (not_or.2 ⟨hp, not_lt.2 ho⟩)]
  refine ⟨by rw [hsame]; exact h.live, h.agrees.mirror hp ho h.live, fun x hx => ?_, ?_⟩
  · rw [hsame]
    rcases (hhas x).1 hx with hold | hs
    · have hin := h.inside x hold
      exact ⟨hin.1, lt_max_of_lt_left hin.2⟩
    · exact ⟨ho.trans hs.1, lt_max_of_lt_right hs.2⟩
  · rw [hsame, h.length]

theorem Refines.truncate_iff (h : Refines s) {n} (hn : 0 ≤ n) :
    Refines (s.next (.truncate n)) ↔ ∀ x, Has s.copy.item.rs x → x < n ∨ x < 2 ^ 62 := by
  obtain ⟨hsame, -, hhas, -⟩ := truncate_spec h.agrees.normal hn h.live
  have hagrees := h.agrees.truncate n.toNat h.live
  rw [Int.toNat_of_nonneg hn] at hagrees
  simp only [Pair.next, if_neg (not_lt.2 hn)]
  constructor
  · intro h' x hx
    by_contra hout
    have hin := (h'.inside x ((hhas x).2 (.inl ⟨hx, by rw [has_tail]; omega⟩))).2
    rw [hsame] at hin
    exact hout (.inl hin)
  intro hreach
  refine ⟨by rw [hsame]; exact h.live, hagrees, fun x hx => ?_, by rw [hsame]⟩
  rw [hsame]
  rcases (hhas x).1 hx with ⟨hold, hcut⟩ | ⟨hge, hlt⟩
  · rw [has_tail] at hcut
    have hin := h.inside x hold
    have := hreach x hold
    exact ⟨hin.1, by show x < n; omega⟩
  · exact ⟨(h.agrees.size ▸ s.file.nonneg).trans hge, hlt⟩

theorem Refines.punch (h : Refines s) (align : Int) : Refines (s.next (.punch align)) := by
  obtain ⟨hsame, -, hhas, -⟩ := punchItem_spec align (fun _ => false) h.agrees.normal h.live
  refine ⟨by rw [Pair.next, hsame]; exact h.live, h.agrees.punch align _, fun x hx => ?_, ?_⟩
  · rw [Pair.next, hsame]
    exact h.inside x ((hhas x).1 hx).1
  · rw [Pair.next, hsame]
    exact h.length

theorem next_refines_iff (h : Refines s) (e : Step) : Refines (s.next e) ↔ Reached s e := by
  cases e with
  | fill r =>
    refine iff_of_true ?_ trivial
    by_cases hr : r.pos < 0
    · simpa only [Pair.next, if_pos hr] using h
    · exact h.fill (not_lt.1 hr)
  | write p off =>
    refine iff_of_true ?_ trivial
    by_cases hp : p = [] ∨ off < 0
    · simpa only [Pair.next, if_pos hp] using h
    · rw [not_or, not_lt] at hp
      exact h.write hp.1 hp.2
  | truncate n =>
    by_cases hn : n < 0
    · refine iff_of_true ?_ fun h0 => absurd hn (not_lt.2 h0)
      simpa only [Pair.next, if_pos hn] using h
    · rw [h.truncate_iff (not_lt.1 hn), Reached, imp_iff_right (not_lt.1 hn)]
  | punch align => exact iff_of_true (h.punch align) trivial
  | touch now head =>
    exact iff_of_true ⟨h.live, h.agrees.of_eq rfl rfl rfl, h.inside, h.length⟩ trivial

/-- From any loaded item the copy refines its file in the runs whose truncates reach every byte they
have to drop, and a truncate that does not breaks it. No fill changes a byte that is present. -/
theorem copy_refines_iff (s : Pair) (h : Refines s) :
    (∀ es t, Meets (fun s e => some (s.next e)) Reached s es →
      run (fun s e => some (s.next e)) s es = some t → Refines t) ∧
      (∀ es t e, run (fun s e => some (s.next e)) s es = some t → Refines t →
        (Refines (t.next e) ↔ Reached t e)) ∧
      ∀ es t r x, run (fun s e => some (s.next e)) s es = some t → Refines t →
        Has t.copy.item.rs x → (t.next (.fill r)).copy.data x = t.copy.data x := by
  refine ⟨fun es t hm hrun => ?_, fun es t e _ ht => next_refines_iff ht e,
    fun es t r x _ ht hx => ?_⟩
  · refine run_invariant_of_meets (I := Refines) (fun s e t hs hg he => ?_) h hm hrun
    cases he
    exact (next_refines_iff hs e).2 hg
  · simp only [Pair.next]
    split
    · rfl
    · exact ((writeNoOverwrite_spec _ _ _ ht.agrees.normal).kept x hx).2

def emptyPair : Pair := ⟨⟨load ⟨0, 0⟩ 0 none, fun _ => 0, 0⟩, 0, .empty⟩

theorem emptyPair_refines : Refines emptyPair :=
  ⟨rfl, ⟨normal_nil, rfl, fun _ _ => rfl, fun _ _ => rfl⟩, nofun, rfl⟩

theorem copy_refines_iff_empty :
    Refines (emptyPair.next (.truncate 4)) ↔ Reached emptyPair (.truncate 4) :=
  (copy_refines_iff emptyPair emptyPair_refines).2.1 [] _ _ rfl emptyPair_refines

/-- A byte far out stays present when the file is truncated to nothing. -/
theorem far_byte_kept : ∃ t, run (fun (s : Pair) e => some (s.next e)) emptyPair
      [.write [1] (2 ^ 62), .truncate 0] = some t ∧
    Has t.copy.item.rs (2 ^ 62) ∧ t.copy.item.size = 0 ∧ ¬ Refines t := by
  have hrs : ((emptyPair.next (.write [1] (2 ^ 62))).next (.truncate 0)).copy.item.rs =
      [⟨2 ^ 62, 1⟩] := by decide +kernel
  have hhas : Has ((emptyPair.next (.write [1] (2 ^ 62))).next (.truncate 0)).copy.item.rs
      (2 ^ 62) := by
    rw [hrs]
    decide
  exact ⟨_, rfl, hhas, rfl, fun h => absurd (h.inside _ hhas).2 (by decide)⟩

end Runs

end CacheRefinement
