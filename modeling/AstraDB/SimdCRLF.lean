/-
The vector search for line ends: `simd::FindCRLF`.

A pointer into the buffer is an offset and `nullptr` is `none`.  The three vector searches
run over the chunks of the buffer and differ in what counts as a hit; `FindCRLF` hands the
bytes behind the chunks to the next search.

Only the byte by byte search finds every first CR LF (`findCRLF_scalar`):

* AVX2 compares 16-bit lanes with `'\r' << 8 | '\n'`, whose low byte is LF, and so finds
  LF CR at even offsets;
* SSE4.2 looks at the first CR of a chunk only, and not at one in the last byte;
* NEON returns the number of a bit instead of that of a byte;
* when the size is a multiple of the vector size, the last chunk is never looked at.

`findCRLF_iff` says for which buffers each configuration is right nevertheless.
-/
import AstraDB.CRLF

open CRLF Option

namespace Simd

/-- Which of the macros are defined; `ASTRABI_HAS_AVX2` comes with `ASTRABI_HAS_SSE4_2`. -/
inductive Config
  | avx2
  | sse42
  | neon
  | scalar
  deriving DecidableEq, Repr

/-- If `mask != 0`, `__builtin_ctz(mask)`. -/
def lowestBit (width : ℕ) (mask : ℕ → Bool) : Option ℕ := (List.range width).find? mask

section Model

variable (data : Bytes)

def hasByte (i : ℕ) (c : UInt8) : Bool := decide (data[i]? = some c)

/-! ### Hits in one chunk, which starts at offset `i` -/

/-- AVX2: 16-bit lanes that are LF CR; a lane sets the bits of both its bytes. -/
def avx2Hit (i : ℕ) : Option ℕ := do
  let mask := fun j => hasByte data (i + j / 2 * 2) lf && hasByte data (i + j / 2 * 2 + 1) cr
  let pos ← lowestBit 32 mask
  if mask pos || mask (pos + 1) then some pos else none

/-- SSE4.2: the first CR. -/
def sse42Hit (i : ℕ) : Option ℕ := do
  let pos ← lowestBit 16 fun j => hasByte data (i + j) cr
  if decide (pos < 15) && hasByte data (i + pos + 1) lf then some pos else none

/-- NEON: CR with LF behind it in the chunk.  The result is read as two 64-bit lanes; each
byte is all ones or all zeros, and the position is that of a bit. -/
def neonHit (i : ℕ) : Option ℕ :=
  let result := fun j => hasByte data (i + j) cr && (decide (j < 15) && hasByte data (i + j + 1) lf)
  match lowestBit 64 fun bit => result (bit / 8) with
  | some pos => some pos
  | none => (lowestBit 64 fun bit => result (8 + bit / 8)).map (· + 8)

end Model

/-! ### Searching a buffer -/

/-- `for (i = 0; i + vec_size <= limit; i += vec_size)`, up to the first hit. -/
def scanChunks (vecSize limit : ℕ) (hit : ℕ → Option ℕ) : ℕ → ℕ → Option ℕ
  | 0, _ => none
  | fuel + 1, i =>
    if i + vecSize ≤ limit then
      match hit i with
      | some pos => some (i + pos)
      | none => scanChunks vecSize limit hit fuel (i + vecSize)
    else none

/-- The common shape of `FindCRLF_AVX2`, `FindCRLF_SSE42` and `FindCRLF_NEON`. -/
def vectorSearch (vecSize : ℕ) (hit : Bytes → ℕ → Option ℕ) (data : Bytes) : Option ℕ :=
  scanChunks vecSize (data.length - 1) (hit data) data.length 0

def findCRLFAvx2 : Bytes → Option ℕ := vectorSearch 32 avx2Hit

def findCRLFSse42 : Bytes → Option ℕ := vectorSearch 16 sse42Hit

def findCRLFNeon : Bytes → Option ℕ := vectorSearch 16 neonHit

/-- A block of `FindCRLF`: the vector search, and what is left for the `next` search. -/
def vectorBlock (vecSize : ℕ) (search next : Bytes → Option ℕ) (data : Bytes) : Option ℕ :=
  if vecSize ≤ data.length then
    match search data with
    | some result => some result
    | none =>
      let processed := data.length / vecSize * vecSize
      if data.length - 1 ≤ processed then none
      else (next (data.drop processed)).map (processed + ·)
  else next data

def scalarLoop (data : Bytes) : ℕ → ℕ → Option ℕ
  | 0, _ => none
  | fuel + 1, i =>
    if i < data.length - 1 then
      if hasByte data i cr && hasByte data (i + 1) lf then some i else scalarLoop data fuel (i + 1)
    else none

/-- The loop at the end of `FindCRLF`. -/
def scalarSearch (data : Bytes) : Option ℕ := scalarLoop data data.length 0

def findCRLF (config : Config) (data : Bytes) : Option ℕ :=
  if data.length < 2 then none
  else
    match config with
    | .avx2 => vectorBlock 32 findCRLFAvx2 (vectorBlock 16 findCRLFSse42 scalarSearch) data
    | .sse42 => vectorBlock 16 findCRLFSse42 scalarSearch data
    | .neon => vectorBlock 16 findCRLFNeon scalarSearch data
    | .scalar => scalarSearch data

/-! ### The loops -/

theorem lowestBit_eq_some {width pos : ℕ} {mask : ℕ → Bool} :
    lowestBit width mask = some pos ↔
      pos < width ∧ mask pos = true ∧ ∀ j < pos, mask j = false := by
  rw [lowestBit, List.find?_range_eq_some]
  simp only [List.mem_range, Bool.not_eq_true']
  exact and_left_comm

theorem lowestBit_eq_none {width : ℕ} {mask : ℕ → Bool} :
    lowestBit width mask = none ↔ ∀ j < width, mask j = false := by
  rw [lowestBit, List.find?_eq_none]
  simp

theorem hasByte_iff {data : Bytes} {i : ℕ} {c : UInt8} :
    hasByte data i c = true ↔ data[i]? = some c := decide_eq_true_iff

theorem hasByte_crlf {data : Bytes} {i : ℕ} :
    (hasByte data i cr && hasByte data (i + 1) lf) = true ↔ CRLFAt data i := by
  rw [Bool.and_eq_true, hasByte_iff, hasByte_iff]
  exact Iff.rfl

theorem scalarLoop_spec {data : Bytes} : ∀ {fuel i : ℕ}, data.length ≤ i + fuel →
    (∀ j < i, ¬ CRLFAt data j) → IsFirstCRLF data (scalarLoop data fuel i) := by
  intro fuel
  induction fuel with
  | zero =>
    intro i hlen hbefore j hj
    have := hj.lt
    exact hbefore j (by omega) hj
  | succ fuel ih =>
    intro i hlen hbefore
    rw [scalarLoop]
    split
    · by_cases hat : CRLFAt data i
      · rw [if_pos (hasByte_crlf.mpr hat)]
        exact ⟨hat, hbefore⟩
      · rw [if_neg fun h => hat (hasByte_crlf.mp h)]
        refine ih (by omega) fun j hj => ?_
        rcases Nat.lt_succ_iff_lt_or_eq.mp hj with h | rfl
        · exact hbefore j h
        · exact hat
    · intro j hj
      have := hj.lt
      exact hbefore j (by omega) hj

theorem isFirstCRLF_scalarSearch {data : Bytes} : IsFirstCRLF data (scalarSearch data) :=
  scalarLoop_spec (by omega) fun j hj => absurd hj (Nat.not_lt_zero j)

theorem scanChunks_eq_some {vecSize limit r : ℕ} {hit : ℕ → Option ℕ} : ∀ {fuel i : ℕ},
    scanChunks vecSize limit hit fuel i = some r →
    ∃ k pos, r = i + k * vecSize + pos ∧ i + (k + 1) * vecSize ≤ limit ∧
      hit (i + k * vecSize) = some pos ∧ ∀ l < k, hit (i + l * vecSize) = none := by
  intro fuel
  induction fuel with
  | zero =>
    intro i h
    cases h
  | succ fuel ih =>
    intro i h
    rw [scanChunks] at h
    split at h
    · next hi =>
      rcases hhit : hit i with _ | pos
      · rw [hhit] at h
        obtain ⟨k, pos, rfl, hlim, hk, hbefore⟩ := ih h
        have hshift : ∀ l, i + vecSize + l * vecSize = i + (l + 1) * vecSize := fun l => by
          rw [Nat.add_mul, Nat.one_mul]
          omega
        rw [hshift] at hlim hk
        refine ⟨k + 1, pos, by rw [hshift], hlim, hk, fun l hl => ?_⟩
        cases l with
        | zero => simpa using hhit
        | succ l =>
          rw [← hshift]
          exact hbefore l (by omega)
      · rw [hhit] at h
        cases h
        exact ⟨0, pos, by simp, by simpa using hi, by simpa using hhit, by simp⟩
    · cases h

theorem scanChunks_eq_none {vecSize limit : ℕ} (hvec : 0 < vecSize) {hit : ℕ → Option ℕ} :
    ∀ {fuel i : ℕ}, limit < i + fuel → scanChunks vecSize limit hit fuel i = none →
    ∀ k, i + (k + 1) * vecSize ≤ limit → hit (i + k * vecSize) = none := by
  intro fuel
  induction fuel with
  | zero =>
    intro i hlim _ k hk
    omega
  | succ fuel ih =>
    intro i hlim h k hk
    rw [scanChunks] at h
    rw [Nat.add_mul, Nat.one_mul] at hk
    split at h
    · rcases hhit : hit i with _ | pos
      · rw [hhit] at h
        cases k with
        | zero => simpa using hhit
        | succ k =>
          have hrest := ih (by omega) h k
          rw [Nat.add_mul, Nat.one_mul] at hk hrest ⊢
          rw [show i + (k * vecSize + vecSize) = i + vecSize + k * vecSize by omega]
          exact hrest (by omega)
      · rw [hhit] at h
        cases h
    · omega

/-! ### One block of `FindCRLF` -/

section Block

variable {vecSize : ℕ} {hit : Bytes → ℕ → Option ℕ} {good : ℕ → Prop} {data : Bytes}
  {search next : Bytes → Option ℕ}

theorem exists_first {q : ℕ} (hq : CRLFAt data q) : ∃ p, IsFirstCRLF data (some p) ∧ p ≤ q := by
  rcases hf : firstCRLF data with _ | p
  · exact absurd hq (isFirstCRLF_iff.mpr hf q)
  · have hp := isFirstCRLF_iff.mpr hf
    exact ⟨p, hp, not_lt.mp fun h => hp.2 q h hq⟩

theorem isFirstCRLF_none_iff :
    IsFirstCRLF data none ↔ ∀ p, ¬ IsFirstCRLF data (some p) := by
  constructor
  · exact fun h p hp => h p hp.1
  · intro h q hq
    obtain ⟨p, hp, -⟩ := exists_first hq
    exact h p hp

theorem isFirstCRLF_map_add_iff {k : ℕ} {r : Option ℕ} :
    IsFirstCRLF data (r.map (k + ·)) ↔
      (∀ p, IsFirstCRLF data (some p) → k ≤ p) ∧ IsFirstCRLF (data.drop k) r := by
  cases r with
  | none =>
    constructor
    · intro h
      exact ⟨fun p hp => absurd hp.1 (h p), fun i hi => h (k + i) ((crlfAt_drop data k i).mp hi)⟩
    · rintro ⟨hge, hnone⟩ q hq
      obtain ⟨p, hp, -⟩ := exists_first hq
      have hk := hge p hp
      refine hnone (p - k) ((crlfAt_drop data k _).mpr ?_)
      rw [Nat.add_sub_cancel' hk]
      exact hp.1
  | some j =>
    rw [map_some]
    constructor
    · intro h
      refine ⟨fun p hp => ?_, (crlfAt_drop data k j).mpr h.1, fun i hi hat => ?_⟩
      · obtain rfl : k + j = p := Option.some.inj (IsFirstCRLF.unique h hp)
        exact Nat.le_add_right k j
      · exact h.2 (k + i) (by omega) ((crlfAt_drop data k i).mp hat)
    · rintro ⟨hge, hj⟩
      have hat := (crlfAt_drop data k j).mp hj.1
      refine ⟨hat, fun i hi hat' => ?_⟩
      obtain ⟨p, hp, hpi⟩ := exists_first hat'
      have hk := hge p hp
      refine hj.2 (p - k) (by omega) ((crlfAt_drop data k _).mpr ?_)
      rw [Nat.add_sub_cancel' hk]
      exact hp.1

theorem vectorBlock_of_none (hlen : vecSize ≤ data.length) (hnone : search data = none) :
    IsFirstCRLF data (vectorBlock vecSize search next data) ↔
      (∀ p, IsFirstCRLF data (some p) → data.length / vecSize * vecSize ≤ p) ∧
      (data.length / vecSize * vecSize < data.length - 1 →
        IsFirstCRLF (data.drop (data.length / vecSize * vecSize))
          (next (data.drop (data.length / vecSize * vecSize)))) := by
  rw [vectorBlock, if_pos hlen, hnone]
  simp only
  split
  · next hend =>
    -- nothing is left, and the first CR LF would have to be before
    rw [isFirstCRLF_none_iff]
    constructor
    · exact fun h => ⟨fun p hp => absurd hp (h p), fun hlt => absurd hend (not_le.mpr hlt)⟩
    · intro h p hp
      have := h.1 p hp
      have := hp.1.lt
      omega
  · next hend =>
    rw [isFirstCRLF_map_add_iff]
    exact and_congr_right fun _ => ⟨fun h _ => h, fun h => h (not_le.mp hend)⟩

/-- The first CR LF, if there is one, is behind the chunks, or in one that is scanned
and `good`. -/
def Reached (vecSize : ℕ) (good : ℕ → Prop) (data : Bytes) : Prop :=
  ∀ p, IsFirstCRLF data (some p) → data.length / vecSize * vecSize ≤ p ∨
    (p / vecSize < (data.length - 1) / vecSize ∧ good p)

theorem chunk_lt {k n : ℕ} (hvec : 0 < vecSize) (hk : (k + 1) * vecSize ≤ n - 1) :
    k < (n - 1) / vecSize ∧ (k + 1) * vecSize ≤ n / vecSize * vecSize := by
  have h1 : k + 1 ≤ (n - 1) / vecSize := (Nat.le_div_iff_mul_le hvec).mpr hk
  have h2 : (n - 1) / vecSize ≤ n / vecSize := Nat.div_le_div_right (Nat.sub_le n 1)
  exact ⟨h1, Nat.mul_le_mul_right vecSize (h1.trans h2)⟩

/-- A block whose hits are only CR LFs, and of these the `good` ones, with the byte by byte search
behind it. -/
theorem vectorBlock_iff (hvec : 0 < vecSize)
    (hsound : ∀ k pos, hit data (k * vecSize) = some pos →
      ∃ q, q < (k + 1) * vecSize ∧ CRLFAt data q)
    (hgood : ∀ p, IsFirstCRLF data (some p) →
      (hit data (p / vecSize * vecSize) = some (p % vecSize) ↔ good p)) :
    IsFirstCRLF data (vectorBlock vecSize (vectorSearch vecSize hit) scalarSearch data) ↔
      (vecSize ≤ data.length → Reached vecSize good data) := by
  by_cases hlen : vecSize ≤ data.length
  swap
  · rw [vectorBlock, if_neg hlen]
    exact ⟨fun _ h => absurd h hlen, fun _ => isFirstCRLF_scalarSearch⟩
  rw [forall_prop_of_true hlen]
  have hmod : ∀ p, p / vecSize * vecSize + p % vecSize = p := fun p => by
    rw [Nat.mul_comm, Nat.div_add_mod]
  rcases hs : vectorSearch vecSize hit data with _ | r
  · -- no hit: no scanned chunk is good
    have hnone := scanChunks_eq_none hvec (by omega) hs
    rw [vectorBlock_of_none hlen hs]
    constructor
    · exact fun h p hp => .inl (h.1 p hp)
    · intro h
      refine ⟨fun p hp => ?_, fun _ => ?_⟩
      · rcases h p hp with hle | ⟨hlt, hg⟩
        · exact hle
        · have hchunk := hnone (p / vecSize) (by
            rw [Nat.zero_add]
            exact (Nat.le_div_iff_mul_le hvec).mp hlt)
          rw [Nat.zero_add, (hgood p hp).mpr hg] at hchunk
          cases hchunk
      · exact isFirstCRLF_scalarSearch
  · -- the first hit is in chunk `k`; the first CR LF is there or before
    obtain ⟨k, pos, hr, hlim, hk, hbefore⟩ := scanChunks_eq_some hs
    simp only [Nat.zero_add] at hr hlim hk hbefore
    obtain ⟨q, hq, hat⟩ := hsound k pos hk
    obtain ⟨p, hp, hpq⟩ := exists_first hat
    obtain ⟨hscan, hproc⟩ := chunk_lt hvec hlim
    have hpk : p / vecSize ≤ k := Nat.lt_succ_iff.mp
      ((Nat.div_lt_iff_lt_mul hvec).mpr (show p < (k + 1) * vecSize by omega))
    have hlt : p / vecSize < (data.length - 1) / vecSize := hpk.trans_lt hscan
    have hfirst : IsFirstCRLF data (some r) ↔ r = p := by
      constructor
      · exact fun h => Option.some.inj (IsFirstCRLF.unique h hp)
      · rintro rfl
        exact hp
    have hreached : Reached vecSize good data ↔ good p := by
      constructor
      · intro h
        rcases h p hp with hle | ⟨-, hg⟩
        · omega
        · exact hg
      · intro hg p' hp'
        obtain rfl : p = p' := Option.some.inj (IsFirstCRLF.unique hp hp')
        exact .inr ⟨hlt, hg⟩
    rw [vectorBlock, if_pos hlen, hs]
    simp only
    rw [hfirst, hreached, ← hgood p hp]
    have hp' := hmod p
    rcases Nat.lt_or_eq_of_le hpk with h | h
    · -- passed over
      rw [hbefore _ h]
      have hle : (p / vecSize + 1) * vecSize ≤ k * vecSize := Nat.mul_le_mul_right vecSize h
      rw [Nat.add_mul, Nat.one_mul] at hle
      have hml := Nat.mod_lt p hvec
      simp only [reduceCtorEq, iff_false]
      omega
    · rw [h, hk, Option.some.injEq]
      rw [h] at hp'
      omega

end Block

/-! ### The hits -/

section Hits

variable {data : Bytes}

/-- Where SSE4.2 is right: the CR is the first one of its chunk, and not its last byte. -/
def sse42Good (data : Bytes) (p : ℕ) : Prop :=
  p % 16 < 15 ∧ ∀ j, p / 16 * 16 ≤ j → j < p → data[j]? ≠ some cr

/-- Where NEON is right: at the first byte of a 64-bit lane. -/
def neonGood (p : ℕ) : Prop := p % 16 = 0 ∨ p % 16 = 8

theorem sse42Hit_eq_some {i pos : ℕ} : sse42Hit data i = some pos ↔
    pos < 15 ∧ CRLFAt data (i + pos) ∧ ∀ j < pos, data[i + j]? ≠ some cr := by
  rw [sse42Hit]
  simp only [bind_eq_bind, bind_eq_some_iff, lowestBit_eq_some, ite_none_right_eq_some,
    Bool.and_eq_true, decide_eq_true_iff, hasByte_iff]
  constructor
  · rintro ⟨pos', ⟨-, hcr, hbefore⟩, ⟨hlt, hlf⟩, ⟨⟩⟩
    exact ⟨hlt, ⟨hcr, hlf⟩, fun j hj => of_decide_eq_false (hbefore j hj)⟩
  · rintro ⟨hlt, ⟨hcr, hlf⟩, hbefore⟩
    exact ⟨pos, ⟨by omega, hcr, fun j hj => decide_eq_false (hbefore j hj)⟩, ⟨hlt, hlf⟩, rfl⟩

theorem sse42Hit_good {p : ℕ} (hp : IsFirstCRLF data (some p)) :
    sse42Hit data (p / 16 * 16) = some (p % 16) ↔ sse42Good data p := by
  have hmod : p / 16 * 16 + p % 16 = p := by omega
  rw [sse42Hit_eq_some, hmod, sse42Good]
  constructor
  · rintro ⟨hlt, -, hbefore⟩
    refine ⟨hlt, fun j hj hjp => ?_⟩
    have := hbefore (j - p / 16 * 16) (by omega)
    rwa [Nat.add_sub_cancel' hj] at this
  · rintro ⟨hlt, hbefore⟩
    exact ⟨hlt, hp.1, fun j hj => hbefore _ (by omega) (by omega)⟩

theorem neon_result_iff {i j : ℕ} :
    (hasByte data (i + j) cr && (decide (j < 15) && hasByte data (i + j + 1) lf)) = true ↔
      j < 15 ∧ CRLFAt data (i + j) := by
  rw [← hasByte_crlf]
  simp only [Bool.and_eq_true, decide_eq_true_iff]
  exact and_left_comm

theorem neonHit_cases {i pos : ℕ} (h : neonHit data i = some pos) :
    (pos / 8 < 15 ∧ CRLFAt data (i + pos / 8)) ∨
      ∃ bit, pos = bit + 8 ∧ 8 + bit / 8 < 15 ∧ CRLFAt data (i + (8 + bit / 8)) := by
  simp only [neonHit] at h
  split at h
  · next bit hlow =>
    cases h
    exact .inl (neon_result_iff.mp (lowestBit_eq_some.mp hlow).2.1)
  · obtain ⟨bit, hhigh, rfl⟩ := map_eq_some_iff.mp h
    exact .inr ⟨bit, rfl, neon_result_iff.mp (lowestBit_eq_some.mp hhigh).2.1⟩

theorem neonHit_good {p : ℕ} (hp : IsFirstCRLF data (some p)) :
    neonHit data (p / 16 * 16) = some (p % 16) ↔ neonGood p := by
  have hfirst : ∀ j, CRLFAt data (p / 16 * 16 + j) → p % 16 ≤ j := fun j hj => by
    have := not_lt.mp fun h => hp.2 _ h hj
    omega
  have hresult : ∀ j < p % 16, (hasByte data (p / 16 * 16 + j) cr &&
      (decide (j < 15) && hasByte data (p / 16 * 16 + j + 1) lf)) = false := fun j hj => by
    rw [← Bool.not_eq_true, neon_result_iff]
    intro h
    have := hfirst j h.2
    omega
  constructor
  · intro h
    -- a bit has at least eight times the number of its byte
    rcases neonHit_cases h with ⟨-, hat⟩ | ⟨bit, hpos, -, hat⟩
    · have := hfirst _ hat
      exact .inl (by omega)
    · have := hfirst _ hat
      exact .inr (by omega)
  · rintro (h0 | h8)
    · have hlow : lowestBit 64 (fun bit => hasByte data (p / 16 * 16 + bit / 8) cr &&
          (decide (bit / 8 < 15) && hasByte data (p / 16 * 16 + bit / 8 + 1) lf)) = some 0 := by
        refine lowestBit_eq_some.mpr ⟨by decide, neon_result_iff.mpr ⟨by decide, ?_⟩, by simp⟩
        rw [show p / 16 * 16 + 0 / 8 = p by omega]
        exact hp.1
      rw [neonHit]
      simp only [hlow, h0]
    · have hlow : lowestBit 64 (fun bit => hasByte data (p / 16 * 16 + bit / 8) cr &&
          (decide (bit / 8 < 15) && hasByte data (p / 16 * 16 + bit / 8 + 1) lf)) = none :=
        lowestBit_eq_none.mpr fun bit hbit => hresult (bit / 8) (by omega)
      have hhigh : lowestBit 64 (fun bit => hasByte data (p / 16 * 16 + (8 + bit / 8)) cr &&
          (decide (8 + bit / 8 < 15) && hasByte data (p / 16 * 16 + (8 + bit / 8) + 1) lf))
          = some 0 := by
        refine lowestBit_eq_some.mpr ⟨by decide, neon_result_iff.mpr ⟨by decide, ?_⟩, by simp⟩
        rw [show p / 16 * 16 + (8 + 0 / 8) = p by omega]
        exact hp.1
      rw [neonHit]
      simp only [hlow, hhigh, h8, map_some]

/-- LF CR at an even offset, which AVX2 takes for a line end. -/
def LfCrAt (data : Bytes) (q : ℕ) : Prop := data[q]? = some lf ∧ data[q + 1]? = some cr

theorem avx2_mask_iff {i j : ℕ} :
    (hasByte data (i + j / 2 * 2) lf && hasByte data (i + j / 2 * 2 + 1) cr) = true ↔
      LfCrAt data (i + j / 2 * 2) := by
  rw [Bool.and_eq_true, hasByte_iff, hasByte_iff]
  exact Iff.rfl

theorem avx2Hit_eq_some {i pos : ℕ} (h : avx2Hit data i = some pos) :
    pos % 2 = 0 ∧ pos < 32 ∧ LfCrAt data (i + pos) := by
  rw [avx2Hit] at h
  simp only [bind_eq_bind, bind_eq_some_iff, lowestBit_eq_some,
    ite_none_right_eq_some] at h
  obtain ⟨_, ⟨hlt, hat, hbefore⟩, -, ⟨⟩⟩ := h
  -- the lower bit of the lane is set as well
  have heven : pos / 2 * 2 = pos := by
    by_contra hne
    have := hbefore (pos / 2 * 2) (by omega)
    rw [show pos / 2 * 2 / 2 * 2 = pos / 2 * 2 by omega] at this
    rw [this] at hat
    cases hat
  rw [avx2_mask_iff, heven] at hat
  exact ⟨by omega, hlt, hat⟩

theorem avx2Hit_eq_none {i : ℕ} (h : avx2Hit data i = none) {q : ℕ} (hq : q < 32)
    (heven : q % 2 = 0) : ¬ LfCrAt data (i + q) := by
  intro hat
  have hmask : (hasByte data (i + q / 2 * 2) lf && hasByte data (i + q / 2 * 2 + 1) cr) = true := by
    rw [avx2_mask_iff, show q / 2 * 2 = q by omega]
    exact hat
  rw [avx2Hit] at h
  rcases hbit : lowestBit 32 (fun j => hasByte data (i + j / 2 * 2) lf &&
    hasByte data (i + j / 2 * 2 + 1) cr) with _ | pos
  · rw [lowestBit_eq_none.mp hbit q hq] at hmask
    cases hmask
  · -- the bit found is one of the two that are tested
    have hpos := (lowestBit_eq_some.mp hbit).2.1
    simp only [hbit, bind_eq_bind, bind_some, hpos, Bool.true_or, if_true] at h
    cases h

end Hits

/-! ### `FindCRLF` -/

section Find

variable {data : Bytes}

/-- The buffers on which a configuration finds the first CR LF. -/
def Finds : Config → Bytes → Prop
  | .avx2, data =>
    if 32 ≤ data.length then
      (∀ q, q % 2 = 0 → q < (data.length - 1) / 32 * 32 → ¬ LfCrAt data q) ∧
      (∀ p, IsFirstCRLF data (some p) → data.length / 32 * 32 ≤ p) ∧
      (let tail := data.drop (data.length / 32 * 32)
       16 ≤ tail.length → Reached 16 (sse42Good tail) tail)
    else 16 ≤ data.length → Reached 16 (sse42Good data) data
  | .sse42, data => 16 ≤ data.length → Reached 16 (sse42Good data) data
  | .neon, data => 16 ≤ data.length → Reached 16 neonGood data
  | .scalar, _ => True

theorem sse42Block_iff :
    IsFirstCRLF data (vectorBlock 16 findCRLFSse42 scalarSearch data) ↔
      (16 ≤ data.length → Reached 16 (sse42Good data) data) := by
  refine vectorBlock_iff (by decide) (fun k pos h => ?_) fun p hp => sse42Hit_good hp
  obtain ⟨hlt, hat, -⟩ := sse42Hit_eq_some.mp h
  exact ⟨_, by omega, hat⟩

theorem neonBlock_iff :
    IsFirstCRLF data (vectorBlock 16 findCRLFNeon scalarSearch data) ↔
      (16 ≤ data.length → Reached 16 neonGood data) := by
  refine vectorBlock_iff (by decide) (fun k pos h => ?_) fun p hp => neonHit_good hp
  -- the byte of the bit that was found is a CR LF of the chunk
  rcases neonHit_cases h with ⟨hlt, hat⟩ | ⟨bit, -, hlt, hat⟩
  · exact ⟨_, by omega, hat⟩
  · exact ⟨_, by omega, hat⟩

/-- AVX2 never finds a line end itself: a hit is wrong, and without one only the bytes
behind the chunks are searched. -/
theorem avx2Block_iff (hlen : 32 ≤ data.length) {next : Bytes → Option ℕ} :
    IsFirstCRLF data (vectorBlock 32 findCRLFAvx2 next data) ↔
      (∀ q, q % 2 = 0 → q < (data.length - 1) / 32 * 32 → ¬ LfCrAt data q) ∧
      (∀ p, IsFirstCRLF data (some p) → data.length / 32 * 32 ≤ p) ∧
      (data.length / 32 * 32 < data.length - 1 →
        IsFirstCRLF (data.drop (data.length / 32 * 32)) (next (data.drop (data.length / 32 * 32)))) := by
  rcases hs : findCRLFAvx2 data with _ | r
  · have hnone := scanChunks_eq_none (by decide) (by omega) hs
    rw [vectorBlock_of_none hlen hs]
    refine ⟨fun h => ⟨fun q heven hq hat => ?_, h⟩, fun h => h.2⟩
    have hchunk := hnone (q / 32) (by omega)
    refine avx2Hit_eq_none hchunk (show q % 32 < 32 by omega) (by omega) ?_
    rw [show 0 + q / 32 * 32 + q % 32 = q by omega]
    exact hat
  · obtain ⟨k, pos, hr, hlim, hk, -⟩ := scanChunks_eq_some hs
    obtain ⟨heven, hlt, hat⟩ := avx2Hit_eq_some hk
    rw [← hr] at hat
    rw [vectorBlock, if_pos hlen, hs]
    constructor
    · -- the byte found is LF, not CR
      intro h
      have hcr := h.1.1
      rw [hat.1] at hcr
      cases hcr
    · intro h
      exact absurd hat (h.1 r (by omega) (by omega))

/-- The buffers on which `FindCRLF` is right, in each configuration. -/
theorem findCRLF_iff (config : Config) (data : Bytes) :
    IsFirstCRLF data (findCRLF config data) ↔ Finds config data := by
  have hshort : data.length < 2 → ∀ p, ¬ IsFirstCRLF data (some p) := fun h p hp => by
    have := hp.1.lt
    omega
  unfold findCRLF
  by_cases hlen : data.length < 2
  · rw [if_pos hlen, isFirstCRLF_none_iff]
    refine ⟨fun _ => ?_, fun _ => hshort hlen⟩
    cases config with
    | avx2 =>
      rw [Finds, if_neg (by omega)]
      omega
    | sse42 | neon => exact fun h => absurd h (by omega)
    | scalar => trivial
  · rw [if_neg hlen]
    cases config with
    | avx2 =>
      rw [Finds]
      by_cases h32 : 32 ≤ data.length
      · rw [if_pos h32]
        simp only
        rw [avx2Block_iff h32, sse42Block_iff]
        refine and_congr_right fun _ => and_congr_right fun _ => ⟨fun h htail => h ?_ htail, fun h _ => h⟩
        rw [List.length_drop] at htail
        omega
      · rw [if_neg h32]
        simp only
        rw [vectorBlock, if_neg h32, sse42Block_iff]
    | sse42 => exact sse42Block_iff
    | neon => exact neonBlock_iff
    | scalar => exact ⟨fun _ => trivial, fun _ => isFirstCRLF_scalarSearch⟩

/-- Buffers that start with a line end which is not found, or found in the wrong place. -/
theorem findCRLF_wrong :
    ¬ IsFirstCRLF (cr :: lf :: List.replicate 32 0) (findCRLF .avx2 (cr :: lf :: List.replicate 32 0)) ∧
    ¬ IsFirstCRLF (lf :: cr :: List.replicate 32 0) (findCRLF .avx2 (lf :: cr :: List.replicate 32 0)) ∧
    ¬ IsFirstCRLF (cr :: cr :: lf :: List.replicate 14 0)
      (findCRLF .sse42 (cr :: cr :: lf :: List.replicate 14 0)) ∧
    ¬ IsFirstCRLF (0 :: cr :: lf :: List.replicate 14 0)
      (findCRLF .neon (0 :: cr :: lf :: List.replicate 14 0)) := by
  simp only [isFirstCRLF_iff]
  decide

theorem findCRLF_scalar (data : Bytes) : IsFirstCRLF data (findCRLF .scalar data) := by
  show IsFirstCRLF data (if data.length < 2 then none else scalarSearch data)
  split
  · next hlen =>
    intro i hi
    have := hi.lt
    omega
  · exact isFirstCRLF_scalarSearch

end Find

end Simd
