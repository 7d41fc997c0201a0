/-
Line ends in a byte string.

`firstCRLF data` is the position of the first CR LF, and `untilCRLF` reads the text
before it.  A line of any bytes without CR LF is read back whole (`untilCRLF_line`),
and what has been found stays found when more bytes follow (`stable_untilCRLF`).
-/
import AstraDB.Parsers

open List

abbrev Bytes := List UInt8

/-- The bytes of an ASCII text. -/
def ascii (s : String) : Bytes := s.toList.map Char.toUInt8

namespace CRLF

def cr : UInt8 := '\r'.toUInt8

def lf : UInt8 := '\n'.toUInt8

/-- CR LF stands at position `i`. -/
def CRLFAt (data : Bytes) (i : ℕ) : Prop := data[i]? = some cr ∧ data[i + 1]? = some lf

instance (data : Bytes) (i : ℕ) : Decidable (CRLFAt data i) :=
  inferInstanceAs (Decidable (_ ∧ _))

/-- `r` is the first position of CR LF, or `none` and there is no such position. -/
def IsFirstCRLF (data : Bytes) : Option ℕ → Prop
  | some i => CRLFAt data i ∧ ∀ j < i, ¬ CRLFAt data j
  | none => ∀ i, ¬ CRLFAt data i

/-- `data.find("\r\n")`. -/
def firstCRLF : Bytes → Option ℕ
  | a :: b :: rest =>
    if a = cr ∧ b = lf then some 0 else (firstCRLF (b :: rest)).map (· + 1)
  | _ => none

variable {data : Bytes} {r : Option ℕ} {line : Bytes}

theorem CRLFAt.lt {i : ℕ} (h : CRLFAt data i) : i + 1 < data.length :=
  (List.getElem?_eq_some_iff.mp h.2).1

@[simp] theorem crlfAt_cons_succ (a : UInt8) (data : Bytes) (i : ℕ) :
    CRLFAt (a :: data) (i + 1) ↔ CRLFAt data i := by
  simp [CRLFAt]

theorem crlfAt_append_left {i : ℕ} (hi : i + 1 < data.length) (s : Bytes) :
    CRLFAt (data ++ s) i ↔ CRLFAt data i := by
  rw [CRLFAt, CRLFAt, List.getElem?_append_left (by omega), List.getElem?_append_left hi]

theorem crlfAt_append_right (u data : Bytes) (i : ℕ) :
    CRLFAt (u ++ data) (u.length + i) ↔ CRLFAt data i := by
  rw [CRLFAt, CRLFAt, List.getElem?_append_right (by omega),
    List.getElem?_append_right (by omega), Nat.add_sub_cancel_left, Nat.add_assoc,
    Nat.add_sub_cancel_left]

theorem not_crlfAt_append_left {u : Bytes} (hu : cr ∉ u) (v : Bytes) :
    (∀ i, ¬ CRLFAt (u ++ v) i) ↔ ∀ i, ¬ CRLFAt v i := by
  constructor
  · intro h i hi
    exact h _ ((crlfAt_append_right u v i).mpr hi)
  · intro h i hi
    by_cases hlt : i < u.length
    · have hcr := hi.1
      rw [List.getElem?_append_left hlt] at hcr
      exact hu (mem_of_getElem? hcr)
    · obtain ⟨j, rfl⟩ : ∃ j, i = u.length + j := ⟨i - u.length, by omega⟩
      exact h j ((crlfAt_append_right u v j).mp hi)

theorem not_crlfAt_append_right {v : Bytes} (hlf : lf ∉ v) (u : Bytes) :
    (∀ i, ¬ CRLFAt (u ++ v) i) ↔ ∀ i, ¬ CRLFAt u i := by
  constructor
  · intro h i hi
    exact h i ((crlfAt_append_left hi.lt v).mpr hi)
  · intro h i hi
    by_cases hlt : i + 1 < u.length
    · exact h i ((crlfAt_append_left hlt v).mp hi)
    · have hmem := hi.2
      rw [List.getElem?_append_right (by omega)] at hmem
      exact hlf (mem_of_getElem? hmem)

theorem crlfAt_drop (data : Bytes) (k i : ℕ) :
    CRLFAt (data.drop k) i ↔ CRLFAt data (k + i) := by
  rw [CRLFAt, CRLFAt, List.getElem?_drop, List.getElem?_drop, Nat.add_assoc]

theorem isFirstCRLF_map_succ {a : UInt8} (h0 : ¬ CRLFAt (a :: data) 0) (hr : IsFirstCRLF data r) :
    IsFirstCRLF (a :: data) (r.map (· + 1)) := by
  cases r with
  | none =>
    intro i
    cases i with
    | zero => exact h0
    | succ i => exact fun h => hr i ((crlfAt_cons_succ a data i).mp h)
  | some i =>
    refine ⟨(crlfAt_cons_succ a data i).mpr hr.1, fun j hj => ?_⟩
    cases j with
    | zero => exact h0
    | succ j => exact fun h => hr.2 j (Nat.lt_of_succ_lt_succ hj) ((crlfAt_cons_succ a data j).mp h)

theorem isFirstCRLF_firstCRLF : ∀ data : Bytes, IsFirstCRLF data (firstCRLF data) := by
  intro data
  induction data with
  | nil => exact fun i h => absurd h.lt (by simp)
  | cons a data ih =>
    cases data with
    | nil => exact fun i h => absurd h.lt (by simp)
    | cons b rest =>
      rw [firstCRLF]
      split
      · next h =>
        exact ⟨by simp [CRLFAt, h.1, h.2], fun j hj => absurd hj (Nat.not_lt_zero j)⟩
      · next h =>
        exact isFirstCRLF_map_succ (by simpa [CRLFAt] using h) ih

theorem IsFirstCRLF.unique {r' : Option ℕ} (hr : IsFirstCRLF data r) (hr' : IsFirstCRLF data r') :
    r = r' := by
  cases r with
  | none =>
    cases r' with
    | none => rfl
    | some j => exact absurd hr'.1 (hr j)
  | some i =>
    cases r' with
    | none => exact absurd hr.1 (hr' i)
    | some j =>
      rcases Nat.lt_trichotomy i j with h | h | h
      · exact absurd hr.1 (hr'.2 i h)
      · rw [h]
      · exact absurd hr'.1 (hr.2 j h)

theorem isFirstCRLF_iff : IsFirstCRLF data r ↔ firstCRLF data = r := by
  constructor
  · exact fun h => (isFirstCRLF_firstCRLF data).unique h
  · rintro rfl
    exact isFirstCRLF_firstCRLF data

/-- The end of a line without CR LF; it may well end with a CR. -/
theorem firstCRLF_line (hline : ∀ i, ¬ CRLFAt line i) (rest : Bytes) :
    firstCRLF (line ++ cr :: lf :: rest) = some line.length := by
  rw [← isFirstCRLF_iff]
  constructor
  · exact (crlfAt_append_right line (cr :: lf :: rest) 0).mpr ⟨rfl, rfl⟩
  · intro j hj h
    by_cases hlast : j + 1 < line.length
    · exact hline j ((crlfAt_append_left hlast _).mp h)
    · -- the byte after the line is the CR, so a CR at its end starts no CR LF
      have h2 := h.2
      rw [show j + 1 = line.length by omega, List.getElem?_append_right (Nat.le_refl _),
        Nat.sub_self] at h2
      cases h2

theorem not_crlfAt_of_notMem (h : cr ∉ line) (i : ℕ) : ¬ CRLFAt line i :=
  fun hi => h (mem_of_getElem? hi.1)

open Parser

/-- The text before the first CR LF; it and its CR LF are taken. -/
def untilCRLF : Parser UInt8 Bytes := fun data =>
  match firstCRLF data with
  | none => (none, data)
  | some i => (some (data.take i), data.drop (i + 2))

theorem untilCRLF_eq_some {rest : Bytes} :
    untilCRLF data = (some line, rest) ↔
      (∀ i, ¬ CRLFAt line i) ∧ data = line ++ cr :: lf :: rest := by
  constructor
  · intro h
    rw [untilCRLF] at h
    rcases hf : firstCRLF data with _ | i
    · rw [hf] at h
      cases h
    · rw [hf] at h
      cases h
      obtain ⟨hat, hfirst⟩ := isFirstCRLF_iff.mpr hf
      have hlt := hat.lt
      refine ⟨fun j hj => ?_, ?_⟩
      · have hjlt := hj.lt
        rw [length_take] at hjlt
        refine hfirst j (by omega) ?_
        rw [← take_append_drop i data]
        exact (crlfAt_append_left hj.lt _).mpr hj
      · -- the two bytes after the line are the CR LF found
        obtain ⟨h1, hcr⟩ := List.getElem?_eq_some_iff.mp hat.1
        obtain ⟨h2, hlf⟩ := List.getElem?_eq_some_iff.mp hat.2
        conv_lhs => rw [← take_append_drop i data]
        rw [drop_eq_getElem_cons h1, drop_eq_getElem_cons h2, hcr, hlf]
  · rintro ⟨hline, rfl⟩
    rw [untilCRLF, firstCRLF_line hline]
    have h2 : (line ++ cr :: lf :: rest).drop (line.length + 2) = rest := by
      rw [← drop_drop, drop_left]
      rfl
    simp only [take_left, h2]

theorem untilCRLF_line (hline : ∀ i, ¬ CRLFAt line i) (rest : Bytes) :
    untilCRLF (line ++ cr :: lf :: rest) = (some line, rest) :=
  untilCRLF_eq_some.mpr ⟨hline, rfl⟩

theorem stable_untilCRLF : Stable untilCRLF := by
  intro b s line r h
  obtain ⟨hline, rfl⟩ := untilCRLF_eq_some.mp h
  rw [append_assoc]
  exact untilCRLF_line hline (r ++ s)

theorem takes_untilCRLF : Takes 2 untilCRLF := by
  intro b line r h
  obtain ⟨-, rfl⟩ := untilCRLF_eq_some.mp h
  refine ⟨line ++ [cr, lf], by simp, ?_⟩
  rw [length_append]
  exact Nat.le_add_left _ _

end CRLF
