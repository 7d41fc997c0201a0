/-
`LCS`: a longest common subsequence of two strings.

The lengths of the strings are stored as `int`s.  The table has one row and one column more, and
this sum overflows for a string of `2^31 - 1` bytes.  No entry of the table is larger than the
lengths, and so the entries are natural numbers.

* `handleLcs_spec` — the replies.
-/
import AstraDB.CommandRegistry
import AstraDB.Database
import AstraDB.Loops
import AstraDB.Subsequences
import Mathlib.Data.List.GetD

open Loops Subsequences List Function

structure LcsEnv extends DatabaseEnv where
  /-- what the constructor of a `std::vector` that is too long throws -/
  lengthError : Bytes

namespace Lcs

/-- `dp`, by row and column. -/
abbrev Table := ℕ → ℕ → ℕ

def fillCell (str1 str2 : Bytes) (i j : ℕ) (dp : Table) : Table :=
  update dp i (update (dp i) j
    (if str1.getD (i - 1) 0 = str2.getD (j - 1) 0 then dp (i - 1) (j - 1) + 1
    else Nat.max (dp (i - 1) j) (dp i (j - 1))))

def fill (str1 str2 : Bytes) (m n : ℕ) : Table :=
  forUp 1 (m + 1) (fun i => forUp 1 (n + 1) (fillCell str1 str2 i)) fun _ _ => 0

/-- The `while` loop, of at most so many rounds; the letters are found from the last one on. -/
def walk (str1 str2 : Bytes) (dp : Table) : ℕ → ℕ → ℕ → Bytes → Bytes
  | 0, _, _, lcs => lcs
  | rounds + 1, i, j, lcs =>
    if 0 < i ∧ 0 < j then
      if str1.getD (i - 1) 0 = str2.getD (j - 1) 0 then
        walk str1 str2 dp rounds (i - 1) (j - 1) (lcs ++ [str1.getD (i - 1) 0])
      else if dp i (j - 1) < dp (i - 1) j then walk str1 str2 dp rounds (i - 1) j lcs
      else walk str1 str2 dp rounds i (j - 1) lcs
    else lcs

section Commands

variable (env : LcsEnv)

def error (text : Bytes) : HandlerOutcome := .returns (.ofError text)

def reply (value : RespValue) : HandlerOutcome := .returns (.ofResponse value)

/-- The computation.  A negative number of rows or columns is a huge `size_t`, and the vector is
not made; a number of `0`, for a string of `2^32 - 1` bytes, is followed by a read in front of
the table. -/
def compute (lenOnly : Bool) (str1 str2 : Bytes) : HandlerOutcome :=
  let m := Int32.ofNat str1.length
  let n := Int32.ofNat str2.length
  if m + 1 ≤ 0 ∨ n + 1 ≤ 0 then .throws env.lengthError
  else
    let m := m.toInt.toNat
    let n := n.toInt.toNat
    let dp := fill str1 str2 m n
    if lenOnly then reply (.ofInteger (Int64.ofNat (dp m n)))
    else reply (.ofString (walk str1 str2 dp (m + n) m n []).reverse .kBulkString)

def handleLcs (args : List CommandArg) (db : Store env.toDatabaseEnv) :
    HandlerOutcome × Store env.toDatabaseEnv :=
  match args with
  | key1 :: key2 :: options =>
    if 1 < options.length then
      (error (ascii "ERR wrong number of arguments for 'LCS' command"), db)
    else if !key1.isBulkString || !key2.isBulkString then
      (error (ascii "ERR wrong type of key argument"), db)
    else
      let (value1, db) := db.onKey key1.value Stored.get
      let (value2, db) := db.onKey key2.value Stored.get
      match value1, value2 with
      | some str1, some str2 =>
        match options with
        | [] => (compute env false str1 str2, db)
        | option :: _ =>
          let option := asciiStrToUpper option.value
          if option = ascii "LEN" then (compute env true str1 str2, db)
          else (error (ascii "ERR unknown option '" ++ option ++ ascii "'"), db)
      | _, _ => (reply (.ofType .kNullBulkString), db)
  | _ => (error (ascii "ERR wrong number of arguments for 'LCS' command"), db)

end Commands

section Table

variable {str1 str2 : Bytes} {dp : Table}

variable {l : Bytes} {i j : ℕ}

theorem take_succ_eq (h : i < l.length) : l.take (i + 1) = l.take i ++ [l.getD i 0] := by
  rw [take_succ_eq_append_getElem h, getD_eq_getElem _ _ h]

/-- The entry for the first `i` bytes of one string and the first `j` of the other. -/
def IsEntry (str1 str2 : Bytes) (dp : Table) (i j : ℕ) : Prop :=
  IsLength (dp i j) (str1.take i) (str2.take j)

/-- The rows above `i` are filled, and row `i` up to column `j`. -/
structure FilledTo (str1 str2 : Bytes) (i j : ℕ) (dp : Table) : Prop where
  first : ∀ i', dp i' 0 = 0
  above : ∀ i' < i, ∀ j' ≤ str2.length, IsEntry str1 str2 dp i' j'
  before : ∀ j' < j, IsEntry str1 str2 dp i j'

theorem isEntry_zero (h : dp i 0 = 0) : IsEntry str1 str2 dp i 0 := by
  rw [IsEntry, h, take_zero]
  exact .nil_right _

theorem isEntry_succ (hi : i < str1.length) (hj : j < str2.length)
    (hdiag : IsEntry str1 str2 dp i j) (hup : IsEntry str1 str2 dp i (j + 1))
    (hleft : IsEntry str1 str2 dp (i + 1) j) :
    IsLength (if str1.getD i 0 = str2.getD j 0 then dp i j + 1
        else Nat.max (dp i (j + 1)) (dp (i + 1) j))
      (str1.take (i + 1)) (str2.take (j + 1)) := by
  rw [IsEntry, take_succ_eq hj] at hup
  rw [IsEntry, take_succ_eq hi] at hleft
  rw [take_succ_eq hi, take_succ_eq hj]
  split
  · next heq =>
    rw [heq]
    exact hdiag.concat _
  · next hne => exact hup.max hne hleft

theorem fillCell_of_ne {i' j' : ℕ} (h : i' ≠ i ∨ j' ≠ j) :
    fillCell str1 str2 i j dp i' j' = dp i' j' := by
  rw [fillCell]
  by_cases hi : i' = i
  · subst hi
    rw [update_self, update_of_ne (h.resolve_left fun hne => hne rfl)]
  · rw [update_of_ne hi]

theorem FilledTo.fillCell (h : FilledTo str1 str2 (i + 1) (j + 1) dp) (hi : i < str1.length)
    (hj : j < str2.length) :
    FilledTo str1 str2 (i + 1) (j + 2) (fillCell str1 str2 (i + 1) (j + 1) dp) := by
  refine ⟨fun i' => ?_, fun i' hi' j' hj' => ?_, fun j' hj' => ?_⟩
  · rw [fillCell_of_ne (.inr (by omega))]
    exact h.first i'
  · rw [IsEntry, fillCell_of_ne (.inl (by omega))]
    exact h.above i' hi' j' hj'
  · rcases Nat.lt_succ_iff_lt_or_eq.mp hj' with hlt | rfl
    · rw [IsEntry, fillCell_of_ne (.inr (by omega))]
      exact h.before j' hlt
    · rw [IsEntry, Lcs.fillCell, update_self, update_self]
      exact isEntry_succ hi hj (h.above i (by omega) j (by omega))
        (h.above i (by omega) (j + 1) (by omega)) (h.before j (by omega))

theorem FilledTo.row (h : FilledTo str1 str2 (i + 1) 1 dp) (hi : i < str1.length) :
    FilledTo str1 str2 (i + 2) 1
      (forUp 1 (str2.length + 1) (Lcs.fillCell str1 str2 (i + 1)) dp) := by
  have hrow : FilledTo str1 str2 (i + 1) (str2.length + 1)
      (forUp 1 (str2.length + 1) (Lcs.fillCell str1 str2 (i + 1)) dp) := by
    refine forUp_induct (P := fun j dp => FilledTo str1 str2 (i + 1) j dp) (by omega) h ?_
    intro j dp hj hj' hfilled
    obtain ⟨j, rfl⟩ := Nat.exists_eq_add_of_le' hj
    exact hfilled.fillCell hi (by omega)
  refine ⟨hrow.first, fun i' hi' j' hj' => ?_, fun j' hj' => ?_⟩
  · rcases Nat.lt_succ_iff_lt_or_eq.mp hi' with hlt | rfl
    · exact hrow.above i' hlt j' hj'
    · exact hrow.before j' (by omega)
  · obtain rfl : j' = 0 := by omega
    exact isEntry_zero (hrow.first _)

theorem fill_spec (str1 str2 : Bytes) (hi : i ≤ str1.length) (hj : j ≤ str2.length) :
    IsEntry str1 str2 (fill str1 str2 str1.length str2.length) i j := by
  have hall : FilledTo str1 str2 (str1.length + 1) 1 (fill str1 str2 str1.length str2.length) := by
    refine forUp_induct (P := fun i dp => FilledTo str1 str2 i 1 dp) (by omega) ?_ ?_
    · refine ⟨fun _ => rfl, fun i' hi' j' _ => ?_, fun j' hj' => ?_⟩
      · obtain rfl : i' = 0 := by omega
        rw [IsEntry, take_zero]
        exact .nil_left _
      · obtain rfl : j' = 0 := by omega
        exact isEntry_zero rfl
    · intro i dp hi hi' hfilled
      obtain ⟨i, rfl⟩ := Nat.exists_eq_add_of_le' hi
      exact hfilled.row (by omega)
  exact hall.above i (by omega) j hj

section

variable (hi : i + 1 ≤ str1.length) (hj : j + 1 ≤ str2.length) (hne : str1.getD i 0 ≠ str2.getD j 0)
  (hup : IsEntry str1 str2 dp i (j + 1)) (hleft : IsEntry str1 str2 dp (i + 1) j)
include hi hj hne hup hleft

/-- The entries say which letter is not needed, if the two are different. -/
theorem isLongest_of_lt (hlt : dp (i + 1) j < dp i (j + 1))
    (hl : IsLongest l (str1.take i) (str2.take (j + 1))) :
    IsLongest l (str1.take (i + 1)) (str2.take (j + 1)) := by
  rw [IsEntry, take_succ_eq hj] at hup
  rw [IsEntry, take_succ_eq hi] at hleft
  rw [take_succ_eq hj] at hl
  obtain ⟨l', hl', hlength⟩ := hleft
  rw [take_succ_eq hi, take_succ_eq hj]
  refine hl.of_ne_left hne hl' ?_
  rw [← hup.eq_length hl, hlength]
  exact hlt.le

theorem isLongest_of_not_lt (hlt : ¬ dp (i + 1) j < dp i (j + 1))
    (hl : IsLongest l (str1.take (i + 1)) (str2.take j)) :
    IsLongest l (str1.take (i + 1)) (str2.take (j + 1)) := by
  rw [IsEntry, take_succ_eq hj] at hup
  rw [IsEntry, take_succ_eq hi] at hleft
  rw [take_succ_eq hi] at hl
  obtain ⟨l', hl', hlength⟩ := hup
  rw [take_succ_eq hi, take_succ_eq hj]
  refine hl'.of_ne_right hne hl ?_
  rw [← hleft.eq_length hl, hlength]
  exact Nat.le_of_not_lt hlt

end

theorem walk_spec (hdp : ∀ i ≤ str1.length, ∀ j ≤ str2.length, IsEntry str1 str2 dp i j)
    {rounds : ℕ} (hi : i ≤ str1.length) (hj : j ≤ str2.length) (hrounds : i + j ≤ rounds)
    (lcs : Bytes) : ∃ l, IsLongest l (str1.take i) (str2.take j) ∧
      walk str1 str2 dp rounds i j lcs = lcs ++ l.reverse := by
  induction rounds generalizing i j lcs with
  | zero =>
    obtain ⟨rfl, rfl⟩ : i = 0 ∧ j = 0 := by omega
    exact ⟨[], .nil_left _, (append_nil lcs).symm⟩
  | succ rounds ih =>
    rw [walk]
    split
    · next hpos =>
      obtain ⟨i, rfl⟩ := Nat.exists_eq_add_one.mpr hpos.1
      obtain ⟨j, rfl⟩ := Nat.exists_eq_add_one.mpr hpos.2
      simp only [Nat.add_sub_cancel]
      split
      · next heq =>
        obtain ⟨l, hl, hwalk⟩ := ih (i := i) (j := j) (by omega) (by omega)
          (by omega) (lcs ++ [str1.getD i 0])
        refine ⟨l ++ [str1.getD i 0], ?_, ?_⟩
        · rw [take_succ_eq hi, take_succ_eq hj, ← heq]
          exact hl.concat _
        · rw [hwalk, reverse_append, reverse_singleton, append_assoc]
      · next hne =>
        have hup := hdp i (by omega) (j + 1) hj
        have hleft := hdp (i + 1) hi j (by omega)
        split
        · next hlt =>
          obtain ⟨l, hl, hwalk⟩ := ih (i := i) (by omega) hj (by omega) lcs
          exact ⟨l, isLongest_of_lt hi hj hne hup hleft hlt hl, hwalk⟩
        · next hlt =>
          obtain ⟨l, hl, hwalk⟩ := ih (j := j) hi (by omega) (by omega) lcs
          exact ⟨l, isLongest_of_not_lt hi hj hne hup hleft hlt hl, hwalk⟩
    · next hpos =>
      refine ⟨[], ?_, (append_nil lcs).symm⟩
      rcases Nat.eq_zero_or_pos i with rfl | hi'
      · exact .nil_left _
      · obtain rfl : j = 0 := by omega
        exact .nil_right _

end Table

section Replies

variable {env : LcsEnv}

theorem compute_of_lt {str1 str2 : Bytes} (h1 : str1.length < 2 ^ 31 - 1)
    (h2 : str2.length < 2 ^ 31 - 1) (lenOnly : Bool) : compute env lenOnly str1 str2 =
      let dp := fill str1 str2 str1.length str2.length
      if lenOnly then reply (.ofInteger (Int64.ofNat (dp str1.length str2.length)))
      else reply (.ofString (walk str1 str2 dp (str1.length + str2.length) str1.length
        str2.length []).reverse .kBulkString) := by
  have hsize : ∀ {n : ℕ}, n < 2 ^ 31 - 1 → ¬ Int32.ofNat n + 1 ≤ 0 := by
    intro n hn
    rw [show (1 : Int32) = Int32.ofNat 1 from rfl, ← Int32.ofNat_add, Int32.le_iff_toInt_le,
      Int32.toInt_ofNat_of_lt (by omega), Int32.toInt_zero]
    omega
  have hlength : ∀ {n : ℕ}, n < 2 ^ 31 - 1 → (Int32.ofNat n).toInt.toNat = n := by
    intro n hn
    rw [Int32.toInt_ofNat_of_lt (by omega), Int.toNat_natCast]
  rw [compute, if_neg (not_or.mpr ⟨hsize h1, hsize h2⟩), hlength h1, hlength h2]

theorem handleLcs_of_data {db : Store env.toDatabaseEnv} {key1 key2 : CommandArg} {x y : Bytes}
    (hkey1 : key1.isBulkString = true) (hkey2 : key2.isBulkString = true)
    (hx : (db key1.value).data .strings = some x) (hy : (db key2.value).data .strings = some y) :
    handleLcs env [key1, key2] db = (compute env false x y, db) ∧
      ∀ option : CommandArg, asciiStrToUpper option.value = ascii "LEN" →
        handleLcs env [key1, key2, option] db = (compute env true x y, db) := by
  refine ⟨?_, fun option hoption => ?_⟩
  · simp [handleLcs, hkey1, hkey2, Store.get_of_data hx, Store.get_of_data hy]
  · simp [handleLcs, hkey1, hkey2, Store.get_of_data hx, Store.get_of_data hy, hoption]

/-- The two replies of `LCS`, without and with `LEN`. -/
theorem handleLcs_spec (env : LcsEnv) (db : Store env.toDatabaseEnv) (key1 key2 option : CommandArg)
    (x y : Bytes) (hkey1 : key1.isBulkString = true) (hkey2 : key2.isBulkString = true)
    (hoption : asciiStrToUpper option.value = ascii "LEN")
    (hx : (db key1.value).data .strings = some x) (hy : (db key2.value).data .strings = some y)
    (hxlength : x.length < 2 ^ 31 - 1) (hylength : y.length < 2 ^ 31 - 1) :
    ∃ l, IsLongest l x y ∧
      (handleLcs env [key1, key2] db).1 = reply (.ofString l .kBulkString) ∧
      (handleLcs env [key1, key2, option] db).1 =
        reply (.ofInteger (Int64.ofNat l.length)) := by
  have hdp : ∀ i ≤ x.length, ∀ j ≤ y.length, IsEntry x y (fill x y x.length y.length) i j :=
    fun i hi j hj => fill_spec x y hi hj
  obtain ⟨l, hl, hwalk⟩ := walk_spec hdp le_rfl le_rfl le_rfl []
  have hentry := hdp x.length le_rfl y.length le_rfl
  rw [IsEntry, take_length, take_length] at hentry
  rw [take_length, take_length] at hl
  obtain ⟨hstring, hlen⟩ := handleLcs_of_data hkey1 hkey2 hx hy
  refine ⟨l, hl, ?_, ?_⟩
  · rw [hstring, compute_of_lt hxlength hylength]
    dsimp only
    rw [hwalk, nil_append, reverse_reverse]
    rfl
  · rw [hlen option hoption, compute_of_lt hxlength hylength]
    dsimp only
    rw [if_pos rfl, hentry.eq_length hl]

def simpleLcs : LcsEnv where
  toDatabaseEnv := simpleDatabase
  lengthError := ascii "cannot create std::vector larger than max_size()"

def twoStrings (x y : Bytes) : Store simpleLcs.toDatabaseEnv :=
  (Store.empty.set (ascii "a") x []).set (ascii "b") y []

theorem data_twoStrings (x y : Bytes) : (twoStrings x y (ascii "a")).data .strings = some x ∧
      (twoStrings x y (ascii "b")).data .strings = some y := by
  refine ⟨?_, Store.data_set (not_mem_nil) _ _⟩
  rw [twoStrings, Store.set_of_ne (by decide) not_mem_nil]
  exact Store.data_set not_mem_nil _ _

theorem handleLcs_spec_abcb : ∃ l, IsLongest l (ascii "abcb") (ascii "bdcab") ∧
    (handleLcs simpleLcs [.ofString (ascii "a") .kBulkString, .ofString (ascii "b") .kBulkString]
      (twoStrings (ascii "abcb") (ascii "bdcab"))).1 = reply (.ofString l .kBulkString) ∧
    (handleLcs simpleLcs [.ofString (ascii "a") .kBulkString, .ofString (ascii "b") .kBulkString,
      .ofString (ascii "len") .kBulkString] (twoStrings (ascii "abcb") (ascii "bdcab"))).1 =
        reply (.ofInteger (Int64.ofNat l.length)) :=
  handleLcs_spec simpleLcs _ _ _ _ _ _ rfl rfl (by decide) (data_twoStrings _ _).1
    (data_twoStrings _ _).2 (by decide) (by decide)

theorem handleLcs_twoStrings_of_eq {x : Bytes} (hx : x.length = 2 ^ 31 - 1) (y : Bytes) :
    (handleLcs simpleLcs [.ofString (ascii "a") .kBulkString, .ofString (ascii "b") .kBulkString]
      (twoStrings x y)).1 = .throws simpleLcs.lengthError := by
  obtain ⟨ha, hb⟩ := data_twoStrings x y
  have hsize : Int32.ofNat x.length + 1 ≤ 0 := by
    rw [hx]
    decide
  rw [(handleLcs_of_data rfl rfl ha hb).1, compute, if_pos (.inl hsize)]

/-- The number of rows of the table overflows for the longest string whose length is an `int`. -/
theorem handleLcs_of_longest_string :
    (replicate (2 ^ 31 - 1) (0 : UInt8)).length < 2 ^ 31 ∧
    (handleLcs simpleLcs [.ofString (ascii "a") .kBulkString, .ofString (ascii "b") .kBulkString]
      (twoStrings (replicate (2 ^ 31 - 1) 0) [])).1 = .throws simpleLcs.lengthError := by
  refine ⟨?_, handleLcs_twoStrings_of_eq length_replicate []⟩
  rw [length_replicate]
  decide

end Replies

end Lcs
