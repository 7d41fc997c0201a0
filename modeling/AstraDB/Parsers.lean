/-
Parsers that take tokens from the front of a list.

A parser returns what it read, or nothing, together with the tokens it left; also a
parser that fails may have taken some.  Two properties matter:

* `Takes m p` — if `p` succeeds, it left a suffix and took at least `m` tokens;
* `Stable p` — if `p` succeeds, it does the same when more tokens follow.

A recursive parser is the fixed point `fix F` of its body, and a loop is one.  It takes
one unit of fuel per token, and never runs out (`fix_eq`) if the body takes a token before
each recursive call (`Recursive`).  By `takes_fix` and `stable_fix` it has the two
properties if its body has.  `visited` are the states in which a loop starts its rounds.
-/
import Mathlib.Data.List.Basic
import Mathlib.Order.Nat
import Mathlib.Tactic.Common

open List

/-- What was read, if anything, and the tokens left. -/
def Parser (τ α : Type) := List τ → Option α × List τ

namespace Parser

variable {τ α β σ : Type}

instance : Monad (Parser τ) where
  pure a := fun b => (some a, b)
  bind p f := fun b =>
    match p b with
    | (none, r) => (none, r)
    | (some a, r) => f a r

/-- Fails, and takes nothing. -/
def fail : Parser τ α := fun b => (none, b)

def next : Parser τ τ
  | [] => (none, [])
  | x :: b => (some x, b)

/-- A value that may be missing. -/
def ofOption : Option α → Parser τ α
  | none => fail
  | some a => pure a

/-- The next `len` tokens; `extra` more behind them are taken as well. -/
def block (len extra : ℕ) : Parser τ (List τ) := fun b =>
  if b.length < len + extra then (none, b) else (some (b.take len), b.drop (len + extra))

/-- Takes nothing if it fails. -/
def attempt (p : Parser τ α) : Parser τ α := fun b =>
  match p b with
  | (none, _) => (none, b)
  | (some a, r) => (some a, r)

@[simp] theorem pure_apply (a : α) (b : List τ) : (pure a : Parser τ α) b = (some a, b) := rfl

@[simp] theorem fail_apply (b : List τ) : (fail : Parser τ α) b = (none, b) := rfl

variable {p : Parser τ α} {f : α → Parser τ β} {b r : List τ} {a : α} {n : ℕ} {q : Parser τ α}
  {s : σ}

theorem bind_of_some (hp : p b = (some a, r)) : (p >>= f) b = f a r := by
  show (match p b with
    | (none, r) => (none, r)
    | (some a, r) => f a r) = f a r
  rw [hp]

theorem bind_of_none (hp : p b = (none, r)) : (p >>= f) b = (none, r) := by
  show (match p b with
    | (none, r) => (none, r)
    | (some a, r) => f a r) = (none, r)
  rw [hp]

theorem bind_eq_some {c : β} :
    (p >>= f) b = (some c, r) ↔ ∃ a r', p b = (some a, r') ∧ f a r' = (some c, r) := by
  constructor
  · intro h
    rcases hp : p b with ⟨_ | a, r'⟩
    · rw [bind_of_none hp] at h
      cases h
    · rw [bind_of_some hp] at h
      exact ⟨a, r', rfl, h⟩
  · rintro ⟨a, r', hp, hf⟩
    rw [bind_of_some hp, hf]

theorem next_eq_some {x : τ} : next b = (some x, r) ↔ b = x :: r := by
  cases b with
  | nil => simp [next]
  | cons y b => simp [next]

@[simp] theorem ofOption_some (a : α) : (ofOption (some a) : Parser τ α) = pure a := rfl

theorem ofOption_eq_some {o : Option α} : ofOption o b = (some a, r) ↔ o = some a ∧ b = r := by
  cases o with
  | none => simp [ofOption]
  | some x => simp [ofOption]

theorem block_append (u v b : List τ) :
    block u.length v.length (u ++ v ++ b) = (some u, b) := by
  have h : (u ++ v).length = u.length + v.length := length_append
  rw [block, if_neg (by rw [length_append, h]; omega), ← h, drop_left,
    append_assoc, take_left]

theorem block_eq_some {len extra : ℕ} {u : List τ} :
    block len extra b = (some u, r) ↔
      ∃ v, b = u ++ v ++ r ∧ u.length = len ∧ v.length = extra := by
  constructor
  · intro h
    rw [block] at h
    split at h
    · cases h
    · cases h
      refine ⟨(b.drop len).take extra, ?_, ?_, ?_⟩
      · rw [← drop_drop, append_assoc, take_append_drop, take_append_drop]
      · rw [length_take]
        omega
      · rw [length_take, length_drop]
        omega
  · rintro ⟨v, rfl, rfl, rfl⟩
    exact block_append u v r

theorem attempt_eq_some : attempt p b = (some a, r) ↔ p b = (some a, r) := by
  rw [attempt]
  rcases p b with ⟨_ | x, r'⟩ <;> simp

theorem attempt_of_none (h : (attempt p b).1 = none) : attempt p b = (none, b) := by
  rw [attempt] at h ⊢
  rcases hp : p b with ⟨_ | x, r'⟩
  · rfl
  · rw [hp] at h
    cases h

/-! ### What a parser takes -/

/-- A success leaves a suffix of the input, at least `m` tokens shorter. -/
def Takes (m : ℕ) (p : Parser τ α) : Prop :=
  ∀ b a r, p b = (some a, r) → ∃ c, b = c ++ r ∧ m ≤ c.length

theorem Takes.length_le {m : ℕ} (hp : Takes m p) (h : p b = (some a, r)) :
    r.length + m ≤ b.length := by
  obtain ⟨c, rfl, hm⟩ := hp b a r h
  rw [length_append]
  omega

theorem Takes.mono {m : ℕ} (hp : Takes n p) (hmn : m ≤ n) : Takes m p := by
  intro b a r h
  obtain ⟨c, hc, hn⟩ := hp b a r h
  exact ⟨c, hc, hmn.trans hn⟩

theorem takes_pure (a : α) : Takes 0 (pure a : Parser τ α) := by
  rintro b _ _ ⟨⟩
  exact ⟨[], rfl, le_rfl⟩

theorem takes_fail (m : ℕ) : Takes m (fail : Parser τ α) := by
  intro b a r h
  cases h

theorem takes_next : Takes 1 (next : Parser τ τ) := by
  intro b x r h
  exact ⟨[x], next_eq_some.mp h, le_rfl⟩

theorem takes_ofOption (o : Option α) : Takes 0 (ofOption o : Parser τ α) := by
  intro b a r h
  exact ⟨[], (ofOption_eq_some.mp h).2, le_rfl⟩

theorem takes_block (len extra : ℕ) : Takes (len + extra) (block len extra : Parser τ (List τ)) := by
  intro b u r h
  obtain ⟨v, rfl, rfl, rfl⟩ := block_eq_some.mp h
  exact ⟨u ++ v, rfl, by rw [length_append]⟩

theorem Takes.attempt {m : ℕ} (hp : Takes m p) : Takes m (attempt p) :=
  fun b a r h => hp b a r (attempt_eq_some.mp h)

theorem Takes.bind {m : ℕ} (hp : Takes m p) (hf : ∀ a, Takes n (f a)) :
    Takes (m + n) (p >>= f) := by
  intro b c r h
  obtain ⟨a, r', h1, h2⟩ := bind_eq_some.mp h
  obtain ⟨u, rfl, hu⟩ := hp b a r' h1
  obtain ⟨v, rfl, hv⟩ := hf a r' c r h2
  refine ⟨u ++ v, (append_assoc u v r).symm, ?_⟩
  rw [length_append]
  omega

theorem Takes.bind_left {m : ℕ} (hp : Takes m p) (hf : ∀ a, Takes 0 (f a)) :
    Takes m (p >>= f) := hp.bind hf

theorem Takes.ite {m : ℕ} {c : Prop} [Decidable c] (hp : Takes m p) (hq : Takes m q) :
    Takes m (if c then p else q) := by
  split
  · exact hp
  · exact hq

/-! ### More input -/

/-- A success does not change when more tokens follow. -/
def Stable (p : Parser τ α) : Prop :=
  ∀ b s a r, p b = (some a, r) → p (b ++ s) = (some a, r ++ s)

theorem stable_pure (a : α) : Stable (pure a : Parser τ α) := by
  rintro b s _ _ ⟨⟩
  rfl

theorem stable_fail : Stable (fail : Parser τ α) := by
  intro b s a r h
  cases h

theorem stable_next : Stable (next : Parser τ τ) := by
  intro b s x r h
  rw [next_eq_some] at h ⊢
  rw [h, cons_append]

theorem stable_ofOption (o : Option α) : Stable (ofOption o : Parser τ α) := by
  intro b s a r h
  obtain ⟨ho, rfl⟩ := ofOption_eq_some.mp h
  exact ofOption_eq_some.mpr ⟨ho, rfl⟩

theorem stable_block (len extra : ℕ) : Stable (block len extra : Parser τ (List τ)) := by
  intro b s u r h
  obtain ⟨v, rfl, hu, hv⟩ := block_eq_some.mp h
  exact block_eq_some.mpr ⟨v, append_assoc _ r s, hu, hv⟩

theorem Stable.attempt (hp : Stable p) : Stable (attempt p) :=
  fun b s a r h => attempt_eq_some.mpr (hp b s a r (attempt_eq_some.mp h))

theorem Stable.bind (hp : Stable p) (hf : ∀ a, Stable (f a)) : Stable (p >>= f) := by
  intro b s c r h
  obtain ⟨a, r', h1, h2⟩ := bind_eq_some.mp h
  rw [bind_of_some (hp b s a r' h1), hf a r' s c r h2]

theorem Stable.ite {c : Prop} [Decidable c] (hp : Stable p) (hq : Stable q) :
    Stable (if c then p else q) := by
  split
  · exact hp
  · exact hq

/-! ### Parsers that agree on short inputs -/

/-- The two parsers do the same on inputs of fewer than `n` tokens. -/
def AgreeBelow (n : ℕ) (p q : Parser τ α) : Prop := ∀ b, b.length < n → p b = q b

theorem AgreeBelow.refl (n : ℕ) (p : Parser τ α) : AgreeBelow n p p := fun _ _ => rfl

theorem AgreeBelow.ite {c : Prop} [Decidable c] {p' q' : Parser τ α} (hp : AgreeBelow n p p')
    (hq : AgreeBelow n q q') : AgreeBelow n (if c then p else q) (if c then p' else q') := by
  split
  · exact hp
  · exact hq

theorem AgreeBelow.bind {m k : ℕ} {g : α → Parser τ β} (hp : Takes m p) (hpq : AgreeBelow k p q)
    (hfg : ∀ a, AgreeBelow n (f a) (g a)) (hk : k ≤ n + m) : AgreeBelow k (p >>= f) (q >>= g) := by
  intro b hb
  have hq := hpq b hb
  rcases h : p b with ⟨_ | a, r⟩
  · rw [bind_of_none h, bind_of_none (hq.symm.trans h)]
  · have hlen := hp.length_le h
    rw [bind_of_some h, bind_of_some (hq.symm.trans h), hfg a r (by omega)]

/-! ### Recursive parsers -/

/-- The recursion unfolded `k` times. -/
def fixFuel (F : (σ → Parser τ α) → σ → Parser τ α) : ℕ → σ → Parser τ α
  | 0, _ => fail
  | k + 1, s => F (fixFuel F k) s

/-- The recursive parser with body `F`; `s` is an argument that it passes on. -/
def fix (F : (σ → Parser τ α) → σ → Parser τ α) (s : σ) : Parser τ α :=
  fun b => fixFuel F (b.length + 1) s b

/-- The body takes a token before each recursive call, and `m` altogether. -/
structure Recursive (m : ℕ) (F : (σ → Parser τ α) → σ → Parser τ α) : Prop where
  takes : ∀ p, (∀ s, Takes m (p s)) → ∀ s, Takes m (F p s)
  guarded : ∀ n p q, (∀ s, Takes m (p s)) → (∀ s, AgreeBelow n (p s) (q s)) →
    ∀ s, AgreeBelow (n + 1) (F p s) (F q s)

variable {m : ℕ} {F : (σ → Parser τ α) → σ → Parser τ α}

section

variable (hF : Recursive m F)
include hF

theorem takes_fixFuel : ∀ (k : ℕ) (s : σ), Takes m (fixFuel F k s) := by
  intro k
  induction k with
  | zero => exact fun _ => takes_fail m
  | succ k ih => exact hF.takes _ ih

theorem agreeBelow_fixFuel_succ : ∀ (k : ℕ) (s : σ),
    AgreeBelow k (fixFuel F k s) (fixFuel F (k + 1) s) := by
  intro k
  induction k with
  | zero =>
    intro s b hb
    omega
  | succ k ih => exact hF.guarded k _ _ (takes_fixFuel hF k) ih

/-- More fuel than tokens does not matter. -/
theorem agreeBelow_fix (k : ℕ) (s : σ) :
    AgreeBelow k (fixFuel F k s) (fix F s) := by
  intro b hb
  obtain ⟨d, rfl⟩ : ∃ d, k = b.length + 1 + d := ⟨k - (b.length + 1), by omega⟩
  clear hb
  induction d with
  | zero => rfl
  | succ d ih => exact (agreeBelow_fixFuel_succ hF (b.length + 1 + d) s b (by omega)).symm.trans ih

theorem fix_eq (s : σ) : fix F s = F (fix F) s := by
  funext b
  -- behind the first token the recursive calls see shorter inputs, and have fuel for them
  exact hF.guarded b.length _ _ (takes_fixFuel hF _) (agreeBelow_fix hF _) s b (Nat.lt_succ_self _)

theorem takes_fix (s : σ) : Takes m (fix F s) :=
  fun b => takes_fixFuel hF (b.length + 1) s b

theorem stable_fix
    (hstable : ∀ p, (∀ s, Takes m (p s)) → (∀ s, Stable (p s)) → ∀ s, Stable (F p s)) (s : σ) :
    Stable (fix F s) := by
  have hfuel : ∀ k s, Stable (fixFuel F k s) := by
    intro k
    induction k with
    | zero => exact fun _ => stable_fail
    | succ k ih => exact hstable _ (takes_fixFuel hF k) ih
  intro b t a r h
  -- run both inputs on the fuel of the longer one
  have hlen : b.length < (b ++ t).length + 1 := by
    rw [length_append]
    omega
  rw [← agreeBelow_fix hF _ s b hlen] at h
  exact hfuel _ s b t a r h

end

/-! ### Loops -/

/-- `while (c(s)) s = body(s);` -/
def loop (c : σ → Bool) (body : σ → Parser τ σ) : σ → Parser τ σ :=
  fix fun self s => if c s then body s >>= self else pure s

variable {c : σ → Bool} {body body' : σ → Parser τ σ}

section

variable (hbody : ∀ s, Takes 1 (body s))
include hbody

theorem recursive_loop :
    Recursive 0 fun (self : σ → Parser τ σ) s => if c s then body s >>= self else pure s where
  takes _ hp s := Takes.ite (((hbody s).mono (Nat.zero_le 1)).bind hp) (takes_pure s)
  guarded _ _ _ _ hpq s :=
    AgreeBelow.ite (AgreeBelow.bind (hbody s) (AgreeBelow.refl _ _) hpq le_rfl)
      (AgreeBelow.refl _ _)

theorem loop_eq (s : σ) :
    loop c body s = if c s then body s >>= loop c body else pure s :=
  fix_eq (recursive_loop hbody) s

theorem takes_loop (s : σ) : Takes 0 (loop c body s) :=
  takes_fix (recursive_loop hbody) s

theorem stable_loop (hstable : ∀ s, Stable (body s)) (s : σ) :
    Stable (loop c body s) :=
  stable_fix (recursive_loop hbody) (fun _ _ hp s => ((hstable s).bind hp).ite (stable_pure s)) s

end

theorem AgreeBelow.loop (hbody : ∀ s, Takes 0 (body s))
    (hagree : ∀ s, AgreeBelow n (body s) (body' s)) (s : σ) :
    AgreeBelow n (Parser.loop c body s) (Parser.loop c body' s) := by
  have hfuel : ∀ k s, AgreeBelow n
      (fixFuel (fun (self : σ → Parser τ σ) s => if c s then body s >>= self else pure s) k s)
      (fixFuel (fun (self : σ → Parser τ σ) s => if c s then body' s >>= self else pure s) k s) := by
    intro k
    induction k with
    | zero => exact fun _ => AgreeBelow.refl _ _
    | succ k ih =>
      intro s
      exact AgreeBelow.ite (AgreeBelow.bind (hbody s) (hagree s) ih le_rfl) (AgreeBelow.refl _ _)
  exact fun b hb => hfuel (b.length + 1) s b hb

theorem loop_simulates {ρ : Type} (R : σ → ρ → Prop) (c' : ρ → Bool) (step : ρ → Parser τ ρ)
    (hcond : ∀ s t, R s t → c s = c' t)
    (hstep : ∀ s t b s' r, R s t → c s = true → body s b = (some s', r) →
      ∃ t', step t b = (some t', r) ∧ R s' t') {s' : σ} {t : ρ} (hst : R s t)
    (h : loop c body s b = (some s', r)) :
    ∃ t', loop c' step t b = (some t', r) ∧ R s' t' ∧ c s' = false := by
  -- both loops run on the fuel of the same input, and leave the same rest after each round
  have hfuel : ∀ k s t b, R s t →
      fixFuel (fun (self : σ → Parser τ σ) s => if c s then body s >>= self else pure s) k s b
        = (some s', r) →
      ∃ t', fixFuel (fun (self : ρ → Parser τ ρ) t => if c' t then step t >>= self else pure t) k t b
        = (some t', r) ∧ R s' t' ∧ c s' = false := by
    intro k
    induction k with
    | zero =>
      intro s t b _ h
      cases h
    | succ k ih =>
      intro s t b hst h
      simp only [fixFuel] at h ⊢
      rw [← hcond s t hst]
      cases hc : c s with
      | false =>
        rw [hc] at h
        cases h
        exact ⟨t, rfl, hst, hc⟩
      | true =>
        rw [hc, if_pos rfl] at h
        obtain ⟨u, r', h1, h2⟩ := bind_eq_some.mp h
        obtain ⟨u', h1', hu⟩ := hstep s t b u r' hst hc h1
        obtain ⟨t', h2', ht'⟩ := ih u u' r' hu h2
        exact ⟨t', by rw [if_pos rfl, bind_of_some h1', h2'], ht'⟩
  exact hfuel (b.length + 1) s t b hst h

/-! ### What a loop visits -/

/-- The states and inputs at which the body is entered, for `k` rounds. -/
def visitedFuel (c : σ → Bool) (body : σ → Parser τ σ) : ℕ → σ → List τ → List (σ × List τ)
  | 0, _, _ => []
  | k + 1, s, b =>
    if c s then
      (s, b) :: match body s b with
        | (none, _) => []
        | (some s', r) => visitedFuel c body k s' r
    else []

/-- The states and inputs at which the body of the loop is entered. -/
def visited (c : σ → Bool) (body : σ → Parser τ σ) (s : σ) (b : List τ) : List (σ × List τ) :=
  visitedFuel c body (b.length + 1) s b

theorem visitedFuel_eq (hbody : ∀ s, Takes 1 (body s)) : ∀ (k l : ℕ) (s : σ) (b : List τ),
    b.length < k → b.length < l → visitedFuel c body k s b = visitedFuel c body l s b := by
  intro k
  induction k with
  | zero =>
    intro l s b hk
    omega
  | succ k ih =>
    intro l s b hk hl
    obtain ⟨l, rfl⟩ : ∃ m, l = m + 1 := ⟨l - 1, by omega⟩
    rw [visitedFuel, visitedFuel]
    rcases h : body s b with ⟨_ | s', r⟩
    · rfl
    · have hlen := (hbody s).length_le h
      simp only [ih l s' r (by omega) (by omega)]

theorem visited_of_not (hc : c s = false) (b : List τ) : visited c body s b = [] := by
  rw [visited, visitedFuel, hc, if_neg Bool.false_ne_true]

theorem visited_of_none (hc : c s = true) (h : body s b = (none, r)) :
    visited c body s b = [(s, b)] := by
  rw [visited, visitedFuel, if_pos hc, h]

theorem visited_of_some (hbody : ∀ s, Takes 1 (body s)) {s' : σ} (hc : c s = true)
    (h : body s b = (some s', r)) : visited c body s b = (s, b) :: visited c body s' r := by
  have hlen := (hbody s).length_le h
  rw [visited, visitedFuel, if_pos hc, h]
  simp only
  rw [visitedFuel_eq hbody b.length (r.length + 1) s' r (by omega) (Nat.lt_succ_self _), visited]

theorem length_le_of_mem_visited (hbody : ∀ s, Takes 1 (body s)) {p : σ × List τ}
    (h : p ∈ visited c body s b) : p.2.length ≤ b.length := by
  have hfuel : ∀ k s b, p ∈ visitedFuel c body k s b → p.2.length ≤ b.length := by
    intro k
    induction k with
    | zero =>
      intro s b h
      cases h
    | succ k ih =>
      intro s b h
      rw [visitedFuel] at h
      split at h
      · rcases mem_cons.mp h with rfl | h
        · exact le_rfl
        · rcases hb : body s b with ⟨_ | s', r⟩ <;> rw [hb] at h
          · cases h
          · have := (hbody s).length_le hb
            exact (ih s' r h).trans (by omega)
      · cases h
  exact hfuel _ s b h

theorem mem_visited_of_simulates {ρ : Type} (R : σ → ρ → Prop) {c' : ρ → Bool}
    {step : ρ → Parser τ ρ} (hcond : ∀ s t, R s t → c s = c' t)
    (hstep : ∀ s t b s' r, R s t → c s = true → body s b = (some s', r) →
      ∃ t', step t b = (some t', r) ∧ R s' t') {t : ρ} (hst : R s t) {p : σ × List τ}
    (h : p ∈ visited c body s b) : ∃ u, (u, p.2) ∈ visited c' step t b := by
  have hfuel : ∀ k s t b, R s t → p ∈ visitedFuel c body k s b →
      ∃ u, (u, p.2) ∈ visitedFuel c' step k t b := by
    intro k
    induction k with
    | zero =>
      intro s t b _ h
      cases h
    | succ k ih =>
      intro s t b hst h
      rw [visitedFuel] at h
      split at h
      · next hc =>
        rw [visitedFuel, ← hcond s t hst, if_pos hc]
        rcases mem_cons.mp h with rfl | h
        · exact ⟨t, mem_cons_self⟩
        · rcases hb : body s b with ⟨_ | s', r⟩ <;> rw [hb] at h
          · cases h
          · obtain ⟨t', ht', hst'⟩ := hstep s t b s' r hst hc hb
            obtain ⟨u, hu⟩ := ih s' t' r hst' h
            exact ⟨u, by rw [ht']; exact mem_cons_of_mem _ hu⟩
      · cases h
  exact hfuel _ s t b hst h

end Parser
