/-
Reading from a source that may end too early.

A read fills a buffer with the next tokens.  If there are fewer, the rest of the buffer
keeps what it held before, which for a variable that was not initialised may be anything.
What such variables turn out to hold is given as a list, `stale`; a reader that needs more
has no result.  A running sum is kept of the buffers that were filled.

* `Reads p chunks a` — `p` fills its buffers with `chunks` and returns `a`, whatever follows;
* `Starves p input a` — the input ends too early, and with some stale tokens `p` returns `a`,
  with nothing left of the input;
* `Hangs z p input` — the input ends too early, and with some stale tokens and then `z` over and
  over no reader of the family `p` comes to an end;
* `Parses p L` — `p` reads what has the layout `L`, and starves on every other input.  The
  readers are built from `fill`, `fillNew` and `bind`, which all have a layout.
-/
import Mathlib.Data.List.Basic
import Mathlib.Tactic.Common

open List

/-- What is left of the input, what variables will hold, and the sum so far. -/
structure Source (τ σ : Type) where
  input : List τ
  stale : List τ
  sum : σ

/-- A reader may lack stale tokens, and then has no result. -/
abbrev SourceReader (τ σ α : Type) := StateT (Source τ σ) Option α

namespace SourceReader

variable {τ σ α β : Type}

variable {p : SourceReader τ σ α} {f : α → SourceReader τ σ β} {s : Source τ σ} {a : α}
  {chunks : List (List τ)} {b : β}

theorem bind_of_some {s' : Source τ σ} (hp : p s = some (a, s')) : (p >>= f) s = f a s' := by
  show (p s).bind (fun x => f x.1 x.2) = f a s'
  rw [hp]
  rfl

theorem exists_of_bind {r : β × Source τ σ} (h : (p >>= f) s = some r) :
    ∃ a s', p s = some (a, s') ∧ f a s' = some r := by
  obtain ⟨⟨a, s'⟩, hp, hf⟩ := Option.bind_eq_some_iff.mp h
  exact ⟨a, s', hp, hf⟩

/-- Fills a buffer that already has a content. -/
def fill (add : σ → List τ → σ) (buffer : List τ) : SourceReader τ σ (List τ) := fun s =>
  let got := s.input.take buffer.length
  let data := got ++ buffer.drop got.length
  some (data, { s with input := s.input.drop buffer.length, sum := add s.sum data })

/-- Fills a variable that is not initialised. -/
def fillNew (add : σ → List τ → σ) (size : ℕ) : SourceReader τ σ (List τ) := fun s =>
  let got := s.input.take size
  let missing := size - got.length
  if s.stale.length < missing then none
  else
    let data := got ++ s.stale.take missing
    some (data, ⟨s.input.drop size, s.stale.drop missing, add s.sum data⟩)

theorem fillNew_cases {add : σ → List τ → σ} {size : ℕ} {s' : Source τ σ} {data : List τ}
    (h : fillNew add size s = some (data, s')) :
    s'.input = s.input.drop size ∧ s.input.take size <+: data := by
  rw [fillNew] at h
  split at h
  · cases h
  · cases h
    exact ⟨rfl, prefix_append _ _⟩

theorem exists_fillNew (add : σ → List τ → σ) {size : ℕ} (h : size ≤ s.stale.length) :
    ∃ data s', fillNew add size s = some (data, s') ∧
      s.stale.length ≤ s'.stale.length + size := by
  rw [fillNew]
  dsimp only
  rw [if_neg (by omega)]
  refine ⟨_, _, rfl, ?_⟩
  rw [length_drop]
  omega

def Reads (add : σ → List τ → σ) (p : SourceReader τ σ α) (chunks : List (List τ)) (a : α) : Prop :=
  ∀ s : Source τ σ, p { s with input := chunks.flatten ++ s.input } =
    some (a, { s with sum := chunks.foldl add s.sum })

variable {add : σ → List τ → σ}

theorem reads_pure (a : α) : Reads add (pure a) [] a := fun _ => rfl

theorem Reads.bind {chunks' : List (List τ)} (hp : Reads add p chunks a)
    (hf : Reads add (f a) chunks' b) : Reads add (p >>= f) (chunks ++ chunks') b := by
  intro s
  have hp := hp { s with input := chunks'.flatten ++ s.input }
  rw [flatten_append, append_assoc, bind_of_some hp, foldl_append]
  exact hf { s with sum := chunks.foldl add s.sum }

theorem reads_fill (chunk : List τ) {buffer : List τ} (h : buffer.length = chunk.length) :
    Reads add (fill add buffer) [chunk] chunk := by
  intro s
  have hdrop : buffer.drop chunk.length = [] := drop_of_length_le (Nat.le_of_eq h)
  simp [fill, h, hdrop]

theorem reads_fillNew (chunk : List τ) : Reads add (fillNew add chunk.length) [chunk] chunk := by
  intro s
  simp [fillNew]

def Starves (p : SourceReader τ σ α) (input : List τ) (a : α) : Prop :=
  ∃ draws, ∀ sum, ∃ sum', ∀ stale, p ⟨input, draws ++ stale, sum⟩ = some (a, ⟨[], stale, sum'⟩)

theorem starves_pure (a : α) : Starves (pure a : SourceReader τ σ α) [] a :=
  ⟨[], fun sum => ⟨sum, fun _ => rfl⟩⟩

theorem Starves.bind {input : List τ} (hp : Starves p input a) (hf : Starves (f a) [] b) :
    Starves (p >>= f) input b := by
  obtain ⟨draws, hp⟩ := hp
  obtain ⟨draws', hf⟩ := hf
  refine ⟨draws ++ draws', fun sum => ?_⟩
  obtain ⟨sum', hp⟩ := hp sum
  obtain ⟨sum'', hf⟩ := hf sum'
  refine ⟨sum'', fun stale => ?_⟩
  rw [append_assoc, bind_of_some (hp (draws' ++ stale)), hf]

theorem Reads.bind_starves {rest : List τ} (hp : Reads add p chunks a) (hf : Starves (f a) rest b) :
    Starves (p >>= f) (chunks.flatten ++ rest) b := by
  obtain ⟨draws, hf⟩ := hf
  refine ⟨draws, fun sum => ?_⟩
  obtain ⟨sum', hf⟩ := hf (chunks.foldl add sum)
  refine ⟨sum', fun stale => ?_⟩
  rw [bind_of_some (hp ⟨rest, draws ++ stale, sum⟩)]
  exact hf stale

theorem starves_fillNew (input draws : List τ) :
    Starves (fillNew add (input ++ draws).length) input (input ++ draws) := by
  have hle : input.length ≤ (input ++ draws).length := by
    rw [length_append]
    omega
  have hdraws : (input ++ draws).length - input.length = draws.length := by
    rw [length_append]
    omega
  refine ⟨draws, fun sum => ⟨add sum (input ++ draws), fun stale => ?_⟩⟩
  rw [fillNew]
  dsimp only
  rw [take_of_length_le hle, drop_of_length_le hle, hdraws, take_left,
    drop_left, if_neg (by rw [length_append]; omega)]

def Hangs {ι : Type} (z : τ) (p : ι → SourceReader τ σ α) (input : List τ) : Prop :=
  ∃ draws, ∀ i sum m, p i ⟨input, draws ++ replicate m z, sum⟩ = none

variable {ι κ : Type} {z : τ} {input : List τ}

theorem Hangs.of_family {p : ι → SourceReader τ σ α} {q : κ → SourceReader τ σ α}
    (h : Hangs z p input) (hq : ∀ j, (∀ s, q j s = none) ∨ ∃ i, q j = p i) : Hangs z q input := by
  obtain ⟨draws, h⟩ := h
  refine ⟨draws, fun j sum m => ?_⟩
  rcases hq j with hnone | ⟨i, heq⟩
  · exact hnone _
  · rw [heq]
    exact h i sum m

theorem Hangs.bind {p : ι → SourceReader τ σ α} {f : ι → α → SourceReader τ σ β}
    (h : Hangs z p input) : Hangs z (fun i => p i >>= f i) input := by
  obtain ⟨draws, h⟩ := h
  refine ⟨draws, fun i sum m => ?_⟩
  show (p i _).bind (fun x => f i x.1 x.2) = none
  rw [h i sum m]
  rfl

theorem Starves.bind_hangs {f : ι → α → SourceReader τ σ β} (hp : Starves p input a)
    (hf : Hangs z (fun i => f i a) []) : Hangs z (fun i => p >>= f i) input := by
  obtain ⟨draws, hp⟩ := hp
  obtain ⟨draws', hf⟩ := hf
  refine ⟨draws ++ draws', fun i sum m => ?_⟩
  obtain ⟨sum', hp⟩ := hp sum
  rw [append_assoc]
  exact (bind_of_some (hp (draws' ++ replicate m z))).trans (hf i sum' m)

theorem Reads.bind_hangs {f : ι → α → SourceReader τ σ β} {rest : List τ}
    (hp : Reads add p chunks a) (hf : Hangs z (fun i => f i a) rest) :
    Hangs z (fun i => p >>= f i) (chunks.flatten ++ rest) := by
  obtain ⟨draws, hf⟩ := hf
  refine ⟨draws, fun i sum m => ?_⟩
  exact (bind_of_some (hp ⟨rest, draws ++ replicate m z, sum⟩)).trans (hf i _ m)

/-- The chunks that a reader fills its buffers with, and what it returns then. -/
abbrev Layout (τ α : Type) := List (List τ) → α → Prop

def Layout.pure (a : α) : Layout τ α := fun chunks b => chunks = [] ∧ b = a

def Layout.bind (L : Layout τ α) (M : α → Layout τ β) : Layout τ β := fun chunks b =>
  ∃ chunks₁ a chunks₂, chunks = chunks₁ ++ chunks₂ ∧ L chunks₁ a ∧ M a chunks₂ b

def Layout.chunk (size : ℕ) : Layout τ (List τ) := fun chunks data =>
  chunks = [data] ∧ data.length = size

variable {L : Layout τ α}

theorem Layout.bind_iff {M : α → Layout τ β} :
    L.bind M chunks b ↔ ∃ chunks₁ a chunks₂, chunks = chunks₁ ++ chunks₂ ∧ L chunks₁ a ∧
      M a chunks₂ b := Iff.rfl

theorem Layout.bind_pure_iff {f : α → β} :
    L.bind (fun a => Layout.pure (f a)) chunks b ↔ ∃ a, L chunks a ∧ b = f a := by
  constructor
  · rintro ⟨chunks, a, _, rfl, hL, rfl, rfl⟩
    rw [append_nil]
    exact ⟨a, hL, rfl⟩
  · rintro ⟨a, hL, rfl⟩
    exact ⟨chunks, a, [], (append_nil chunks).symm, hL, rfl, rfl⟩

/-- On every input, `p` finds one of the layout or comes to the end of it. -/
structure Parses (add : σ → List τ → σ) (p : SourceReader τ σ α) (L : Layout τ α) : Prop where
  reads : ∀ {chunks a}, L chunks a → Reads add p chunks a
  settled : ∀ input, (∃ chunks a rest, input = chunks.flatten ++ rest ∧ L chunks a) ∨
    ∃ a, Starves p input a

theorem Parses.of_iff {M : Layout τ α} (hp : Parses add p L)
    (h : ∀ chunks a, M chunks a ↔ L chunks a) : Parses add p M := by
  have hML : M = L := funext fun chunks => funext fun a => propext (h chunks a)
  rw [hML]
  exact hp

theorem Parses.starves_nil (hp : Parses add p L) : ∃ a, Starves p [] a := by
  rcases hp.settled [] with ⟨chunks, a, rest, hinput, hL⟩ | hstarves
  · obtain ⟨hchunks, hrest⟩ := append_eq_nil_iff.mp hinput.symm
    refine ⟨a, [], fun sum => ⟨chunks.foldl add sum, fun stale => ?_⟩⟩
    have h := hp.reads hL ⟨[], stale, sum⟩
    rw [hchunks] at h
    exact h
  · exact hstarves

theorem parses_pure (a : α) : Parses add (pure a : SourceReader τ σ α) (Layout.pure a) where
  reads := by
    rintro chunks b ⟨rfl, rfl⟩
    exact reads_pure b
  settled input := .inl ⟨[], a, input, rfl, rfl, rfl⟩

theorem Parses.bind {M : α → Layout τ β} (hp : Parses add p L) (hf : ∀ a, Parses add (f a) (M a)) :
    Parses add (p >>= f) (L.bind M) where
  reads := by
    rintro chunks b ⟨chunks₁, a, chunks₂, rfl, hL, hM⟩
    exact (hp.reads hL).bind ((hf a).reads hM)
  settled := by
    intro input
    rcases hp.settled input with ⟨chunks, a, rest, rfl, hL⟩ | hstarves
    · rcases (hf a).settled rest with ⟨chunks', b, rest', rfl, hM⟩ | ⟨b, hstarves⟩
      · refine .inl ⟨chunks ++ chunks', b, rest', ?_, chunks, a, chunks', rfl, hL, hM⟩
        rw [flatten_append, append_assoc]
      · exact .inr ⟨b, (hp.reads hL).bind_starves hstarves⟩
    · obtain ⟨a, hstarves⟩ := hstarves
      obtain ⟨b, hnil⟩ := (hf a).starves_nil
      exact .inr ⟨b, hstarves.bind hnil⟩

theorem parses_ite {c : Prop} [Decidable c] {q : SourceReader τ σ α} {M : Layout τ α}
    (hp : Parses add p L) (hq : Parses add q M) :
    Parses add (if c then p else q) (if c then L else M) := by
  split
  · exact hp
  · exact hq

theorem parses_fill (buffer : List τ) :
    Parses add (fill add buffer) (Layout.chunk buffer.length) where
  reads := by
    rintro chunks data ⟨rfl, hdata⟩
    exact reads_fill data hdata.symm
  settled := by
    intro input
    rcases Nat.lt_or_ge input.length buffer.length with hlt | hge
    · have hle := Nat.le_of_lt hlt
      let data := input ++ buffer.drop input.length
      refine .inr ⟨data, [], fun sum => ⟨add sum data, fun stale => ?_⟩⟩
      rw [fill]
      dsimp only
      rw [take_of_length_le hle, drop_of_length_le hle]
      rfl
    · refine .inl ⟨[input.take buffer.length], _, input.drop buffer.length, ?_, rfl, ?_⟩
      · rw [flatten_singleton, take_append_drop]
      · rw [length_take, Nat.min_eq_left hge]

theorem parses_fillNew [Inhabited τ] (size : ℕ) :
    Parses add (fillNew add size) (Layout.chunk size) where
  reads := by
    rintro chunks data ⟨rfl, rfl⟩
    exact reads_fillNew data
  settled := by
    intro input
    rcases Nat.lt_or_ge input.length size with hlt | hge
    · let draws : List τ := replicate (size - input.length) default
      have hsize : (input ++ draws).length = size := by
        rw [length_append, length_replicate]
        omega
      have hstarves : Starves (fillNew add (input ++ draws).length) input (input ++ draws) :=
        starves_fillNew input draws
      rw [hsize] at hstarves
      exact .inr ⟨_, hstarves⟩
    · refine .inl ⟨[input.take size], _, input.drop size, ?_, rfl, ?_⟩
      · rw [flatten_singleton, take_append_drop]
      · rw [length_take, Nat.min_eq_left hge]

end SourceReader
