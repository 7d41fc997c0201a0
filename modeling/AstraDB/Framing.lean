/-
Reading a stream of frames that arrives in pieces.

`drain p b` reads frames off the front of `b` as long as `p` succeeds, and `feed p u chunks`
does so each time another piece has arrived behind the bytes `u` left over.  If `p` takes
something and does not mind what follows (`Takes`, `Stable`), then the frames do not depend
on how the stream was cut (`feed_eq_drain`).
-/
import AstraDB.Parsers

open List

namespace Parser

variable {τ ε : Type}

def drainFuel (p : Parser τ ε) : ℕ → List τ → List ε × List τ
  | 0, b => ([], b)
  | k + 1, b =>
    match p b with
    | (none, _) => ([], b)
    | (some e, r) => (e :: (drainFuel p k r).1, (drainFuel p k r).2)

/-- The frames that are complete, and the tokens left. -/
def drain (p : Parser τ ε) (b : List τ) : List ε × List τ := drainFuel p b.length b

/-- The frames of a stream that arrives in pieces, behind the tokens `u`. -/
def feed (p : Parser τ ε) : List τ → List (List τ) → List ε × List τ
  | u, [] => ([], u)
  | u, c :: cs =>
    let d := drain p (u ++ c)
    let f := feed p d.2 cs
    (d.1 ++ f.1, f.2)

variable {p : Parser τ ε}

theorem drainFuel_eq (hp : Takes 1 p) : ∀ {k : ℕ} {b : List τ}, b.length ≤ k →
    drainFuel p k b = drain p b := by
  intro k
  induction k using Nat.strong_induction_on with
  | _ k ih =>
    intro b hb
    cases k with
    | zero =>
      obtain rfl := length_eq_zero_iff.mp (Nat.le_zero.mp hb)
      rfl
    | succ k =>
      cases b with
      | nil =>
        rcases h : p [] with ⟨_ | e, r⟩
        · rw [drainFuel, h]
          rfl
        · have := hp.length_le h
          simp at this
      | cons x b =>
        rw [drain, length_cons, drainFuel, drainFuel]
        rcases h : p (x :: b) with ⟨_ | e, r⟩
        · rfl
        · have hlen := hp.length_le h
          rw [length_cons] at hlen hb
          simp only
          -- a frame has at least one token, so both have fuel enough for the rest
          rw [ih k (by omega) (show r.length ≤ k by omega),
            ih b.length (by omega) (show r.length ≤ b.length by omega)]

theorem drain_of_none {b r : List τ} (h : p b = (none, r)) : drain p b = ([], b) := by
  rw [drain]
  cases b with
  | nil => rfl
  | cons x b => rw [length_cons, drainFuel, h]

section

variable (hp : Takes 1 p)
include hp

theorem drain_of_some {b r : List τ} {e : ε} (h : p b = (some e, r)) :
    drain p b = (e :: (drain p r).1, (drain p r).2) := by
  have hlen := hp.length_le h
  rw [← drainFuel_eq hp (Nat.le_succ b.length), drainFuel, h]
  simp only
  rw [drainFuel_eq hp (by omega)]

/-- The rule for proofs about `drain`: by the frames read. -/
theorem drain_induct {P : List τ → Prop} (hstop : ∀ b r, p b = (none, r) → P b)
    (hframe : ∀ b r e, p b = (some e, r) → P r → P b) (b : List τ) : P b := by
  induction hn : b.length using Nat.strong_induction_on generalizing b with
  | _ n ih =>
    rcases h : p b with ⟨_ | e, r⟩
    · exact hstop b r h
    · have hlen := hp.length_le h
      exact hframe b r e h (ih r.length (by omega) r rfl)

theorem drain_left (b : List τ) :
    drain p (drain p b).2 = ([], (drain p b).2) := by
  induction b using drain_induct hp with
  | hstop b r h =>
    rw [drain_of_none h]
    exact drain_of_none h
  | hframe b r e h ih =>
    rw [drain_of_some hp h]
    exact ih

theorem of_mem_drain {b : List τ} {e : ε} (he : e ∈ (drain p b).1) :
    ∃ b' r, p b' = (some e, r) := by
  induction b using drain_induct hp with
  | hstop b r h =>
    rw [drain_of_none h] at he
    cases he
  | hframe b r x h ih =>
    rw [drain_of_some hp h] at he
    rcases mem_cons.mp he with rfl | he
    · exact ⟨b, r, h⟩
    · exact ih he

theorem drain_append (hs : Stable p) (b s : List τ) :
    drain p (b ++ s) = ((drain p b).1 ++ (drain p ((drain p b).2 ++ s)).1,
      (drain p ((drain p b).2 ++ s)).2) := by
  induction b using drain_induct hp with
  | hstop b r h => rw [drain_of_none h, nil_append]
  | hframe b r e h ih =>
    rw [drain_of_some hp (hs b s e r h), drain_of_some hp h, ih]
    rfl

theorem feed_eq_drain (hs : Stable p) : ∀ {cs : List (List τ)} {u : List τ},
    drain p u = ([], u) → feed p u cs = drain p (u ++ cs.flatten) := by
  intro cs
  induction cs with
  | nil =>
    intro u hu
    rw [flatten_nil, append_nil, hu]
    rfl
  | cons c cs ih =>
    intro u hu
    rw [feed, ih (drain_left hp _), flatten_cons, ← append_assoc,
      drain_append hp hs (u ++ c)]

end

end Parser
