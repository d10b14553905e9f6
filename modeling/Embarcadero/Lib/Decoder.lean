import Mathlib

namespace Decoder

variable {σ α β : Type*}

structure Lawful (next : σ → List α → Option (σ × List β × Nat)) : Prop where
  consumes : ∀ {s xs s' out n}, next s xs = some (s', out, n) → 0 < n ∧ n ≤ xs.length
  stable : ∀ {s xs r}, next s xs = some r → ∀ ys, next s (xs ++ ys) = some r

section

variable (next : σ → List α → Option (σ × List β × Nat))

def drain : Nat → σ → List α → σ × List β × List α
  | 0, s, xs => (s, [], xs)
  | fuel + 1, s, xs =>
    match next s xs with
    | none => (s, [], xs)
    | some (s', out, n) =>
      let r := drain fuel s' (xs.drop n)
      (r.1, out ++ r.2.1, r.2.2)

def decode (s : σ) (xs : List α) : σ × List β × List α := drain next xs.length s xs

def feed (st : σ × List α) (xs : List α) : (σ × List α) × List β :=
  let r := decode next st.1 (st.2 ++ xs)
  ((r.1, r.2.2), r.2.1)

end

variable {next : σ → List α → Option (σ × List β × Nat)} {s s' : σ} {xs ys : List α} {out : List β}
  {n : Nat}

theorem drain_of_le (h : Lawful next) : ∀ (fuel fuel' : Nat) {s : σ} {xs : List α},
    xs.length ≤ fuel → xs.length ≤ fuel' → drain next fuel s xs = drain next fuel' s xs := by
  intro fuel
  induction fuel with
  | zero =>
    intro fuel' s xs hle _
    have hnone : next s xs = none := by
      cases hn : next s xs with
      | none => rfl
      | some r =>
        obtain ⟨s', out, n⟩ := r
        have := h.consumes hn
        omega
    cases fuel' with
    | zero => rfl
    | succ fuel' => rw [drain, drain, hnone]
  | succ fuel ih =>
    intro fuel' s xs hle hle'
    cases hn : next s xs with
    | none =>
      rw [drain, hn]
      cases fuel' with
      | zero => rfl
      | succ fuel' => rw [drain, hn]
    | some r =>
      obtain ⟨s', out, n⟩ := r
      have hpos := h.consumes hn
      cases fuel' with
      | zero => omega
      | succ fuel' =>
        have hlen := List.length_drop (i := n) (l := xs)
        rw [drain, drain, hn]
        dsimp only
        rw [ih fuel' (by omega) (by omega)]

theorem decode_of_none (h : next s xs = none) : decode next s xs = (s, [], xs) := by
  rw [decode]
  cases xs.length with
  | zero => rfl
  | succ fuel => rw [drain, h]

theorem decode_of_some (h : Lawful next) (hn : next s xs = some (s', out, n)) :
    decode next s xs = ((decode next s' (xs.drop n)).1, out ++ (decode next s' (xs.drop n)).2.1,
      (decode next s' (xs.drop n)).2.2) := by
  have hpos := h.consumes hn
  have hlen := List.length_drop (i := n) (l := xs)
  obtain ⟨fuel, hfuel⟩ : ∃ fuel, xs.length = fuel + 1 := ⟨xs.length - 1, by omega⟩
  rw [decode, hfuel, drain, hn]
  dsimp only
  rw [drain_of_le h _ (xs.drop n).length (by omega) (Nat.le_refl _)]
  rfl

theorem decode_induction (h : Lawful next) {motive : σ → List α → Prop}
    (hnone : ∀ s xs, next s xs = none → motive s xs)
    (hsome : ∀ s xs s' out n, next s xs = some (s', out, n) → motive s' (xs.drop n) → motive s xs)
    (s : σ) (xs : List α) : motive s xs := by
  generalize hlen : xs.length = len
  induction len using Nat.strongRecOn generalizing s xs with
  | ind len ih =>
    cases hn : next s xs with
    | none => exact hnone s xs hn
    | some r =>
      obtain ⟨s', out, n⟩ := r
      have hpos := h.consumes hn
      have hdrop := List.length_drop (i := n) (l := xs)
      exact hsome s xs s' out n hn (ih _ (by omega) s' (xs.drop n) rfl)

theorem next_decode (h : Lawful next) (s : σ) (xs : List α) :
    next (decode next s xs).1 (decode next s xs).2.2 = none := by
  induction s, xs using decode_induction h with
  | hnone s xs hn => rwa [decode_of_none hn]
  | hsome s xs s' out n hn ih => rwa [decode_of_some h hn]

theorem suffix_decode (h : Lawful next) (s : σ) (xs : List α) : (decode next s xs).2.2 <:+ xs := by
  induction s, xs using decode_induction h with
  | hnone s xs hn => exact ⟨[], congrArg (·.2.2) (decode_of_none hn)⟩
  | hsome s xs s' out n hn ih =>
    rw [decode_of_some h hn]
    exact ih.trans (List.drop_suffix n xs)

theorem decode_append (h : Lawful next) (s : σ) (xs ys : List α) :
    decode next s (xs ++ ys) =
      ((decode next (decode next s xs).1 ((decode next s xs).2.2 ++ ys)).1,
        (decode next s xs).2.1 ++ (decode next (decode next s xs).1 ((decode next s xs).2.2 ++ ys)).2.1,
        (decode next (decode next s xs).1 ((decode next s xs).2.2 ++ ys)).2.2) := by
  induction s, xs using decode_induction h with
  | hnone s xs hn =>
    rw [decode_of_none hn]
    rfl
  | hsome s xs s' out n hn ih =>
    rw [decode_of_some h (h.stable hn ys), decode_of_some h hn, List.drop_append_of_le_length (h.consumes hn).2, ih]
    dsimp only
    rw [List.append_assoc]

end Decoder
