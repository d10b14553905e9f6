import Embarcadero.Lib.Assoc

namespace Contiguous

open List

variable {β : Type*}

def emplace (k : Nat) (b : β) (l : List (Nat × β)) : Option (List (Nat × β)) :=
  if (l.lookup k).isSome then none else some (l ++ [(k, b)])

def erase (k : Nat) (l : List (Nat × β)) : List (Nat × β) := l.filter (·.1 ≠ k)

variable (len : β → Nat) (ok : Nat → β → Bool)

def drain : Nat → Nat → List (Nat × β) → Nat × List (Nat × β) × List (Nat × β)
  | 0, next, pending => (next, pending, [])
  | fuel + 1, next, pending =>
    match pending.lookup next with
    | none => (next, pending, [])
    | some b =>
      if ok next b then
        let r := drain fuel (next + len b) (erase next pending)
        (r.1, r.2.1, (next, b) :: r.2.2)
      else (next, pending, [])

inductive Chain (seen : Nat → Option β) : Nat → List (Nat × β) → Nat → Prop
  | nil (n : Nat) : Chain seen n [] n
  | cons {n m : Nat} {b : β} {l : List (Nat × β)} :
      seen n = some b → Chain seen (n + len b) l m → Chain seen n ((n, b) :: l) m

variable {len ok} {seen seen' : Nat → Option β} {n m m' k : Nat} {b : β} {l l' pending : List (Nat × β)}

section Map

theorem lookup_erase (h : m ≠ k) (l : List (Nat × β)) : (erase k l).lookup m = l.lookup m := by
  induction l with
  | nil => rfl
  | cons e l ih =>
    rw [erase, filter_cons, lookup_cons]
    by_cases he : e.1 = k
    · have hne : (m == e.1) = false := beq_eq_false_iff_ne.mpr fun heq => h (heq.trans he)
      rw [if_neg (by simpa using he), hne]
      exact ih
    · rw [if_pos (by simpa using he), lookup_cons, ← ih]
      rfl

theorem lookup_erase_self (k : Nat) (l : List (Nat × β)) : (erase k l).lookup k = none := by
  apply Assoc.lookup_eq_none
  intro hk
  obtain ⟨e, he, heq⟩ := mem_map.mp hk
  simp [erase, heq] at he

theorem lookup_emplace (h : emplace k b l = some l') (m : Nat) :
    l'.lookup m = if m = k then some b else l.lookup m := by
  rw [emplace] at h
  split at h
  · cases h
  next hk =>
    cases h
    rw [lookup_append]
    split
    next heq => rw [heq, Option.not_isSome_iff_eq_none.mp hk, Option.none_or, lookup_cons, beq_self_eq_true]
    next hne =>
      rw [lookup_cons, beq_eq_false_iff_ne.mpr hne]
      exact Option.or_none

theorem lookup_concat (l : List (Nat × β)) (k : Nat) (b : β) (j : Nat) :
    (l ++ [(k, b)]).lookup j = (l.lookup j).or (if j = k then some b else none) := by
  rw [lookup_append, lookup_cons]
  congr 1
  split <;> simp_all

theorem lookup_concat_of_isSome (h : (l.lookup k).isSome) (b : β) :
    (fun j => (l ++ [(k, b)]).lookup j) = fun j => l.lookup j := by
  funext j
  rw [lookup_concat]
  split
  next hj =>
    rw [hj]
    exact Option.or_of_isSome h
  · exact Option.or_none

theorem lookup_concat_of_none (h : l.lookup k = none) (b : β) :
    (fun j => (l ++ [(k, b)]).lookup j) = Function.update (fun j => l.lookup j) k (some b) := by
  funext j
  rw [lookup_concat, Function.update_apply]
  split
  next hj =>
    rw [hj, h]
    rfl
  · exact Option.or_none

theorem lookup_of_emplace (h : emplace k b l = some l') : l.lookup k = none := by
  rw [emplace] at h
  split at h
  · cases h
  · exact Option.not_isSome_iff_eq_none.mp ‹_›

theorem length_erase_lt (h : l.lookup k = some b) : (erase k l).length < l.length := by
  refine length_filter_lt_length_iff_exists.mpr ⟨(k, b), Assoc.mem_of_lookup h, ?_⟩
  simp

end Map

namespace Chain

theorem le (h : Chain len seen n l m) : n ≤ m := by
  induction h with
  | nil => exact Nat.le_refl _
  | cons _ _ ih => exact Nat.le_of_add_right_le ih

theorem total (h : Chain len seen n l m) : m = n + (l.map fun p => len p.2).sum := by
  induction h with
  | nil => rfl
  | cons _ _ ih =>
    rw [map_cons, sum_cons, ih]
    exact Nat.add_assoc ..

theorem append (h : Chain len seen n l m) (h' : Chain len seen m l' m') : Chain len seen n (l ++ l') m' := by
  induction h with
  | nil => exact h'
  | cons hb _ ih => exact .cons hb (ih h')

theorem from_start (h : Chain len seen n l m) (hsub : ∀ k b, n ≤ k → seen k = some b → seen' k = some b) :
    Chain len seen' n l m := by
  induction h with
  | nil => exact .nil _
  | cons hb _ ih =>
    exact .cons (hsub _ _ (Nat.le_refl _) hb) (ih fun k b hk => hsub k b (Nat.le_of_add_right_le hk))

theorem longest (ok : Nat → β → Bool) (h : Chain len seen n l m) (hstop : ∀ b, seen m = some b → ok m b = false)
    (h' : Chain len seen n l' m') (hok : ∀ p ∈ l', ok p.1 p.2 = true) : l' <+: l ∧ m' ≤ m := by
  induction h generalizing l' with
  | nil =>
    cases h' with
    | nil => exact ⟨prefix_rfl, Nat.le_refl _⟩
    | cons hb _ => exact absurd (hok _ mem_cons_self) (by simp [hstop _ hb])
  | cons hb hrest ih =>
    cases h' with
    | nil => exact ⟨ nil_prefix, le (.cons hb hrest)⟩
    | cons hb' hrest' =>
      cases hb.symm.trans hb'
      obtain ⟨hpre, hle⟩ := ih hstop hrest' fun p hp => hok p (mem_cons_of_mem _ hp)
      exact ⟨cons_prefix_cons.mpr ⟨rfl, hpre⟩, hle⟩

theorem seen_of_mem (h : Chain len seen n l m) {p : Nat × β} (hp : p ∈ l) : seen p.1 = some p.2 := by
  induction h with
  | nil => cases hp
  | cons hb _ ih =>
    cases hp with
    | head => exact hb
    | tail _ hp => exact ih hp

theorem le_of_mem (h : Chain len seen n l m) {p : Nat × β} (hp : p ∈ l) : n ≤ p.1 := by
  induction h with
  | nil => cases hp
  | cons _ _ ih =>
    cases hp with
    | head => exact Nat.le_refl _
    | tail _ hp => exact Nat.le_of_add_right_le (ih hp)

theorem nodup (h : Chain len seen n l m) (hpos : ∀ p ∈ l, 0 < len p.2) : (l.map Prod.fst).Nodup := by
  induction h with
  | nil => exact nodup_nil
  | @cons n m b l _ hrest ih =>
    rw [map_cons, nodup_cons]
    refine ⟨fun hmem => ?_, ih fun p hp => hpos p (mem_cons_of_mem _ hp)⟩
    obtain ⟨p, hp, heq⟩ := mem_map.mp hmem
    have hle := hrest.le_of_mem hp
    have hb := hpos _ mem_cons_self
    dsimp only at hb heq
    omega

theorem positions (h : Chain (fun _ : β => 1) seen n l m) : l.map Prod.fst = List.range' n (m - n) := by
  induction h with
  | nil => simp
  | @cons n m b l _ hrest ih =>
    have hle := hrest.le
    have hsub : m - n = (m - (n + 1)) + 1 := by omega
    rw [map_cons, ih, hsub, List.range'_succ]

end Chain

structure Drained (len : β → Nat) (ok : Nat → β → Bool) (pending : List (Nat × β)) (next next' : Nat)
    (rest out : List (Nat × β)) : Prop where
  chain : Chain len (fun k => pending.lookup k) next out next'
  passed : ∀ p ∈ out, ok p.1 p.2 = true
  stop : ∀ b, pending.lookup next' = some b → ok next' b = false
  ahead : ∀ k, next' ≤ k → rest.lookup k = pending.lookup k
  kept : rest ⊆ pending

theorem drained_drain (ok : Nat → β → Bool) (fuel : Nat) : ∀ (next : Nat) (pending : List (Nat × β)),
    (∀ p ∈ pending, 0 < len p.2) → pending.length ≤ fuel →
      Drained len ok pending next (drain len ok fuel next pending).1 (drain len ok fuel next pending).2.1
        (drain len ok fuel next pending).2.2 := by
  induction fuel with
  | zero =>
    intro next pending _ hfuel
    cases eq_nil_of_length_eq_zero (Nat.le_zero.mp hfuel)
    exact ⟨.nil _, nofun, nofun, fun _ _ => rfl, List.Subset.refl _⟩
  | succ fuel ih =>
    intro next pending hpos hfuel
    rw [drain.eq_def]
    dsimp only
    cases hb : pending.lookup next with
    | none => exact ⟨.nil _, nofun, fun b h => absurd (hb.symm.trans h) nofun, fun _ _ => rfl, List.Subset.refl _⟩
    | some b =>
      dsimp only
      split
      next hok =>
        have hlen := hpos _ (Assoc.mem_of_lookup hb)
        have hrec := ih (next + len b) (erase next pending)
          (fun p hp => hpos p (mem_filter.mp hp).1) (by have := length_erase_lt hb; omega)
        have hle := hrec.chain.le
        dsimp only at hlen hle ⊢
        have hsame : ∀ k, next < k → (erase next pending).lookup k = pending.lookup k := fun k hk =>
          lookup_erase (Nat.ne_of_gt hk) pending
        refine ⟨.cons hb (hrec.chain.from_start fun k b _ hk => ?_), fun p hp => ?_, fun b h => ?_, fun k hk => ?_,
          fun p hp => (mem_filter.mp (hrec.kept hp)).1⟩
        · by_cases heq : k = next
          · rw [heq, lookup_erase_self] at hk
            cases hk
          · exact (lookup_erase heq pending).symm.trans hk
        · cases hp with
          | head => exact hok
          | tail _ hp => exact hrec.passed p hp
        · exact hrec.stop b ((hsame _ (by omega)).trans h)
        · exact (hrec.ahead k hk).trans (hsame k (by omega))
      next hok =>
        exact ⟨.nil _, nofun, fun b' h => by cases hb.symm.trans h; exact Bool.eq_false_iff.mpr hok,
          fun _ _ => rfl, List.Subset.refl _⟩

structure Tracks (len : β → Nat) (seen : Nat → Option β) (next : Nat) (pending out : List (Nat × β)) : Prop where
  chain : Chain len seen 0 out next
  ahead : ∀ k, next ≤ k → pending.lookup k = seen k

namespace Tracks

variable {next : Nat} {out pending' : List (Nat × β)}

theorem nil (len : β → Nat) : Tracks len (fun _ => none) 0 [] [] := ⟨.nil 0, fun _ _ => rfl⟩

theorem emplace (h : Tracks len seen next pending out) (hk : next ≤ k)
    (he : Contiguous.emplace k b pending = some pending') :
    Tracks len (Function.update seen k (some b)) next pending' out := by
  have hnone : seen k = none := (h.ahead k hk).symm.trans (lookup_of_emplace he)
  refine ⟨h.chain.from_start fun j b' _ hj => ?_, fun j hj => ?_⟩
  · rw [Function.update_of_ne]
    · exact hj
    · rintro rfl
      cases hnone.symm.trans hj
  · rw [lookup_emplace he, Function.update_apply, h.ahead j hj]

theorem stale (h : Tracks len seen next pending out) (hk : k < next)
    (he : Contiguous.emplace k b pending = some pending') : Tracks len seen next pending' out :=
  ⟨h.chain, fun j hj => by rw [lookup_emplace he, if_neg (by omega)]; exact h.ahead j hj⟩

theorem record {log : List (Nat × β)} (h : Tracks len (fun j => log.lookup j) next pending out) (hk : next ≤ k)
    (he : Contiguous.emplace k b pending = some pending') :
    Tracks len (fun j => (log ++ [(k, b)]).lookup j) next pending' out := by
  rw [lookup_concat_of_none ((h.ahead k hk).symm.trans (lookup_of_emplace he))]
  exact h.emplace hk he

theorem isSome_of_lt (h : Tracks (fun _ => 1) seen next pending out) (hk : k < next) : (seen k).isSome := by
  have hpositions := h.chain.positions
  rw [Nat.sub_zero, ← range_eq_range'] at hpositions
  obtain ⟨p, hp, rfl⟩ := mem_map.mp (hpositions ▸ mem_range.mpr hk)
  rw [h.chain.seen_of_mem hp]
  rfl

theorem take (h : Tracks len seen next pending out) (hb : pending.lookup next = some b) (hpos : 0 < len b) :
    Tracks len seen (next + len b) (erase next pending) (out ++ [(next, b)]) := by
  refine ⟨h.chain.append (.cons ((h.ahead next (Nat.le_refl _)).symm.trans hb) (.nil _)), fun k hk => ?_⟩
  rw [lookup_erase (by omega)]
  exact h.ahead k (Nat.le_of_add_right_le hk)

theorem drain (ok : Nat → β → Bool) (h : Tracks len seen next pending out) (hpos : ∀ p ∈ pending, 0 < len p.2) :
    let r := Contiguous.drain len ok pending.length next pending
    Tracks len seen r.1 r.2.1 (out ++ r.2.2) ∧ (∀ b, seen r.1 = some b → ok r.1 b = false) ∧
      (∀ p ∈ r.2.2, ok p.1 p.2 = true) ∧ r.2.1 ⊆ pending := by
  have hd := drained_drain ok pending.length next pending hpos (Nat.le_refl _)
  have hle := hd.chain.le
  refine ⟨⟨h.chain.append ?_, fun k hk => ?_⟩, fun b hb => ?_, hd.passed, hd.kept⟩
  · exact hd.chain.from_start fun k b hk hb => (h.ahead k hk).symm.trans hb
  · exact (hd.ahead k hk).trans (h.ahead k (hle.trans hk))
  · exact hd.stop b ((h.ahead _ hle).trans hb)

end Tracks

end Contiguous
