import Mathlib

namespace Journal

open List

variable {α β : Type*} {encode : α → List β} {P : α → Prop} {as xs : List α} {a : α} {torn : List β} {n k : Nat}

def image (encode : α → List β) (as : List α) : List β := as.flatMap encode

@[simp] theorem image_nil : image encode [] = [] := rfl

@[simp] theorem image_cons : image encode (a :: as) = encode a ++ image encode as := flatMap_cons

@[simp] theorem image_append : image encode (as ++ xs) = image encode as ++ image encode xs := flatMap_append

theorem length_image_take_le {j : Nat} (h : k ≤ j) :
    (image encode (as.take k)).length ≤ (image encode (as.take j)).length := by
  have hsplit : as.take j = as.take k ++ (as.take j).drop k := by
    conv => lhs; rw [← take_append_drop k (as.take j), take_take, Nat.min_eq_left h]
  rw [hsplit, image_append, length_append]
  exact Nat.le_add_right _ _

theorem min_length_image_take (k j : Nat) :
    min (image encode (as.take k)).length (image encode (as.take j)).length =
      (image encode (as.take (min k j))).length := by
  cases Nat.le_total k j with
  | inl h => rw [Nat.min_eq_left h, Nat.min_eq_left (length_image_take_le h)]
  | inr h => rw [Nat.min_eq_right h, Nat.min_eq_right (length_image_take_le h)]

def Torn (encode : α → List β) (P : α → Prop) (torn : List β) : Prop :=
  torn = [] ∨ ∃ a, P a ∧ torn <+: encode a ∧ torn ≠ encode a

theorem Torn.take (h : Torn encode P torn) (n : Nat) : Torn encode P (torn.take n) := by
  cases h with
  | inl hnil => exact .inl (by rw [hnil, take_nil])
  | inr h =>
    obtain ⟨a, ha, hpre, hne⟩ := h
    refine .inr ⟨a, ha, ( take_prefix n torn).trans hpre, fun heq => hne ?_⟩
    exact hpre.eq_of_length_le (heq ▸ length_take_le' n torn)

theorem torn_take (ha : P a) (hn : n < (encode a).length) : Torn encode P ((encode a).take n) := by
  refine .inr ⟨a, ha, take_prefix n _, fun heq => ?_⟩
  have := congrArg List.length heq
  rw [length_take] at this
  omega

def whole (encode : α → List β) : List α → Nat → Nat
  | [], _ => 0
  | a :: as, n => if (encode a).length ≤ n then whole encode as (n - (encode a).length) + 1 else 0

theorem take_image (hP : ∀ a ∈ as, P a) (htorn : Torn encode P torn) (n : Nat) :
    ∃ torn', (image encode as ++ torn).take n = image encode (as.take (whole encode as n)) ++ torn' ∧
      Torn encode P torn' := by
  induction as generalizing n with
  | nil => exact ⟨_, rfl, htorn.take n⟩
  | cons a as ih =>
    rw [whole, image_cons, append_assoc, take_append]
    split
    next hle =>
      obtain ⟨torn', heq, htorn'⟩ := ih (fun b hb => hP b (mem_cons_of_mem _ hb)) (n - (encode a).length)
      refine ⟨torn', ?_, htorn'⟩
      rw [heq, take_of_length_le hle, take_succ_cons, image_cons, append_assoc]
    next hlt =>
      refine ⟨_, ?_, torn_take (hP a mem_cons_self) (Nat.lt_of_not_le hlt)⟩
      rw [Nat.sub_eq_zero_of_le (Nat.le_of_not_le hlt), take_zero, append_nil, take_zero, image_nil, nil_append]

theorem le_whole (hk : k ≤ as.length) (hn : (image encode (as.take k)).length ≤ n) : k ≤ whole encode as n := by
  induction as generalizing k n with
  | nil => exact Nat.le_trans hk (Nat.zero_le _)
  | cons a as ih =>
    cases k with
    | zero => exact Nat.zero_le _
    | succ k =>
      rw [take_succ_cons, image_cons, length_append] at hn
      rw [whole, if_pos (by omega)]
      exact Nat.succ_le_succ (ih (Nat.le_of_succ_le_succ hk) (by omega))

section Fill

variable {κ γ : Type*} [DecidableEq κ] {key : α → κ} {val : α → γ} {m : κ → Option γ} {q : κ} {v : γ}

def fill (key : α → κ) (val : α → γ) (m : κ → Option γ) (as : List α) : κ → Option γ :=
  as.foldl (fun m a => Function.update m (key a) (some (val a))) m

theorem fill_cons : fill key val m (a :: as) = fill key val (Function.update m (key a) (some (val a))) as := rfl

theorem fill_append : fill key val m (as ++ xs) = fill key val (fill key val m as) xs := foldl_append

theorem fill_of_not_mem (h : ∀ a ∈ as, key a ≠ q) : fill key val m as q = m q := by
  induction as generalizing m with
  | nil => rfl
  | cons a as ih =>
    rw [forall_mem_cons] at h
    exact (ih h.2).trans (Function.update_of_ne (Ne.symm h.1) _ _)

theorem fill_last (h : ∀ x ∈ xs, key x ≠ key a) : fill key val m (as ++ a :: xs) (key a) = some (val a) := by
  rw [fill_append]
  exact (fill_of_not_mem h).trans (Function.update_self ..)

theorem exists_last (h : fill key val (fun _ => none) as q = some v) :
    ∃ pre a post, as = pre ++ a :: post ∧ key a = q ∧ val a = v ∧ ∀ x ∈ post, key x ≠ q := by
  induction as using List.reverseRecOn with
  | nil => cases h
  | append_singleton as a ih =>
    rw [fill_append, fill, foldl_cons, foldl_nil] at h
    by_cases hq : key a = q
    · cases hq
      rw [Function.update_self] at h
      cases h
      exact ⟨as, a, [], rfl, rfl, rfl, nofun⟩
    · rw [Function.update_of_ne (Ne.symm hq)] at h
      obtain ⟨pre, b, post, rfl, hb, hv, hpost⟩ := ih h
      refine ⟨pre, b, post ++ [a], by simp, hb, hv, fun x hx => ?_⟩
      cases mem_append.mp hx with
      | inl hx => exact hpost x hx
      | inr hx =>
        cases mem_singleton.mp hx
        exact hq

theorem fill_of_mem (hn : (as.map key).Nodup) (h : a ∈ as) : fill key val m as (key a) = some (val a) := by
  obtain ⟨pre, post, rfl⟩ := append_of_mem h
  rw [map_append, map_cons] at hn
  refine fill_last fun x hx heq => ?_
  exact (nodup_cons.mp (nodup_append.mp hn).2.1).1 (heq ▸ mem_map_of_mem hx)

theorem fill_eq_some_iff (hn : (as.map key).Nodup) :
    fill key val (fun _ => none) as q = some v ↔ ∃ a ∈ as, key a = q ∧ val a = v := by
  constructor
  · intro h
    obtain ⟨pre, a, post, rfl, hq, hv, -⟩ := exists_last h
    exact ⟨a, mem_append_right _ mem_cons_self, hq, hv⟩
  · rintro ⟨a, ha, rfl, rfl⟩
    exact fill_of_mem hn ha

end Fill

structure Framed (encode : α → List β) (P : α → Prop) : Prop where
  nonempty : ∀ {a}, P a → encode a ≠ []
  split : ∀ {a b r r'}, P a → P b → encode a ++ r = encode b ++ r' → a = b ∧ r = r'

theorem Framed.not_torn (h : Framed encode P) (ha : P a) {r : List β} (heq : encode a ++ r = torn) :
    ¬ Torn encode P torn := by
  rintro (hnil | ⟨b, hb, ⟨s, hs⟩, hne⟩)
  · exact h.nonempty ha (append_eq_nil_iff.mp (heq.trans hnil)).1
  · rw [← heq, append_assoc] at hs
    obtain ⟨rfl, hrest⟩ := h.split ha hb (hs.trans (append_nil _).symm)
    rw [(append_eq_nil_iff.mp hrest).1, append_nil] at heq
    exact hne heq.symm

theorem Framed.prefix_of_image (h : Framed encode P) (hxs : ∀ x ∈ xs, P x) (has : ∀ a ∈ as, P a)
    (htorn : Torn encode P torn) (hpre : image encode xs <+: image encode as ++ torn) : xs <+: as := by
  induction xs generalizing as with
  | nil => exact nil_prefix
  | cons x xs ih =>
    obtain ⟨r, hr⟩ := hpre
    rw [image_cons, append_assoc] at hr
    cases as with
    | nil => exact absurd htorn (h.not_torn (hxs x mem_cons_self) hr)
    | cons a as =>
      rw [image_cons, append_assoc] at hr
      obtain ⟨rfl, hrest⟩ := h.split (hxs x mem_cons_self) (has a mem_cons_self) hr
      refine (prefix_cons_inj x).mpr (ih ?_ ?_ ⟨r, hrest⟩)
      · exact fun y hy => hxs y (mem_cons_of_mem _ hy)
      · exact fun y hy => has y (mem_cons_of_mem _ hy)

end Journal
