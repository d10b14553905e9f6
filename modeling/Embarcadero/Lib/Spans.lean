import Mathlib

structure Span (α : Type*) where
  lo : Nat
  hi : Nat
  weight : α
  deriving DecidableEq

namespace Span

open List

variable {α : Type*} {r s m : Span α} {l before gone after : List (Span α)} {x : Nat}

def Has (s : Span α) (x : Nat) : Prop := s.lo ≤ x ∧ x < s.hi

def Inside (c s : Span α) : Prop := s.lo ≤ c.lo ∧ c.hi ≤ s.hi

instance (c s : Span α) : Decidable (c.Inside s) := inferInstanceAs (Decidable (_ ∧ _))

def Covers (l : List (Span α)) (x : Nat) : Prop := ∃ s ∈ l, s.Has x

structure Separated (l : List (Span α)) : Prop where
  pairwise : l.Pairwise fun a b => a.hi < b.lo
  proper : ∀ s ∈ l, s.lo < s.hi

theorem covers_cons : Covers (s :: l) x ↔ s.Has x ∨ Covers l x := by
  simp [Covers]

theorem covers_append : Covers (before ++ after) x ↔ Covers before x ∨ Covers after x := by
  simp [Covers, or_and_right, exists_or]

namespace Separated

theorem nil : Separated ([] : List (Span α)) := ⟨.nil, nofun⟩

theorem append_iff : Separated (before ++ after) ↔
    Separated before ∧ Separated after ∧ ∀ a ∈ before, ∀ b ∈ after, a.hi < b.lo := by
  constructor
  · intro h
    obtain ⟨hb, ha, hba⟩ := pairwise_append.mp h.pairwise
    exact ⟨⟨hb, fun s hs => h.proper s (mem_append_left _ hs)⟩,
      ⟨ha, fun s hs => h.proper s (mem_append_right _ hs)⟩, hba⟩
  · rintro ⟨hb, ha, hba⟩
    refine ⟨pairwise_append.mpr ⟨hb.pairwise, ha.pairwise, hba⟩, fun s hs => ?_⟩
    exact (mem_append.mp hs).elim (hb.proper s) (ha.proper s)

theorem cons_iff : Separated (s :: l) ↔ s.lo < s.hi ∧ (∀ b ∈ l, s.hi < b.lo) ∧ Separated l := by
  constructor
  · intro h
    obtain ⟨hs, hl⟩ := pairwise_cons.mp h.pairwise
    exact ⟨h.proper s mem_cons_self, hs, hl, fun b hb => h.proper b (mem_cons_of_mem _ hb)⟩
  · rintro ⟨hproper, hs, hl⟩
    exact ⟨pairwise_cons.mpr ⟨hs, hl.pairwise⟩, forall_mem_cons.mpr ⟨hproper, hl.proper⟩⟩

theorem disjoint (h : Separated l) : l.Pairwise fun a b => ∀ x, ¬(a.Has x ∧ b.Has x) :=
  h.pairwise.imp fun hab _ hx => absurd (hx.2.1.trans_lt hx.1.2) (Nat.not_lt.mpr hab.le)

end Separated

section Merge

variable [AddCommMonoid α]

def absorb (r : Span α) : List (Span α) → Span α × List (Span α)
  | [] => (r, [])
  | s :: l => if s.lo ≤ r.hi then absorb ⟨r.lo, max r.hi s.hi, r.weight + s.weight⟩ l else (r, s :: l)

def join (r : Span α) (before : List (Span α)) : List (Span α) × Span α :=
  match before.getLast? with
  | some prev =>
    if r.lo ≤ prev.hi then (before.dropLast, ⟨prev.lo, max r.hi prev.hi, r.weight + prev.weight⟩) else (before, r)
  | none => (before, r)

def record (below : Nat → Bool) (r : Span α) (l : List (Span α)) : List (Span α) :=
  let j := join r (l.takeWhile (below ·.lo))
  let a := absorb j.2 (l.dropWhile (below ·.lo))
  j.1 ++ a.1 :: a.2

structure Merged (r : Span α) (gone : List (Span α)) (m : Span α) : Prop where
  lo : m.lo ≤ r.lo
  hi : r.hi ≤ m.hi
  inside : ∀ s ∈ gone, m.lo ≤ s.lo ∧ s.hi ≤ m.hi
  has : ∀ x, m.Has x → r.Has x ∨ Covers gone x
  weight : m.weight = r.weight + (gone.map (·.weight)).sum

theorem Merged.refl (r : Span α) : Merged r [] r :=
  ⟨le_rfl, le_rfl, nofun, fun _ => .inl, (add_zero _).symm⟩

theorem Merged.has_iff (h : Merged r gone m) : m.Has x ↔ r.Has x ∨ Covers gone x := by
  refine ⟨h.has x, ?_⟩
  rintro (hr | ⟨s, hs, hx⟩)
  · exact ⟨h.lo.trans hr.1, hr.2.trans_le h.hi⟩
  · exact ⟨(h.inside s hs).1.trans hx.1, hx.2.trans_le (h.inside s hs).2⟩

theorem Merged.trans {r' : Span α} {gone' : List (Span α)} (h : Merged r gone r') (h' : Merged r' gone' m) :
    Merged r (gone ++ gone') m where
  lo := h'.lo.trans h.lo
  hi := h.hi.trans h'.hi
  inside s hs := by
    cases mem_append.mp hs with
    | inl hs => exact ⟨h'.lo.trans (h.inside s hs).1, (h.inside s hs).2.trans h'.hi⟩
    | inr hs => exact h'.inside s hs
  has x hx := by
    rw [covers_append, ← or_assoc]
    exact (h'.has x hx).imp_left (h.has x)
  weight := by rw [h'.weight, h.weight, map_append, sum_append, add_assoc]

theorem absorb_spec : ∀ {l : List (Span α)} {r : Span α}, Separated l → (∀ s ∈ l, r.lo ≤ s.lo) →
    ∃ gone, l = gone ++ (absorb r l).2 ∧ Merged r gone (absorb r l).1 ∧ (absorb r l).1.lo = r.lo ∧
      ∀ s ∈ (absorb r l).2, (absorb r l).1.hi < s.lo := by
  intro l
  induction l with
  | nil => exact fun _ _ => ⟨[], rfl, .refl _, rfl, nofun⟩
  | cons s l ih =>
    intro r hsep hle
    obtain ⟨hproper, hs, hl⟩ := Separated.cons_iff.mp hsep
    have hrs := hle s mem_cons_self
    rw [absorb]
    split
    next htouch =>
      have hone : Merged r [s] ⟨r.lo, max r.hi s.hi, r.weight + s.weight⟩ := by
        refine ⟨le_rfl, le_max_left _ _, fun b hb => ?_, fun x hx => ?_, by simp⟩
        · rw [mem_singleton.mp hb]
          exact ⟨hrs, le_max_right _ _⟩
        · by_cases hr : x < r.hi
          · exact .inl ⟨hx.1, hr⟩
          · have hx2 : x < max r.hi s.hi := hx.2
            exact .inr ⟨s, mem_singleton.mpr rfl, by omega, by omega⟩
      obtain ⟨gone, heq, hmerged, hlo, hrest⟩ :=
        ih (r := ⟨r.lo, max r.hi s.hi, r.weight + s.weight⟩) hl fun b hb => hle b (mem_cons_of_mem _ hb)
      exact ⟨s :: gone, congrArg (s :: ·) heq, hone.trans hmerged, hlo, hrest⟩
    next hapart =>
      have hlt : r.hi < s.lo := Nat.lt_of_not_le hapart
      refine ⟨[], rfl, .refl _, rfl, forall_mem_cons.mpr ⟨hlt, fun b hb => ?_⟩⟩
      exact hlt.trans (hproper.trans (hs b hb))

theorem join_spec (hr : r.lo < r.hi) (hsep : Separated before) (hle : ∀ s ∈ before, s.lo ≤ r.lo) :
    ∃ gone, before = (join r before).1 ++ gone ∧ Merged r gone (join r before).2 ∧
      (join r before).2.lo < (join r before).2.hi ∧
      ∀ s ∈ (join r before).1, s.hi < (join r before).2.lo := by
  rw [join]
  split
  next prev hlast =>
    obtain ⟨init, rfl⟩ := List.getLast?_eq_some_iff.mp hlast
    obtain ⟨hinit, hprev, hbefore⟩ := Separated.append_iff.mp hsep
    have hproper := hprev.proper prev (mem_singleton.mpr rfl)
    have hle' := hle prev (by simp)
    split
    next htouch =>
      rw [dropLast_concat]
      refine ⟨[prev], rfl, ⟨hle', le_max_left _ _, fun b hb => ?_, fun x hx => ?_, by simp⟩, ?_, fun s hs => ?_⟩
      · rw [mem_singleton.mp hb]
        exact ⟨le_rfl, le_max_right _ _⟩
      · by_cases hx' : r.lo ≤ x ∧ x < r.hi
        · exact .inl hx'
        · obtain ⟨hx1, hx2⟩ : prev.lo ≤ x ∧ x < max r.hi prev.hi := hx
          exact .inr ⟨prev, mem_singleton.mpr rfl, hx1, by omega⟩
      · exact hproper.trans_le (le_max_right _ _)
      · exact hbefore s hs prev (mem_singleton.mpr rfl)
    next hapart =>
      refine ⟨[], (append_nil _).symm, .refl _, hr, fun s hs => ?_⟩
      cases mem_append.mp hs with
      | inl hs =>
        have hsp := hbefore s hs prev (mem_singleton.mpr rfl)
        dsimp only
        omega
      | inr hs =>
        rw [mem_singleton.mp hs]
        exact Nat.lt_of_not_le hapart
  next hnone =>
    rw [List.getLast?_eq_none_iff.mp hnone]
    exact ⟨[], rfl, .refl _, hr, nofun⟩

variable {below : Nat → Bool}

theorem record_spec (hr : r.lo < r.hi) (hsep : Separated l) (hbelow : ∀ k, k < r.lo → below k = true)
    (hnot : ∀ k, below k = true → k ≤ r.lo) :
    ∃ before gone after m, l = before ++ gone ++ after ∧ record below r l = before ++ m :: after ∧
      Merged r gone m ∧ Separated (before ++ m :: after) := by
  have hsplit := takeWhile_append_dropWhile (p := fun s : Span α => below s.lo) (l := l)
  have hsep' := hsep
  rw [← hsplit] at hsep'
  obtain ⟨htake, hdrop, hapart⟩ := Separated.append_iff.mp hsep'
  obtain ⟨gone, hbefore, hjoined, hproper, hlt⟩ := join_spec hr htake fun s hs =>
    hnot _ (mem_takeWhile_imp (p := fun s : Span α => below s.lo) hs)
  have hafter : ∀ s ∈ l.dropWhile (below ·.lo), r.lo ≤ s.lo := by
    cases hcases : l.dropWhile (below ·.lo) with
    | nil => nofun
    | cons s rest =>
      have hhead : below s.lo = false := by
        have := head_dropWhile_not (fun s : Span α => below s.lo) (l := l) (by rw [hcases]; nofun)
        simpa [hcases] using this
      have hs : r.lo ≤ s.lo := Nat.le_of_not_lt fun hlt => by simp [hbelow _ hlt] at hhead
      rw [hcases] at hdrop
      obtain ⟨hps, hrest, -⟩ := Separated.cons_iff.mp hdrop
      refine forall_mem_cons.mpr ⟨hs, fun b hb => ?_⟩
      have := hrest b hb
      omega
  obtain ⟨gone', heq, hmerged, hlo, hrest⟩ := absorb_spec hdrop fun s hs => hjoined.lo.trans (hafter s hs)
  refine ⟨_, gone ++ gone', _, _, ?_, rfl, hjoined.trans hmerged, ?_⟩
  · rw [← append_assoc, ← hbefore, append_assoc, ← heq, hsplit]
  · rw [hbefore] at htake
    rw [heq] at hdrop
    have hleft := (Separated.append_iff.mp htake).1
    have hright := (Separated.append_iff.mp hdrop).2.1
    refine Separated.append_iff.mpr ⟨hleft, Separated.cons_iff.mpr ⟨?_, hrest, hright⟩, fun s hs => ?_⟩
    · exact hmerged.lo.trans_lt (hproper.trans_le hmerged.hi)
    · refine forall_mem_cons.mpr ⟨(hlt s hs).trans_eq hlo.symm, fun b hb => hapart s ?_ b ?_⟩
      · rw [hbefore]
        exact mem_append_left _ hs
      · rw [heq]
        exact mem_append_right _ hb

theorem covers_record (hr : r.lo < r.hi) (hsep : Separated l) (hbelow : ∀ k, k < r.lo → below k = true)
    (hnot : ∀ k, below k = true → k ≤ r.lo) : Covers (record below r l) x ↔ r.Has x ∨ Covers l x := by
  obtain ⟨before, gone, after, m, rfl, hrecord, hmerged, -⟩ := record_spec hr hsep hbelow hnot
  simp only [hrecord, covers_append, covers_cons, hmerged.has_iff]
  tauto

theorem separated_record (hr : r.lo < r.hi) (hsep : Separated l) (hbelow : ∀ k, k < r.lo → below k = true)
    (hnot : ∀ k, below k = true → k ≤ r.lo) : Separated (record below r l) := by
  obtain ⟨before, gone, after, m, -, hrecord, -, hmerged⟩ := record_spec hr hsep hbelow hnot
  rw [hrecord]
  exact hmerged

structure Ledger (recorded l : List (Span α)) : Prop where
  inside : ∀ c ∈ recorded, ∃ s ∈ l, c.Inside s
  weight : ∀ s ∈ l, s.weight = ((recorded.filter (·.Inside s)).map (·.weight)).sum

variable {c : Span α} {recorded : List (Span α)}

theorem sum_inside (hsep : Separated l) (hc : c.lo < c.hi) (v : α) :
    (l.map fun s => if c.Inside s then v else 0).sum = if ∃ s ∈ l, c.Inside s then v else 0 := by
  induction l with
  | nil => simp
  | cons s l ih =>
    obtain ⟨-, hs, hl⟩ := Separated.cons_iff.mp hsep
    rw [map_cons, sum_cons, ih hl]
    by_cases hin : c.Inside s
    · have hnone : ¬∃ b ∈ l, c.Inside b := fun ⟨b, hb, hlo, _⟩ => by
        have := hs b hb
        have := hin.2
        omega
      rw [if_pos hin, if_neg hnone, if_pos ⟨s, mem_cons_self, hin⟩, add_zero]
    · rw [if_neg hin, zero_add]
      simp [hin]

theorem Merged.sum_recorded (h : Merged r gone m) (hsep : Separated gone) (hproper : ∀ c ∈ recorded, c.lo < c.hi)
    (hin : ∀ c ∈ recorded, c.Inside m → ∃ s ∈ gone, c.Inside s) :
    (gone.map fun s => ((recorded.filter (·.Inside s)).map (·.weight)).sum).sum =
      ((recorded.filter (·.Inside m)).map (·.weight)).sum := by
  induction recorded with
  | nil => simp
  | cons c recorded ih =>
    have hone := sum_inside hsep (hproper c mem_cons_self) c.weight
    have hiff : c.Inside m ↔ ∃ s ∈ gone, c.Inside s :=
      ⟨hin c mem_cons_self, fun ⟨s, hs, hlo, hhi⟩ => ⟨(h.inside s hs).1.trans hlo, hhi.trans (h.inside s hs).2⟩⟩
    have hsum : ∀ s : Span α, (((c :: recorded).filter (·.Inside s)).map (·.weight)).sum =
        (if c.Inside s then c.weight else 0) + ((recorded.filter (·.Inside s)).map (·.weight)).sum := by
      intro s
      by_cases hs : c.Inside s <;> simp [hs]
    simp only [hsum, sum_map_add, hone, hiff]
    rw [ih (fun c hc => hproper c (mem_cons_of_mem _ hc)) fun c hc => hin c (mem_cons_of_mem _ hc)]

theorem Ledger.record (h : Ledger recorded l) (hproper : ∀ c ∈ recorded, c.lo < c.hi) (hr : r.lo < r.hi)
    (hsep : Separated l) (hbelow : ∀ k, k < r.lo → below k = true) (hnot : ∀ k, below k = true → k ≤ r.lo) :
    Ledger (recorded ++ [r]) (record below r l) := by
  obtain ⟨before, gone, after, m, rfl, hrecord, hmerged, hsep'⟩ := record_spec hr hsep hbelow hnot
  obtain ⟨hbefore, hrest, hbm⟩ := Separated.append_iff.mp hsep'
  obtain ⟨hm, hma, -⟩ := Separated.cons_iff.mp hrest
  have hrm : r.Inside m := ⟨hmerged.lo, hmerged.hi⟩
  -- A span that stays is apart from the merged one.
  have hapart : ∀ c : Span α, c.lo < c.hi → c.Inside m → ∀ s, s ∈ before ∨ s ∈ after → ¬c.Inside s := by
    rintro c hc hcm s (hs | hs) hcs
    · have := hbm s hs m mem_cons_self
      have := hcm.1
      have := hcs.2
      omega
    · have := hma s hs
      have := hcm.2
      have := hcs.1
      omega
  rw [hrecord]
  refine ⟨fun c hc => ?_, fun s hs => ?_⟩
  · rcases mem_append.mp hc with hc | hc
    · obtain ⟨s, hs, hcs⟩ := h.inside c hc
      rcases mem_append.mp hs with hs | hs
      · rcases mem_append.mp hs with hs | hs
        · exact ⟨s, mem_append_left _ hs, hcs⟩
        · exact ⟨m, by simp, (hmerged.inside s hs).1.trans hcs.1, hcs.2.trans (hmerged.inside s hs).2⟩
      · exact ⟨s, by simp [hs], hcs⟩
    · cases mem_singleton.mp hc
      exact ⟨m, by simp, hrm⟩
  · have hsum : ((recorded ++ [r]).filter (·.Inside s)).map (·.weight) =
        (recorded.filter (·.Inside s)).map (·.weight) ++ if r.Inside s then [r.weight] else [] := by
      by_cases hrs : r.Inside s <;> simp [filter_append, hrs]
    rw [hsum, sum_append]
    rcases mem_append.mp hs with hs | hs
    · rw [if_neg (hapart r hr hrm s (.inl hs)), sum_nil, add_zero]
      exact h.weight s (by simp [hs])
    · cases hs with
      | head =>
        have hgone : Separated gone := (Separated.append_iff.mp (Separated.append_iff.mp hsep).1).2.1
        rw [if_pos hrm, sum_singleton, hmerged.weight, add_comm r.weight, ← hmerged.sum_recorded hgone hproper]
        · have hweights : gone.map (·.weight) =
              gone.map fun s => ((recorded.filter (·.Inside s)).map (·.weight)).sum :=
            map_congr_left fun s hs => h.weight s (mem_append_left _ (mem_append_right _ hs))
          rw [hweights]
        · intro c hc hcm
          obtain ⟨s, hs, hcs⟩ := h.inside c hc
          have hnot := hapart c (hproper c hc) hcm s
          simp only [mem_append] at hs
          rcases hs with (hs | hs) | hs
          · exact absurd hcs (hnot (.inl hs))
          · exact ⟨s, hs, hcs⟩
          · exact absurd hcs (hnot (.inr hs))
      | tail _ hs =>
        rw [if_neg (hapart r hr hrm s (.inr hs)), sum_nil, add_zero]
        exact h.weight s (mem_append_right _ hs)

end Merge

end Span
