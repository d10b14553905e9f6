import Embarcadero.Lib.Residue
import Embarcadero.Lib.Runs

namespace Embarcadero

open List
open Function (update)

def addressMax : Nat := 2 ^ 64 - 1

def segmentHeader : Nat := 64

structure SegmentRange where
  segment : Nat
  start : Nat
  bytes : Nat
  deriving DecidableEq

inductive ReserveCall
  | idle
  | checked (segment bytes : Nat)
  | loop (segment bytes current : Nat)
  deriving DecidableEq

inductive RolloverCall
  | idle
  | checked (old bytes : Nat)
  | loop (old bytes current : Nat)
  | frozen (old current : Nat)
  | published (next : Nat)
  deriving DecidableEq

inductive Allocation
  | throws
  | returns (next : Nat)
  deriving DecidableEq

/-- `current_segment_`, `log_addr_` and the calls in progress.  `allocated` and `ranges` are
histories: the segments the allocator has returned and the ranges handed out. -/
structure BLog where
  segment : Nat
  cursor : Nat
  reserving : Nat → ReserveCall := fun _ => .idle
  rollover : RolloverCall := .idle
  allocated : List Nat
  ranges : List SegmentRange := []

inductive BLogEvent
  | reserve (thread bytes : Nat)
  | loadCursor (thread : Nat)
  | exchange (thread : Nat) (spurious : Bool)
  | rollover (bytes : Nat)
  | rolloverLoad
  | rolloverExchange (spurious : Bool)
  | allocated (a : Allocation)
  | publishCursor
  deriving DecidableEq

def segmentArgsOk (extent segment bytes : Nat) : Prop :=
  segment ≠ 0 ∧ segmentHeader < extent ∧ bytes ≠ 0 ∧ bytes ≤ extent - segmentHeader ∧ segment ≤ addressMax - extent

instance (extent segment bytes : Nat) : Decidable (segmentArgsOk extent segment bytes) :=
  inferInstanceAs (Decidable (_ ∧ _ ∧ _ ∧ _ ∧ _))

def cursorIn (extent segment current : Nat) : Prop :=
  (segment + segmentHeader) % 2 ^ 64 ≤ current ∧ current ≤ (segment + extent) % 2 ^ 64

instance (extent segment current : Nat) : Decidable (cursorIn extent segment current) :=
  inferInstanceAs (Decidable (_ ∧ _))

def segmentRoom (extent segment current : Nat) : Nat := (segment + extent) % 2 ^ 64 - current

def segmentAccepted (extent old next : Nat) : Prop :=
  next ≠ 0 ∧ next ≠ old ∧ next % extent = old % extent ∧ next ≤ addressMax - extent

instance (extent old next : Nat) : Decidable (segmentAccepted extent old next) :=
  inferInstanceAs (Decidable (_ ∧ _ ∧ _ ∧ _))

namespace BLog

def setCall (s : BLog) (i : Nat) (c : ReserveCall) : BLog :=
  { s with reserving := update s.reserving i c }

def handOut (s : BLog) (i segment bytes current : Nat) : BLog :=
  { s with
    reserving := update s.reserving i .idle
    cursor := (current + bytes) % 2 ^ 64
    ranges := s.ranges ++ [⟨segment, current, bytes⟩] }

/-- One turn of the reservation loop.  `compare_exchange_weak` may fail spuriously. -/
def exchange (extent : Nat) (s : BLog) (i segment bytes current : Nat) (spurious : Bool) : BLog :=
  if ¬cursorIn extent segment current ∨ segmentRoom extent segment current < bytes then
    s.setCall i .idle
  else if s.cursor = current ∧ ¬spurious then s.handOut i segment bytes current
  else s.setCall i (.loop segment bytes s.cursor)

def rolloverExchange (extent : Nat) (s : BLog) (old bytes current : Nat) (spurious : Bool) : BLog :=
  if ¬cursorIn extent old current ∨ bytes ≤ segmentRoom extent old current then
    { s with rollover := .idle }
  else if s.cursor = current ∧ ¬spurious then
    { s with cursor := 0, rollover := .frozen old current }
  else { s with rollover := .loop old bytes s.cursor }

def finishAllocation (extent : Nat) (s : BLog) (old current : Nat) : Allocation → BLog
  | .throws => { s with cursor := current, rollover := .idle }
  | .returns next =>
    let s := { s with allocated := if next = 0 then s.allocated else next :: s.allocated }
    if segmentAccepted extent old next then
      { s with segment := next, rollover := .published next }
    else { s with cursor := current, rollover := .idle }

end BLog

def BLog.step (extent : Nat) (s : BLog) : BLogEvent → Option BLog
  | .reserve i bytes =>
    if s.reserving i = .idle then
      some (if segmentArgsOk extent s.segment bytes then s.setCall i (.checked s.segment bytes) else s)
    else none
  | .loadCursor i =>
    match s.reserving i with
    | .checked segment bytes => some (s.setCall i (.loop segment bytes s.cursor))
    | _ => none
  | .exchange i spurious =>
    match s.reserving i with
    | .loop segment bytes current => some (s.exchange extent i segment bytes current spurious)
    | _ => none
  | .rollover bytes =>
    if s.rollover = .idle then
      some (if segmentArgsOk extent s.segment bytes then
        { s with rollover := .checked s.segment bytes } else s)
    else none
  | .rolloverLoad =>
    match s.rollover with
    | .checked old bytes => some { s with rollover := .loop old bytes s.cursor }
    | _ => none
  | .rolloverExchange spurious =>
    match s.rollover with
    | .loop old bytes current => some (s.rolloverExchange extent old bytes current spurious)
    | _ => none
  | .allocated a =>
    match s.rollover with
    | .frozen old current => some (s.finishAllocation extent old current a)
    | _ => none
  | .publishCursor =>
    match s.rollover with
    | .published next =>
      some { s with cursor := (next + segmentHeader) % 2 ^ 64, rollover := .idle }
    | _ => none

def BLog.start (base first : Nat) : BLog where
  segment := base
  cursor := first
  allocated := [base]

def BLog.Fresh (s : BLog) (e : BLogEvent) : Prop :=
  match e with
  | .allocated (.returns next) => next ≠ 0 → next ∉ s.allocated
  | _ => True

instance (s : BLog) (e : BLogEvent) : Decidable (s.Fresh e) := by
  cases e with
  | allocated a => cases a <;> dsimp only [BLog.Fresh] <;> infer_instance
  | _ => dsimp only [BLog.Fresh]; infer_instance

section

variable {extent base segment other bytes current : Nat}

structure OnGrid (extent base segment : Nat) : Prop where
  ne : segment ≠ 0
  header : segmentHeader < extent
  le : segment ≤ addressMax - extent
  grid : segment % extent = base % extent

theorem OnGrid.of_args (h : segmentArgsOk extent segment bytes)
    (hgrid : segment % extent = base % extent) : OnGrid extent base segment :=
  ⟨h.1, h.2.1, h.2.2.2.2, hgrid⟩

theorem OnGrid.of_accepted (h : OnGrid extent base segment)
    (h' : segmentAccepted extent segment other) : OnGrid extent base other :=
  ⟨h'.1, h.header, h'.2.2.2, h'.2.2.1.trans h.grid⟩

theorem OnGrid.stop_lt (h : OnGrid extent base segment) : segment + extent < 2 ^ 64 := by
  have h₁ := h.le
  have h₂ := h.ne
  unfold addressMax at h₁
  omega

theorem OnGrid.cursorIn_iff (h : OnGrid extent base segment) :
    cursorIn extent segment current ↔ segment + segmentHeader ≤ current ∧ current ≤ segment + extent := by
  have hstop := h.stop_lt
  have hheader := h.header
  rw [cursorIn, Nat.mod_eq_of_lt hstop, Nat.mod_eq_of_lt (by omega)]

theorem OnGrid.segmentRoom_eq (h : OnGrid extent base segment) :
    segmentRoom extent segment current = segment + extent - current := by
  rw [segmentRoom, Nat.mod_eq_of_lt h.stop_lt]

theorem OnGrid.eq_of_cursorIn (h : OnGrid extent base segment) (h' : OnGrid extent base other)
    (hc : cursorIn extent segment current) (hc' : cursorIn extent other current) : segment = other := by
  rw [h.cursorIn_iff] at hc
  rw [h'.cursorIn_iff] at hc'
  have hheader : 0 < segmentHeader := by decide
  have hgrid := h.grid.trans h'.grid.symm
  rcases Nat.lt_trichotomy segment other with hlt | heq | hlt
  · have := Residue.add_le_of_mod_eq hlt hgrid
    omega
  · exact heq
  · have := Residue.add_le_of_mod_eq hlt hgrid.symm
    omega

end

structure SegmentRange.Inside (extent base : Nat) (r : SegmentRange) : Prop where
  onGrid : OnGrid extent base r.segment
  header : r.segment + segmentHeader ≤ r.start
  stop : r.start + r.bytes ≤ r.segment + extent

def SegmentRange.Disjoint (r q : SegmentRange) : Prop :=
  r.start + r.bytes ≤ q.start ∨ q.start + q.bytes ≤ r.start

theorem SegmentRange.Inside.disjoint {extent base : Nat} {r q : SegmentRange} (hr : r.Inside extent base)
    (hq : q.Inside extent base) (h : r.segment ≠ q.segment) : r.Disjoint q := by
  have hgrid := hr.onGrid.grid.trans hq.onGrid.grid.symm
  have h₁ := hr.stop
  have h₂ := hq.stop
  have h₃ := hr.header
  have h₄ := hq.header
  rcases Nat.lt_or_gt_of_ne h with hlt | hlt
  · have := Residue.add_le_of_mod_eq hlt hgrid
    exact .inl (by omega)
  · have := Residue.add_le_of_mod_eq hlt hgrid.symm
    exact .inr (by omega)

def RolloverCall.freezes : RolloverCall → Prop
  | .frozen _ _ => True
  | .published _ => True
  | _ => False

namespace BLog

variable {align extent base : Nat} {s t : BLog}

def top (s : BLog) : Nat :=
  match s.rollover with
  | .frozen _ current => current
  | .published next => next + segmentHeader
  | _ => s.cursor

theorem top_of_not_freezes (h : ¬s.rollover.freezes) : s.top = s.cursor := by
  rw [top]
  split
  next hcall => exact absurd (by rw [hcall]; trivial) h
  next hcall => exact absurd (by rw [hcall]; trivial) h
  · rfl

structure Known (extent base : Nat) (allocated : List Nat) (segment : Nat) : Prop where
  onGrid : OnGrid extent base segment
  mem : segment ∈ allocated

def ReserveOk (align extent base : Nat) (allocated : List Nat) : ReserveCall → Prop
  | .idle => True
  | .checked segment bytes => Known extent base allocated segment ∧ align ∣ bytes
  | .loop segment bytes _ => Known extent base allocated segment ∧ align ∣ bytes

def RolloverOk (extent base : Nat) (s : BLog) : RolloverCall → Prop
  | .idle => True
  | .checked old _ => old = s.segment ∧ OnGrid extent base old
  | .loop old _ _ => old = s.segment ∧ OnGrid extent base old
  | .frozen old current =>
    old = s.segment ∧ OnGrid extent base old ∧ cursorIn extent old current ∧ s.cursor = 0
  | .published next => next = s.segment ∧ OnGrid extent base next ∧ s.cursor = 0

variable {a : Allocation} {s₀ : BLog} {e : BLogEvent} {spurious : Bool} {i next old : Nat} {c : RolloverCall}

theorem RolloverOk.cursor_eq_zero (h : RolloverOk extent base s c) (hc : c.freezes) : s.cursor = 0 := by
  cases c with
  | idle => exact hc.elim
  | checked old bytes => exact hc.elim
  | loop old bytes current => exact hc.elim
  | frozen old current => exact h.2.2.2
  | published next => exact h.2.2

theorem RolloverOk.of_not_freezes (h : RolloverOk extent base s c) (hc : ¬c.freezes) (hseg : t.segment = s.segment) :
    RolloverOk extent base t c := by
  cases c with
  | idle => trivial
  | checked old bytes => exact ⟨h.1.trans hseg.symm, h.2⟩
  | loop old bytes current => exact ⟨h.1.trans hseg.symm, h.2⟩
  | frozen old current => exact absurd trivial hc
  | published next => exact absurd trivial hc

def Home (extent base : Nat) (s : BLog) : Prop :=
  (OnGrid extent base s.segment ∧ cursorIn extent s.segment s.cursor) ∨ s.cursor = 0 ∨ s.allocated = [base]

structure Ok (align extent base : Nat) (s : BLog) : Prop where
  segment : s.segment % extent = base % extent
  mem : s.segment ∈ s.allocated
  reserving : ∀ i, ReserveOk align extent base s.allocated (s.reserving i)
  rollover : RolloverOk extent base s s.rollover
  home : s.Home extent base
  known : ∀ r ∈ s.ranges, r.segment ∈ s.allocated
  inside : ∀ r ∈ s.ranges, r.Inside extent base
  below : ∀ r ∈ s.ranges, r.segment = s.segment → r.start + r.bytes ≤ s.top
  alignedSegment : align ∣ s.segment
  alignedTop : align ∣ s.top
  alignedRange : ∀ r ∈ s.ranges, align ∣ r.start
  disjoint : s.ranges.Pairwise SegmentRange.Disjoint

theorem ok_start {first : Nat} (hbase : align ∣ base) (hfirst : align ∣ first) :
    Ok align extent base (start base first) where
  segment := rfl
  mem := mem_singleton_self base
  reserving := fun _ => trivial
  rollover := trivial
  home := .inr (.inr rfl)
  known := by simp [start]
  inside := by simp [start]
  below := by simp [start]
  alignedSegment := hbase
  alignedTop := hfirst
  alignedRange := by simp [start]
  disjoint := List.Pairwise.nil

theorem Ok.setCall {i : Nat} {c : ReserveCall} (h : Ok align extent base s)
    (hc : ReserveOk align extent base s.allocated c) : Ok align extent base (s.setCall i c) where
  segment := h.segment
  mem := h.mem
  reserving := (Function.forall_update_iff _ fun _ c => ReserveOk align extent base s.allocated c).mpr
    ⟨hc, fun j _ => h.reserving j⟩
  rollover := h.rollover
  home := h.home
  known := h.known
  inside := h.inside
  below := h.below
  alignedSegment := h.alignedSegment
  alignedTop := h.alignedTop
  alignedRange := h.alignedRange
  disjoint := h.disjoint

theorem Ok.setRollover {c : RolloverCall} {cursor : Nat} (h : Ok align extent base s)
    (htop : top { s with cursor := cursor, rollover := c } = s.top)
    (hc : RolloverOk extent base { s with cursor := cursor, rollover := c } c)
    (hhome : Home extent base { s with cursor := cursor, rollover := c }) :
    Ok align extent base { s with cursor := cursor, rollover := c } where
  segment := h.segment
  mem := h.mem
  reserving := h.reserving
  rollover := hc
  home := hhome
  known := h.known
  inside := h.inside
  below := by
    intro r hr hseg
    rw [htop]
    exact h.below r hr hseg
  alignedSegment := h.alignedSegment
  alignedTop := htop ▸ h.alignedTop
  alignedRange := h.alignedRange
  disjoint := h.disjoint

theorem Ok.current (h : Ok align extent base s) {segment : Nat} (hk : Known extent base s.allocated segment)
    (hc : cursorIn extent segment s.cursor) : segment = s.segment ∧ ¬s.rollover.freezes := by
  have hpos : s.cursor ≠ 0 := by
    rw [hk.onGrid.cursorIn_iff] at hc
    have hheader : 0 < segmentHeader := by decide
    omega
  constructor
  · rcases h.home with hhome | hzero | hfirst
    · exact hk.onGrid.eq_of_cursorIn hhome.1 hc hhome.2
    · exact absurd hzero hpos
    · have h₁ := hk.mem
      have h₂ := h.mem
      rw [hfirst, mem_singleton] at h₁ h₂
      rw [h₁, h₂]
  · intro hfreezes
    exact hpos (h.rollover.cursor_eq_zero hfreezes)

theorem Ok.handOut {segment bytes : Nat} (h : Ok align extent base s) (hk : Known extent base s.allocated segment)
    (halign : align ∣ bytes) (hc : cursorIn extent segment s.cursor)
    (hroom : bytes ≤ segmentRoom extent segment s.cursor) :
    Ok align extent base (s.handOut i segment bytes s.cursor) := by
  have hseg := (h.current hk hc).1
  have hfree := (h.current hk hc).2
  have hstop := hk.onGrid.stop_lt
  have hbounds := hk.onGrid.cursorIn_iff.mp hc
  rw [hk.onGrid.segmentRoom_eq] at hroom
  have hsum : (s.cursor + bytes) % 2 ^ 64 = s.cursor + bytes := Nat.mod_eq_of_lt (by omega)
  have hcursor : align ∣ s.cursor := top_of_not_freezes hfree ▸ h.alignedTop
  have hinside : SegmentRange.Inside extent base ⟨segment, s.cursor, bytes⟩ :=
    ⟨hk.onGrid, hbounds.1, by dsimp only; omega⟩
  have hbelow : ∀ r ∈ s.ranges, r.segment = s.segment → r.start + r.bytes ≤ s.cursor := by
    intro r hr hrs
    rw [← top_of_not_freezes hfree]
    exact h.below r hr hrs
  have htop : (s.handOut i segment bytes s.cursor).top = s.cursor + bytes :=
    (top_of_not_freezes (s := s.handOut i segment bytes s.cursor) hfree).trans hsum
  exact {
    segment := h.segment
    mem := h.mem
    reserving := (h.setCall (i := i) (c := .idle) trivial).reserving
    rollover := h.rollover.of_not_freezes hfree rfl
    home := by
      rw [hseg] at hk hbounds hroom
      refine .inl ⟨hk.onGrid, hk.onGrid.cursorIn_iff.mpr ?_⟩
      rw [show (s.handOut i segment bytes s.cursor).cursor = s.cursor + bytes from hsum]
      constructor
      · exact Nat.le_add_right_of_le hbounds.1
      · omega
    known := by
      intro r hr
      rcases mem_append.mp hr with hr | hr
      · exact h.known r hr
      · rw [mem_singleton.mp hr]
        exact hk.mem
    inside := by
      intro r hr
      rcases mem_append.mp hr with hr | hr
      · exact h.inside r hr
      · rw [mem_singleton.mp hr]
        exact hinside
    below := by
      intro r hr hrs
      rw [htop]
      rcases mem_append.mp hr with hr | hr
      · exact Nat.le_trans (hbelow r hr hrs) (Nat.le_add_right _ _)
      · rw [mem_singleton.mp hr]
    alignedSegment := h.alignedSegment
    alignedTop := by
      rw [htop]
      exact Nat.dvd_add hcursor halign
    alignedRange := by
      intro r hr
      rcases mem_append.mp hr with hr | hr
      · exact h.alignedRange r hr
      · rw [mem_singleton.mp hr]
        exact hcursor
    disjoint := by
      refine pairwise_append.mpr ⟨h.disjoint, pairwise_singleton _ _, ?_⟩
      intro r hr q hq
      rw [mem_singleton.mp hq]
      by_cases hrs : r.segment = segment
      · exact .inl (hbelow r hr (hrs.trans hseg))
      · exact (h.inside r hr).disjoint hinside hrs }

theorem Ok.exchange {segment bytes current : Nat} (h : Ok align extent base s)
    (hk : Known extent base s.allocated segment) (halign : align ∣ bytes) :
    Ok align extent base (s.exchange extent i segment bytes current spurious) := by
  rw [BLog.exchange]
  split
  · exact h.setCall trivial
  next hcheck =>
    rw [not_or, not_not, Nat.not_lt] at hcheck
    split
    next hcas =>
      rw [← hcas.1] at hcheck ⊢
      exact h.handOut hk halign hcheck.1 hcheck.2
    · exact h.setCall ⟨hk, halign⟩

theorem Ok.rolloverExchange {bytes current : Nat} (h : Ok align extent base s)
    (hcall : s.rollover = .loop old bytes current) :
    Ok align extent base (s.rolloverExchange extent old bytes current spurious) := by
  have hr := h.rollover
  rw [hcall] at hr
  have htop : s.top = s.cursor := by rw [top, hcall]
  rw [BLog.rolloverExchange]
  split
  · exact h.setRollover htop.symm trivial h.home
  next hcheck =>
    rw [not_or, not_not] at hcheck
    split
    next hcas =>
      apply h.setRollover
      · rw [htop, hcas.1, top]
      · exact ⟨hr.1, hr.2, hcheck.1, rfl⟩
      · exact .inr (.inl rfl)
    · exact h.setRollover htop.symm hr h.home

theorem Ok.restore {current : Nat} (h : Ok align extent base s) (hcall : s.rollover = .frozen old current) :
    Ok align extent base { s with cursor := current, rollover := .idle } := by
  have hr := h.rollover
  rw [hcall] at hr
  apply h.setRollover
  · rw [top, top, hcall]
  · trivial
  · exact .inl ⟨hr.1 ▸ hr.2.1, hr.1 ▸ hr.2.2.1⟩

theorem ReserveOk.allocate {allocated all : List Nat} {c : ReserveCall} (h : ReserveOk align extent base allocated c)
    (hsub : allocated ⊆ all) : ReserveOk align extent base all c := by
  cases c with
  | idle => trivial
  | checked segment bytes => exact ⟨⟨h.1.onGrid, hsub h.1.mem⟩, h.2⟩
  | loop segment bytes current => exact ⟨⟨h.1.onGrid, hsub h.1.mem⟩, h.2⟩

theorem Ok.allocate {old current : Nat} {all : List Nat} (h : Ok align extent base s)
    (hcall : s.rollover = .frozen old current) (hsub : s.allocated ⊆ all) :
    Ok align extent base { s with allocated := all } where
  segment := h.segment
  mem := hsub h.mem
  reserving := fun i => (h.reserving i).allocate hsub
  rollover := h.rollover
  home := .inr (.inl (h.rollover.cursor_eq_zero (by rw [hcall]; trivial)))
  known := fun r hr => hsub (h.known r hr)
  inside := h.inside
  below := h.below
  alignedSegment := h.alignedSegment
  alignedTop := h.alignedTop
  alignedRange := h.alignedRange
  disjoint := h.disjoint

theorem Ok.accept {current : Nat} (h : Ok align extent base s) (hheader : align ∣ segmentHeader)
    (hextent : align ∣ extent) (hcall : s.rollover = .frozen old current) (hnew : ∀ r ∈ s.ranges, r.segment ≠ next)
    (hmem : next ∈ s.allocated) (hacc : segmentAccepted extent old next) :
    Ok align extent base { s with segment := next, rollover := .published next } := by
  have hr := h.rollover
  rw [hcall] at hr
  have hgrid : OnGrid extent base next := hr.2.1.of_accepted hacc
  have hnext : align ∣ next := by
    rw [← Nat.dvd_mod_iff hextent, hacc.2.2.1, Nat.dvd_mod_iff hextent, hr.1]
    exact h.alignedSegment
  exact {
    segment := hgrid.grid
    mem := hmem
    reserving := h.reserving
    rollover := ⟨rfl, hgrid, hr.2.2.2⟩
    home := .inr (.inl hr.2.2.2)
    known := h.known
    inside := h.inside
    below := fun r hr' hseg => absurd hseg (hnew r hr')
    alignedSegment := hnext
    alignedTop := Nat.dvd_add hnext hheader
    alignedRange := h.alignedRange
    disjoint := h.disjoint }

theorem Ok.finishAllocation {current : Nat} (h : Ok align extent base s) (hheader : align ∣ segmentHeader)
    (hextent : align ∣ extent) (hcall : s.rollover = .frozen old current) (hfresh : s.Fresh (.allocated a)) :
    Ok align extent base (s.finishAllocation extent old current a) := by
  cases a with
  | throws => exact h.restore hcall
  | returns next =>
    have hsub : s.allocated ⊆ if next = 0 then s.allocated else next :: s.allocated := by
      split
      · exact Subset.refl _
      · exact subset_cons_self _ _
    have h' := h.allocate hcall hsub
    rw [BLog.finishAllocation]
    dsimp only
    split
    next hacc =>
      apply h'.accept hheader hextent hcall _ _ hacc
      · intro r hr hseg
        exact hfresh hacc.1 (hseg ▸ h.known r hr)
      · dsimp only
        rw [if_neg hacc.1]
        exact mem_cons_self
    · exact h'.restore hcall

theorem Ok.publishCursor (h : Ok align extent base s) (hcall : s.rollover = .published next) :
    Ok align extent base
      { s with cursor := (next + segmentHeader) % 2 ^ 64, rollover := .idle } := by
  have hr := h.rollover
  rw [hcall] at hr
  have hheader := hr.2.1.header
  have hstop := hr.2.1.stop_lt
  rw [Nat.mod_eq_of_lt (by omega)]
  apply h.setRollover
  · rw [top, top, hcall]
  · trivial
  · refine .inl ⟨hr.1 ▸ hr.2.1, ?_⟩
    change cursorIn extent s.segment (next + segmentHeader)
    rw [← hr.1]
    exact hr.2.1.cursorIn_iff.mpr ⟨Nat.le_refl _, by omega⟩

def AlignedRequest (align : Nat) : BLogEvent → Prop
  | .reserve _ bytes => align ∣ bytes
  | _ => True

theorem Ok.step (h : Ok align extent base s) (hheader : align ∣ segmentHeader) (hextent : align ∣ extent)
    (hfresh : s.Fresh e) (hrequest : AlignedRequest align e) (hstep : s.step extent e = some t) :
    Ok align extent base t := by
  cases e with
  | reserve i bytes =>
    rw [BLog.step] at hstep
    split at hstep
    · cases hstep
      split
      · exact h.setCall ⟨⟨.of_args ‹_› h.segment, h.mem⟩, hrequest⟩
      · exact h
    · cases hstep
  | loadCursor i =>
    have hi := h.reserving i
    cases hcall : s.reserving i with
    | idle => simp [BLog.step, hcall] at hstep
    | checked segment bytes =>
      rw [hcall] at hi
      simp only [BLog.step, hcall, Option.some.injEq] at hstep
      rw [← hstep]
      exact h.setCall hi
    | loop segment bytes current => simp [BLog.step, hcall] at hstep
  | exchange i spurious =>
    have hi := h.reserving i
    cases hcall : s.reserving i with
    | idle => simp [BLog.step, hcall] at hstep
    | checked segment bytes => simp [BLog.step, hcall] at hstep
    | loop segment bytes current =>
      rw [hcall] at hi
      simp only [BLog.step, hcall, Option.some.injEq] at hstep
      rw [← hstep]
      exact h.exchange hi.1 hi.2
  | rollover bytes =>
    obtain ⟨hidle, rfl⟩ := Runs.of_guard hstep
    split
    · exact h.setRollover (by rw [top, top, hidle]) ⟨rfl, .of_args ‹_› h.segment⟩ h.home
    · exact h
  | rolloverLoad =>
    have hr := h.rollover
    cases hcall : s.rollover with
    | checked old bytes =>
      rw [hcall] at hr
      simp only [BLog.step, hcall, Option.some.injEq] at hstep
      rw [← hstep]
      exact h.setRollover (by rw [top, top, hcall]) hr h.home
    | _ => simp [BLog.step, hcall] at hstep
  | rolloverExchange spurious =>
    cases hcall : s.rollover with
    | loop old bytes current =>
      simp only [BLog.step, hcall, Option.some.injEq] at hstep
      rw [← hstep]
      exact h.rolloverExchange hcall
    | _ => simp [BLog.step, hcall] at hstep
  | allocated a =>
    cases hcall : s.rollover with
    | frozen old current =>
      simp only [BLog.step, hcall, Option.some.injEq] at hstep
      rw [← hstep]
      exact h.finishAllocation hheader hextent hcall hfresh
    | _ => simp [BLog.step, hcall] at hstep
  | publishCursor =>
    cases hcall : s.rollover with
    | published next =>
      simp only [BLog.step, hcall, Option.some.injEq] at hstep
      rw [← hstep]
      exact h.publishCursor hcall
    | _ => simp [BLog.step, hcall] at hstep

theorem Ok.run {events : List BLogEvent} (h : Ok align extent base s) (hheader : align ∣ segmentHeader)
    (hextent : align ∣ extent) (hrequests : ∀ e ∈ events, AlignedRequest align e)
    (hrun : Runs.Along (BLog.step extent) Fresh s events t) : Ok align extent base t :=
  (hrun.with_events hrequests).invariant (fun _ _ _ hk hstep h => h.step hheader hextent hk.1 hk.2 hstep) h

structure Frozen (s : BLog) (old : Nat) (t : BLog) : Prop where
  rollover : t.rollover = .frozen old s.cursor
  segment : t.segment = s.segment
  ranges : t.ranges = s.ranges

theorem frozen_of_rolloverExchange {bytes current : Nat}
    (hfreezes : (s.rolloverExchange extent old bytes current spurious).rollover.freezes) :
    Frozen s old (s.rolloverExchange extent old bytes current spurious) := by
  rw [BLog.rolloverExchange] at hfreezes ⊢
  split at hfreezes
  · exact hfreezes.elim
  · split at hfreezes
    next hcheck hcas =>
      rw [if_neg hcheck, if_pos hcas]
      exact ⟨by rw [hcas.1], rfl, rfl⟩
    · exact hfreezes.elim

theorem Frozen.step (hf : Frozen s₀ old s) (h : Ok align extent base s) (hwait : ∀ a, e ≠ .allocated a)
    (hstep : s.step extent e = some t) : Frozen s₀ old t := by
  have hfreezes : s.rollover.freezes := by
    rw [hf.rollover]
    trivial
  cases e with
  | reserve i bytes =>
    obtain ⟨-, rfl⟩ := Runs.of_guard hstep
    split
    · exact ⟨hf.rollover, hf.segment, hf.ranges⟩
    · exact hf
  | loadCursor i =>
    rw [BLog.step] at hstep
    split at hstep
    · cases hstep
      exact ⟨hf.rollover, hf.segment, hf.ranges⟩
    · cases hstep
  | exchange i spurious =>
    have hi := h.reserving i
    cases hcall : s.reserving i with
    | idle => simp [BLog.step, hcall] at hstep
    | checked segment bytes => simp [BLog.step, hcall] at hstep
    | loop segment bytes current =>
      rw [hcall] at hi
      simp only [BLog.step, hcall, Option.some.injEq, BLog.exchange] at hstep
      rw [← hstep]
      split
      · exact ⟨hf.rollover, hf.segment, hf.ranges⟩
      next hcheck =>
        rw [not_or, not_not] at hcheck
        split
        next hcas => exact absurd hfreezes (h.current hi.1 (hcas.1 ▸ hcheck.1)).2
        · exact ⟨hf.rollover, hf.segment, hf.ranges⟩
  | rollover bytes => simp [BLog.step, hf.rollover] at hstep
  | rolloverLoad => simp [BLog.step, hf.rollover] at hstep
  | rolloverExchange spurious => simp [BLog.step, hf.rollover] at hstep
  | allocated a => exact absurd rfl (hwait a)
  | publishCursor => simp [BLog.step, hf.rollover] at hstep

theorem Frozen.restored (hf : Frozen s₀ old s) (hstep : s.step extent (.allocated a) = some t)
    (hidle : t.rollover = .idle) : t.cursor = s₀.cursor ∧ t.segment = s₀.segment ∧ t.ranges = s₀.ranges := by
  simp only [BLog.step, hf.rollover, Option.some.injEq] at hstep
  rw [← hstep] at hidle ⊢
  cases a with
  | throws => exact ⟨rfl, hf.segment, hf.ranges⟩
  | returns next =>
    rw [BLog.finishAllocation] at hidle ⊢
    dsimp only at hidle ⊢
    split at hidle
    · cases hidle
    next hreject =>
      rw [if_neg hreject]
      exact ⟨rfl, hf.segment, hf.ranges⟩

end BLog

/-- Ranges handed out lie behind the header of one segment and inside it, they are as aligned as the
requests, no two overlap, and a rollover that fails or throws gives the cursor back unchanged. -/
theorem blog_space_handed_out_once (extent base first : Nat) (events : List BLogEvent) (s : BLog)
    (hrun : Runs.Along (BLog.step extent) BLog.Fresh (BLog.start base first) events s) :
    (∀ r ∈ s.ranges, r.segment ∈ s.allocated ∧ r.segment + segmentHeader ≤ r.start ∧
      r.start + r.bytes ≤ r.segment + extent) ∧
    s.ranges.Pairwise SegmentRange.Disjoint ∧
    (∀ align, align ∣ segmentHeader → align ∣ extent → align ∣ base → align ∣ first →
      (∀ e ∈ events, BLog.AlignedRequest align e) → ∀ r ∈ s.ranges, align ∣ r.start) ∧
    (∀ spurious s₁ waiting s₂ a s₃, s.step extent (.rolloverExchange spurious) = some s₁ →
      s₁.rollover.freezes → Runs.Along (BLog.step extent) BLog.Fresh s₁ waiting s₂ →
      (∀ e ∈ waiting, ∀ a, e ≠ .allocated a) → s₂.step extent (.allocated a) = some s₃ → s₃.rollover = .idle →
      s₃.cursor = s.cursor ∧ s₃.segment = s.segment ∧ s₃.ranges = s.ranges) := by
  have hone : ∀ es : List BLogEvent, ∀ e ∈ es, BLog.AlignedRequest 1 e := by
    intro es e _
    cases e <;> simp [BLog.AlignedRequest]
  have hok : BLog.Ok 1 extent base s :=
    (BLog.ok_start (Nat.one_dvd _) (Nat.one_dvd _)).run (Nat.one_dvd _) (Nat.one_dvd _) (hone events) hrun
  refine ⟨fun r hr => ⟨hok.known r hr, (hok.inside r hr).header, (hok.inside r hr).stop⟩, hok.disjoint, ?_, ?_⟩
  · intro align hheader hextent hbase hfirst hrequests
    exact ((BLog.ok_start hbase hfirst).run hheader hextent hrequests hrun).alignedRange
  · intro spurious s₁ waiting s₂ a s₃ hfreeze hfreezes hwaiting hwait halloc hidle
    have hok₁ : BLog.Ok 1 extent base s₁ :=
      hok.step (e := .rolloverExchange spurious) (Nat.one_dvd _) (Nat.one_dvd _) trivial trivial hfreeze
    cases hcall : s.rollover with
    | loop old bytes current =>
      simp only [BLog.step, hcall, Option.some.injEq] at hfreeze
      rw [← hfreeze] at hfreezes
      have hf : BLog.Frozen s old s₁ := by
        rw [← hfreeze]
        exact BLog.frozen_of_rolloverExchange hfreezes
      -- the freeze and the invariant are carried together through the wait
      have hboth := (hwaiting.with_events hwait).invariant
        (I := fun u => BLog.Ok 1 extent base u ∧ BLog.Frozen s old u) (fun u e u' hk hstep hu =>
          ⟨hu.1.step (Nat.one_dvd _) (Nat.one_dvd _) hk.1 (hone [e] e mem_cons_self) hstep,
            hu.2.step hu.1 hk.2 hstep⟩) ⟨hok₁, hf⟩
      exact hboth.2.restored halloc hidle
    | _ => simp [BLog.step, hcall] at hfreeze

def racingReservations : List BLogEvent :=
  [.reserve 0 64, .reserve 1 128, .loadCursor 0, .loadCursor 1, .exchange 1 false,
    .exchange 0 false, .exchange 0 false, .reserve 0 64, .loadCursor 0, .exchange 0 false,
    .rollover 64, .rolloverLoad, .rolloverExchange true, .rolloverExchange false, .reserve 1 64,
    .loadCursor 1, .allocated .throws, .exchange 1 false, .rollover 64, .rolloverLoad,
    .rolloverExchange false, .allocated (.returns 0), .rollover 64, .rolloverLoad,
    .rolloverExchange false, .allocated (.returns 0), .rollover 64, .rolloverLoad,
    .rolloverExchange false, .allocated (.returns 2048), .publishCursor, .reserve 1 64,
    .loadCursor 1, .exchange 1 false]

theorem blog_space_handed_out_once_racingReservations :
    ∃ s, Runs.Along (BLog.step 256) BLog.Fresh (BLog.start 1024 1088) racingReservations s ∧
      s.ranges = [⟨1024, 1088, 128⟩, ⟨1024, 1216, 64⟩, ⟨2048, 2112, 64⟩] ∧
      s.ranges.Pairwise SegmentRange.Disjoint := by
  have hrun := Runs.exists_along_of_exec (f := BLog.ranges)
    (show (Runs.exec (BLog.step 256) BLog.Fresh (BLog.start 1024 1088) racingReservations).map _ =
      some [⟨1024, 1088, 128⟩, ⟨1024, 1216, 64⟩, ⟨2048, 2112, 64⟩] by decide +kernel)
  cases hrun with
  | intro s hs =>
    exact ⟨s, hs.1, hs.2, (blog_space_handed_out_once 256 1024 1088 racingReservations s hs.1).2.1⟩

end Embarcadero
