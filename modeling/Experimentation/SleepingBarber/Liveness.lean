import Experimentation.SleepingBarber.Safety

/-!
# Liveness of the barber shop

No schedule of the barber shop is longer than a bound that depends on the number of customers, and
where no thread can take a step everything is settled: each customer was served or has left, the
barber sleeps, and all seats are free.  A customer leaves only after as many others as there are
seats have taken one, so at least that many are served, or all of them.
-/

namespace Experimentation.SleepingBarber

open Semantics

variable {ι : Type} [Fintype ι] [DecidableEq ι] {maxFreeseats : UInt32} {s t : State ι}

/-! ## Work -/

/-- How many steps the barber takes before he sleeps again. -/
def Barber.work : Barber → ℕ
  | .asleep => 0
  | .called => 5
  | .seating => 4
  | .storing _ => 3
  | .inviting => 2
  | .releasing => 1

/-- How many steps a customer has to take, with those that the barber takes for him. -/
def Customer.work : Customer → ℕ
  | .arriving => 13
  | .looking => 12
  | .sitting => 11
  | .storing _ => 10
  | .calling => 9
  | .releasing => 2
  | .waiting => 1
  | .leaving => 1
  | .served => 0
  | .unserved => 0

/-- How many steps are left. -/
def State.work (s : State ι) : ℕ := 6 * s.cussem + s.bar.work + ∑ c, (s.cus c).work

omit [DecidableEq ι] in
theorem barthread_work (h : barthread s = .next t) : t.work < s.work := by
  rw [barthread] at h
  cases hbar : s.bar with
  | asleep =>
      rw [hbar] at h
      obtain ⟨left, hleft, rfl⟩ := semWait_eq_next h
      simp only [State.work, hbar, Barber.work, hleft]
      omega
  | called =>
      rw [hbar] at h
      obtain ⟨left, _, rfl⟩ := semWait_eq_next h
      simp [State.work, hbar, Barber.work]
  | seating | storing _ | inviting | releasing =>
      rw [hbar] at h
      cases h
      simp [State.work, hbar, Barber.work]

theorem State.work_of_move {c : ι} {place : Customer}
    (hcus : t.cus = Function.update s.cus c place)
    (hless : 6 * t.cussem + t.bar.work + place.work <
      6 * s.cussem + s.bar.work + (s.cus c).work) : t.work < s.work := by
  have hsum := sum_update_add Customer.work s.cus c place
  rw [State.work, State.work, hcus]
  omega

theorem custhread_work {c : ι} (h : custhread c s = .next t) : t.work < s.work := by
  rw [custhread] at h
  cases hcus : s.cus c with
  | arriving =>
      rw [hcus] at h
      obtain ⟨left, _, rfl⟩ := semWait_eq_next h
      exact State.work_of_move rfl (by simp [State.move, hcus, Customer.work])
  | looking =>
      rw [hcus] at h
      cases h
      apply State.work_of_move rfl
      rw [hcus]
      split <;> simp [State.move, Customer.work]
  | sitting | storing _ | releasing | leaving =>
      rw [hcus] at h
      cases h
      exact State.work_of_move rfl (by simp [State.move, hcus, Customer.work])
  | calling =>
      rw [hcus] at h
      cases h
      apply State.work_of_move rfl
      simp only [State.move, hcus, Customer.work]
      omega
  | waiting =>
      rw [hcus] at h
      obtain ⟨left, _, rfl⟩ := semWait_eq_next h
      exact State.work_of_move rfl (by simp [State.move, hcus, Customer.work])
  | served | unserved =>
      rw [hcus] at h
      cases h

theorem work_lt {a : Thread ι} (h : (barberShop ι maxFreeseats).step a s = .next t) :
    t.work < s.work := by
  cases a with
  | barber => exact barthread_work h
  | customer c => exact custhread_work h

/-- The customer has taken a seat. -/
def Customer.hasSat : Customer → Bool
  | .calling | .releasing | .waiting | .served => true
  | _ => false

/-- The customer has found no seat. -/
def Customer.sawNone : Customer → Bool
  | .leaving | .unserved => true
  | _ => false

/-- What the customers who sat down have left free, and that nobody was turned away before all seats
had been taken. -/
structure Seated (maxFreeseats : UInt32) (s : State ι) : Prop where
  taken : maxFreeseats.toNat ≤ s.freeseats.toNat + census Customer.hasSat s.cus
  turned : (∃ c, (s.cus c).sawNone = true) → maxFreeseats.toNat ≤ census Customer.hasSat s.cus

omit [DecidableEq ι] in
theorem Seated.barthread (h : Seated maxFreeseats s) (hinv : Inv maxFreeseats s)
    (hstep : barthread s = .next t) : Seated maxFreeseats t := by
  have hcus := barthread_cus hstep
  have hmore : s.freeseats.toNat ≤ t.freeseats.toNat := by
    rw [SleepingBarber.barthread] at hstep
    cases hbar : s.bar with
    | asleep | called =>
        rw [hbar] at hstep
        obtain ⟨left, _, rfl⟩ := semWait_eq_next hstep
        exact le_rfl
    | seating | inviting | releasing =>
        rw [hbar] at hstep
        cases hstep
        exact le_rfl
    | storing seats =>
        have hknown : seats = s.freeseats := by simpa [hbar, Barber.Knows] using hinv.barber
        rw [hbar] at hstep
        cases hstep
        rw [hknown]
        change s.freeseats.toNat ≤ (s.freeseats + 1).toNat
        rw [hinv.toNat_add_one (by rw [hbar]; rfl)]
        exact Nat.le_succ _
  constructor
  · rw [hcus]
    exact h.taken.trans (Nat.add_le_add_right hmore _)
  · rw [hcus]
    exact h.turned

theorem Seated.of_move (h : Seated maxFreeseats s) {c : ι} (place : Customer)
    (hcus : t.cus = Function.update s.cus c place)
    (hsat : (s.cus c).hasSat.toNat ≤ place.hasSat.toNat)
    (hseats : s.freeseats.toNat + (s.cus c).hasSat.toNat ≤ t.freeseats.toNat + place.hasSat.toNat)
    (hnone : place.sawNone = true → (s.cus c).sawNone = true ∨ s.freeseats = 0) :
    Seated maxFreeseats t := by
  have hcount := census_update Customer.hasSat s.cus c place
  have htaken := h.taken
  constructor
  · rw [hcus]
    omega
  · rintro ⟨d, hd⟩
    rw [hcus] at hd ⊢
    have hbefore : maxFreeseats.toNat ≤ census Customer.hasSat s.cus := by
      by_cases hdc : d = c
      · rw [hdc, Function.update_self] at hd
        rcases hnone hd with hbefore | hzero
        · exact h.turned ⟨c, hbefore⟩
        · rw [hzero] at htaken
          simpa using htaken
      · rw [Function.update_of_ne hdc] at hd
        exact h.turned ⟨d, hd⟩
    omega

theorem Seated.of_stay (h : Seated maxFreeseats s) {c : ι} (place : Customer)
    (hcus : t.cus = Function.update s.cus c place) (hfree : t.freeseats = s.freeseats)
    (hsat : place.hasSat = (s.cus c).hasSat)
    (hnone : place.sawNone = true → (s.cus c).sawNone = true ∨ s.freeseats = 0) :
    Seated maxFreeseats t := by
  apply h.of_move place hcus _ _ hnone
  · rw [hsat]
  · rw [hsat, hfree]

theorem Seated.custhread (h : Seated maxFreeseats s) (hinv : Inv maxFreeseats s) {c : ι}
    (hstep : custhread c s = .next t) : Seated maxFreeseats t := by
  have hknows := hinv.customer c
  have hnone {P : Prop} (h : false = true) : P := absurd h Bool.false_ne_true
  rw [SleepingBarber.custhread] at hstep
  cases hcus : s.cus c with
  | arriving =>
      rw [hcus] at hstep
      obtain ⟨left, _, rfl⟩ := semWait_eq_next hstep
      exact h.of_stay .looking rfl rfl (by rw [hcus]; rfl) hnone
  | looking =>
      rw [hcus] at hstep
      cases hstep
      by_cases hfree : 0 < s.freeseats
      · rw [if_pos hfree]
        exact h.of_stay .sitting rfl rfl (by rw [hcus]; rfl) hnone
      · rw [if_neg hfree]
        exact h.of_stay .leaving rfl rfl (by rw [hcus]; rfl) fun _ ↦ .inr (by simpa using hfree)
  | sitting =>
      rw [hcus] at hstep
      cases hstep
      exact h.of_stay (.storing s.freeseats) rfl rfl (by rw [hcus]; rfl) hnone
  | storing seats =>
      rw [hcus] at hstep hknows
      cases hstep
      obtain ⟨rfl, hfree⟩ := hknows
      have htaken := toNat_sub_one hfree
      apply h.of_move .calling rfl _ _ hnone
      · rw [hcus]
        exact Nat.zero_le 1
      · rw [hcus]
        simp only [Customer.hasSat, Bool.toNat_false, Bool.toNat_true]
        omega
  | calling =>
      rw [hcus] at hstep
      cases hstep
      exact h.of_stay .releasing rfl rfl (by rw [hcus]; rfl) hnone
  | releasing =>
      rw [hcus] at hstep
      cases hstep
      exact h.of_stay .waiting rfl rfl (by rw [hcus]; rfl) hnone
  | waiting =>
      rw [hcus] at hstep
      obtain ⟨left, _, rfl⟩ := semWait_eq_next hstep
      exact h.of_stay .served rfl rfl (by rw [hcus]; rfl) hnone
  | leaving =>
      rw [hcus] at hstep
      cases hstep
      exact h.of_stay .unserved rfl rfl (by rw [hcus]; rfl) fun _ ↦ .inl (by rw [hcus]; rfl)
  | served | unserved =>
      rw [hcus] at hstep
      cases hstep

omit [DecidableEq ι] in
theorem seated_opening : Seated maxFreeseats (opening ι maxFreeseats) where
  taken := Nat.le_add_right _ _
  turned := by
    rintro ⟨c, hc⟩
    exact absurd hc Bool.false_ne_true

theorem seated_of_reach (h : (barberShop ι maxFreeseats).Reach s) :
    Inv maxFreeseats s ∧ Seated maxFreeseats s := by
  apply h.invariant
  · rintro s rfl
    exact ⟨inv_opening, seated_opening⟩
  · intro a s t hboth hstep
    cases a with
    | barber => exact ⟨hboth.1.barthread hstep, hboth.2.barthread hboth.1 hstep⟩
    | customer c => exact ⟨hboth.1.custhread hstep, hboth.2.custhread hboth.1 hstep⟩

/-! ## The end of the day -/

/-- Nothing is left to be done. -/
structure Settled (maxFreeseats : UInt32) (s : State ι) : Prop where
  finished : ∀ c, (s.cus c).finished = true
  asleep : s.bar = .asleep
  semaphores : s.barsem = 0 ∧ s.cussem = 0 ∧ s.seasem = 1
  seats : s.freeseats = maxFreeseats
  /-- The customers who were served are as many as the barber has invited. -/
  invited : census Customer.isServed s.cus = s.invited
  /-- If not all customers were served, as many of them were as there are seats. -/
  served : min (Fintype.card ι) maxFreeseats.toNat ≤ census Customer.isServed s.cus

omit [DecidableEq ι] in
theorem Seated.served_le (h : Seated maxFreeseats s) (hall : ∀ c, (s.cus c).finished = true) :
    min (Fintype.card ι) maxFreeseats.toNat ≤ census Customer.isServed s.cus := by
  have hsame : census Customer.hasSat s.cus = census Customer.isServed s.cus := by
    rw [census_eq_sum, census_eq_sum]
    apply Finset.sum_congr rfl
    intro c _
    have hc := hall c
    cases hcus : s.cus c <;> rw [hcus] at hc <;> first | rfl | contradiction
  by_cases hturned : ∃ c, (s.cus c).sawNone = true
  · rw [← hsame]
    exact (min_le_right _ _).trans (h.turned hturned)
  · have hserved : ∀ c, (s.cus c).isServed = true := fun c ↦ by
      have hc := hall c
      cases hcus : s.cus c <;> rw [hcus] at hc <;> first
        | rfl
        | contradiction
        | exact absurd ⟨c, by rw [hcus]; rfl⟩ hturned
    apply (min_le_left _ _).trans
    rw [census_eq_sum]
    simp [hserved]

omit [Fintype ι] [DecidableEq ι] in
theorem barthread_eq_blocked (h : barthread s = .blocked) : s.bar = .asleep ∨ s.bar = .called := by
  rw [barthread] at h
  cases hbar : s.bar with
  | asleep => exact .inl rfl
  | called => exact .inr rfl
  | seating | storing _ | inviting | releasing =>
      rw [hbar] at h
      cases h

theorem settled_of_blocked (h : (barberShop ι maxFreeseats).Reach s)
    (hblocked : ∀ a, (barberShop ι maxFreeseats).step a s = .blocked) :
    Settled maxFreeseats s := by
  obtain ⟨hinv, hseated⟩ := seated_of_reach h
  have hall : ∀ c, (s.cus c).finished = true := fun c ↦ by
    by_contra hc
    rw [Bool.not_eq_true] at hc
    have hmore : ∃ a t, (barberShop ι maxFreeseats).step a s = .next t := hinv.exists_step hc
    obtain ⟨a, t, hnext⟩ := hmore
    rw [hblocked a] at hnext
    cases hnext
  have hnobody (p : Customer → Bool) (hp : p .served = false ∧ p .unserved = false) :
      census p s.cus = 0 := by
    apply census_eq_zero
    intro c
    have hc := hall c
    cases hcus : s.cus c <;> rw [hcus] at hc <;> first
      | exact hp.1
      | exact hp.2
      | contradiction
  have hcalls := hinv.calls
  rw [hnobody Customer.awaitsBarber ⟨rfl, rfl⟩] at hcalls
  have hasleep : s.bar = .asleep := by
    rcases barthread_eq_blocked (hblocked .barber) with hbar | hbar
    · exact hbar
    · rw [hbar] at hcalls
      simp only [Barber.owesInvitation, Bool.toNat_true] at hcalls
      omega
  have hexclusive := hinv.exclusive
  have hseats := hinv.seats
  have hinvitations := hinv.invitations
  rw [hasleep, hnobody Customer.holdsSeasem ⟨rfl, rfl⟩] at hexclusive
  rw [hasleep, hnobody Customer.owesCall ⟨rfl, rfl⟩] at hseats
  exact {
    finished := hall
    asleep := hasleep
    semaphores := ⟨by omega, by omega, by simpa [Barber.holdsSeasem] using hexclusive⟩
    seats := UInt32.toNat_inj.1 (by simp [Barber.owesSeat] at hseats; omega)
    invited := by omega
    served := hseated.served_le hall }

/-- Every schedule of the barber and any number of customers ends, and where it ends everything is
settled. -/
theorem barberShop_settles (ι : Type) [Fintype ι] [DecidableEq ι] (maxFreeseats : UInt32) :
    (∃ bound, ∀ n t, (barberShop ι maxFreeseats).Steps (opening ι maxFreeseats) n t → n ≤ bound) ∧
      ∀ s, (barberShop ι maxFreeseats).Reach s →
        (∀ a, (barberShop ι maxFreeseats).step a s = .blocked) → Settled maxFreeseats s := by
  refine ⟨⟨(opening ι maxFreeseats).work, fun n t hsteps ↦ ?_⟩, fun s hs hblocked ↦
    settled_of_blocked hs hblocked⟩
  exact @System.Steps.length_le _ _ _ _ _ (fun _ ↦ True) State.work n hsteps trivial
    fun a s t _ hstep ↦ ⟨trivial, work_lt hstep⟩

end Experimentation.SleepingBarber
