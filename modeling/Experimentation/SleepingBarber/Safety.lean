import Experimentation.Semantics.Census
import Experimentation.SleepingBarber.Program

/-!
# Safety of the barber shop

Three counting equations hold in every reachable state.  The value of `seasem` and the threads in
their critical sections are one in all.  The free seats, the value of `cussem`, the barber who has
been called and has not yet freed the seat, and the customer who has sat down and has not yet called
are as many as there are seats.  The customers who have called and wait for the barber are as many
as the calls he has not answered and the invitations they have not followed.  From these
everything else is read off, the absence of a stuck state included.
-/

namespace Experimentation.SleepingBarber

open Semantics

variable {ι : Type} {maxFreeseats : UInt32} {s t : State ι}

/-- What a customer inside the critical section knows of the counter. -/
def Customer.Knows (freeseats : UInt32) : Customer → Prop
  | .sitting => 0 < freeseats
  | .storing seats => seats = freeseats ∧ 0 < freeseats
  | .leaving => freeseats = 0
  | _ => True

/-- What the barber inside the critical section knows of the counter. -/
def Barber.Knows (freeseats : UInt32) : Barber → Prop
  | .storing seats => seats = freeseats
  | _ => True

/-- The invariant of the barber shop. -/
structure Inv [Fintype ι] (maxFreeseats : UInt32) (s : State ι) : Prop where
  exclusive : s.seasem + s.bar.holdsSeasem.toNat +
    census Customer.holdsSeasem s.cus = 1
  seats : s.freeseats.toNat + s.cussem + s.bar.owesSeat.toNat +
    census Customer.owesCall s.cus = maxFreeseats.toNat
  calls : census Customer.awaitsBarber s.cus =
    s.cussem + s.bar.owesInvitation.toNat + s.barsem
  invitations : census Customer.isServed s.cus + s.barsem = s.invited
  barber : s.bar.Knows s.freeseats
  customer : ∀ c, (s.cus c).Knows s.freeseats

theorem semWait_eq_next {value : ℕ} {after : ℕ → State ι} (h : semWait value after = .next t) :
    ∃ left, value = left + 1 ∧ after left = t := by
  cases value with
  | zero => cases h
  | succ left => exact ⟨left, rfl, by simpa [semWait] using h⟩

theorem exists_step_of_holdsSeasem [DecidableEq ι] {a : Thread ι} (h : HoldsSeasem s a = true) :
    ∃ t, (barberShop ι maxFreeseats).step a s = .next t := by
  cases a with
  | barber =>
      change ∃ t, barthread s = .next t
      rw [barthread]
      rw [HoldsSeasem] at h
      cases hbar : s.bar <;> rw [hbar] at h <;> first | exact ⟨_, rfl⟩ | contradiction
  | customer c =>
      change ∃ t, custhread c s = .next t
      rw [custhread]
      rw [HoldsSeasem] at h
      cases hcus : s.cus c <;> rw [hcus] at h <;> first | exact ⟨_, rfl⟩ | contradiction

theorem barthread_cus (h : barthread s = .next t) : t.cus = s.cus := by
  rw [barthread] at h
  cases hbar : s.bar with
  | asleep | called =>
      rw [hbar] at h
      obtain ⟨left, _, rfl⟩ := semWait_eq_next h
      rfl
  | seating | storing _ | inviting | releasing =>
      rw [hbar] at h
      cases h
      rfl

theorem custhread_cus [DecidableEq ι] {c : ι} (h : custhread c s = .next t) :
    ∃ place, t.cus = Function.update s.cus c place ∧
      (place = .unserved → s.cus c = .leaving) := by
  rw [custhread] at h
  cases hcus : s.cus c with
  | arriving | waiting =>
      rw [hcus] at h
      obtain ⟨left, _, rfl⟩ := semWait_eq_next h
      exact ⟨_, rfl, fun hplace ↦ by contradiction⟩
  | looking =>
      rw [hcus] at h
      cases h
      refine ⟨_, rfl, fun hplace ↦ ?_⟩
      split at hplace <;> contradiction
  | sitting | storing _ | calling | releasing =>
      rw [hcus] at h
      cases h
      exact ⟨_, rfl, fun hplace ↦ by contradiction⟩
  | leaving =>
      rw [hcus] at h
      cases h
      exact ⟨_, rfl, fun _ ↦ rfl⟩
  | served | unserved =>
      rw [hcus] at h
      cases h

theorem leaving_of_unserved [DecidableEq ι] {a : Thread ι} {c : ι}
    (h : (barberShop ι maxFreeseats).step a s = .next t) (hbefore : s.cus c ≠ .unserved)
    (hafter : t.cus c = .unserved) : s.cus c = .leaving := by
  cases a with
  | barber =>
      rw [barthread_cus h] at hafter
      exact absurd hafter hbefore
  | customer d =>
      obtain ⟨place, hplace, hleaving⟩ := custhread_cus h
      rw [hplace] at hafter
      by_cases hcd : c = d
      · rw [hcd, Function.update_self] at hafter
        rw [hcd]
        exact hleaving hafter
      · rw [Function.update_of_ne hcd] at hafter
        exact absurd hafter hbefore

theorem holdsSeasem_of_touches {a : Thread ι} (h : TouchesFreeseats s a = true) :
    HoldsSeasem s a = true := by
  cases a with
  | barber =>
      rw [TouchesFreeseats] at h
      rw [HoldsSeasem]
      cases hbar : s.bar <;> rw [hbar] at h <;> trivial
  | customer c =>
      rw [TouchesFreeseats] at h
      rw [HoldsSeasem]
      cases hcus : s.cus c <;> rw [hcus] at h <;> trivial

section

variable [Fintype ι]

/-! ## The critical section -/

theorem Inv.customer_eq (hinv : Inv maxFreeseats s) {c d : ι}
    (hc : (s.cus c).holdsSeasem = true) (hd : (s.cus d).holdsSeasem = true) : c = d := by
  have hcount := hinv.exclusive
  exact eq_of_census_le_one (by omega) hc hd

theorem Inv.barber_outside (hinv : Inv maxFreeseats s) {c : ι}
    (hc : (s.cus c).holdsSeasem = true) : s.bar.holdsSeasem = false := by
  have hcount := hinv.exclusive
  have hpos := census_pos hc
  by_contra hbar
  rw [Bool.not_eq_false] at hbar
  rw [hbar, Bool.toNat_true] at hcount
  omega

theorem Inv.holdsSeasem_unique (hinv : Inv maxFreeseats s) {a b : Thread ι}
    (ha : HoldsSeasem s a = true) (hb : HoldsSeasem s b = true) : a = b := by
  cases a with
  | barber =>
      cases b with
      | barber => rfl
      | customer d =>
          have hout := hinv.barber_outside hb
          rw [show s.bar.holdsSeasem = true from ha] at hout
          contradiction
  | customer c =>
      cases b with
      | barber =>
          have hout := hinv.barber_outside ha
          rw [show s.bar.holdsSeasem = true from hb] at hout
          contradiction
      | customer d => rw [hinv.customer_eq ha hb]

theorem Customer.knows_of_outside {place : Customer} (h : place.holdsSeasem = false)
    (freeseats : UInt32) : place.Knows freeseats := by
  cases place <;> trivial

theorem Barber.knows_of_outside {place : Barber} (h : place.holdsSeasem = false)
    (freeseats : UInt32) : place.Knows freeseats := by
  cases place <;> trivial

/-- While one customer is inside, the others know nothing that a new value could refute. -/
theorem Inv.others_know (hinv : Inv maxFreeseats s) {c d : ι}
    (hc : (s.cus c).holdsSeasem = true) (hne : d ≠ c) (freeseats : UInt32) :
    (s.cus d).Knows freeseats := by
  apply Customer.knows_of_outside
  by_contra hd
  rw [Bool.not_eq_false] at hd
  exact hne (hinv.customer_eq hd hc)

/-- While the barber is inside, no customer knows anything that a new value could refute. -/
theorem Inv.customers_know (hinv : Inv maxFreeseats s) (hbar : s.bar.holdsSeasem = true) (c : ι)
    (freeseats : UInt32) : (s.cus c).Knows freeseats := by
  apply Customer.knows_of_outside
  by_contra hc
  rw [Bool.not_eq_false] at hc
  rw [hinv.barber_outside hc] at hbar
  contradiction

/-! ## Steps -/

theorem Inv.of_move [DecidableEq ι] (hinv : Inv maxFreeseats s) {c : ι} (place : Customer)
    (hplace : t.cus = Function.update s.cus c place)
    (hexclusive : t.seasem + t.bar.holdsSeasem.toNat +
      place.holdsSeasem.toNat = s.seasem + s.bar.holdsSeasem.toNat +
      (s.cus c).holdsSeasem.toNat)
    (hseats : t.freeseats.toNat + t.cussem + t.bar.owesSeat.toNat +
      place.owesCall.toNat = s.freeseats.toNat + s.cussem +
      s.bar.owesSeat.toNat + (s.cus c).owesCall.toNat)
    (hcalls : place.awaitsBarber.toNat + (s.cussem +
      s.bar.owesInvitation.toNat + s.barsem) =
      (s.cus c).awaitsBarber.toNat + (t.cussem +
      t.bar.owesInvitation.toNat + t.barsem))
    (hinvitations : place.isServed.toNat + t.barsem + s.invited =
      (s.cus c).isServed.toNat + s.barsem + t.invited)
    (hbarber : t.bar.Knows t.freeseats) (hknows : place.Knows t.freeseats)
    (hothers : ∀ d, d ≠ c → (s.cus d).Knows t.freeseats) : Inv maxFreeseats t where
  exclusive := by
    have hcount := census_update Customer.holdsSeasem s.cus c place
    have hbefore := hinv.exclusive
    rw [hplace]
    omega
  seats := by
    have hcount := census_update Customer.owesCall s.cus c place
    have hbefore := hinv.seats
    rw [hplace]
    omega
  calls := by
    have hcount := census_update Customer.awaitsBarber s.cus c place
    have hbefore := hinv.calls
    rw [hplace]
    omega
  invitations := by
    have hcount := census_update Customer.isServed s.cus c place
    have hbefore := hinv.invitations
    rw [hplace]
    omega
  barber := hbarber
  customer d := by
    rw [hplace]
    by_cases hd : d = c
    · rw [hd, Function.update_self]
      exact hknows
    · rw [Function.update_of_ne hd]
      exact hothers d hd

theorem inv_opening : Inv maxFreeseats (opening ι maxFreeseats) where
  exclusive := congrArg (1 + ·) (census_eq_zero fun _ ↦ rfl)
  seats := congrArg (maxFreeseats.toNat + ·) (census_eq_zero fun _ ↦ rfl)
  calls := census_eq_zero fun _ ↦ rfl
  invitations := census_eq_zero fun _ ↦ rfl
  barber := trivial
  customer _ := trivial

theorem Inv.of_bar (hinv : Inv maxFreeseats s) (hcus : t.cus = s.cus)
    (hexclusive : t.seasem + t.bar.holdsSeasem.toNat = s.seasem + s.bar.holdsSeasem.toNat)
    (hseats : t.freeseats.toNat + t.cussem + t.bar.owesSeat.toNat =
      s.freeseats.toNat + s.cussem + s.bar.owesSeat.toNat)
    (hcalls : t.cussem + t.bar.owesInvitation.toNat + t.barsem =
      s.cussem + s.bar.owesInvitation.toNat + s.barsem)
    (hinvitations : t.barsem + s.invited = s.barsem + t.invited)
    (hbarber : t.bar.Knows t.freeseats) (hcustomers : ∀ c, (s.cus c).Knows t.freeseats) :
    Inv maxFreeseats t where
  exclusive := by rw [hcus, hexclusive, hinv.exclusive]
  seats := by rw [hcus, hseats, hinv.seats]
  calls := by rw [hcus, hcalls, hinv.calls]
  invitations := by
    have hbefore := hinv.invitations
    rw [hcus]
    omega
  barber := hbarber
  customer c := by
    rw [hcus]
    exact hcustomers c

theorem Inv.freeseats_lt (hinv : Inv maxFreeseats s) (h : s.bar.owesSeat = true) :
    s.freeseats.toNat < maxFreeseats.toNat := by
  have hseats := hinv.seats
  rw [h, Bool.toNat_true] at hseats
  omega

theorem Inv.freeseats_le (hinv : Inv maxFreeseats s) : s.freeseats ≤ maxFreeseats := by
  have hseats := hinv.seats
  exact UInt32.le_iff_toNat_le.2 (by omega)

/-- Outside the critical sections the only barber who owes a seat is the one who was called. -/
theorem Inv.seats_of_outside (hinv : Inv maxFreeseats s) (h : ∀ a, HoldsSeasem s a = false) :
    s.freeseats.toNat + s.cussem + (if s.bar = .called then 1 else 0) = maxFreeseats.toNat := by
  have hseats := hinv.seats
  have hbarber : s.bar.holdsSeasem = false := h .barber
  have hcustomers : census Customer.owesCall s.cus = 0 := by
    apply census_eq_zero
    intro c
    have hout : (s.cus c).holdsSeasem = false := h (.customer c)
    cases hcus : s.cus c <;> rw [hcus] at hout <;> trivial
  rw [hcustomers, Nat.add_zero] at hseats
  rw [← hseats]
  cases hbar : s.bar <;> rw [hbar] at hbarber <;> trivial

theorem Inv.toNat_add_one (hinv : Inv maxFreeseats s) (h : s.bar.owesSeat = true) :
    (s.freeseats + 1).toNat = s.freeseats.toNat + 1 := by
  have hless := hinv.freeseats_lt h
  have hmax := maxFreeseats.toNat_lt
  rw [UInt32.toNat_add, show (1 : UInt32).toNat = 1 from rfl]
  omega

section Steps

attribute [local simp] State.move Barber.holdsSeasem Barber.owesSeat Barber.owesInvitation
  Barber.Knows Customer.holdsSeasem Customer.owesCall Customer.awaitsBarber Customer.isServed

theorem Inv.barthread (hinv : Inv maxFreeseats s) (h : barthread s = .next t) :
    Inv maxFreeseats t := by
  rw [SleepingBarber.barthread] at h
  cases hbar : s.bar with
  | asleep =>
      rw [hbar] at h
      obtain ⟨left, hleft, rfl⟩ := semWait_eq_next h
      refine hinv.of_bar rfl ?_ ?_ ?_ ?_ ?_ ?_ <;> simp [hbar, hleft]
      · omega
      · exact hinv.customer
  | called =>
      rw [hbar] at h
      obtain ⟨left, hleft, rfl⟩ := semWait_eq_next h
      refine hinv.of_bar rfl ?_ ?_ ?_ ?_ ?_ ?_ <;> simp [hbar, hleft]
      exact hinv.customer
  | seating =>
      rw [hbar] at h
      cases h
      refine hinv.of_bar rfl ?_ ?_ ?_ ?_ ?_ ?_ <;> simp [hbar]
      exact hinv.customer
  | storing seats =>
      rw [hbar] at h
      cases h
      have hheld : s.bar.holdsSeasem = true := by rw [hbar]; rfl
      have hknown : seats = s.freeseats := by simpa [hbar] using hinv.barber
      have hroom := hinv.toNat_add_one (by rw [hbar]; rfl)
      have hcustomers (c : ι) := hinv.customers_know hheld c (s.freeseats + 1)
      subst hknown
      refine hinv.of_bar rfl ?_ ?_ ?_ ?_ ?_ ?_ <;> simp [hbar, hroom]
      · omega
      · exact hcustomers
  | inviting =>
      rw [hbar] at h
      cases h
      refine hinv.of_bar rfl ?_ ?_ ?_ ?_ ?_ ?_ <;> simp [hbar]
      · omega
      · omega
      · exact hinv.customer
  | releasing =>
      rw [hbar] at h
      cases h
      refine hinv.of_bar rfl ?_ ?_ ?_ ?_ ?_ ?_ <;> simp [hbar]
      exact hinv.customer

theorem toNat_sub_one {seats : UInt32} (h : 0 < seats) : (seats - 1).toNat + 1 = seats.toNat := by
  have hpos : 0 < seats.toNat := UInt32.lt_iff_toNat_lt.1 h
  have hone : (1 : UInt32) ≤ seats := UInt32.le_iff_toNat_le.2 hpos
  rw [UInt32.toNat_sub_of_le _ _ hone]
  exact Nat.sub_add_cancel hpos

theorem Inv.custhread [DecidableEq ι] (hinv : Inv maxFreeseats s) {c : ι}
    (h : custhread c s = .next t) : Inv maxFreeseats t := by
  have hothers (d : ι) (_ : d ≠ c) := hinv.customer d
  have hknows := hinv.customer c
  rw [SleepingBarber.custhread] at h
  cases hcus : s.cus c with
  | arriving =>
      rw [hcus] at h
      obtain ⟨left, hleft, rfl⟩ := semWait_eq_next h
      refine hinv.of_move .looking rfl ?_ ?_ ?_ ?_ hinv.barber trivial hothers <;>
        simp [hcus, hleft]
      omega
  | looking =>
      rw [hcus] at h
      cases h
      by_cases hseat : 0 < s.freeseats
      · rw [if_pos hseat]
        refine hinv.of_move .sitting rfl ?_ ?_ ?_ ?_ hinv.barber hseat hothers <;>
          simp [hcus]
      · rw [if_neg hseat]
        have hnone : s.freeseats = 0 := by simpa using hseat
        refine hinv.of_move .leaving rfl ?_ ?_ ?_ ?_ hinv.barber hnone hothers <;>
          simp [hcus]
  | sitting =>
      rw [hcus] at h hknows
      cases h
      refine hinv.of_move (.storing s.freeseats) rfl ?_ ?_ ?_ ?_ hinv.barber ⟨rfl, hknows⟩
        hothers <;>
        simp [hcus]
  | storing seats =>
      rw [hcus] at h hknows
      cases h
      obtain ⟨rfl, hseat⟩ := hknows
      have hheld : (s.cus c).holdsSeasem = true := by rw [hcus]; rfl
      have htaken := toNat_sub_one hseat
      have hbarber := Barber.knows_of_outside (hinv.barber_outside hheld) (s.freeseats - 1)
      have hnew (d : ι) (hne : d ≠ c) := hinv.others_know hheld hne (s.freeseats - 1)
      refine hinv.of_move .calling rfl ?_ ?_ ?_ ?_ hbarber trivial hnew <;>
        simp [hcus]
      omega
  | calling =>
      rw [hcus] at h
      cases h
      refine hinv.of_move .releasing rfl ?_ ?_ ?_ ?_ hinv.barber trivial hothers <;>
        simp [hcus]
      · omega
      · omega
  | releasing =>
      rw [hcus] at h
      cases h
      refine hinv.of_move .waiting rfl ?_ ?_ ?_ ?_ hinv.barber trivial hothers <;>
        simp [hcus]
      omega
  | waiting =>
      rw [hcus] at h
      obtain ⟨left, hleft, rfl⟩ := semWait_eq_next h
      refine hinv.of_move .served rfl ?_ ?_ ?_ ?_ hinv.barber trivial hothers <;>
        simp [hcus, hleft]
      · omega
      · omega
  | leaving =>
      rw [hcus] at h
      cases h
      refine hinv.of_move .unserved rfl ?_ ?_ ?_ ?_ hinv.barber trivial hothers <;>
        simp [hcus]
      omega
  | served =>
      rw [hcus] at h
      cases h
  | unserved =>
      rw [hcus] at h
      cases h

end Steps

/-- Every reachable state satisfies the invariant. -/
theorem inv_of_reach [DecidableEq ι] (h : (barberShop ι maxFreeseats).Reach s) :
    Inv maxFreeseats s := by
  apply h.invariant
  · rintro s rfl
    exact inv_opening
  · intro a s t hinv hstep
    cases a with
    | barber => exact hinv.barthread hstep
    | customer c => exact hinv.custhread hstep

/-! ## Progress -/

theorem Inv.seasem_eq_one (hinv : Inv maxFreeseats s) (h : ∀ a, HoldsSeasem s a = false) :
    s.seasem = 1 := by
  have hcount := hinv.exclusive
  have hcustomers : census Customer.holdsSeasem s.cus = 0 := by
    apply census_eq_zero
    intro c
    exact h (.customer c)
  have hbarber : s.bar.holdsSeasem = false := h .barber
  rw [hbarber, hcustomers] at hcount
  exact hcount

/-- If nobody is inside, the barber, the customer who wants to enter or the one who waits can take
a step: a customer who waits has been called for, or his call has not been answered. -/
theorem Inv.exists_step_of_outside [DecidableEq ι] (hinv : Inv maxFreeseats s)
    (hout : ∀ a, HoldsSeasem s a = false) {c : ι} (hc : (s.cus c).finished = false) :
    ∃ a t, (barberShop ι maxFreeseats).step a s = .next t := by
  have hfree := hinv.seasem_eq_one hout
  cases hbar : s.bar with
  | called =>
      refine ⟨.barber, { s with seasem := 0, bar := .seating }, ?_⟩
      simp [barberShop, SleepingBarber.barthread, hbar, hfree, semWait]
  | asleep =>
      cases hcus : s.cus c with
      | arriving =>
          refine ⟨.customer c, { s.move c .looking with seasem := 0 }, ?_⟩
          simp [barberShop, SleepingBarber.custhread, hcus, hfree, semWait]
      | waiting =>
          have hpos : 0 < census Customer.awaitsBarber s.cus := census_pos (by rw [hcus]; rfl)
          have hcalls := hinv.calls
          rw [hbar, show Barber.asleep.owesInvitation = false from rfl, Bool.toNat_false] at hcalls
          cases hsem : s.barsem with
          | succ left =>
              refine ⟨.customer c, { s.move c .served with barsem := left }, ?_⟩
              simp [barberShop, SleepingBarber.custhread, hcus, hsem, semWait]
          | zero =>
              obtain ⟨left, hleft⟩ := Nat.exists_eq_succ_of_ne_zero
                (show s.cussem ≠ 0 by omega)
              refine ⟨.barber, { s with cussem := left, bar := .called }, ?_⟩
              simp [barberShop, SleepingBarber.barthread, hbar, hleft, semWait]
      | served => rw [hcus] at hc; contradiction
      | unserved => rw [hcus] at hc; contradiction
      | looking | sitting | storing _ | calling | releasing | leaving =>
          have hnot : (s.cus c).holdsSeasem = false := hout (.customer c)
          rw [hcus] at hnot
          contradiction
  | seating | storing _ | inviting | releasing =>
      have hnot : s.bar.holdsSeasem = false := hout .barber
      rw [hbar] at hnot
      contradiction

/-- As long as a customer has not finished, some thread can take a step. -/
theorem Inv.exists_step [DecidableEq ι] (hinv : Inv maxFreeseats s) {c : ι}
    (hc : (s.cus c).finished = false) :
    ∃ a t, (barberShop ι maxFreeseats).step a s = .next t := by
  by_cases hin : ∃ a, HoldsSeasem s a = true
  · obtain ⟨a, ha⟩ := hin
    exact ⟨a, exists_step_of_holdsSeasem ha⟩
  · apply hinv.exists_step_of_outside _ hc
    intro a
    rw [← Bool.not_eq_true]
    exact fun ha ↦ hin ⟨a, ha⟩

end

/-- The barber shop in a state that some schedule reaches. -/
structure Safe [Fintype ι] [DecidableEq ι] (maxFreeseats : UInt32) (s : State ι) : Prop where
  /-- The counter is touched by one thread at a time, which is in its critical section. -/
  exclusive : ∀ a b, TouchesFreeseats s a = true →
    HoldsSeasem s a = true ∧ (HoldsSeasem s b = true → a = b)
  bounded : s.freeseats ≤ maxFreeseats
  /-- A customer writes one less than the number of free seats, which is not zero. -/
  taken : ∀ c seats, s.cus c = .storing seats → seats = s.freeseats ∧ 0 < s.freeseats
  /-- The barber writes one more than the number of free seats, which are not all seats. -/
  freed : ∀ seats, s.bar = .storing seats → seats = s.freeseats ∧ s.freeseats < maxFreeseats
  /-- Outside the critical sections every seat is free, called for or about to be freed. -/
  counted : (∀ a, HoldsSeasem s a = false) →
    s.freeseats.toNat + s.cussem + (if s.bar = .called then 1 else 0) = maxFreeseats.toNat
  /-- No more customers have got past `sem_wait(&barsem)` than the barber has invited. -/
  invitations : census Customer.isServed s.cus ≤ s.invited
  /-- A customer leaves unserved from inside his critical section, where no seat is free. -/
  refused : ∀ a t c, (barberShop ι maxFreeseats).step a s = .next t → s.cus c ≠ .unserved →
    t.cus c = .unserved → HoldsSeasem s (.customer c) = true ∧ s.freeseats = 0
  /-- Not every thread is blocked while a customer has not finished. -/
  progress : (∃ c, (s.cus c).finished = false) →
    ∃ a t, (barberShop ι maxFreeseats).step a s = .next t

/-- Every interleaving of the barber and any number of customers is safe. -/
theorem barberShop_safe (ι : Type) [Fintype ι] [DecidableEq ι] (maxFreeseats : UInt32)
    (s : State ι) (h : (barberShop ι maxFreeseats).Reach s) : Safe maxFreeseats s := by
  have hinv := inv_of_reach h
  exact {
    exclusive := fun a b ha ↦
      ⟨holdsSeasem_of_touches ha, hinv.holdsSeasem_unique (holdsSeasem_of_touches ha)⟩
    bounded := hinv.freeseats_le
    taken := fun c seats hc ↦ by
      have hknows := hinv.customer c
      rwa [hc] at hknows
    freed := fun seats hbar ↦ by
      have hknows := hinv.barber
      rw [hbar] at hknows
      exact ⟨hknows, UInt32.lt_iff_toNat_lt.2 (hinv.freeseats_lt (by rw [hbar]; rfl))⟩
    counted := hinv.seats_of_outside
    invitations := by
      have hcount := hinv.invitations
      omega
    refused := fun a t c hstep hbefore hafter ↦ by
      have hleaving := leaving_of_unserved hstep hbefore hafter
      have hknows := hinv.customer c
      rw [hleaving] at hknows
      exact ⟨by rw [HoldsSeasem, hleaving]; rfl, hknows⟩
    progress := fun ⟨_, hc⟩ ↦ hinv.exists_step hc }

/-- The first customer finds the only seat, the barber frees it and invites him, and the second one
takes it after that. -/
def twoVisits : List (Thread (Fin 2)) :=
  List.replicate 6 (.customer 0) ++ List.replicate 6 .barber ++
    .customer 0 :: List.replicate 6 (.customer 1)

/-- One customer has been served and another one waits to be. -/
theorem barberShop_safe_twoVisits : ∃ s,
    (barberShop (Fin 2) 1).replay (opening (Fin 2) 1) twoVisits = some s ∧
      s.cus 0 = .served ∧ s.cus 1 = .waiting ∧ s.invited = 1 ∧ Safe 1 s := by
  have hstart : (barberShop (Fin 2) 1).Reach (opening (Fin 2) 1) := .init rfl
  exact ⟨_, rfl, rfl, rfl, rfl, barberShop_safe (Fin 2) 1 _ (hstart.replay twoVisits rfl)⟩

end Experimentation.SleepingBarber
