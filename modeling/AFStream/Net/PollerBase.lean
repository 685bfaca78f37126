/-
# The timers of a poller

`poller_base_t` keeps its timers in a multimap by the time at which they expire. `execute_timers`
walks through the map and calls the sinks of those that are due; a sink may start new timers while
the iterator stands on its own one, and where they go decides whether the same pass still sees
them. The module shows that, as long as what is started expires later than the pass began, a pass
does what one would expect of it: it fires the timers that are due in order, then the new ones are
sorted in, and the returned time leads to the first of what is left.
-/

import AFStream.Foundation.Faults

namespace AFStream.Net

open AFStream.Foundation

universe u v w

/-- An entry of `timers`: its key, and the sink and the id that `timer_event` is called with. -/
structure Timer (α : Type u) where
  expiration : ℕ
  event : α
  deriving DecidableEq, Repr

variable {ε : Type w} {α : Type u} {σ : Type v}

/-- Sorted as the multimap is. -/
def Sorted (timers : List (Timer α)) : Prop :=
  timers.Pairwise fun first second => first.expiration ≤ second.expiration

/-- `insert` of the multimap: behind all entries with the same key. -/
def insertTimer (timer : Timer α) : List (Timer α) → List (Timer α)
  | [] => [timer]
  | first :: rest =>
    if timer.expiration < first.expiration then timer :: first :: rest
    else first :: insertTimer timer rest

/-- `add_timer`: the timeout is an `int`, the sum a `uint64_t`. -/
def addTimer (timers : List (Timer α)) (now : ℕ) (timeout : ℤ) (event : α) : List (Timer α) :=
  insertTimer ⟨((now + timeout) % 2 ^ 64).toNat, event⟩ timers

/-- `cancel_timer`; it asserts that there is such a timer. -/
def cancelTimer [DecidableEq α] (timers : List (Timer α)) (event : α) : Option (List (Timer α)) :=
  if event ∈ timers.map Timer.event then
    some (timers.eraseP fun timer => timer.event = event)
  else none

/-- What `timer_event` of the sinks does: to their state, and the timers it starts. -/
abbrev TimerEvent (ε : Type w) (α : Type u) (σ : Type v) := σ → α → Except ε (σ × List (Timer α))

/-- Insert a timer while the iterator stands on another one. -/
def insertAround (current : Timer α) (around : List (Timer α) × List (Timer α))
    (timer : Timer α) : List (Timer α) × List (Timer α) :=
  if timer.expiration < current.expiration then (insertTimer timer around.1, around.2)
  else (around.1, insertTimer timer around.2)

/-- The loop of `execute_timers` at a time: `passed` is before the iterator, `ahead` from there on. The
result is the time to wait, and what is left in the map; `endless` if the loop does not end in the
given number of rounds. -/
def timerLoop (timerEvent : TimerEvent ε α σ) (endless : ε) (now : ℕ) :
    ℕ → σ → List (Timer α) → List (Timer α) → Except ε (ℕ × σ × List (Timer α))
  | 0, _, _, _ => .error endless
  | _ + 1, s, passed, [] => .ok (0, s, passed)
  | fuel + 1, s, passed, timer :: ahead =>
    if now < timer.expiration then .ok (timer.expiration - now, s, passed ++ timer :: ahead)
    else
      (timerEvent s timer.event).bind fun (s, started) =>
        let (passed, ahead) := started.foldl (insertAround timer) (passed, ahead)
        timerLoop timerEvent endless now fuel s passed ahead

/-- `execute_timers` -/
def executeTimers (timerEvent : TimerEvent ε α σ) (endless : ε) (now fuel : ℕ) (s : σ)
    (timers : List (Timer α)) : Except ε (ℕ × σ × List (Timer α)) :=
  if timers = [] then .ok (0, s, []) else timerLoop timerEvent endless now fuel s [] timers

/-! ## The multimap -/

/-- Nothing is lost. -/
theorem insertTimer_perm (timer : Timer α) (timers : List (Timer α)) :
    (insertTimer timer timers).Perm (timer :: timers) := by
  induction timers with
  | nil => exact List.Perm.refl _
  | cons first rest ih =>
      rw [insertTimer]
      split_ifs
      · exact List.Perm.refl _
      · exact (ih.cons first).trans (List.Perm.swap timer first rest)

theorem mem_insertTimer {timer other : Timer α} {timers : List (Timer α)} :
    other ∈ insertTimer timer timers ↔ other = timer ∨ other ∈ timers := by
  rw [(insertTimer_perm timer timers).mem_iff, List.mem_cons]

theorem Sorted.insertTimer {timers : List (Timer α)} (h : Sorted timers) (timer : Timer α) :
    Sorted (insertTimer timer timers) := by
  induction timers with
  | nil => exact List.pairwise_singleton _ _
  | cons first rest ih =>
      rw [Net.insertTimer]
      obtain ⟨hfirst, hrest⟩ := List.pairwise_cons.mp h
      split_ifs with hlt
      · refine List.pairwise_cons.mpr ⟨fun other hother => ?_, h⟩
        rcases List.mem_cons.mp hother with rfl | hother
        · exact hlt.le
        · exact hlt.le.trans (hfirst other hother)
      · refine List.pairwise_cons.mpr ⟨fun other hother => ?_, ih hrest⟩
        rcases mem_insertTimer.mp hother with rfl | hother
        · exact Nat.le_of_not_lt hlt
        · exact hfirst other hother

/-- A timer that expires later than all of a first part goes behind it. -/
theorem insertTimer_append_of_le {timer : Timer α} {front rest : List (Timer α)}
    (hfront : ∀ other ∈ front, other.expiration ≤ timer.expiration) :
    insertTimer timer (front ++ rest) = front ++ insertTimer timer rest := by
  induction front with
  | nil => rfl
  | cons first front ih =>
      rw [List.forall_mem_cons] at hfront
      rw [List.cons_append, insertTimer, if_neg (Nat.not_lt.mpr hfront.1), ih hfront.2,
        List.cons_append]

/-- A timer that expires earlier than the first of a second part goes before it. -/
theorem insertTimer_append_of_lt {timer current : Timer α} {front rest : List (Timer α)}
    (hlt : timer.expiration < current.expiration) :
    insertTimer timer (front ++ current :: rest) = insertTimer timer front ++ current :: rest := by
  induction front with
  | nil => exact if_pos hlt
  | cons first front ih =>
      rw [List.cons_append, insertTimer, insertTimer]
      split_ifs
      · rfl
      · rw [ih]
        rfl

/-- The parts before and behind the iterator make up the map. -/
theorem insertAround_eq {current timer : Timer α} {passed ahead : List (Timer α)}
    (h : Sorted (passed ++ current :: ahead)) :
    insertTimer timer (passed ++ current :: ahead) =
      (insertAround current (passed, ahead) timer).1 ++
        current :: (insertAround current (passed, ahead) timer).2 := by
  rw [insertAround]
  split_ifs with hlt
  · exact insertTimer_append_of_lt hlt
  · have hle := Nat.le_of_not_lt hlt
    have hfront : ∀ other ∈ passed ++ [current], other.expiration ≤ timer.expiration := by
      intro other hother
      rcases List.mem_append.mp hother with hother | hother
      · exact ((List.pairwise_append.mp h).2.2 other hother current List.mem_cons_self).trans hle
      · rw [List.mem_singleton.mp hother]
        exact hle
    have hinsert : insertTimer timer ((passed ++ [current]) ++ ahead) =
        (passed ++ [current]) ++ insertTimer timer ahead := insertTimer_append_of_le hfront
    simpa using hinsert

/-- What is started while the iterator stands on a timer is all in the map. -/
theorem foldl_insertAround_perm (current : Timer α) (started passed ahead : List (Timer α)) :
    ((started.foldl (insertAround current) (passed, ahead)).1 ++
      (started.foldl (insertAround current) (passed, ahead)).2).Perm
        (started ++ (passed ++ ahead)) := by
  induction started generalizing passed ahead with
  | nil => exact List.Perm.refl _
  | cons first rest ih =>
      rw [List.foldl_cons, insertAround]
      split_ifs
      · refine (ih _ _).trans ?_
        have hperm := (insertTimer_perm first passed).append_right ahead
        exact (hperm.append_left rest).trans List.perm_middle
      · refine (ih _ _).trans ?_
        have hperm : (passed ++ insertTimer first ahead).Perm (first :: (passed ++ ahead)) :=
          ((insertTimer_perm first ahead).append_left passed).trans List.perm_middle
        exact (hperm.append_left rest).trans List.perm_middle

/-- **Rule for the loop.** What holds of the sinks and the timers in the map, in whatever order, and
is kept by every event together with the removal of its timer, holds behind the loop. -/
theorem safe_timerLoop {bad : Prop} {timerEvent : TimerEvent Fault α σ}
    (Inv : σ → List (Timer α) → Prop)
    (hperm : ∀ s timers timers', timers.Perm timers' → Inv s timers → Inv s timers')
    (hevent : ∀ s timer rest, Inv s (timer :: rest) →
      SafeUnless bad (fun result => Inv result.1 (result.2 ++ rest)) (timerEvent s timer.event))
    (now fuel : ℕ) (s : σ) (passed ahead : List (Timer α)) (h : Inv s (passed ++ ahead)) :
    SafeUnless bad (fun result => Inv result.2.1 result.2.2)
      (timerLoop timerEvent .environment now fuel s passed ahead) := by
  induction fuel generalizing s passed ahead with
  | zero => trivial
  | succ fuel ih =>
      cases ahead with
      | nil =>
          rw [List.append_nil] at h
          exact h
      | cons timer ahead =>
          rw [timerLoop]
          refine SafeUnless.ite (fun _ => h) fun _ => ?_
          refine (hevent s timer (passed ++ ahead) (hperm _ _ _ List.perm_middle h)).bind
            fun result hresult => ?_
          refine ih _ _ _ (hperm _ _ _ ?_ hresult)
          exact (foldl_insertAround_perm timer result.2 passed ahead).symm

/-! ## One pass -/

/-- Call the sinks of all the timers in order, and collect what they start. -/
def fireAll (timerEvent : TimerEvent ε α σ) :
    σ → List (Timer α) → Except ε (σ × List (Timer α))
  | s, [] => .ok (s, [])
  | s, timer :: rest =>
    (timerEvent s timer.event).bind fun (s, started) =>
      (fireAll timerEvent s rest).map fun (s, more) => (s, started ++ more)

/-- Put timers into the map, one after the other. -/
def insertAll (started timers : List (Timer α)) : List (Timer α) :=
  started.foldl (fun timers timer => insertTimer timer timers) timers

/-- How long to wait for the first timer; 0 if there is none. -/
def timeToWait (now : ℕ) : List (Timer α) → ℕ
  | [] => 0
  | first :: _ => first.expiration - now

/-- The timers that are due. -/
def due (now : ℕ) (timers : List (Timer α)) : List (Timer α) :=
  timers.filter fun timer => timer.expiration ≤ now

/-- The timers that are not due yet. -/
def later (now : ℕ) (timers : List (Timer α)) : List (Timer α) :=
  timers.filter fun timer => now < timer.expiration

variable {timerEvent : TimerEvent ε α σ} {endless : ε} {s s' : σ} {now fuel : ℕ}
  {timers started : List (Timer α)}

theorem mem_insertAll {timer : Timer α} :
    timer ∈ insertAll started timers ↔ timer ∈ started ∨ timer ∈ timers := by
  induction started generalizing timers with
  | nil => simp [insertAll]
  | cons first rest ih =>
      change timer ∈ insertAll rest (insertTimer first timers) ↔ _
      rw [ih, mem_insertTimer, List.mem_cons]
      tauto

theorem Sorted.insertAll (h : Sorted timers) (started : List (Timer α)) :
    Sorted (insertAll started timers) := by
  induction started generalizing timers with
  | nil => exact h
  | cons first rest ih => exact ih (h.insertTimer first)

/-- In a sorted map the timers that are due come first. -/
theorem Sorted.due_append_later (h : Sorted timers) (now : ℕ) :
    due now timers ++ later now timers = timers := by
  induction timers with
  | nil => rfl
  | cons first rest ih =>
      obtain ⟨hfirst, hrest⟩ := List.pairwise_cons.mp h
      rw [due, later] at ih ⊢
      by_cases hdue : first.expiration ≤ now
      · rw [List.filter_cons_of_pos (by simpa using hdue),
          List.filter_cons_of_neg (by simpa using hdue), List.cons_append, ih hrest]
      · have hlate : ∀ timer ∈ rest, now < timer.expiration := fun timer htimer =>
          (Nat.lt_of_not_le hdue).trans_le (hfirst timer htimer)
        rw [List.filter_cons_of_neg (by simpa using hdue),
          List.filter_cons_of_pos (by simpa using hdue),
          List.filter_eq_nil_iff.mpr (by simpa using hlate),
          List.filter_eq_self.mpr (by simpa using hlate), List.nil_append]

/-- Timers that expire after the pass began go behind all that are due. -/
theorem foldl_insertAround {current : Timer α} {front rest : List (Timer α)}
    (hcurrent : current.expiration ≤ now) (hfront : ∀ timer ∈ front, timer.expiration ≤ now)
    (hlate : ∀ timer ∈ started, now < timer.expiration) :
    started.foldl (insertAround current) ([], front ++ rest) =
      ([], front ++ insertAll started rest) := by
  induction started generalizing rest with
  | nil => rfl
  | cons first started ih =>
      rw [List.forall_mem_cons] at hlate
      have hinsert : insertAround current ([], front ++ rest) first =
          ([], front ++ insertTimer first rest) := by
        rw [insertAround, if_neg (by omega)]
        dsimp only
        rw [insertTimer_append_of_le fun timer htimer => (hfront timer htimer).trans hlate.1.le]
      rw [List.foldl_cons, hinsert, ih hlate.2]
      rfl

/-- The first call, and the others. -/
theorem fireAll_cons {timer : Timer α}
    (hfire : fireAll timerEvent s (timer :: timers) = .ok (s', started)) :
    ∃ s₁ first more, timerEvent s timer.event = .ok (s₁, first) ∧
      fireAll timerEvent s₁ timers = .ok (s', more) ∧ started = first ++ more := by
  rw [fireAll] at hfire
  cases hevent : timerEvent s timer.event with
  | error fault =>
      rw [hevent] at hfire
      cases hfire
  | ok result =>
      obtain ⟨s₁, first⟩ := result
      rw [hevent] at hfire
      change (fireAll timerEvent s₁ timers).map _ = _ at hfire
      cases hrest : fireAll timerEvent s₁ timers with
      | error fault =>
          rw [hrest] at hfire
          cases hfire
      | ok result =>
          obtain ⟨s₂, more⟩ := result
          rw [hrest] at hfire
          cases hfire
          exact ⟨s₁, first, more, rfl, hrest, rfl⟩

/-- The loop over the timers that are due. -/
theorem timerLoop_append {front rest : List (Timer α)}
    (hfront : ∀ timer ∈ front, timer.expiration ≤ now)
    (hrest : ∀ timer ∈ rest, now < timer.expiration)
    (hfire : fireAll timerEvent s front = .ok (s', started))
    (hlate : ∀ timer ∈ started, now < timer.expiration) (hfuel : front.length < fuel) :
    timerLoop timerEvent endless now fuel s [] (front ++ rest) =
      .ok (timeToWait now (insertAll started rest), s', insertAll started rest) := by
  induction front generalizing s started rest fuel with
  | nil =>
      obtain ⟨rfl, rfl⟩ := Prod.mk.inj (Except.ok.inj hfire)
      obtain ⟨fuel, rfl⟩ := Nat.exists_eq_succ_of_ne_zero (Nat.ne_of_gt hfuel)
      cases rest with
      | nil => rfl
      | cons first rest =>
          rw [List.forall_mem_cons] at hrest
          exact if_pos hrest.1
  | cons current front ih =>
      rw [List.forall_mem_cons] at hfront
      obtain ⟨fuel, rfl⟩ := Nat.exists_eq_succ_of_ne_zero (Nat.ne_zero_of_lt hfuel)
      obtain ⟨s₁, started₁, started₂, hevent, hfire₂, rfl⟩ := fireAll_cons hfire
      have hlate₁ : ∀ timer ∈ started₁, now < timer.expiration :=
        fun timer htimer => hlate timer (List.mem_append_left _ htimer)
      have hrest₁ : ∀ timer ∈ insertAll started₁ rest, now < timer.expiration := by
        intro timer htimer
        rcases mem_insertAll.mp htimer with htimer | htimer
        · exact hlate₁ timer htimer
        · exact hrest timer htimer
      rw [List.cons_append, timerLoop, if_neg (Nat.not_lt.mpr hfront.1), hevent, Except.bind]
      dsimp only
      rw [foldl_insertAround hfront.1 hfront.2 hlate₁]
      dsimp only
      rw [ih hfront.2 hrest₁ hfire₂
        (fun timer htimer => hlate timer (List.mem_append_right _ htimer))
        (Nat.lt_of_succ_lt_succ hfuel)]
      simp only [insertAll, List.foldl_append]

/-- **One pass of `execute_timers`.** For every sorted map and all sinks: if each timer that the
sinks of the due timers start expires after the time at which the pass began, then the pass fires
the timers that are due, each once and in their order, and no others; what is left is the rest
with the new timers sorted in; and the returned time is the time until the first of these, which is
0 exactly if no timer is left. -/
theorem executeTimers_fires_due (hsorted : Sorted timers)
    (hfire : fireAll timerEvent s (due now timers) = .ok (s', started))
    (hlate : ∀ timer ∈ started, now < timer.expiration) (hfuel : timers.length < fuel) :
    ∃ wait left, executeTimers timerEvent endless now fuel s timers = .ok (wait, s', left) ∧
      left = insertAll started (later now timers) ∧ Sorted left ∧ wait = timeToWait now left ∧
      (wait = 0 ↔ left = []) ∧ ∀ timer ∈ left, now + wait ≤ timer.expiration := by
  have hlater : ∀ timer ∈ later now timers, now < timer.expiration := by
    intro timer htimer
    simpa using (List.mem_filter.mp htimer).2
  have hleft : ∀ timer ∈ insertAll started (later now timers), now < timer.expiration := by
    intro timer htimer
    rcases mem_insertAll.mp htimer with htimer | htimer
    · exact hlate timer htimer
    · exact hlater timer htimer
  have hsortedLeft : Sorted (insertAll started (later now timers)) :=
    Sorted.insertAll (hsorted.filter _) started
  refine ⟨_, _, ?_, rfl, hsortedLeft, rfl, ?_⟩
  · rw [executeTimers]
    split_ifs with hempty
    · subst hempty
      obtain ⟨rfl, rfl⟩ := Prod.mk.inj (Except.ok.inj hfire)
      rfl
    · have hlength : (due now timers).length < fuel :=
        (List.length_filter_le _ _).trans_lt hfuel
      rw [← timerLoop_append (fun timer htimer => by simpa using (List.mem_filter.mp htimer).2)
        hlater hfire hlate hlength, hsorted.due_append_later]
  · revert hleft hsortedLeft
    generalize insertAll started (later now timers) = left
    intro hleft hsortedLeft
    cases left with
    | nil => exact ⟨⟨fun _ => rfl, fun _ => rfl⟩, fun timer htimer => by cases htimer⟩
    | cons first rest =>
        rw [List.forall_mem_cons] at hleft
        have hwait : now + timeToWait now (first :: rest) = first.expiration := by
          rw [timeToWait]
          omega
        refine ⟨⟨fun hzero => ?_, fun hnil => by cases hnil⟩, ?_⟩
        · omega
        · intro timer htimer
          rw [hwait]
          rcases List.mem_cons.mp htimer with rfl | htimer
          · exact le_rfl
          · exact (List.pairwise_cons.mp hsortedLeft).1 timer htimer

/-- A sink that notes its events and starts a timer at a fixed time whenever it is called. -/
def restartAt (expiration : ℕ) : TimerEvent Unit ℕ (List ℕ) :=
  fun events event => .ok (events ++ [event], [⟨expiration, event⟩])

/-- At time 7 the timer of time 5 is fired and started again for time 15. -/
theorem executeTimers_fires_due_restarted :
    ∃ wait left, executeTimers (restartAt 15) () 7 3 [] [⟨5, 0⟩, ⟨20, 1⟩] = .ok (wait, [0], left) ∧
      left = [⟨15, 0⟩, ⟨20, 1⟩] ∧ (wait = 0 ↔ left = []) := by
  have hfire : fireAll (restartAt 15) [] (due 7 [⟨5, 0⟩, ⟨20, 1⟩]) = .ok ([0], [⟨15, 0⟩]) := rfl
  have hfuel : [(⟨5, 0⟩ : Timer ℕ), ⟨20, 1⟩].length < 3 := by decide
  obtain ⟨wait, left, hrun, hleft, -, -, hwait, -⟩ :=
    executeTimers_fires_due (by simp [Sorted]) hfire (by decide) hfuel
  exact ⟨wait, left, hrun, hleft, hwait⟩

-- If the clock is set back during the pass, the new timer is started behind the iterator: the pass
-- reports that there are no timers, and the loop waits for other events only.
example : executeTimers (restartAt 3) () 7 3 [] [⟨5, 0⟩] = .ok (0, [0], [⟨3, 0⟩]) := rfl

end AFStream.Net
