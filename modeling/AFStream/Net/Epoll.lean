/-
# The poll entries of `epoll_t`

Every descriptor that is polled has an entry on the heap; the kernel returns the entry's address
with an event, and the entry leads to the object whose handlers are called. When a descriptor is
removed its entry is only marked, because the batch of events at hand can still refer to it; the
entries that have been marked are deleted behind the batch. The module follows the entries, the
kernel's interest list and the open descriptors through the calls that objects make, for objects
of any kind that know which entry is theirs.
-/

import AFStream.Foundation.Faults
import AFStream.Foundation.Heap

namespace AFStream.Net

open AFStream.Foundation

universe u

/-- `poll_entry_t`; `fd` is `none` if it is `retired_fd`. -/
structure PollEntry (S : Type u) where
  fd : Option ℕ
  pollIn : Bool
  pollOut : Bool
  events : S

/-- `epoll_t`, with what the kernel knows: the entry for each descriptor on the interest list, and
the open descriptors. -/
structure Epoll (S : Type u) where
  entries : Heap (PollEntry S)
  retired : List ℕ
  interest : ℕ → Option ℕ
  opened : ℕ → Bool

namespace Epoll

variable {S : Type u}

/-- The constructor. -/
def create : Epoll S where
  entries := .empty
  retired := []
  interest := fun _ => none
  opened := fun _ => false

variable (p : Epoll S)

/-- The kernel returns a new descriptor, which is not in use. -/
def openFd (fd : ℕ) : Except Fault (Epoll S) :=
  if p.opened fd then .error .environment
  else .ok { p with opened := Function.update p.opened fd true }

/-- `close`, with the assertion that it succeeds. A closed descriptor leaves the interest list. -/
def closeFd (fd : ℕ) : Except Fault (Epoll S) :=
  if p.opened fd then
    .ok { p with
      opened := Function.update p.opened fd false
      interest := Function.update p.interest fd none }
  else .error .program

/-- `add_fd`, with the address of the new entry. The assertion behind `epoll_ctl` fails for a
descriptor that is not open or already on the list. -/
def addFd (fd : ℕ) (events : S) (address : ℕ) : Except Fault (Epoll S) :=
  if p.entries.Live address then .error .environment
  else if p.opened fd = true ∧ p.interest fd = none then
    .ok { p with
      entries := p.entries.alloc address ⟨some fd, false, false, events⟩
      interest := Function.update p.interest fd (some address) }
  else .error .program

/-- The entry of a handle and its descriptor, if that is on the interest list. -/
def lookup (handle : ℕ) : Option (PollEntry S × ℕ) :=
  (p.entries.block handle).bind fun entry => entry.fd.bind fun fd =>
    if p.interest fd = none then none else some (entry, fd)

/-- `rm_fd` -/
def rmFd (handle : ℕ) : Except Fault (Epoll S) :=
  match p.lookup handle with
  | none => .error .program
  | some (entry, fd) =>
    .ok { p with
      entries := p.entries.alloc handle { entry with fd := none }
      interest := Function.update p.interest fd none
      retired := p.retired ++ [handle] }

/-- `set_pollin`, `reset_pollin`, `set_pollout` and `reset_pollout`. -/
def setPoll (handle : ℕ) (change : PollEntry S → PollEntry S) : Except Fault (Epoll S) :=
  match p.lookup handle with
  | none => .error .program
  | some (entry, _) => .ok { p with entries := p.entries.alloc handle (change entry) }

def setPollin (handle : ℕ) : Except Fault (Epoll S) :=
  p.setPoll handle fun entry => { entry with pollIn := true }

def resetPollin (handle : ℕ) : Except Fault (Epoll S) :=
  p.setPoll handle fun entry => { entry with pollIn := false }

def setPollout (handle : ℕ) : Except Fault (Epoll S) :=
  p.setPoll handle fun entry => { entry with pollOut := true }

def resetPollout (handle : ℕ) : Except Fault (Epoll S) :=
  p.setPoll handle fun entry => { entry with pollOut := false }

/-- `delete` of an entry. -/
def deleteEntry (entries : Heap (PollEntry S)) (address : ℕ) : Except Fault (Heap (PollEntry S)) :=
  match entries.free address with
  | none => .error .program
  | some entries => .ok entries

/-- The loop that destroys the retired entries. -/
def deleteRetired : Except Fault (Epoll S) :=
  (p.retired.foldlM deleteEntry p.entries).map fun entries => { p with entries, retired := [] }

/-! ## Entries, descriptors and their owners -/

/-- What the objects know: `reg` is the handle and the descriptor of an object that has registered
one, `own` the descriptor of an object that has one, and `loose` a descriptor that a running call
holds in a variable. Every entry is either retired or the one of its object, all that is
registered is on the interest list, and every open descriptor has one owner. -/
structure Consistent (reg : S → Option (ℕ × ℕ)) (own : S → Option ℕ) (loose : Option ℕ)
    (p : Epoll S) : Prop where
  entry : ∀ a e, p.entries.block a = some e → (e.fd = none ∧ a ∈ p.retired) ∨
    (a ∉ p.retired ∧ ∃ fd, e.fd = some fd ∧ reg e.events = some (a, fd))
  registered : ∀ s a fd, reg s = some (a, fd) →
    (∃ e, p.entries.block a = some e ∧ e.fd = some fd ∧ e.events = s) ∧
      p.interest fd = some a ∧ own s = some fd
  interest_eq : ∀ fd a, p.interest fd = some a → ∃ s, reg s = some (a, fd)
  owner_unique : ∀ s s' fd, own s = some fd → own s' = some fd → s = s'
  owned_opened : ∀ s fd, own s = some fd → p.opened fd = true
  opened_owned : ∀ fd, p.opened fd = true → (∃ s, own s = some fd) ∨ loose = some fd
  loose_opened : ∀ fd, loose = some fd → p.opened fd = true ∧ ∀ s, own s ≠ some fd
  retired_nodup : p.retired.Nodup
  retired_live : ∀ a ∈ p.retired, ∃ e, p.entries.block a = some e ∧ e.fd = none

/-- Entries that were there still are. -/
def Keeps (p p' : Epoll S) : Prop := ∀ a, p.entries.Live a → p'.entries.Live a

theorem Keeps.refl (p : Epoll S) : Keeps p p := fun _ h => h

theorem Keeps.trans {p p' p'' : Epoll S} (h : Keeps p p') (h' : Keeps p' p'') : Keeps p p'' :=
  fun a ha => h' a (h a ha)

theorem consistent_create :
    Consistent (fun _ => none) (fun _ => none) none (create : Epoll S) where
  entry _ _ h := by cases h
  registered _ _ _ h := by cases h
  interest_eq _ _ h := by cases h
  owner_unique _ _ _ h := by cases h
  owned_opened _ _ h := by cases h
  opened_owned _ h := by cases h
  loose_opened _ h := by cases h
  retired_nodup := List.nodup_nil
  retired_live _ h := by cases h

section Calls

variable {reg : S → Option (ℕ × ℕ)} {own : S → Option ℕ} {loose : Option ℕ} {p : Epoll S} {s : S}
  {a fd : ℕ}

/-- The handle of an object finds its entry. -/
theorem Consistent.lookup (h : Consistent reg own loose p) (hs : reg s = some (a, fd)) :
    ∃ e, p.lookup a = some (e, fd) ∧ p.entries.block a = some e ∧ e.fd = some fd ∧
      e.events = s := by
  obtain ⟨⟨e, hblock, hfd, hevents⟩, hinterest, -⟩ := h.registered s a fd hs
  refine ⟨e, ?_, hblock, hfd, hevents⟩
  rw [Epoll.lookup, hblock, Option.bind_some, hfd, Option.bind_some, if_neg (by simp [hinterest])]

/-- An object without an entry has no descriptor on the interest list. -/
theorem Consistent.interest_eq_none (h : Consistent reg own loose p) (hreg : reg s = none)
    (hown : own s = some fd) : p.interest fd = none := by
  cases hinterest : p.interest fd with
  | none => rfl
  | some a =>
      obtain ⟨s', hs'⟩ := h.interest_eq fd a hinterest
      have hsame := h.owner_unique s' s fd (h.registered s' a fd hs').2.2 hown
      rw [hsame, hreg] at hs'
      cases hs'

/-- An address that is not retired belongs to the object that is registered there. -/
theorem Consistent.not_retired (h : Consistent reg own loose p) (hs : reg s = some (a, fd)) :
    a ∉ p.retired := by
  intro hretired
  obtain ⟨⟨e, hblock, hfd, -⟩, -⟩ := h.registered s a fd hs
  obtain ⟨e', hblock', hfd'⟩ := h.retired_live a hretired
  obtain rfl := Option.some.inj (hblock.symm.trans hblock')
  rw [hfd] at hfd'
  cases hfd'

/-- Two objects do not share an entry. -/
theorem Consistent.reg_unique (h : Consistent reg own loose p) {s' : S} {fd' : ℕ}
    (hs : reg s = some (a, fd)) (hs' : reg s' = some (a, fd')) : s = s' := by
  obtain ⟨⟨e, hblock, -, hevents⟩, -⟩ := h.registered s a fd hs
  obtain ⟨⟨e', hblock', -, hevents'⟩, -⟩ := h.registered s' a fd' hs'
  obtain rfl := Option.some.inj (hblock.symm.trans hblock')
  exact hevents.symm.trans hevents'

/-- A new descriptor is held by the call that opened it. -/
theorem Consistent.openFd (h : Consistent reg own none p) (fd : ℕ) :
    Safe (fun p' => Consistent reg own (some fd) p' ∧ Keeps p p') (p.openFd fd) := by
  rw [Epoll.openFd]
  refine SafeUnless.ite (fun _ => trivial) fun hclosed => ?_
  have hfree : ∀ s, own s ≠ some fd := fun s hs => hclosed (h.owned_opened s fd hs)
  refine ⟨{ h with
    owned_opened := fun s fd' hs => ?_
    opened_owned := fun fd' hopened => ?_
    loose_opened := fun fd' hloose => ?_ }, Keeps.refl p⟩
  · have hne : fd' ≠ fd := by
      rintro rfl
      exact hfree s hs
    dsimp only
    rw [Function.update_of_ne hne]
    exact h.owned_opened s fd' hs
  · by_cases hfd : fd' = fd
    · exact .inr (by rw [hfd])
    · dsimp only at hopened
      rw [Function.update_of_ne hfd] at hopened
      exact .inl ((h.opened_owned fd' hopened).resolve_right (by simp))
  · obtain rfl := Option.some.inj hloose
    exact ⟨Function.update_self _ _ _, hfree⟩

variable [DecidableEq S]

/-- The descriptor that a call holds goes to an object. -/
theorem Consistent.give (h : Consistent reg own (some fd) p) (hown : own s = none) :
    Consistent reg (Function.update own s (some fd)) none p := by
  obtain ⟨hopened, hfree⟩ := h.loose_opened fd rfl
  have hcases : ∀ s' fd', Function.update own s (some fd) s' = some fd' →
      (s' = s ∧ fd' = fd) ∨ (s' ≠ s ∧ own s' = some fd') := by
    intro s' fd' hs'
    by_cases hsame : s' = s
    · rw [hsame, Function.update_self] at hs'
      exact .inl ⟨hsame, (Option.some.inj hs').symm⟩
    · rw [Function.update_of_ne hsame] at hs'
      exact .inr ⟨hsame, hs'⟩
  refine { h with
    registered := fun s' a fd' hs' => ?_
    owner_unique := fun s₁ s₂ fd' h₁ h₂ => ?_
    owned_opened := fun s' fd' hs' => ?_
    opened_owned := fun fd' hfd' => ?_
    loose_opened := fun fd' hloose => by cases hloose }
  · obtain ⟨hentry, hinterest, hown'⟩ := h.registered s' a fd' hs'
    refine ⟨hentry, hinterest, ?_⟩
    rw [Function.update_of_ne (by rintro rfl; rw [hown] at hown'; cases hown')]
    exact hown'
  · rcases hcases s₁ fd' h₁ with ⟨rfl, rfl⟩ | ⟨-, h₁⟩
    · rcases hcases s₂ _ h₂ with ⟨hsame, -⟩ | ⟨-, h₂⟩
      · exact hsame.symm
      · exact absurd h₂ (hfree s₂)
    · rcases hcases s₂ fd' h₂ with ⟨-, hfd⟩ | ⟨-, h₂⟩
      · rw [hfd] at h₁
        exact absurd h₁ (hfree s₁)
      · exact h.owner_unique s₁ s₂ fd' h₁ h₂
  · rcases hcases s' fd' hs' with ⟨-, hfd⟩ | ⟨-, hs'⟩
    · rw [hfd]
      exact hopened
    · exact h.owned_opened s' fd' hs'
  · left
    rcases h.opened_owned fd' hfd' with ⟨s', hs'⟩ | hloose
    · refine ⟨s', ?_⟩
      rw [Function.update_of_ne (by rintro rfl; rw [hown] at hs'; cases hs')]
      exact hs'
    · exact ⟨s, by rw [Function.update_self, hloose]⟩

/-- An object without an entry hands its descriptor to a call. -/
theorem Consistent.give_up (h : Consistent reg own none p) (hreg : reg s = none)
    (hown : own s = some fd) : Consistent reg (Function.update own s none) (some fd) p := by
  have hcases : ∀ s' fd', Function.update own s none s' = some fd' →
      s' ≠ s ∧ own s' = some fd' := by
    intro s' fd' hs'
    by_cases hsame : s' = s
    · rw [hsame, Function.update_self] at hs'
      cases hs'
    · rw [Function.update_of_ne hsame] at hs'
      exact ⟨hsame, hs'⟩
  refine { h with
    registered := fun s' a fd' hs' => ?_
    owner_unique := fun s₁ s₂ fd' h₁ h₂ => ?_
    owned_opened := fun s' fd' hs' => ?_
    opened_owned := fun fd' hfd' => ?_
    loose_opened := fun fd' hloose => ?_ }
  · obtain ⟨hentry, hinterest, hown'⟩ := h.registered s' a fd' hs'
    refine ⟨hentry, hinterest, ?_⟩
    rw [Function.update_of_ne (by rintro rfl; rw [hreg] at hs'; cases hs')]
    exact hown'
  · exact h.owner_unique s₁ s₂ fd' (hcases s₁ fd' h₁).2 (hcases s₂ fd' h₂).2
  · exact h.owned_opened s' fd' (hcases s' fd' hs').2
  · obtain ⟨s', hs'⟩ := (h.opened_owned fd' hfd').resolve_right (by simp)
    by_cases hsame : s' = s
    · right
      rw [hsame, hown] at hs'
      exact hs'
    · exact .inl ⟨s', by rw [Function.update_of_ne hsame, hs']⟩
  · obtain rfl := Option.some.inj hloose
    refine ⟨h.owned_opened s fd hown, fun s' hs' => ?_⟩
    obtain ⟨hne, hs'⟩ := hcases s' fd hs'
    exact hne (h.owner_unique s' s fd hs' hown)

omit [DecidableEq S] in
/-- A descriptor that a call holds can be closed. -/
theorem Consistent.closeFd (h : Consistent reg own (some fd) p) :
    Safe (fun p' => Consistent reg own none p' ∧ Keeps p p') (p.closeFd fd) := by
  obtain ⟨hopened, hfree⟩ := h.loose_opened fd rfl
  have hinterest : p.interest fd = none := by
    cases hinterest : p.interest fd with
    | none => rfl
    | some a =>
        obtain ⟨s, hs⟩ := h.interest_eq fd a hinterest
        exact absurd (h.registered s a fd hs).2.2 (hfree s)
  have hsame : Function.update p.interest fd none = p.interest := by
    rw [← hinterest, Function.update_eq_self]
  rw [Epoll.closeFd, if_pos hopened, hsame]
  refine ⟨{ h with
    owned_opened := fun s fd' hs => ?_
    opened_owned := fun fd' hfd' => ?_
    loose_opened := fun fd' hloose => by cases hloose }, Keeps.refl p⟩
  · have hne : fd' ≠ fd := by
      rintro rfl
      exact hfree s hs
    dsimp only
    rw [Function.update_of_ne hne]
    exact h.owned_opened s fd' hs
  · by_cases hfd : fd' = fd
    · rw [hfd] at hfd'
      simp at hfd'
    · dsimp only at hfd'
      rw [Function.update_of_ne hfd] at hfd'
      exact .inl ((h.opened_owned fd' hfd').resolve_right (by simpa using Ne.symm hfd))

/-- An object registers its descriptor. -/
theorem Consistent.addFd (h : Consistent reg own loose p) (hreg : reg s = none)
    (hown : own s = some fd) (address : ℕ) :
    Safe (fun p' => Consistent (Function.update reg s (some (address, fd))) own loose p' ∧
      Keeps p p') (p.addFd fd s address) := by
  have hinterest := h.interest_eq_none hreg hown
  rw [Epoll.addFd]
  refine SafeUnless.ite (fun _ => trivial) fun hfresh => ?_
  rw [if_pos ⟨h.owned_opened s fd hown, hinterest⟩]
  have hblock : p.entries.block address = none := Heap.not_live_iff.mp hfresh
  have hold : ∀ a e, p.entries.block a = some e → a ≠ address := by
    rintro a e ha rfl
    rw [hblock] at ha
    cases ha
  have hreg' : ∀ s' a fd', reg s' = some (a, fd') → s' ≠ s := by
    rintro s' a fd' hs' rfl
    rw [hreg] at hs'
    cases hs'
  refine ⟨{ h with
    entry := fun a e he => ?_
    registered := fun s' a fd' hs' => ?_
    interest_eq := fun fd' a hfd' => ?_
    retired_live := fun a ha => ?_ }, fun a ha => Heap.live_alloc_iff.mpr (.inl ha)⟩
  · by_cases ha : a = address
    · subst ha
      rw [Heap.block_alloc_self] at he
      obtain rfl := Option.some.inj he
      refine .inr ⟨fun hretired => ?_, fd, rfl, Function.update_self _ _ _⟩
      obtain ⟨e, he, -⟩ := h.retired_live a hretired
      exact hold a e he rfl
    · rw [Heap.block_alloc_of_ne _ _ ha] at he
      refine (h.entry a e he).imp id fun ⟨hnot, fd', hfd', hs'⟩ => ⟨hnot, fd', hfd', ?_⟩
      rw [Function.update_of_ne (hreg' _ _ _ hs')]
      exact hs'
  · by_cases hsame : s' = s
    · subst hsame
      rw [Function.update_self] at hs'
      obtain ⟨rfl, rfl⟩ := Prod.mk.inj (Option.some.inj hs')
      exact ⟨⟨_, Heap.block_alloc_self _ _ _, rfl, rfl⟩, Function.update_self _ _ _, hown⟩
    · rw [Function.update_of_ne hsame] at hs'
      obtain ⟨⟨e, he, hfd, hevents⟩, hinterest', hown'⟩ := h.registered s' a fd' hs'
      have hne : fd' ≠ fd := by
        rintro rfl
        exact hsame (h.owner_unique s' s fd' hown' hown)
      refine ⟨⟨e, ?_, hfd, hevents⟩, ?_, hown'⟩
      · rw [Heap.block_alloc_of_ne _ _ (hold a e he)]
        exact he
      · dsimp only
        rw [Function.update_of_ne hne]
        exact hinterest'
  · dsimp only at hfd'
    by_cases hsame : fd' = fd
    · subst hsame
      rw [Function.update_self] at hfd'
      obtain rfl := Option.some.inj hfd'
      exact ⟨s, Function.update_self _ _ _⟩
    · rw [Function.update_of_ne hsame] at hfd'
      obtain ⟨s', hs'⟩ := h.interest_eq fd' a hfd'
      exact ⟨s', by rw [Function.update_of_ne (hreg' _ _ _ hs')]; exact hs'⟩
  · obtain ⟨e, he, hfd'⟩ := h.retired_live a ha
    exact ⟨e, by rw [Heap.block_alloc_of_ne _ _ (hold a e he)]; exact he, hfd'⟩

omit [DecidableEq S] in
/-- An object changes for what it polls. -/
theorem Consistent.setPoll (h : Consistent reg own loose p) (hs : reg s = some (a, fd))
    {change : PollEntry S → PollEntry S}
    (hchange : ∀ e, (change e).fd = e.fd ∧ (change e).events = e.events) :
    Safe (fun p' => Consistent reg own loose p' ∧ Keeps p p') (p.setPoll a change) := by
  obtain ⟨e, hlookup, he, hfd, hevents⟩ := h.lookup hs
  have hnot := h.not_retired hs
  rw [Epoll.setPoll, hlookup]
  refine ⟨{ h with
    entry := fun b e' hb => ?_
    registered := fun s' b fd' hs' => ?_
    retired_live := fun b hb => ?_ }, fun b hb => Heap.live_alloc_iff.mpr (.inl hb)⟩
  · by_cases hsame : b = a
    · subst hsame
      rw [Heap.block_alloc_self] at hb
      obtain rfl := Option.some.inj hb
      exact .inr ⟨hnot, fd, (hchange e).1.trans hfd, by rw [(hchange e).2, hevents]; exact hs⟩
    · rw [Heap.block_alloc_of_ne _ _ hsame] at hb
      exact h.entry b e' hb
  · obtain ⟨⟨e', he', hfd', hevents'⟩, hrest⟩ := h.registered s' b fd' hs'
    refine ⟨?_, hrest⟩
    by_cases hsame : b = a
    · subst hsame
      obtain rfl := Option.some.inj (he.symm.trans he')
      exact ⟨change e, Heap.block_alloc_self _ _ _, (hchange e).1.trans hfd',
        (hchange e).2.trans hevents'⟩
    · exact ⟨e', by rw [Heap.block_alloc_of_ne _ _ hsame]; exact he', hfd', hevents'⟩
  · obtain ⟨e', he', hfd'⟩ := h.retired_live b hb
    have hne : b ≠ a := fun hsame => hnot (hsame ▸ hb)
    exact ⟨e', by rw [Heap.block_alloc_of_ne _ _ hne]; exact he', hfd'⟩

omit [DecidableEq S] in
theorem Consistent.setPollin (h : Consistent reg own loose p) (hs : reg s = some (a, fd)) :
    Safe (fun p' => Consistent reg own loose p' ∧ Keeps p p') (p.setPollin a) :=
  h.setPoll hs fun _ => ⟨rfl, rfl⟩

omit [DecidableEq S] in
theorem Consistent.resetPollin (h : Consistent reg own loose p) (hs : reg s = some (a, fd)) :
    Safe (fun p' => Consistent reg own loose p' ∧ Keeps p p') (p.resetPollin a) :=
  h.setPoll hs fun _ => ⟨rfl, rfl⟩

omit [DecidableEq S] in
theorem Consistent.setPollout (h : Consistent reg own loose p) (hs : reg s = some (a, fd)) :
    Safe (fun p' => Consistent reg own loose p' ∧ Keeps p p') (p.setPollout a) :=
  h.setPoll hs fun _ => ⟨rfl, rfl⟩

omit [DecidableEq S] in
theorem Consistent.resetPollout (h : Consistent reg own loose p) (hs : reg s = some (a, fd)) :
    Safe (fun p' => Consistent reg own loose p' ∧ Keeps p p') (p.resetPollout a) :=
  h.setPoll hs fun _ => ⟨rfl, rfl⟩

/-- An object gives its entry back. -/
theorem Consistent.rmFd (h : Consistent reg own loose p) (hs : reg s = some (a, fd)) :
    Safe (fun p' => Consistent (Function.update reg s none) own loose p' ∧ Keeps p p')
      (p.rmFd a) := by
  obtain ⟨e, hlookup, he, hfd, hevents⟩ := h.lookup hs
  have hnot := h.not_retired hs
  have hown := (h.registered s a fd hs).2.2
  have hother : ∀ s' b fd', Function.update reg s none s' = some (b, fd') →
      s' ≠ s ∧ reg s' = some (b, fd') ∧ b ≠ a ∧ fd' ≠ fd := by
    intro s' b fd' hs'
    by_cases hsame : s' = s
    · rw [hsame, Function.update_self] at hs'
      cases hs'
    · rw [Function.update_of_ne hsame] at hs'
      refine ⟨hsame, hs', ?_, ?_⟩
      · rintro rfl
        exact hsame (h.reg_unique hs' hs)
      · rintro rfl
        exact hsame (h.owner_unique s' s fd' (h.registered s' b fd' hs').2.2 hown)
  rw [Epoll.rmFd, hlookup]
  refine ⟨{ h with
    entry := fun b e' hb => ?_
    registered := fun s' b fd' hs' => ?_
    interest_eq := fun fd' b hfd' => ?_
    retired_nodup := ?_
    retired_live := fun b hb => ?_ }, fun b hb => Heap.live_alloc_iff.mpr (.inl hb)⟩
  · by_cases hsame : b = a
    · subst hsame
      rw [Heap.block_alloc_self] at hb
      obtain rfl := Option.some.inj hb
      exact .inl ⟨rfl, List.mem_append_right _ (List.mem_singleton_self b)⟩
    · rw [Heap.block_alloc_of_ne _ _ hsame] at hb
      rcases h.entry b e' hb with ⟨hnone, hretired⟩ | ⟨hnot', fd', hfd', hs'⟩
      · exact .inl ⟨hnone, List.mem_append_left _ hretired⟩
      · refine .inr ⟨?_, fd', hfd', ?_⟩
        · simp [hnot', hsame]
        · have hne : e'.events ≠ s := by
            intro heq
            rw [heq, hs] at hs'
            exact hsame (Prod.mk.inj (Option.some.inj hs')).1.symm
          rw [Function.update_of_ne hne]
          exact hs'
  · obtain ⟨-, hs', hb, hfd'⟩ := hother s' b fd' hs'
    obtain ⟨⟨e', he', hrest⟩, hinterest, hown'⟩ := h.registered s' b fd' hs'
    refine ⟨⟨e', by rw [Heap.block_alloc_of_ne _ _ hb]; exact he', hrest⟩, ?_, hown'⟩
    dsimp only
    rw [Function.update_of_ne hfd']
    exact hinterest
  · dsimp only at hfd'
    by_cases hsame : fd' = fd
    · rw [hsame, Function.update_self] at hfd'
      cases hfd'
    · rw [Function.update_of_ne hsame] at hfd'
      obtain ⟨s', hs'⟩ := h.interest_eq fd' b hfd'
      have hne : s' ≠ s := by
        rintro rfl
        rw [hs] at hs'
        exact hsame (Prod.mk.inj (Option.some.inj hs')).2.symm
      exact ⟨s', by rw [Function.update_of_ne hne]; exact hs'⟩
  · exact List.nodup_append.mpr ⟨h.retired_nodup, List.nodup_singleton a, by
      intro b hb c hc heq
      rw [List.mem_singleton.mp hc] at heq
      exact hnot (heq ▸ hb)⟩
  · rcases List.mem_append.mp hb with hb | hb
    · obtain ⟨e', he', hfd'⟩ := h.retired_live b hb
      have hne : b ≠ a := fun hsame => hnot (hsame ▸ hb)
      exact ⟨e', by rw [Heap.block_alloc_of_ne _ _ hne]; exact he', hfd'⟩
    · rw [List.mem_singleton.mp hb]
      exact ⟨_, Heap.block_alloc_self _ _ _, rfl⟩

omit [DecidableEq S] in
/-- Entries that are all allocated can be deleted, each once. -/
theorem safe_deleteEntries {addresses : List ℕ} (hnodup : addresses.Nodup)
    (entries : Heap (PollEntry S)) (hlive : ∀ a ∈ addresses, entries.Live a) :
    Safe (fun entries' => ∀ a, entries'.block a =
      if a ∈ addresses then none else entries.block a) (addresses.foldlM deleteEntry entries) := by
  induction addresses generalizing entries with
  | nil => simp [List.foldlM]
  | cons first rest ih =>
      obtain ⟨hfirst, hrest⟩ := List.nodup_cons.mp hnodup
      rw [List.forall_mem_cons] at hlive
      obtain ⟨entries₁, hfree⟩ := Heap.exists_free hlive.1
      have hblock := Heap.block_free hfree
      have hlive₁ : ∀ a ∈ rest, entries₁.Live a := by
        intro a ha
        obtain ⟨e, he⟩ := hlive.2 a ha
        have hne : a ≠ first := by
          rintro rfl
          exact hfirst ha
        exact ⟨e, by rw [hblock, if_neg hne]; exact he⟩
      rw [List.foldlM_cons, deleteEntry, hfree]
      refine (ih hrest entries₁ hlive₁).mono fun entries' hentries' a => ?_
      rw [hentries' a, hblock]
      by_cases ha : a = first
      · simp [ha]
      · simp [ha]

omit [DecidableEq S] in
/-- Behind a batch the retired entries are deleted, and the others remain. -/
theorem Consistent.deleteRetired (h : Consistent reg own loose p) :
    Safe (fun p' => Consistent reg own loose p' ∧ p'.retired = [] ∧
      ∀ a, p'.entries.block a = if a ∈ p.retired then none else p.entries.block a)
      p.deleteRetired := by
  have hlive : ∀ a ∈ p.retired, p.entries.Live a := fun a ha =>
    (h.retired_live a ha).imp fun _ he => he.1
  refine (safe_deleteEntries h.retired_nodup p.entries hlive).map fun entries hentries =>
    ⟨{ h with
      entry := fun a e he => ?_
      registered := fun s a fd hs => ?_
      retired_nodup := List.nodup_nil
      retired_live := fun a ha => by cases ha }, rfl, hentries⟩
  · dsimp only at he
    rw [hentries] at he
    split_ifs at he with hretired
    · rcases h.entry a e he with ⟨-, hmem⟩ | ⟨-, hrest⟩
      · exact absurd hmem hretired
      · exact .inr ⟨List.not_mem_nil, hrest⟩
  · obtain ⟨⟨e, he, hrest⟩, hothers⟩ := h.registered s a fd hs
    refine ⟨⟨e, ?_, hrest⟩, hothers⟩
    dsimp only
    rw [hentries, if_neg (h.not_retired hs)]
    exact he

end Calls

end Epoll

end AFStream.Net
