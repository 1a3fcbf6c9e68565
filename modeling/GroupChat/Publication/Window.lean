import GroupChat.Publication.Invariant

/-!
# The window between two stores

A join stores the larger count before it stores the descriptor. A delivery loop that
reads in between finds a slot below the count that still has the zero of the beginning,
which is a descriptor like any other to the test for `-1`.

So what a delivery loop passes to `write` is the descriptor of the client that was given
the slot, exactly as long as no loop makes its last load of a slot in this window
(`GroupChat.publication_right_iff`). The smallest run in which one does has two clients
and one message (`GroupChat.exists_run_window`).
-/

namespace GroupChat

open Lobby

variable {nc : ℕ}

/-- The join requests of a schedule. -/
def publicationRequests (ms : List (PublicationMove nc)) : List JoinRequest :=
  requests (ms.flatMap PublicationMove.lobbyMoves)

/-- The schedule asks for no more than the tables have, and its messages are for groups
that the tables have. -/
structure InLimits (ms : List (PublicationMove nc)) : Prop where
  joins : WithinLimits (publicationRequests ms)
  messages : ∀ m ∈ ms, ∀ message ∈ m.message?, ∃ g < maxGroups, message.InGroup g

theorem publicationRequests_concat (ms : List (PublicationMove nc)) (m : PublicationMove nc) :
    publicationRequests (ms ++ [m]) = publicationRequests ms ++ requests m.lobbyMoves := by
  rw [publicationRequests, List.flatMap_append, List.flatMap_singleton, requests_append]
  rfl

theorem InLimits.of_concat {ms : List (PublicationMove nc)} {m : PublicationMove nc}
    (h : InLimits (ms ++ [m])) : InLimits ms where
  joins := by
    have := h.joins
    rw [publicationRequests_concat] at this
    exact this.of_append
  messages m' hm' := h.messages m' (List.mem_append_left _ hm')

namespace Publication

variable {s t : Publication nc} {l : Lobby}

/-- A descriptor that was passed to `write`, if it is one, is that of the client to which
the server has assigned the slot. -/
def Right (s : Publication nc) (p : Passed) : Prop :=
  0 ≤ p.fd → ∃ m ∈ s.assigned, m.groupId = p.groupId ∧ m.id = p.id ∧ m.nsfd = p.fd

instance (s : Publication nc) (p : Passed) : Decidable (s.Right p) :=
  inferInstanceAs (Decidable (0 ≤ p.fd → ∃ m ∈ s.assigned, _))

/-- The client whose slot is below the count and not stored yet. -/
def window (s : Publication nc) : Option Member :=
  match s.joining with
  | .counted m => some m
  | _ => none

/-- A load for the call of `write` does not find the slot of a client in the window,
unless the descriptor of this client is the zero that is found. -/
def OutsideWindow (s : Publication nc) : PublicationMove nc → Prop
  | .load c =>
    match s.loop c with
    | .passing message i =>
      ∀ m ∈ s.window, message.groupId.toInt = m.groupId → i = m.id → m.nsfd = 0
    | _ => True
  | _ => True

instance (s : Publication nc) : (m : PublicationMove nc) → Decidable (s.OutsideWindow m)
  | .load c =>
    match h : s.loop c with
    | .passing message i => decidable_of_iff
        (∀ m ∈ s.window, message.groupId.toInt = m.groupId → i = m.id → m.nsfd = 0)
        (by simp only [OutsideWindow, h])
    | .idle | .counting _ _ | .testing _ _ => isTrue (by simp only [OutsideWindow, h])
  | .lock _ _ | .storeCount | .storeSlot | .respond _ | .send _ _ | .depart _ | .pop _ =>
    isTrue trivial

/-- A slot has been given to one client. -/
theorem Inv.eq_of_slot (h : s.Inv l) {m m' : Member} (hm : m ∈ s.assigned) (hm' : m' ∈ s.assigned)
    (hg : m.groupId = m'.groupId) (hid : m.id = m'.id) : m = m' := by
  obtain ⟨-, hmembers⟩ := completed_eq_some.mp h.completed
  obtain ⟨k, hk⟩ := List.mem_iff_getElem?.mp hm
  obtain ⟨k', hk'⟩ := List.mem_iff_getElem?.mp hm'
  rw [← hmembers] at hk hk'
  obtain rfl := h.lobby.numbered.index_eq hk hk' hg hid
  exact Option.some.inj (hk.symm.trans hk')

/-- The one client that matters for a descriptor that was passed. -/
theorem Inv.right_iff (h : s.Inv l) {p : Passed} {m : Member} (hm : m ∈ s.assigned)
    (hg : m.groupId = p.groupId) (hid : m.id = p.id) : s.Right p ↔ (0 ≤ p.fd → m.nsfd = p.fd) := by
  refine forall_congr' fun _ => ⟨?_, fun hfd => ⟨m, hm, hg, hid, hfd⟩⟩
  rintro ⟨m', hm', hg', hid', hfd⟩
  obtain rfl := h.eq_of_slot hm hm' (hg.trans hg'.symm) (hid.trans hid'.symm)
  exact hfd

/-- What has been right or wrong stays so. -/
theorem Inv.right_congr {l' : Lobby} (h : s.Inv l) (h' : t.Inv l')
    (hgrows : Grows l.members l'.members) {p : Passed}
    (hin : s.lobby.registry.InUse p.groupId p.id) : t.Right p ↔ s.Right p := by
  obtain ⟨-, hmembers⟩ := completed_eq_some.mp h.completed
  obtain ⟨-, hmembers'⟩ := completed_eq_some.mp h'.completed
  obtain ⟨m, hm, hg, hid⟩ := h.exists_assigned hin
  obtain ⟨k, hk⟩ := List.mem_iff_getElem?.mp hm
  obtain ⟨ph, hk', -⟩ := hgrows k m (hmembers ▸ hk)
  have hm' : m.atPhase ph ∈ t.assigned := hmembers' ▸ List.mem_of_getElem? hk'
  rw [h.right_iff hm hg hid, h'.right_iff hm' hg hid]
  rfl

theorem window_eq_some {m : Member} : s.window = some m ↔ s.joining = .counted m := by
  unfold window
  cases s.joining <;> simp

/-- **A load for the call of `write`** is right exactly outside the window. -/
theorem Inv.right_of_load (h : s.Inv l) {c : Fin nc} {message : Message} {i g : ℕ} {fd : ℤ}
    (hloop : s.loop c = .passing message i) (hgroup : message.InGroup g)
    (hfd : s.lobby.registry.connection? g i = some fd) :
    s.Right ⟨g, i, fd⟩ ↔ s.OutsideWindow (.load c) := by
  obtain ⟨g', hgroup', hin⟩ := hloop ▸ h.loop c
  obtain rfl : g' = g := Int.ofNat.inj (hgroup'.symm.trans hgroup)
  obtain ⟨m, hm, rfl, rfl⟩ := h.exists_assigned hin
  rw [h.connection_eq hm hin, Option.some.injEq] at hfd
  rw [h.right_iff (p := ⟨_, _, fd⟩) hm rfl rfl]
  simp only [OutsideWindow, hloop, window_eq_some, Option.mem_def]
  rw [Message.InGroup] at hgroup
  rw [hgroup]
  by_cases hj : s.joining = .counted m
  · -- in the window the slot has its zero
    rw [if_pos hj] at hfd
    subst hfd
    simp [hj]
  · have hright : 0 ≤ fd → m.nsfd = fd := by
      intro hnonneg
      rw [if_neg hj] at hfd
      split_ifs at hfd
      · omega
      · exact hfd
    refine iff_of_true hright ?_
    rintro m' hj' hg hid
    have hm' : m' ∈ s.assigned := List.mem_append_right _ (by simp [hj', Joining.member?])
    obtain rfl := h.eq_of_slot hm hm' (Int.ofNat.inj hg) hid
    exact absurd hj' hj

/-- **Every move** leaves everything right exactly if everything was right, and it does not
read in the window. -/
theorem Inv.right_of_exec {l' : Lobby} (h : s.Inv l) (h' : t.Inv l')
    (hgrows : Grows l.members l'.members) {m : PublicationMove nc}
    (hexec : (publication nc).exec s m = some t) :
    (∀ p ∈ t.passed, t.Right p) ↔ (∀ p ∈ s.passed, s.Right p) ∧ s.OutsideWindow m := by
  have hold : (∀ p ∈ s.passed, t.Right p) ↔ ∀ p ∈ s.passed, s.Right p :=
    forall₂_congr fun p hp => h.right_congr h' hgrows (h.passed p hp)
  rcases passed_of_exec hexec with ⟨hpassed, hload⟩ | ⟨c, message, i, g, fd, rfl, hloop, hgroup,
    hfd, hpassed⟩
  · have houtside : s.OutsideWindow m := by
      cases m with
      | load c =>
        cases hloop : s.loop c with
        | passing message i => exact absurd hloop (hload c message i rfl)
        | idle | counting | testing => simp only [OutsideWindow, hloop]
      | _ => trivial
    rw [hpassed, hold]
    exact (and_iff_left houtside).symm
  · rw [hpassed, List.forall_mem_append, List.forall_mem_singleton, hold,
      ← h.right_of_load hloop hgroup hfd]
    refine and_congr_right fun _ => ?_
    -- the slot was in use before the load, so its client is known on both sides
    obtain ⟨g', hgroup', hin⟩ := hloop ▸ h.loop c
    obtain rfl : g' = g := Int.ofNat.inj (hgroup'.symm.trans hgroup)
    exact h.right_congr h' hgrows hin

/-- What is known behind a schedule. -/
structure Behind (ms : List (PublicationMove nc)) (t : Publication nc) (l : Lobby) : Prop
    extends t.Inv l where
  run : (publication nc).run (start nc) ms = some t
  requests : l.members.map Member.request = publicationRequests ms
  right : (∀ p ∈ t.passed, t.Right p) ↔ (publication nc).Always OutsideWindow (start nc) ms

/-- **A move behind a schedule**, within the limits. -/
theorem Behind.exists_exec {ms : List (PublicationMove nc)} (h : Behind ms s l)
    {m : PublicationMove nc} (hlim : InLimits (ms ++ [m]))
    (hen : (publication nc).enabled s m) :
    ∃ t l', (publication nc).exec s m = some t ∧ Behind (ms ++ [m]) t l' := by
  have hjoins := hlim.joins
  rw [publicationRequests_concat, ← h.requests] at hjoins
  obtain ⟨t, l', hexec, hinv, hrun⟩ := h.toInv.exists_exec hen hjoins
    (hlim.messages m (List.mem_append_right _ (List.mem_singleton_self m)))
  have hgrows := h.lobby.toSlots.grows_of_run hrun
  refine ⟨t, l', hexec, hinv, StepSystem.run_concat_eq_some.mpr ⟨s, h.run, hexec⟩, ?_, ?_⟩
  · rw [publicationRequests_concat, ← h.requests]
    exact h.lobby.toSlots.map_request_of_run hrun
  · rw [h.toInv.right_of_exec hinv hgrows hexec, h.right, StepSystem.always_concat]
    refine and_congr_right fun _ => ⟨fun hm u hu => ?_, fun hm => hm s h.run⟩
    obtain rfl := Option.some.inj (h.run.symm.trans hu)
    exact hm

end Publication

/-- **What is passed to `write`.** Every schedule of joins, responses, messages, departures
and delivery loops within the limits goes through, at the grain of single loads and
stores; and what the delivery loops have passed to `write` is, where it is a descriptor at
all, the descriptor of the client that was given the slot, exactly if no loop has made its
last load of a slot between the two stores of a join that is giving this slot to a
descriptor other than zero. -/
theorem publication_right_iff {ms : List (PublicationMove nc)}
    (hen : (publication nc).Always (publication nc).enabled (Publication.start nc) ms)
    (hlim : InLimits ms) :
    ∃ t, (publication nc).run (Publication.start nc) ms = some t ∧
      ((∀ p ∈ t.passed, t.Right p) ↔
        (publication nc).Always Publication.OutsideWindow (Publication.start nc) ms) := by
  have hstart : Publication.Behind [] (Publication.start nc) Lobby.start :=
    ⟨Publication.inv_start, rfl, rfl, by simp [Publication.start]⟩
  obtain ⟨t, hrun, l, hbehind⟩ := StepSystem.run_schedule (Q := InLimits)
    (P := fun ms t => ∃ l, Publication.Behind ms t l) (fun _ _ h => h.of_concat) ⟨_, hstart⟩
    (fun ms m s h hlim hen => by
      obtain ⟨l, h⟩ := h
      obtain ⟨t, l', hexec, h'⟩ := h.exists_exec hlim hen
      exact ⟨t, hexec, l', h'⟩) hen hlim
  exact ⟨t, hrun, hbehind.right⟩

/-- The one consumer of the example. -/
def reader : Fin consumerThreadCount := Fin.last 2

/-- A client of a group sends a message, a second one is about to store its descriptor,
and the delivery loop has tested its slot. -/
def untilWindow : List (PublicationMove consumerThreadCount) :=
  [.lock 5 (.letter 97), .storeCount, .storeSlot, .respond 0, .send 0 (.blank 0 0),
    .lock 6 (.letter 97), .storeCount, .pop reader, .load reader, .load reader, .load reader,
    .load reader]

/-- If the descriptor is stored before the last load, it is what is passed. -/
theorem publication_right_iff_store :
    ∃ t, (publication consumerThreadCount).run (Publication.start consumerThreadCount)
        (untilWindow ++ [.storeSlot, .load reader]) = some t ∧
      t.passed = [⟨0, 1, 6⟩] ∧ ∀ p ∈ t.passed, t.Right p := by
  obtain ⟨t, hrun, hpassed⟩ : ∃ t, (publication consumerThreadCount).run
      (Publication.start consumerThreadCount) (untilWindow ++ [.storeSlot, .load reader]) = some t ∧
      t.passed = [⟨0, 1, 6⟩] := StepSystem.exists_run (by decide +kernel)
  have hlim : InLimits (untilWindow ++ [.storeSlot, .load reader]) :=
    ⟨⟨by decide +kernel, by decide +kernel,
      fun _ => List.count_le_length.trans (by decide +kernel)⟩, by decide +kernel⟩
  obtain ⟨t', hrun', hright⟩ := publication_right_iff (by decide +kernel) hlim
  obtain rfl := Option.some.inj (hrun.symm.trans hrun')
  exact ⟨t, hrun, hpassed, hright.mpr (by decide +kernel)⟩

/-- **The zero of the beginning**, passed to `write` for the slot of descriptor 6. -/
theorem exists_run_window :
    ∃ t, (publication consumerThreadCount).run (Publication.start consumerThreadCount)
        (untilWindow ++ [.load reader]) = some t ∧
      t.passed = [⟨0, 1, 0⟩] ∧ t.assigned.map (fun m => (m.groupId, m.id, m.nsfd)) =
        [(0, 0, 5), (0, 1, 6)] ∧ ¬ t.Right ⟨0, 1, 0⟩ :=
  StepSystem.exists_run (by decide +kernel)

end GroupChat
