import GroupChat.Server.Sweep

/-!
# From the insertion to the end of the delivery

A message is pending from its insertion into the queue until its delivery loop has ended
(`GroupChat.Server.Pending`). In between it is passed from the queue to a consumer, and
nothing is lost on the way: once it is no longer pending, it has been written to all those
members of its group that had joined while it was, except the sender and those who are
gone (`GroupChat.Server.reached_of_run`).

Every loop is under the invariant of `GroupChat.Server.Sweep`, all of them at once
(`GroupChat.Server.Sweeps`), so it does not matter where in its delivery a message is when
one begins to look.
-/

namespace GroupChat

open Lobby

/-- The ticket of the loop that a consumer is in. -/
def Consumer.ticket? : Consumer → Option ℕ
  | idle => none
  | delivering ticket _ _ => some ticket

namespace Server

variable {nc n : ℕ} {s t : Server nc}

/-- The message with this ticket has been inserted, and its delivery loop has not ended. -/
def Pending (s : Server nc) (ticket : ℕ) : Prop :=
  ticket < s.sent.length ∧
    (ticket < s.popped.length → ∃ c, (s.consumer c).ticket? = some ticket)

instance (s : Server nc) (ticket : ℕ) : Decidable (s.Pending ticket) :=
  inferInstanceAs (Decidable (_ ∧ _))

/-- All delivery loops are as they should be. -/
def Sweeps (s : Server nc) : Prop :=
  ∀ c ticket m i g, s.consumer c = .delivering ticket m i → m.InGroup g →
    ∃ old, Sweep old ticket m g i s

/-- The message has been written to those of the first `count` members that it is for and
that have not departed. -/
def Reached (s : Server nc) (count ticket : ℕ) (m : Message) (g : ℕ) : Prop :=
  ∀ (k : ℕ) (r : Member), k < count → s.lobby.members[k]? = some r → r.groupId = g →
    (r.id : ℤ) ≠ m.id.toInt → r.phase ≠ .departed → s.copies ticket r.nsfd = [m]

theorem Initial.sweeps (h : s.Initial n) : s.Sweeps := by
  intro c ticket m i g hc
  rw [h.consumer] at hc
  exact absurd hc (by simp)

theorem exists_of_ticket? {c : Fin nc} {ticket : ℕ} (h : (s.consumer c).ticket? = some ticket) :
    ∃ m i, s.consumer c = .delivering ticket m i := by
  cases hc : s.consumer c with
  | idle =>
    rw [hc] at h
    exact absurd h (by simp [Consumer.ticket?])
  | delivering ticket' m i =>
    rw [hc] at h
    obtain rfl := Option.some.inj h
    exact ⟨m, i, rfl⟩

/-- A message that is not pending any more has left the queue, and no loop is about it. -/
theorem of_not_pending {ticket : ℕ} (hsent : ticket < s.sent.length) (h : ¬s.Pending ticket) :
    ticket < s.popped.length ∧ ∀ c, (s.consumer c).ticket? ≠ some ticket := by
  constructor
  · by_contra hge
    exact h ⟨hsent, fun hlt => absurd hlt hge⟩
  · intro c hc
    exact h ⟨hsent, fun _ => ⟨c, hc⟩⟩

theorem lt_of_messages {ticket : ℕ} {m : Message} (h : s.messages[ticket]? = some m) :
    ticket < s.sent.length := by
  have hlt := (List.getElem?_eq_some_iff.mp h).1
  rwa [messages, List.length_map] at hlt

end Server

open Server

variable {nc n : ℕ} {s t : Server nc} {mv : ServerMove nc}

/-- **Every move keeps all loops as they should be.** -/
theorem ServerStep.sweeps (hinv : s.Inv n) (hs : s.Distinct) (h : s.Sweeps)
    (hstep : ServerStep n s mv t) : t.Sweeps := by
  intro c ticket m i g hc hg
  rcases hstep.sweep_cases hinv hs hc with ⟨j, hj, hkeep⟩ | ⟨rfl, rfl, hpop⟩
  · obtain ⟨old, hold⟩ := h c ticket m j g hj hg
    exact ⟨old, hkeep old g hg hold⟩
  · exact ⟨_, sweep_of_copies (hstep.copies_of_popped hinv hpop) m g⟩

/-- Nothing is written under the ticket of a message that no loop is about. -/
theorem ServerStep.copies_eq (hstep : ServerStep n s mv t) {ticket : ℕ}
    (hloop : ∀ c, (s.consumer c).ticket? ≠ some ticket) (fd : ℤ) :
    t.copies ticket fd = s.copies ticket fd := by
  cases hstep with
  | respond => exact copies_response ..
  | @write c t' k m r hc =>
    have hne : t' ≠ ticket := fun heq => hloop c (by rw [hc, heq]; rfl)
    rw [copies_message, if_neg fun heq => hne heq.2, List.append_nil]
  | _ => rfl

/-- A loop that has ended does not begin again. -/
theorem ServerStep.ticket?_ne (hstep : ServerStep n s mv t) {ticket : ℕ}
    (hticket : ticket < s.popped.length) (hloop : ∀ c, (s.consumer c).ticket? ≠ some ticket)
    (c : Fin nc) : (t.consumer c).ticket? ≠ some ticket := by
  intro hc
  obtain ⟨m, i, hc⟩ := exists_of_ticket? hc
  rcases hstep.delivering_cases hc with hold | ⟨j, -, hold⟩ | ⟨-, rfl, -⟩
  · exact hloop c (by rw [hold]; rfl)
  · exact hloop c (by rw [hold]; rfl)
  · exact Nat.lt_irrefl _ hticket

/-- **The end of a delivery.** When a move ends the delivery of a message, the message has
been written to every member it is for. -/
theorem ServerStep.reached (hinv : s.Inv n) (hs : s.Distinct) (hsweeps : s.Sweeps)
    (hstep : ServerStep n s mv t) {ticket g : ℕ} {m : Message}
    (hm : s.messages[ticket]? = some m) (hg : m.InGroup g) (hpending : s.Pending ticket)
    (hend : ¬t.Pending ticket) (count : ℕ) : t.Reached count ticket m g := by
  obtain ⟨hpopped, hloop⟩ :=
    of_not_pending (hpending.1.trans_le hstep.sent_extends.length_le) hend
  by_cases hlt : ticket < s.popped.length
  · obtain ⟨c, hc⟩ := hpending.2 hlt
    obtain ⟨m', i, hc⟩ := exists_of_ticket? hc
    obtain rfl := Option.some.inj (hm.symm.trans (hinv.delivering c ticket m' i hc).2)
    obtain ⟨old, hsweep⟩ := hsweeps c ticket m i g hc hg
    rcases hsweep.step hinv hs hc hg hstep with ⟨j, hj, -⟩ | ⟨-, hle, hsweep'⟩
    · exact absurd (by rw [hj]; rfl) (hloop c)
    · intro k r _ hr hgroup hid hphase
      have hrank := (hstep.inv hinv).slots.numbered.rank_lt (List.mem_of_getElem? hr)
      rw [hgroup] at hrank
      exact hsweep'.done k r hr hgroup (hrank.trans_le hle) hid hphase
  · -- a message that is just removed is in the loop of whoever removed it
    cases hstep with
    | @pop c =>
      have heq : ticket = s.popped.length := by
        rw [List.length_append, List.length_singleton] at hpopped
        omega
      have hc := hloop c
      simp only [Function.update_self, Consumer.ticket?, heq] at hc
      exact absurd rfl hc
    | _ => exact absurd hpopped hlt

/-- What a message has reached stays so. -/
theorem Server.Reached.step {count ticket g : ℕ} {m : Message} (h : s.Reached count ticket m g)
    (hcount : count ≤ s.lobby.members.length) (hstep : ServerStep n s mv t)
    (hloop : ∀ c, (s.consumer c).ticket? ≠ some ticket) : t.Reached count ticket m g := by
  intro k r hk hr hg hid hphase
  rw [hstep.copies_eq hloop]
  rcases hstep.member_cases hr with ⟨r', p, hr', rfl, hrank⟩ | ⟨hge, -⟩
  · exact h k r' hk hr' hg hid (Phase.ne_departed hrank hphase)
  · omega

namespace Server

variable {ms : List (ServerMove nc)}

theorem messages_of_run (hinv : s.Inv n) (hrun : (server nc).run s ms = some t) {ticket : ℕ}
    {m : Message} (hm : s.messages[ticket]? = some m) : t.messages[ticket]? = some m := by
  refine (StepSystem.run_invariant' (I := fun u => u.Inv n ∧ u.messages[ticket]? = some m)
    (fun u mv v hu hexec => ?_) ⟨hinv, hm⟩ hrun).2
  have hstep := hu.1.step hexec
  exact ⟨hstep.inv hu.1, getElem?_mono (hstep.sent_extends.map Prod.snd) hu.2⟩

theorem sweeps_of_run (hinv : s.Inv n) (hs : s.Distinct) (hsweeps : s.Sweeps)
    (hfresh : (server nc).Always FreshAccept s ms) (hrun : (server nc).run s ms = some t) :
    t.Sweeps := by
  refine (StepSystem.run_invariant (I := fun u => u.Inv n ∧ u.Distinct ∧ u.Sweeps)
    (fun u mv v hu hG hexec => ?_) ⟨hinv, hs, hsweeps⟩ hfresh hrun).2.2
  have hstep := hu.1.step hexec
  exact ⟨hstep.inv hu.1, hstep.distinct hu.2.1 hG, hstep.sweeps hu.1 hu.2.1 hu.2.2⟩

/-- **From the insertion to the end of the delivery.** A message that was pending and is so
no longer has been written to every member it is for that had joined when it was, and that
has not departed. -/
theorem reached_of_run (hinv : s.Inv n) (hs : s.Distinct)
    (hsweeps : s.Sweeps) (hfresh : (server nc).Always FreshAccept s ms)
    (hrun : (server nc).run s ms = some t) {ticket g : ℕ} {m : Message}
    (hm : s.messages[ticket]? = some m) (hg : m.InGroup g) (hpending : s.Pending ticket)
    (hend : ¬t.Pending ticket) : t.Reached s.lobby.members.length ticket m g := by
  refine ((StepSystem.run_invariant (G := FreshAccept)
    (I := fun u => (u.Inv n ∧ u.Distinct ∧ u.Sweeps) ∧ u.messages[ticket]? = some m ∧
      s.lobby.members.length ≤ u.lobby.members.length ∧ (u.Pending ticket ∨
        (ticket < u.popped.length ∧ (∀ c, (u.consumer c).ticket? ≠ some ticket) ∧
          u.Reached s.lobby.members.length ticket m g)))
    (fun u mv v hu hG hexec => ?_)
    ⟨⟨hinv, hs, hsweeps⟩, hm, Nat.le_refl _, Or.inl hpending⟩ hfresh hrun).2.2.2.resolve_left
      hend).2.2
  obtain ⟨⟨hui, hud, hus⟩, hum, hucount, hu⟩ := hu
  have hstep := hui.step hexec
  have hvm := getElem?_mono (hstep.sent_extends.map Prod.snd) hum
  refine ⟨⟨hstep.inv hui, hstep.distinct hud hG, hstep.sweeps hui hud hus⟩, hvm,
    hucount.trans hstep.grows.length_le, ?_⟩
  rcases hu with hpend | ⟨hticket, hloop, hreached⟩
  · by_cases hstill : v.Pending ticket
    · exact Or.inl hstill
    · obtain ⟨hticket, hloop⟩ := of_not_pending (lt_of_messages hvm) hstill
      exact Or.inr ⟨hticket, hloop, hstep.reached hui hud hus hum hg hpend hstill _⟩
  · exact Or.inr ⟨hticket.trans_le hstep.popped_extends.length_le,
      hstep.ticket?_ne hticket hloop, hreached.step hucount hstep hloop⟩

end Server

end GroupChat
