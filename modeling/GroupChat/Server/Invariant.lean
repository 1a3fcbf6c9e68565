import GroupChat.Registry.Slots
import GroupChat.Server.Model

/-!
# The invariant of the server

What links the threads: the queue holds the messages inserted and not yet
removed, a consumer in its delivery loop has the message that its removal took
out, and only this consumer ever writes under this ticket
(`GroupChat.Server.Inv`). The tables are under the invariant of the slots, so a
turn of a delivery loop can be told in terms of members: it comes to the one
member that was given the slot (`GroupChat.ServerStep.write`,
`GroupChat.ServerStep.skip`).

Nothing here asks anything of what clients send. That the descriptors of different
clients are different is a fact about `accept` (`GroupChat.Server.FreshAccept`)
and kept apart (`GroupChat.Server.Distinct`).
-/

namespace GroupChat

open Lobby

/-- The loop of a message goes over the row of group `g`. -/
def Message.InGroup (m : Message) (g : ℕ) : Prop := m.groupId.toInt = (g : ℤ)

instance (m : Message) (g : ℕ) : Decidable (m.InGroup g) := inferInstanceAs (Decidable (_ = _))

namespace Server

variable {nc n : ℕ} {s : Server nc}

/-- The messages inserted, in their order. -/
def messages (s : Server nc) : List Message := s.sent.map Prod.snd

/-- **The invariant of the server.** -/
structure Inv (n : ℕ) (s : Server nc) : Prop where
  slots : s.lobby.Slots
  wf : s.messageQueue.Wf n
  popped_le : s.popped.length ≤ s.messages.length
  fifo : s.messages.drop s.popped.length = s.messageQueue.contents.map MessageQ.message
  sender : ∀ x ∈ s.sent, x.1 < s.lobby.members.length
  delivering : ∀ c t m i, s.consumer c = .delivering t m i →
    s.popped[t]? = some c ∧ s.messages[t]? = some m
  written : ∀ fd t m, Written.message fd t m ∈ s.written →
    t < s.popped.length ∧ s.messages[t]? = some m
  addressed : ∀ fd t m, Written.message fd t m ∈ s.written →
    ∃ (k : ℕ) (r : Member), s.lobby.members[k]? = some r ∧ r.nsfd = fd

theorem Initial.inv (h : s.Initial n) : s.Inv n := by
  obtain ⟨block, hblock⟩ := h.messageQueue
  obtain ⟨hwf, hcontents⟩ := Queue.wf_of_initQueue hblock
  exact
    { slots := h.lobby ▸ slots_start
      wf := hwf
      popped_le := by simp [h.popped]
      fifo := by simp [messages, h.sent, hcontents]
      sender := by simp [h.sent]
      delivering := by simp [h.consumer]
      written := by simp [h.written]
      addressed := by simp [h.written] }

end Server

open Server

/-- **What a move does**, under the invariant. -/
inductive ServerStep {nc : ℕ} (n : ℕ) (s : Server nc) : ServerMove nc → Server nc → Prop where
  | accept {fd : ℤ} (hlt : s.clientCount < maxClients) :
    ServerStep n s (.accept fd)
      { s with clientCount := s.clientCount + 1, waiting := s.waiting ++ [fd] }
  | join {fd : ℤ} {request : JoinRequest} {l : Lobby} (hfd : fd ∈ s.waiting)
    (hl : LobbyStep s.lobby (.join fd request) l) :
    ServerStep n s (.join fd request) { s with lobby := l, waiting := s.waiting.erase fd }
  | respond {k : ℕ} {m : Member} (hm : s.lobby.members[k]? = some m) (hphase : m.phase = .joined) :
    ServerStep n s (.respond k)
      { s with
        lobby := ⟨s.lobby.registry, s.lobby.setPhase k .serving⟩
        written := s.written ++ [.response m.nsfd (response m)] }
  | enqueue {k : ℕ} {m : Member} {message : Message} {now : Timeval} {q : Queue}
    (hm : s.lobby.members[k]? = some m) (hphase : m.phase = .serving) (hwf : q.Wf n)
    (hq : q.contents = s.messageQueue.contents ++ [⟨message, now⟩]) :
    ServerStep n s (.enqueue k message now)
      { s with messageQueue := q, sent := s.sent ++ [(k, message)] }
  | depart {k : ℕ} {l : Lobby} (hl : LobbyStep s.lobby (.depart k) l) :
    ServerStep n s (.depart k) { s with lobby := l }
  | pop {c : Fin nc} {e : MessageQ} {q : Queue} (hc : s.consumer c = .idle) (hwf : q.Wf n)
    (hq : s.messageQueue.contents = e :: q.contents)
    (he : s.messages[s.popped.length]? = some e.message) :
    ServerStep n s (.pop c)
      { s with
        messageQueue := q
        consumer := Function.update s.consumer c (.delivering s.popped.length e.message 0)
        popped := s.popped ++ [c] }
  | stop {c : Fin nc} {t i g : ℕ} {m : Message} (hc : s.consumer c = .delivering t m i)
    (hg : m.InGroup g) (hi : s.lobby.groupSize g ≤ i) :
    ServerStep n s (.turn c) { s with consumer := Function.update s.consumer c .idle }
  | skip {c : Fin nc} {t k : ℕ} {m : Message} {r : Member}
    (hc : s.consumer c = .delivering t m r.id) (hg : m.InGroup r.groupId)
    (hr : s.lobby.members[k]? = some r)
    (hskip : r.phase = .departed ∨ r.nsfd = -1 ∨ (r.id : ℤ) = m.id.toInt) :
    ServerStep n s (.turn c)
      { s with consumer := Function.update s.consumer c (.delivering t m (r.id + 1)) }
  | write {c : Fin nc} {t k : ℕ} {m : Message} {r : Member}
    (hc : s.consumer c = .delivering t m r.id) (hg : m.InGroup r.groupId)
    (hr : s.lobby.members[k]? = some r) (hphase : r.phase ≠ .departed)
    (hid : (r.id : ℤ) ≠ m.id.toInt) :
    ServerStep n s (.turn c)
      { s with
        consumer := Function.update s.consumer c (.delivering t m (r.id + 1))
        written := s.written ++ [.message r.nsfd t m] }

/-! ### Turns of the delivery loop -/

/-- **A turn of the delivery loop**, in terms of members: it reads the count and
the row of one group, and comes to the end of the row or to the member that was
given the slot. -/
theorem Lobby.Slots.of_deliverTurn {l : Lobby} (h : l.Slots) {m : Message} {i : ℕ}
    {reads : List TableRead} {turn : Turn}
    (hturn : l.registry.deliverTurn m i = some (reads, turn)) :
    ∃ g, m.InGroup g ∧ (∀ a ∈ reads, a = .connectionCount g ∨ a = .connection g i) ∧
      ((turn = .stop ∧ l.groupSize g ≤ i) ∨
        ∃ (k : ℕ) (r : Member), l.members[k]? = some r ∧ r.groupId = g ∧ r.id = i ∧
          ((turn = .skip ∧ (r.phase = .departed ∨ r.nsfd = -1 ∨ (r.id : ℤ) = m.id.toInt)) ∨
            (turn = .write r.nsfd ∧ r.phase ≠ .departed ∧ (r.id : ℤ) ≠ m.id.toInt))) := by
  obtain ⟨g, hg, hturn⟩ := Option.bind_eq_some_iff.mp hturn
  obtain ⟨count, hcount, hturn⟩ := Option.bind_eq_some_iff.mp hturn
  have hgroup : m.InGroup g := Int.mem_toNat?.mp hg
  have hlt : g < maxGroups := (Vector.getElem?_eq_some_iff.mp hcount).1
  rw [h.connectionCount g hlt, Option.some.injEq] at hcount
  refine ⟨g, hgroup, ?_⟩
  by_cases hi : i < count
  · rw [if_pos hi] at hturn
    obtain ⟨fd, hfd, hturn⟩ := Option.bind_eq_some_iff.mp hturn
    obtain ⟨k, r, hr, rfl, rfl⟩ := h.exists_member (hcount ▸ hi)
    rw [h.connection r (List.mem_of_getElem? hr), Option.some.injEq] at hfd
    by_cases hcond : fd ≠ -1 ∧ (r.id : ℤ) ≠ m.id.toInt
    · rw [if_pos hcond] at hturn
      obtain ⟨rfl, rfl⟩ := Prod.mk.inj (Option.some.inj hturn)
      have hphase : r.phase ≠ .departed := fun hp => hcond.1 (by rw [← hfd, if_pos hp])
      rw [if_neg hphase] at hfd
      refine ⟨by simp, Or.inr ⟨k, r, hr, rfl, rfl, Or.inr ⟨by rw [hfd], hphase, hcond.2⟩⟩⟩
    · rw [if_neg hcond] at hturn
      obtain ⟨rfl, rfl⟩ := Prod.mk.inj (Option.some.inj hturn)
      refine ⟨by simp, Or.inr ⟨k, r, hr, rfl, rfl, Or.inl ⟨rfl, ?_⟩⟩⟩
      by_cases hid : (r.id : ℤ) = m.id.toInt
      · exact Or.inr (Or.inr hid)
      · have hfd' : fd = -1 := not_not.mp fun hne => hcond ⟨hne, hid⟩
        by_cases hp : r.phase = .departed
        · exact Or.inl hp
        · rw [if_neg hp] at hfd
          exact Or.inr (Or.inl (hfd.trans hfd'))
  · rw [if_neg hi] at hturn
    obtain ⟨rfl, rfl⟩ := Prod.mk.inj (Option.some.inj hturn)
    exact ⟨by simp, Or.inl ⟨rfl, by omega⟩⟩

/-- A turn for a group there is has a meaning. -/
theorem Lobby.Slots.exists_deliverTurn {l : Lobby} (h : l.Slots) {m : Message} {g : ℕ}
    (hg : m.InGroup g) (hlt : g < maxGroups) (i : ℕ) :
    ∃ p, l.registry.deliverTurn m i = some p := by
  have htoNat : m.groupId.toInt.toNat? = some g := Int.mem_toNat?.mpr hg
  simp only [Registry.deliverTurn, htoNat, Option.bind_eq_bind, Option.bind_some,
    h.connectionCount g hlt]
  by_cases hi : i < l.groupSize g
  · obtain ⟨k, r, hr, rfl, rfl⟩ := h.exists_member hi
    rw [if_pos hi, h.connection r (List.mem_of_getElem? hr), Option.bind_some]
    split_ifs <;> exact ⟨_, rfl⟩
  · rw [if_neg hi]
    exact ⟨_, rfl⟩

namespace Server

variable {nc n : ℕ} {s t : Server nc}

/-- A queue that is not full has room. -/
theorem Inv.room (h : s.Inv n) (hfull : queueIsFull s.messageQueue = some false) :
    s.messageQueue.contents.length < n := by
  rw [Queue.queueIsFull_eq h.wf, Option.some.injEq, decide_eq_false_iff_not] at hfull
  exact lt_of_le_of_ne (Queue.length_contents_le h.wf) hfull

/-- A queue that is not empty has an oldest entry. -/
theorem Inv.exists_entry (h : s.Inv n) (hempty : queueIsEmpty s.messageQueue = false) :
    ∃ e es, s.messageQueue.contents = e :: es := by
  refine List.exists_cons_of_ne_nil fun hcontents => ?_
  rw [(Queue.queueIsEmpty_iff h.wf).mpr hcontents] at hempty
  exact absurd hempty (by simp)

/-- **Every move is one of these.** -/
theorem Inv.step (h : s.Inv n) {m : ServerMove nc} (hexec : (server nc).exec s m = some t) :
    ServerStep n s m t := by
  obtain ⟨hen, heff⟩ := StepSystem.exec_eq_some.mp hexec
  cases m with
  | accept fd =>
    obtain ⟨hlt, heq⟩ := Option.ite_none_right_eq_some.mp heff
    obtain rfl := Option.some.inj heq
    exact .accept hlt
  | join fd request =>
    obtain ⟨l, hl, rfl⟩ := Option.map_eq_some_iff.mp heff
    have hjoin : GroupChat.lobby.exec s.lobby (.join fd request) = some l :=
      StepSystem.exec_eq_some.mpr ⟨trivial, hl⟩
    exact .join hen (h.slots.step hjoin)
  | respond k =>
    obtain ⟨m, hm, heff⟩ := Option.bind_eq_some_iff.mp heff
    obtain ⟨m', hm', hphase⟩ := exists_of_phase? hen
    obtain rfl := Option.some.inj (hm.symm.trans hm')
    obtain rfl := Option.some.inj heff
    exact .respond hm hphase
  | enqueue k message now =>
    obtain ⟨m, hm, hphase⟩ := exists_of_phase? hen.1
    obtain ⟨⟨rc, q⟩, hq, rfl⟩ := Option.map_eq_some_iff.mp heff
    obtain ⟨q', hq', hwf, hcontents⟩ := Queue.insertQueue_of_lt h.wf (h.room hen.2) message now
    obtain ⟨-, rfl⟩ := Prod.mk.inj (Option.some.inj (hq'.symm.trans hq))
    exact .enqueue hm hphase hwf hcontents
  | depart k =>
    obtain ⟨l, hl, rfl⟩ := Option.map_eq_some_iff.mp heff
    have hdepart : GroupChat.lobby.exec s.lobby (.depart k) = some l :=
      StepSystem.exec_eq_some.mpr ⟨hen, hl⟩
    exact .depart (h.slots.step hdepart)
  | pop c =>
    obtain ⟨⟨e, q⟩, hq, rfl⟩ := Option.map_eq_some_iff.mp heff
    obtain ⟨e', es, hcontents⟩ := h.exists_entry hen.2
    obtain ⟨q', hq', hwf, rfl⟩ := Queue.popQueue_of_ne_nil h.wf hcontents
    obtain ⟨rfl, rfl⟩ := Prod.mk.inj (Option.some.inj (hq'.symm.trans hq))
    refine .pop hen.1 hwf hcontents ?_
    have hhead := congrArg List.head? h.fifo
    simpa [List.head?_drop, hcontents] using hhead
  | turn c =>
    simp only [server, deliver] at heff
    cases hc : s.consumer c with
    | idle => exact absurd hc hen
    | delivering ticket message i =>
      rw [hc] at heff
      obtain ⟨⟨reads, turn⟩, hturn, heff⟩ := Option.bind_eq_some_iff.mp heff
      obtain ⟨g, hg, -, ⟨rfl, hi⟩ | ⟨k, r, hr, rfl, rfl, ⟨rfl, hskip⟩ | ⟨rfl, hphase, hid⟩⟩⟩ :=
        h.slots.of_deliverTurn hturn
      · obtain rfl := Option.some.inj heff
        exact .stop hc hg hi
      · obtain rfl := Option.some.inj heff
        exact .skip hc hg hr hskip
      · obtain rfl := Option.some.inj heff
        exact .write hc hg hr hphase hid

end Server

theorem ServerStep.grows {nc n : ℕ} {s t : Server nc} {m : ServerMove nc}
    (h : ServerStep n s m t) : Grows s.lobby.members t.lobby.members := by
  cases h with
  | join _ hl => exact hl.grows
  | respond hm hphase => exact (LobbyStep.respond hm hphase).grows
  | depart hl => exact hl.grows
  | _ => exact .refl _

/-- Nothing inserted is forgotten. -/
theorem ServerStep.sent_extends {nc n : ℕ} {s t : Server nc} {m : ServerMove nc}
    (h : ServerStep n s m t) : s.sent <+: t.sent := by
  cases h with
  | enqueue => exact List.prefix_append _ _
  | _ => exact List.prefix_refl _

/-- No removal is forgotten. -/
theorem ServerStep.popped_extends {nc n : ℕ} {s t : Server nc} {m : ServerMove nc}
    (h : ServerStep n s m t) : s.popped <+: t.popped := by
  cases h with
  | pop => exact List.prefix_append _ _
  | _ => exact List.prefix_refl _

theorem getElem?_mono {α : Type*} {xs ys : List α} (h : xs <+: ys) {i : ℕ} {x : α}
    (hi : xs[i]? = some x) : ys[i]? = some x := by
  obtain ⟨zs, rfl⟩ := h
  rw [List.getElem?_append_left (List.getElem?_eq_some_iff.mp hi).1, hi]

/-- After the move of one consumer, another one is where it was. -/
theorem consumer_cases {nc : ℕ} {f : Fin nc → Consumer} {c c' : Fin nc} {x y : Consumer}
    (h : Function.update f c x c' = y) : (c' = c ∧ x = y) ∨ (c' ≠ c ∧ f c' = y) := by
  rcases eq_or_ne c' c with rfl | hne
  · exact Or.inl ⟨rfl, by simpa using h⟩
  · exact Or.inr ⟨hne, by rwa [Function.update_of_ne hne] at h⟩

/-- **Where a loop comes from.** Whoever is in a loop was there, or one slot before, or
has just removed the message. -/
theorem ServerStep.delivering_cases {nc n : ℕ} {s t : Server nc} {mv : ServerMove nc}
    (h : ServerStep n s mv t) {c : Fin nc} {ticket i : ℕ} {m : Message}
    (hc : t.consumer c = .delivering ticket m i) :
    s.consumer c = .delivering ticket m i ∨
      (∃ j, i = j + 1 ∧ s.consumer c = .delivering ticket m j) ∨
      (i = 0 ∧ ticket = s.popped.length ∧ t.popped = s.popped ++ [c] ∧
        s.messages[ticket]? = some m) := by
  cases h with
  | pop hidle hwf hq he =>
    rcases consumer_cases hc with ⟨rfl, hnew⟩ | ⟨-, hold⟩
    · obtain ⟨rfl, rfl, rfl⟩ := Consumer.delivering.inj hnew
      exact Or.inr (Or.inr ⟨rfl, rfl, rfl, he⟩)
    · exact Or.inl hold
  | stop hc' =>
    rcases consumer_cases hc with ⟨-, hnew⟩ | ⟨-, hold⟩
    · exact absurd hnew (by simp)
    · exact Or.inl hold
  | skip hc' =>
    rcases consumer_cases hc with ⟨rfl, hnew⟩ | ⟨-, hold⟩
    · obtain ⟨rfl, rfl, rfl⟩ := Consumer.delivering.inj hnew
      exact Or.inr (Or.inl ⟨_, rfl, hc'⟩)
    · exact Or.inl hold
  | write hc' =>
    rcases consumer_cases hc with ⟨rfl, hnew⟩ | ⟨-, hold⟩
    · obtain ⟨rfl, rfl, rfl⟩ := Consumer.delivering.inj hnew
      exact Or.inr (Or.inl ⟨_, rfl, hc'⟩)
    · exact Or.inl hold
  | _ => exact Or.inl hc

/-- **Every move keeps the invariant.** -/
theorem ServerStep.inv {nc n : ℕ} {s t : Server nc} {m : ServerMove nc} (hs : s.Inv n)
    (h : ServerStep n s m t) : t.Inv n := by
  have hsent : ∀ {j : ℕ} {x : Message}, s.messages[j]? = some x → t.messages[j]? = some x :=
    getElem?_mono (h.sent_extends.map Prod.snd)
  have hpopped : ∀ {j : ℕ} {c : Fin nc}, s.popped[j]? = some c → t.popped[j]? = some c :=
    getElem?_mono h.popped_extends
  have hlength := h.popped_extends.length_le
  have hmembers := h.grows.length_le
  -- what a consumer or a write knows of an old ticket stays true
  have hdelivering : ∀ c t' m i, t.consumer c = .delivering t' m i →
      t.popped[t']? = some c ∧ t.messages[t']? = some m := by
    intro c t' m i hc
    rcases h.delivering_cases hc with hold | ⟨j, -, hold⟩ | ⟨-, rfl, hpop, hm⟩
    · exact ⟨hpopped (hs.delivering c t' m i hold).1, hsent (hs.delivering c t' m i hold).2⟩
    · exact ⟨hpopped (hs.delivering c t' m j hold).1, hsent (hs.delivering c t' m j hold).2⟩
    · exact ⟨by simp [hpop], hsent hm⟩
  have hwritten : ∀ fd t' m, Written.message fd t' m ∈ s.written →
      t' < t.popped.length ∧ t.messages[t']? = some m := fun fd t' m hw =>
    ⟨(hs.written fd t' m hw).1.trans_le hlength, hsent (hs.written fd t' m hw).2⟩
  have haddressed : ∀ fd t' m, Written.message fd t' m ∈ s.written →
      ∃ (k : ℕ) (r : Member), t.lobby.members[k]? = some r ∧ r.nsfd = fd := fun fd t' m hw => by
    obtain ⟨k, r, hr, rfl⟩ := hs.addressed fd t' m hw
    obtain ⟨p, hp, -⟩ := h.grows k r hr
    exact ⟨k, _, hp, rfl⟩
  cases h with
  | accept => exact ⟨hs.slots, hs.wf, hs.popped_le, hs.fifo, hs.sender, hdelivering, hwritten,
      haddressed⟩
  | join _ hl =>
    exact ⟨hl.slots hs.slots, hs.wf, hs.popped_le, hs.fifo,
      fun x hx => (hs.sender x hx).trans_le hmembers, hdelivering, hwritten, haddressed⟩
  | respond hm hphase =>
    refine ⟨(LobbyStep.respond hm hphase).slots hs.slots, hs.wf, hs.popped_le, hs.fifo,
      fun x hx => (hs.sender x hx).trans_le hmembers, hdelivering, ?_, ?_⟩
    · intro fd t' m hw
      exact hwritten fd t' m (by simpa using hw)
    · intro fd t' m hw
      exact haddressed fd t' m (by simpa using hw)
  | @enqueue k m message now q hm hphase hwf hq =>
    refine ⟨hs.slots, hwf, ?_, ?_, ?_, hdelivering, hwritten, haddressed⟩
    · simpa [messages] using Nat.le_succ_of_le (by simpa [messages] using hs.popped_le)
    · have hfifo := hs.fifo
      simp only [messages, List.map_append, List.map_cons, List.map_nil, hq] at hfifo ⊢
      rw [List.drop_append_of_le_length (by simpa [messages] using hs.popped_le), hfifo]
    · intro x hx
      rcases List.mem_append.mp hx with hold | hnew
      · exact hs.sender x hold
      · obtain rfl := List.mem_singleton.mp hnew
        exact (List.getElem?_eq_some_iff.mp hm).1
  | depart hl =>
    exact ⟨hl.slots hs.slots, hs.wf, hs.popped_le, hs.fifo,
      fun x hx => (hs.sender x hx).trans_le hmembers, hdelivering, hwritten, haddressed⟩
  | @pop c e q hc hwf hq he =>
    refine ⟨hs.slots, hwf, ?_, ?_, hs.sender, hdelivering, hwritten, haddressed⟩
    · simpa [messages] using Nat.succ_le_of_lt (List.getElem?_eq_some_iff.mp he).1
    · have hfifo := congrArg List.tail hs.fifo
      rw [List.tail_drop, hq, List.map_cons, List.tail_cons] at hfifo
      simpa [messages] using hfifo
  | stop | skip =>
    exact ⟨hs.slots, hs.wf, hs.popped_le, hs.fifo, hs.sender, hdelivering, hwritten, haddressed⟩
  | @write c t' k m r hc hg hr hphase hid =>
    refine ⟨hs.slots, hs.wf, hs.popped_le, hs.fifo, hs.sender, hdelivering, ?_, ?_⟩
    · intro fd t₁ m₁ hw
      rcases List.mem_append.mp hw with hold | hnew
      · exact hwritten fd t₁ m₁ hold
      · obtain ⟨-, rfl, rfl⟩ := Written.message.inj (List.mem_singleton.mp hnew)
        obtain ⟨hlt, hmsg⟩ := hs.delivering c t₁ m₁ r.id hc
        exact ⟨(List.getElem?_eq_some_iff.mp hlt).1, hmsg⟩
    · intro fd t₁ m₁ hw
      rcases List.mem_append.mp hw with hold | hnew
      · exact haddressed fd t₁ m₁ hold
      · obtain ⟨rfl, -⟩ := Written.message.inj (List.mem_singleton.mp hnew)
        exact ⟨k, r, hr, rfl⟩

namespace Server

variable {nc n : ℕ} {s t : Server nc} {ms : List (ServerMove nc)}

theorem Inv.inv_of_run (h : s.Inv n) (hrun : (server nc).run s ms = some t) : t.Inv n :=
  StepSystem.run_invariant' (fun _ _ _ hs hexec => (hs.step hexec).inv hs) h hrun

/-! ### Descriptors -/

/-- The descriptors of all handlers. -/
def descriptors (s : Server nc) : List ℤ := s.waiting ++ s.lobby.members.map Member.nsfd

/-- `accept` returns a descriptor that no handler has. -/
def FreshAccept (s : Server nc) : ServerMove nc → Prop
  | .accept fd => 0 ≤ fd ∧ fd ∉ s.descriptors
  | _ => True

instance (s : Server nc) : (m : ServerMove nc) → Decidable (s.FreshAccept m)
  | .accept fd => inferInstanceAs (Decidable (0 ≤ fd ∧ fd ∉ s.descriptors))
  | .join _ _ | .respond _ | .enqueue _ _ _ | .depart _ | .pop _ | .turn _ => isTrue trivial

/-- No two handlers have the same descriptor. -/
structure Distinct (s : Server nc) : Prop where
  nodup : s.descriptors.Nodup
  nonneg : ∀ fd ∈ s.descriptors, 0 ≤ fd

theorem Initial.distinct (h : s.Initial n) : s.Distinct where
  nodup := by simp [descriptors, h.waiting, h.lobby, Lobby.start]
  nonneg := by simp [descriptors, h.waiting, h.lobby, Lobby.start]

/-- What matters are the descriptors, in whatever order. -/
theorem Distinct.of_perm (h : s.Distinct) (hperm : t.descriptors.Perm s.descriptors) :
    t.Distinct where
  nodup := hperm.nodup_iff.mpr h.nodup
  nonneg fd hfd := h.nonneg fd (hperm.mem_iff.mp hfd)

theorem descriptors_setPhase (l : Lobby) (k : ℕ) (p : Phase) :
    (l.setPhase k p).map Member.nsfd = l.members.map Member.nsfd :=
  map_setPhase _ (fun _ _ => rfl) k p

end Server

theorem ServerStep.distinct {nc n : ℕ} {s t : Server nc} {m : ServerMove nc} (hs : s.Distinct)
    (hfresh : s.FreshAccept m) (h : ServerStep n s m t) : t.Distinct := by
  cases h with
  | @accept fd =>
    refine Distinct.of_perm (s := { s with waiting := fd :: s.waiting }) ⟨?_, ?_⟩ ?_
    · exact List.nodup_cons.mpr ⟨hfresh.2, hs.nodup⟩
    · intro fd' hfd'
      rcases List.mem_cons.mp hfd' with rfl | hold
      · exact hfresh.1
      · exact hs.nonneg fd' hold
    · simp only [descriptors, List.append_assoc, List.singleton_append]
      exact List.perm_middle
  | @join fd request l hfd hl =>
    cases hl with
    | join =>
      refine hs.of_perm ?_
      simp only [descriptors, List.map_append, List.map_cons, List.map_nil, ← List.append_assoc]
      -- the descriptor goes from one end of the list to the other
      refine (List.perm_append_singleton fd _).trans ?_
      rw [← List.cons_append]
      exact (List.perm_cons_erase hfd).symm.append_right _
  | respond hm hphase =>
    exact hs.of_perm (by simp only [descriptors, descriptors_setPhase]; exact List.Perm.refl _)
  | depart hl =>
    cases hl with
    | depart =>
      exact hs.of_perm (by simp only [descriptors, descriptors_setPhase]; exact List.Perm.refl _)
  | _ => exact ⟨hs.nodup, hs.nonneg⟩

namespace Server

variable {nc n : ℕ} {s t : Server nc} {ms : List (ServerMove nc)}

/-- Different members have different descriptors. -/
theorem Distinct.index_eq (h : s.Distinct) {j k : ℕ} {r r' : Member}
    (hr : s.lobby.members[j]? = some r) (hr' : s.lobby.members[k]? = some r')
    (hfd : r.nsfd = r'.nsfd) : j = k := by
  have hnodup := (List.nodup_append.mp h.nodup).2.1
  have hj : j < (s.lobby.members.map Member.nsfd).length := by
    simpa using (List.getElem?_eq_some_iff.mp hr).1
  refine (List.getElem?_inj hj hnodup).mp ?_
  rw [List.getElem?_map, List.getElem?_map, hr, hr', Option.map_some, Option.map_some, hfd]

/-- A handler that has not joined has none of the members' descriptors. -/
theorem Distinct.ne_of_mem_waiting (h : s.Distinct) {k : ℕ} {r : Member} {fd : ℤ}
    (hfd : fd ∈ s.waiting) (hr : s.lobby.members[k]? = some r) : r.nsfd ≠ fd := fun heq =>
  (List.nodup_append.mp h.nodup).2.2 fd hfd _
    (List.mem_map_of_mem (List.mem_of_getElem? hr)) heq.symm

theorem Distinct.nsfd_nonneg (h : s.Distinct) {k : ℕ} {r : Member}
    (hr : s.lobby.members[k]? = some r) : 0 ≤ r.nsfd :=
  h.nonneg _ (List.mem_append_right _ (List.mem_map_of_mem (List.mem_of_getElem? hr)))

theorem distinct_of_run (hinv : s.Inv n) (hs : s.Distinct)
    (hfresh : (server nc).Always FreshAccept s ms) (hrun : (server nc).run s ms = some t) :
    t.Distinct :=
  (StepSystem.run_invariant (I := fun u => u.Inv n ∧ u.Distinct)
    (fun _ _ _ hu hG hexec => ⟨(hu.1.step hexec).inv hu.1, (hu.1.step hexec).distinct hu.2 hG⟩)
    ⟨hinv, hs⟩ hfresh hrun).2

end Server

end GroupChat
