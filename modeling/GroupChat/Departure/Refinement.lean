import GroupChat.Departure.Model

/-!
# Turns and their accesses

The server of `GroupChat.server` makes a turn of the delivery loop as one move. Here it is
shown that this is enough to know about the accesses of `GroupChat.network`: every run with
its single accesses goes along with a run of whole turns (`GroupChat.Network.Behind.run`), in
which a turn is made when its last access is. Everything is the same in both but what has
been written to a client that has departed: a consumer that has tested the slot may load the
`-1`, or write to the descriptor when the `-1` has been stored already.

So what is known about the server is known about the clients that are still there.
-/

namespace GroupChat

open Lobby Server

variable {nc n : ℕ}

/-! ### Steps -/

/-- **What a move does.** -/
inductive NetworkStep (w : Network nc) : NetworkMove nc → Network nc → Prop where
  | server {mv : ServerMove nc} {t : Server nc} (hturn : ∀ c, mv ≠ .turn c)
    (hexec : (server nc).exec w.server mv = some t) (hended : w.ended = none)
    (hdepart : ∀ k, mv = .depart k → w.EndOfStream k)
    (hrespond : ∀ k, mv = .respond k → ∀ r ∈ w.server.lobby.members[k]?, w.peer r.nsfd ≠ .reset) :
    NetworkStep w (.server mv) { w with server := t }
  | refused {k : ℕ} {r : Member} (hr : w.server.lobby.members[k]? = some r)
    (hphase : r.phase = .joined) (hended : w.ended = none) (hpeer : w.peer r.nsfd = .reset) :
    NetworkStep w (.server (.respond k)) { w with ended := some (.response k) }
  | pass {c : Fin nc} {ticket i : ℕ} {m : Message} {reads : List TableRead} {fd : ℤ}
    (hc : w.server.consumer c = .delivering ticket m i) (haccess : w.access c = .check)
    (hended : w.ended = none)
    (hturn : w.server.lobby.registry.deliverTurn m i = some (reads, .write fd)) :
    NetworkStep w (.check c) { w with access := Function.update w.access c .load }
  | turn {c : Fin nc} {ticket i : ℕ} {m : Message} {reads : List TableRead} {turn : Turn}
    {t : Server nc} (hc : w.server.consumer c = .delivering ticket m i)
    (haccess : w.access c = .check) (hended : w.ended = none)
    (hturn : w.server.lobby.registry.deliverTurn m i = some (reads, turn))
    (hwrite : ∀ fd, turn ≠ .write fd) (hdeliver : w.server.deliver c = some t) :
    NetworkStep w (.check c) { w with server := t }
  | load {c : Fin nc} {ticket i g : ℕ} {m : Message} {fd : ℤ}
    (hc : w.server.consumer c = .delivering ticket m i) (haccess : w.access c = .load)
    (hended : w.ended = none) (hg : m.InGroup g)
    (hfd : w.server.lobby.registry.connection? g i = some fd) :
    NetworkStep w (.load c) { w with access := Function.update w.access c (.write fd) }
  | lost {c : Fin nc} {ticket i : ℕ} {m : Message} {fd : ℤ}
    (hc : w.server.consumer c = .delivering ticket m i) (haccess : w.access c = .write fd)
    (hended : w.ended = none) (hfd : fd < 0) :
    NetworkStep w (.write c)
      { w with
        server := { w.server with
          consumer := Function.update w.server.consumer c (.delivering ticket m (i + 1)) }
        access := Function.update w.access c .check }
  | killed {c : Fin nc} {ticket i : ℕ} {m : Message} {fd : ℤ}
    (hc : w.server.consumer c = .delivering ticket m i) (haccess : w.access c = .write fd)
    (hended : w.ended = none) (hfd : 0 ≤ fd) (hpeer : w.peer fd = .reset) :
    NetworkStep w (.write c) { w with ended := some (.delivery c) }
  | write {c : Fin nc} {ticket i : ℕ} {m : Message} {fd : ℤ}
    (hc : w.server.consumer c = .delivering ticket m i) (haccess : w.access c = .write fd)
    (hended : w.ended = none) (hfd : 0 ≤ fd) (hpeer : w.peer fd ≠ .reset) :
    NetworkStep w (.write c)
      { w with
        server := { w.server with
          consumer := Function.update w.server.consumer c (.delivering ticket m (i + 1))
          written := w.server.written ++ [.message fd ticket m] }
        access := Function.update w.access c .check }
  | close {fd : ℤ} (hpeer : w.peer fd = .connected) :
    NetworkStep w (.close fd) { w with peer := Function.update w.peer fd .closed }
  | reset {fd : ℤ} (hpeer : w.peer fd = .closed) :
    NetworkStep w (.reset fd) { w with peer := Function.update w.peer fd .reset }

namespace Network

variable {w v : Network nc}

theorem networkStep_respond {k : ℕ} (hen : w.Enabled (.server (.respond k)))
    (heff : w.respond k = some v) : NetworkStep w (.server (.respond k)) v := by
  obtain ⟨r, hr, heff⟩ := Option.bind_eq_some_iff.mp heff
  obtain ⟨r', hr', hphase⟩ := exists_of_phase? hen.2
  obtain rfl := Option.some.inj (hr.symm.trans hr')
  by_cases hpeer : w.peer r.nsfd = .reset
  · rw [if_pos hpeer] at heff
    obtain rfl := Option.some.inj heff
    exact .refused hr hphase hen.1 hpeer
  · rw [if_neg hpeer] at heff
    obtain ⟨t, ht, heff⟩ := Option.bind_eq_some_iff.mp heff
    obtain rfl := Option.some.inj heff
    refine .server (by simp) (StepSystem.exec_eq_some.mpr ⟨hen.2, ht⟩) hen.1 (by simp) ?_
    rintro k' hk r' hr'
    obtain rfl := ServerMove.respond.inj hk
    obtain rfl := Option.some.inj (hr.symm.trans hr')
    exact hpeer

theorem networkStep_check {c : Fin nc} (hen : w.Enabled (.check c))
    (heff : w.checkSlot c = some v) : NetworkStep w (.check c) v := by
  unfold checkSlot at heff
  cases hc : w.server.consumer c with
  | idle => exact absurd hc hen.2.1
  | delivering ticket m i =>
    rw [hc] at heff
    obtain ⟨⟨reads, turn⟩, hturn, heff⟩ := Option.bind_eq_some_iff.mp heff
    cases turn with
    | write fd =>
      obtain rfl := Option.some.inj heff
      exact .pass hc hen.2.2 hen.1 hturn
    | stop | skip =>
      obtain ⟨t, ht, heff⟩ := Option.bind_eq_some_iff.mp heff
      obtain rfl := Option.some.inj heff
      exact .turn hc hen.2.2 hen.1 hturn (by simp) ht

theorem networkStep_load {c : Fin nc} (hen : w.Enabled (.load c))
    (heff : w.loadSlot c = some v) : NetworkStep w (.load c) v := by
  unfold loadSlot at heff
  cases hc : w.server.consumer c with
  | idle =>
    rw [hc] at heff
    exact absurd heff (by simp)
  | delivering ticket m i =>
    rw [hc] at heff
    obtain ⟨g, hg, heff⟩ := Option.bind_eq_some_iff.mp heff
    obtain ⟨fd, hfd, heff⟩ := Option.bind_eq_some_iff.mp heff
    obtain rfl := Option.some.inj heff
    exact .load hc hen.2 hen.1 (Int.mem_toNat?.mp hg) hfd

theorem networkStep_write {c : Fin nc} (hen : w.Enabled (.write c))
    (heff : w.writeSlot c = some v) : NetworkStep w (.write c) v := by
  unfold writeSlot at heff
  cases hc : w.server.consumer c with
  | idle =>
    rw [hc] at heff
    exact absurd heff (by simp)
  | delivering ticket m i =>
    cases haccess : w.access c with
    | check | load =>
      rw [hc, haccess] at heff
      exact absurd heff (by simp)
    | write fd =>
      simp only [hc, haccess] at heff
      by_cases hfd : fd < 0
      · rw [if_pos hfd] at heff
        obtain rfl := Option.some.inj heff
        exact .lost hc haccess hen.1 hfd
      · rw [if_neg hfd] at heff
        by_cases hpeer : w.peer fd = .reset
        · rw [if_pos hpeer] at heff
          obtain rfl := Option.some.inj heff
          exact .killed hc haccess hen.1 (not_lt.mp hfd) hpeer
        · rw [if_neg hpeer] at heff
          obtain rfl := Option.some.inj heff
          exact .write hc haccess hen.1 (not_lt.mp hfd) hpeer

/-- **Every move is one of these.** -/
theorem networkStep {mv : NetworkMove nc} (hexec : (network nc).exec w mv = some v) :
    NetworkStep w mv v := by
  obtain ⟨hen, heff⟩ := StepSystem.exec_eq_some.mp hexec
  cases mv with
  | server mv =>
    cases mv with
    | turn c => exact hen.elim
    | respond k => exact networkStep_respond hen heff
    | depart k =>
      obtain ⟨t, ht, heff⟩ := Option.bind_eq_some_iff.mp heff
      obtain rfl := Option.some.inj heff
      refine .server (by simp) (StepSystem.exec_eq_some.mpr ⟨hen.2.1, ht⟩) hen.1 ?_ (by simp)
      rintro k' hk
      obtain rfl := ServerMove.depart.inj hk
      exact hen.2.2
    | _ =>
      obtain ⟨t, ht, heff⟩ := Option.bind_eq_some_iff.mp heff
      obtain rfl := Option.some.inj heff
      exact .server (by simp) (StepSystem.exec_eq_some.mpr ⟨hen.2, ht⟩) hen.1 (by simp) (by simp)
  | check c => exact networkStep_check hen heff
  | load c => exact networkStep_load hen heff
  | write c => exact networkStep_write hen heff
  | close fd =>
    obtain rfl := Option.some.inj heff
    exact .close hen.2
  | reset fd =>
    obtain rfl := Option.some.inj heff
    exact .reset hen

end Network

/-! ### The server with another record of its writes -/

namespace Server

variable {s t : Server nc}

/-- The server, with another record of what has been written. -/
def withWritten (s : Server nc) (ws : List Written) : Server nc := { s with written := ws }

theorem copies_append {ws later : List Written} (ticket : ℕ) (fd : ℤ) :
    (s.withWritten (ws ++ later)).copies ticket fd =
      (s.withWritten ws).copies ticket fd ++ (s.withWritten later).copies ticket fd := by
  simp [copies, withWritten]

theorem copies_responses {ws : List Written} (h : ∀ x ∈ ws, ∃ fd j, x = .response fd j)
    (ticket : ℕ) (fd : ℤ) : (s.withWritten ws).copies ticket fd = [] := by
  refine copies_eq_nil fun fd' t' m hw => ?_
  obtain ⟨fd, j, heq⟩ := h _ hw
  exact absurd heq (by simp)

theorem copies_singleton (f : ℤ) (t : ℕ) (m : Message) (ticket : ℕ) (fd : ℤ) :
    (s.withWritten [.message f t m]).copies ticket fd =
      if f = fd ∧ t = ticket then [m] else [] := by
  simp only [copies, withWritten]
  split_ifs with h <;> simp [h]

/-- A move that is not a turn of a delivery loop writes responses only, and does not depend
on what has been written. -/
theorem exec_withWritten {mv : ServerMove nc} (hturn : ∀ c, mv ≠ .turn c)
    (hexec : (server nc).exec s mv = some t) (ws : List Written) :
    ∃ later, (∀ x ∈ later, ∃ fd j, x = .response fd j) ∧ t.written = s.written ++ later ∧
      (server nc).exec (s.withWritten ws) mv = some (t.withWritten (ws ++ later)) := by
  obtain ⟨hen, heff⟩ := StepSystem.exec_eq_some.mp hexec
  cases mv with
  | turn c => exact absurd rfl (hturn c)
  | accept fd =>
    obtain ⟨hlt, heq⟩ := Option.ite_none_right_eq_some.mp heff
    obtain rfl := Option.some.inj heq
    refine ⟨[], by simp, by simp, StepSystem.exec_eq_some.mpr ⟨hen, ?_⟩⟩
    exact Option.ite_none_right_eq_some.mpr ⟨hlt, by simp [withWritten]⟩
  | respond k =>
    obtain ⟨r, hr, heff⟩ := Option.bind_eq_some_iff.mp heff
    obtain ⟨l, hl, heff⟩ := Option.bind_eq_some_iff.mp heff
    obtain rfl := Option.some.inj heff
    refine ⟨[.response r.nsfd (response r)], by simp, rfl, StepSystem.exec_eq_some.mpr ⟨hen, ?_⟩⟩
    refine Option.bind_eq_some_iff.mpr ⟨r, hr, Option.bind_eq_some_iff.mpr ⟨l, hl, ?_⟩⟩
    rfl
  | join | enqueue | depart | pop =>
    obtain ⟨l, hl, rfl⟩ := Option.map_eq_some_iff.mp heff
    refine ⟨[], by simp, by simp, StepSystem.exec_eq_some.mpr ⟨hen, ?_⟩⟩
    exact Option.map_eq_some_iff.mpr ⟨l, hl, by simp [withWritten]⟩

/-- A turn, by what it comes to. -/
theorem deliver_eq {c : Fin nc} {ticket i : ℕ} {m : Message} {reads : List TableRead}
    {turn : Turn} (hc : s.consumer c = .delivering ticket m i)
    (hturn : s.lobby.registry.deliverTurn m i = some (reads, turn)) :
    s.deliver c = some (match turn with
      | .stop => { s with consumer := Function.update s.consumer c .idle }
      | .skip => { s with
          consumer := Function.update s.consumer c (.delivering ticket m (i + 1)) }
      | .write fd => { s with
          consumer := Function.update s.consumer c (.delivering ticket m (i + 1))
          written := s.written ++ [.message fd ticket m] }) := by
  simp only [deliver, hc, hturn, Option.bind_eq_bind, Option.bind_some]
  cases turn <;> rfl

/-- A turn that writes nothing does not depend on what has been written. -/
theorem deliver_withWritten {c : Fin nc} {ticket i : ℕ} {m : Message} {reads : List TableRead}
    {turn : Turn} (hc : s.consumer c = .delivering ticket m i)
    (hturn : s.lobby.registry.deliverTurn m i = some (reads, turn))
    (hwrite : ∀ fd, turn ≠ .write fd) (hdeliver : s.deliver c = some t) (ws : List Written) :
    t.written = s.written ∧ (s.withWritten ws).deliver c = some (t.withWritten ws) := by
  have hdeliver' := deliver_eq (s := s.withWritten ws) hc hturn
  rw [deliver_eq hc hturn] at hdeliver
  cases turn with
  | write fd => exact absurd rfl (hwrite fd)
  | stop | skip =>
    obtain rfl := Option.some.inj hdeliver
    exact ⟨rfl, hdeliver'⟩

/-- The turn that comes to the slot of a member the message is for. -/
theorem Inv.exec_turn (h : s.Inv n) (hs : s.Distinct) {c : Fin nc} {ticket k : ℕ} {m : Message}
    {r : Member} (hc : s.consumer c = .delivering ticket m r.id) (hg : m.InGroup r.groupId)
    (hr : s.lobby.members[k]? = some r) (hid : (r.id : ℤ) ≠ m.id.toInt) :
    (server nc).exec s (.turn c) = some { s with
      consumer := Function.update s.consumer c (.delivering ticket m (r.id + 1))
      written := s.written ++ if r.phase = .departed then [] else [.message r.nsfd ticket m] } := by
  have hmem := List.mem_of_getElem? hr
  have hen : (server nc).enabled s (.turn c) := by
    change s.consumer c ≠ .idle
    simp [hc]
  refine StepSystem.exec_eq_some.mpr ⟨hen, ?_⟩
  change s.deliver c = _
  obtain ⟨⟨reads, turn⟩, hturn⟩ := h.slots.exists_deliverTurn hg (h.slots.lt_of_mem hmem).1 r.id
  rw [deliver_eq hc hturn]
  obtain ⟨g, hg', -, ⟨-, hi⟩ | ⟨k', r', hr', rfl, heq, hcase⟩⟩ := h.slots.of_deliverTurn hturn
  · -- the row does not end before the slot
    obtain rfl := hg.eq hg'
    exact absurd (h.slots.numbered.rank_lt hmem) (Nat.not_lt.mpr hi)
  · obtain rfl := h.slots.numbered.index_eq hr' hr (hg'.eq hg) heq
    obtain rfl := Option.some.inj (hr.symm.trans hr')
    rcases hcase with ⟨rfl, hskip⟩ | ⟨rfl, hphase, -⟩
    · have hgone : r.phase = .departed := by
        have hnonneg := hs.nsfd_nonneg hr
        rcases hskip with hgone | hfd | hsender
        · exact hgone
        · omega
        · exact absurd hsender hid
      simp [hgone]
    · simp [hphase]

end Server

/-- The consumers that a move leaves alone. -/
theorem ServerStep.consumer_eq {s t : Server nc} {mv : ServerMove nc} (h : ServerStep n s mv t)
    (c : Fin nc) :
    t.consumer c = s.consumer c ∨ (mv = .pop c ∧ s.consumer c = .idle) ∨ mv = .turn c := by
  cases h with
  | @pop c' _ _ hidle =>
    rcases eq_or_ne c c' with rfl | hne
    · exact Or.inr (Or.inl ⟨rfl, hidle⟩)
    · exact Or.inl (Function.update_of_ne hne ..)
  | @stop c' | @skip c' | @write c' =>
    rcases eq_or_ne c c' with rfl | hne
    · exact Or.inr (Or.inr rfl)
    · exact Or.inl (Function.update_of_ne hne ..)
  | _ => exact Or.inl rfl

/-- **Where a departed member comes from.** -/
theorem ServerStep.departed_cases {s t : Server nc} {mv : ServerMove nc}
    (h : ServerStep n s mv t) {k : ℕ} {r : Member} (hr : t.lobby.members[k]? = some r)
    (hgone : r.phase = .departed) :
    ∃ r', s.lobby.members[k]? = some r' ∧ r'.nsfd = r.nsfd ∧
      (r'.phase = .departed ∨ mv = .depart k) := by
  cases h with
  | join hfd hl =>
    cases hl with
    | join =>
      rcases Nat.lt_or_ge k s.lobby.members.length with hlt | hge
      · rw [List.getElem?_append_left hlt] at hr
        exact ⟨r, hr, rfl, Or.inl hgone⟩
      · rw [List.getElem?_append_right hge, List.getElem?_singleton] at hr
        split_ifs at hr
        obtain rfl := Option.some.inj hr
        exact absurd hgone (by simp)
  | @respond j =>
    obtain ⟨r', hr', rfl⟩ := exists_of_getElem?_setPhase hr
    split_ifs at hgone with hj
    · exact absurd hgone (by simp [Member.atPhase])
    · exact ⟨r', hr', by rw [if_neg hj], Or.inl hgone⟩
  | @depart j _ hl =>
    cases hl with
    | depart =>
      obtain ⟨r', hr', rfl⟩ := exists_of_getElem?_setPhase hr
      split_ifs at hgone with hj
      · exact ⟨r', hr', by rw [if_pos hj]; rfl, Or.inr (by rw [hj])⟩
      · exact ⟨r', hr', by rw [if_neg hj], Or.inl hgone⟩
  | _ => exact ⟨r, hr, rfl, Or.inl hgone⟩

/-! ### Runs with single accesses -/

/-- Nobody who has this descriptor has departed. -/
def Remains (ms : List Member) (fd : ℤ) : Prop := ∀ r ∈ ms, r.nsfd = fd → r.phase ≠ .departed

theorem Remains.of_grows {ms ms' : List Member} {fd : ℤ} (h : Remains ms' fd)
    (hgrows : Grows ms ms') : Remains ms fd := by
  intro r hr hfd
  obtain ⟨k, hk⟩ := List.mem_iff_getElem?.mp hr
  obtain ⟨p, hp, hrank⟩ := hgrows k r hk
  exact Phase.ne_departed hrank (h _ (List.mem_of_getElem? hp) hfd)

/-- A consumer that has passed the test of a slot is at the slot of a member the message is
for. What it has loaded is the descriptor of this member, or a `-1` stored since. -/
def Aimed (l : Lobby) (m : Message) (i : ℕ) (a : Access) : Prop :=
  a = .check ∨ ∃ (k : ℕ) (r : Member), l.members[k]? = some r ∧ m.InGroup r.groupId ∧ r.id = i ∧
    (r.id : ℤ) ≠ m.id.toInt ∧ ∀ fd ∈ a.fd?, fd = r.nsfd ∨ (fd = -1 ∧ r.phase = .departed)

theorem Aimed.grows {l l' : Lobby} {m : Message} {i : ℕ} {a : Access} (h : Aimed l m i a)
    (hgrows : Grows l.members l'.members) : Aimed l' m i a := by
  rcases h with hcheck | ⟨k, r, hr, hg, hi, hid, hfd⟩
  · exact Or.inl hcheck
  · obtain ⟨p, hp, hrank⟩ := hgrows k r hr
    refine Or.inr ⟨k, _, hp, hg, hi, hid, fun fd hmem => (hfd fd hmem).imp_right ?_⟩
    rintro ⟨rfl, hgone⟩
    refine ⟨rfl, ?_⟩
    by_contra hne
    exact Phase.ne_departed hrank hne hgone

namespace Network

variable {w v : Network nc} {ws : List Written}

/-- `accept` returns a descriptor that no handler has. -/
def FreshAccept (w : Network nc) : NetworkMove nc → Prop
  | .server mv => w.server.FreshAccept mv
  | .check _ | .load _ | .write _ | .close _ | .reset _ => True

instance (w : Network nc) : (mv : NetworkMove nc) → Decidable (w.FreshAccept mv)
  | .server mv => inferInstanceAs (Decidable (w.server.FreshAccept mv))
  | .check _ | .load _ | .write _ | .close _ | .reset _ => isTrue trivial

/-- **The server behind the network**: had every turn been one move, `ws` would have been
written, and to whoever has not departed it has. -/
structure Behind (n : ℕ) (w : Network nc) (ws : List Written) : Prop where
  inv : (w.server.withWritten ws).Inv n
  distinct : (w.server.withWritten ws).Distinct
  copies : ∀ ticket fd, Remains w.server.lobby.members fd →
    w.server.copies ticket fd = (w.server.withWritten ws).copies ticket fd
  idle : ∀ c, w.server.consumer c = .idle → w.access c = .check
  aimed : ∀ c ticket m i, w.server.consumer c = .delivering ticket m i →
    Aimed w.server.lobby m i (w.access c)
  gone : ∀ (k : ℕ) (r : Member), w.server.lobby.members[k]? = some r → r.phase = .departed →
    w.peer r.nsfd ≠ .connected

/-- The server behind the network comes to the one behind `v` by a run of its own. -/
def Follows (n : ℕ) (w : Network nc) (ws : List Written) (v : Network nc) : Prop :=
  ∃ ns ws', (GroupChat.server nc).Always Server.FreshAccept (w.server.withWritten ws) ns ∧
    (GroupChat.server nc).run (w.server.withWritten ws) ns = some (v.server.withWritten ws') ∧
    Behind n v ws'

/-- The server behind the network stays where it is. -/
theorem Behind.stays (h : Behind n v ws) (hserver : v.server = w.server) : Follows n w ws v := by
  refine ⟨[], ws, trivial, ?_, h⟩
  rw [StepSystem.run_nil, hserver]

/-- The server behind the network makes a move. -/
theorem follows_of_exec {mv : ServerMove nc} {ws' : List Written}
    (hexec : (GroupChat.server nc).exec (w.server.withWritten ws) mv =
      some (v.server.withWritten ws')) (hfresh : w.server.FreshAccept mv) (h : Behind n v ws') :
    Follows n w ws v := by
  refine ⟨[mv], ws', ⟨hfresh, fun _ _ => trivial⟩, ?_, h⟩
  rw [StepSystem.run_cons, hexec]
  rfl

theorem Initial.behind (h : w.Initial n) : Behind n w w.server.written where
  inv := h.server.inv
  distinct := h.server.distinct
  copies _ _ _ := rfl
  idle c _ := h.access c
  aimed c _ _ _ _ := Or.inl (h.access c)
  gone k r hr := by simp [h.server.lobby, Lobby.start] at hr

/-- A move of the server behind the network. -/
theorem Behind.move (h : Behind n w ws) {mv : ServerMove nc} {t : Server nc} {ws' : List Written}
    {access : Fin nc → Access}
    (hstep : ServerStep n (w.server.withWritten ws) mv (t.withWritten ws'))
    (hfresh : w.server.FreshAccept mv) (hdepart : ∀ k, mv = .depart k → w.EndOfStream k)
    (haccess : ∀ c, access c = .check ∨
      access c = w.access c ∧ t.consumer c = w.server.consumer c)
    (hcopies : ∀ ticket fd, Remains w.server.lobby.members fd →
      t.copies ticket fd = (t.withWritten ws').copies ticket fd) :
    Behind n { w with server := t, access := access } ws' where
  inv := hstep.inv h.inv
  distinct := hstep.distinct h.distinct hfresh
  copies ticket fd hfd := hcopies ticket fd (hfd.of_grows hstep.grows)
  idle c hc := by
    rcases haccess c with hcheck | ⟨hold, hsame⟩
    · exact hcheck
    · exact hold.trans (h.idle c (hsame.symm.trans hc))
  aimed c ticket m i hc := by
    rcases haccess c with hcheck | ⟨hold, hsame⟩
    · exact Or.inl hcheck
    · have haimed := (h.aimed c ticket m i (hsame.symm.trans hc)).grows hstep.grows
      rw [← hold] at haimed
      exact haimed
  gone k r hr hphase := by
    obtain ⟨r', hr', hfd, hgone | hmv⟩ := hstep.departed_cases hr hphase
    · exact hfd ▸ h.gone k r' hr' hgone
    · exact hfd ▸ hdepart k hmv r' hr'

/-- A move that only brings a consumer further within its turn. -/
theorem Behind.aim (h : Behind n w ws) {c : Fin nc} {ticket i : ℕ} {m : Message} {a : Access}
    (hc : w.server.consumer c = .delivering ticket m i) (haimed : Aimed w.server.lobby m i a) :
    Behind n { w with access := Function.update w.access c a } ws where
  inv := h.inv
  distinct := h.distinct
  copies := h.copies
  idle c' hc' := by
    rcases eq_or_ne c' c with rfl | hne
    · exact absurd (hc.symm.trans hc') (by simp)
    · exact (Function.update_of_ne hne ..).trans (h.idle c' hc')
  aimed c' ticket' m' i' hc' := by
    rcases eq_or_ne c' c with rfl | hne
    · obtain ⟨rfl, rfl, rfl⟩ := Consumer.delivering.inj (hc.symm.trans hc')
      simpa using haimed
    · simpa [Function.update_of_ne hne] using h.aimed c' ticket' m' i' hc'
  gone := h.gone

/-- A move of a client. -/
theorem Behind.leave (h : Behind n w ws) {fd : ℤ} {peer : Peer} (hpeer : peer ≠ .connected) :
    Behind n { w with peer := Function.update w.peer fd peer } ws where
  inv := h.inv
  distinct := h.distinct
  copies := h.copies
  idle := h.idle
  aimed := h.aimed
  gone k r hr hphase := by
    rcases eq_or_ne r.nsfd fd with heq | hne
    · simpa [heq] using hpeer
    · simpa [Function.update_of_ne hne] using h.gone k r hr hphase

/-- What has passed the tests is a slot of a member the message is for. -/
theorem Behind.aimed_of_pass (h : Behind n w ws) {m : Message} {i : ℕ} {reads : List TableRead}
    {fd : ℤ} (hturn : w.server.lobby.registry.deliverTurn m i = some (reads, .write fd)) :
    Aimed w.server.lobby m i .load := by
  obtain ⟨g, hg, -, ⟨hstop, -⟩ | ⟨k, r, hr, rfl, rfl, ⟨hskip, -⟩ | ⟨-, -, hid⟩⟩⟩ :=
    h.inv.slots.of_deliverTurn hturn
  · exact absurd hstop (by simp)
  · exact absurd hskip (by simp)
  · exact Or.inr ⟨k, r, hr, hg, rfl, hid, by simp [Access.fd?]⟩

/-- What is loaded is the descriptor of the member, or the `-1` of its handler. -/
theorem Behind.aimed_of_load (h : Behind n w ws) {m : Message} {i g : ℕ} {fd : ℤ}
    (haimed : Aimed w.server.lobby m i .load) (hg : m.InGroup g)
    (hfd : w.server.lobby.registry.connection? g i = some fd) :
    Aimed w.server.lobby m i (.write fd) := by
  obtain ⟨k, r, hr, hg', rfl, hid, -⟩ := haimed.resolve_left (by simp)
  obtain rfl := hg'.eq hg
  have hslot := h.inv.slots.connection r (List.mem_of_getElem? hr)
  obtain rfl := Option.some.inj (hfd.symm.trans hslot)
  refine Or.inr ⟨k, r, hr, hg', rfl, hid, ?_⟩
  rintro fd' hfd'
  obtain rfl := Option.some.inj hfd'
  split_ifs with hgone
  · exact Or.inr ⟨rfl, hgone⟩
  · exact Or.inl rfl

/-- **The last access of a turn** is the turn of the server behind the network, if it writes
what that turn writes to whoever has not departed. -/
theorem Behind.last (h : Behind n w ws) {c : Fin nc} {ticket k : ℕ} {m : Message} {r : Member}
    (hc : w.server.consumer c = .delivering ticket m r.id) (hg : m.InGroup r.groupId)
    (hr : w.server.lobby.members[k]? = some r) (hid : (r.id : ℤ) ≠ m.id.toInt)
    (later : List Written)
    (hlater : ∀ ticket' fd, Remains w.server.lobby.members fd →
      (w.server.withWritten later).copies ticket' fd =
        (w.server.withWritten
          (if r.phase = .departed then [] else [.message r.nsfd ticket m])).copies ticket' fd) :
    Follows n w ws { w with
      server := { w.server with
        consumer := Function.update w.server.consumer c (.delivering ticket m (r.id + 1))
        written := w.server.written ++ later }
      access := Function.update w.access c .check } := by
  have hexec := h.inv.exec_turn h.distinct hc hg hr hid
  refine follows_of_exec hexec trivial ?_
  refine h.move (h.inv.step hexec) trivial (by simp) (fun c' => ?_) fun ticket' fd hfd => ?_
  · rcases eq_or_ne c' c with rfl | hne
    · exact Or.inl (Function.update_self ..)
    · exact Or.inr ⟨Function.update_of_ne hne .., Function.update_of_ne hne ..⟩
  · exact (copies_append ticket' fd).trans ((congrArg₂ _ (h.copies ticket' fd hfd)
      (hlater ticket' fd hfd)).trans (copies_append ticket' fd).symm)

/-- A move that is not a turn, in the network and behind it. -/
theorem Behind.server (h : Behind n w ws) {mv : ServerMove nc} {t : Server nc}
    (hfresh : w.server.FreshAccept mv) (hturn : ∀ c, mv ≠ .turn c)
    (hexec : (GroupChat.server nc).exec w.server mv = some t)
    (hdepart : ∀ k, mv = .depart k → w.EndOfStream k) :
    Follows n w ws { w with server := t } := by
  obtain ⟨later, hlater, hwritten, hexec'⟩ := exec_withWritten hturn hexec ws
  have hmove := h.inv.step hexec'
  refine follows_of_exec hexec' hfresh
    (h.move hmove hfresh hdepart (fun c => ?_) fun ticket fd hfd => ?_)
  · rcases hmove.consumer_eq c with hsame | ⟨-, hidle⟩ | hmv
    · exact Or.inr ⟨rfl, hsame⟩
    · exact Or.inl (h.idle c hidle)
    · exact absurd hmv (hturn c)
  · have hcopies : t.copies ticket fd =
        (t.withWritten (w.server.written ++ later)).copies ticket fd := by
      rw [← hwritten]
      rfl
    rw [hcopies, copies_append, copies_append, copies_responses hlater]
    exact congrArg (· ++ []) (h.copies ticket fd hfd)

/-- A turn that writes nothing, in the network and behind it. -/
theorem Behind.turn (h : Behind n w ws) {c : Fin nc} {ticket i : ℕ} {m : Message}
    {reads : List TableRead} {turn : Turn} {t : Server nc}
    (hc : w.server.consumer c = .delivering ticket m i) (haccess : w.access c = .check)
    (hturn : w.server.lobby.registry.deliverTurn m i = some (reads, turn))
    (hwrite : ∀ fd, turn ≠ .write fd) (hdeliver : w.server.deliver c = some t) :
    Follows n w ws { w with server := t } := by
  obtain ⟨hwritten, hdeliver'⟩ := deliver_withWritten hc hturn hwrite hdeliver ws
  have hexec : (GroupChat.server nc).exec (w.server.withWritten ws) (.turn c) =
      some (t.withWritten ws) := by
    refine StepSystem.exec_eq_some.mpr ⟨?_, hdeliver'⟩
    change w.server.consumer c ≠ .idle
    simp [hc]
  have hmove := h.inv.step hexec
  refine follows_of_exec hexec trivial
    (h.move hmove trivial (by simp) (fun c' => ?_) fun ticket fd hfd => ?_)
  · rcases hmove.consumer_eq c' with hsame | ⟨hmv, -⟩ | hmv
    · exact Or.inr ⟨rfl, hsame⟩
    · exact absurd hmv (by simp)
    · exact Or.inl (ServerMove.turn.inj hmv ▸ haccess)
  · have hcopies : t.copies ticket fd = w.server.copies ticket fd := by
      rw [Server.copies, hwritten]
      rfl
    exact hcopies.trans (h.copies ticket fd hfd)

/-- **A move of the network** is a move of the server behind it, or none. -/
theorem Behind.step (h : Behind n w ws) {mv : NetworkMove nc} (hfresh : w.FreshAccept mv)
    (hstep : NetworkStep w mv v) : Follows n w ws v := by
  cases hstep with
  | server hturn hexec hended hdepart => exact h.server hfresh hturn hexec hdepart
  | refused | killed =>
    exact Behind.stays ⟨h.inv, h.distinct, h.copies, h.idle, h.aimed, h.gone⟩ rfl
  | pass hc haccess hended hturn => exact (h.aim hc (h.aimed_of_pass hturn)).stays rfl
  | turn hc haccess hended hturn hwrite hdeliver => exact h.turn hc haccess hturn hwrite hdeliver
  | @load c ticket i g m fd hc haccess hended hg hfd =>
    have haimed := h.aimed c ticket m i hc
    rw [haccess] at haimed
    exact (h.aim hc (h.aimed_of_load haimed hg hfd)).stays rfl
  | @lost c ticket i m fd hc haccess hended hneg =>
    have haimed := h.aimed c ticket m i hc
    rw [haccess] at haimed
    obtain ⟨k, r, hr, hg, rfl, hid, hfd⟩ := haimed.resolve_left (by simp)
    have hnonneg := h.distinct.nsfd_nonneg hr
    -- no member has a descriptor like this, so it is the `-1` of one that has departed
    obtain ⟨-, hgone⟩ := (hfd fd rfl).resolve_left (by rintro rfl; omega)
    have hlast := h.last hc hg hr hid [] (by simp [hgone])
    simpa using hlast
  | @write c ticket i m fd hc haccess hended hfd hpeer =>
    have haimed := h.aimed c ticket m i hc
    rw [haccess] at haimed
    obtain ⟨k, r, hr, hg, rfl, hid, hwrite⟩ := haimed.resolve_left (by simp)
    obtain rfl := (hwrite fd rfl).resolve_right (by rintro ⟨rfl, -⟩; omega)
    refine h.last hc hg hr hid [.message r.nsfd ticket m] fun ticket' fd' hremains => ?_
    split_ifs with hgone
    · -- the `-1` has been stored since the load
      rw [copies_singleton, if_neg fun heq =>
        hremains r (List.mem_of_getElem? hr) heq.1 hgone]
      rfl
    · rfl
  | close => exact (h.leave (by simp)).stays rfl
  | reset => exact (h.leave (by simp)).stays rfl

/-- **The network refines the server.** Every run with single accesses goes along with a run
of the server in whole turns. -/
theorem Behind.run (h : Behind n w ws) {ms : List (NetworkMove nc)}
    (hfresh : (network nc).Always FreshAccept w ms) (hrun : (network nc).run w ms = some v) :
    Follows n w ws v := by
  induction ms generalizing w ws with
  | nil =>
    obtain rfl := Option.some.inj hrun
    exact ⟨[], ws, trivial, rfl, h⟩
  | cons mv ms ih =>
    obtain ⟨u, hexec, hrest⟩ := Option.bind_eq_some_iff.mp hrun
    obtain ⟨ns, ws', hns, hu, hbehind⟩ := h.step hfresh.1 (networkStep hexec)
    obtain ⟨ns', ws'', hns', hv, hbehind'⟩ := ih hbehind (hfresh.2 u hexec) hrest
    refine ⟨ns ++ ns', ws'', StepSystem.always_append.mpr ⟨hns, fun z hz => ?_⟩,
      StepSystem.run_append_eq_some.mpr ⟨_, hu, hv⟩, hbehind'⟩
    obtain rfl := Option.some.inj (hu.symm.trans hz)
    exact hns'

end Network

end GroupChat
