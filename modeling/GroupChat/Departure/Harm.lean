import GroupChat.Departure.Progress
import GroupChat.Registry.Guarantees

/-!
# What a departure does to others

A client that closes its connection should harm nobody else: no delivery ends the process,
and every message that has been accepted is still written to every member of its group that
is connected (`GroupChat.Network.HarmsNobody`). As long as the process goes on, this is what
is known about the server, told for the clients that are still connected.

The one danger is a `write` to a connection that has been reset. The handler of the client
stores a `-1` against it, but only when it has read the end of the stream, and a consumer
that has tested the slot before does not look again. So departures are harmless exactly as
long as no consumer is that late – and, since the join response is a `write` as well, as
long as none that finds its client gone takes the process with it when something is still to
be delivered (`GroupChat.departures_harm_nobody_iff`).

The network alone can see to that, by the time at which it resets a connection: behind line
243 of its handler, and not between the load and the call of a delivery in line 266
(`GroupChat.Network.harmsNobody_of_resetsLate`).
-/

namespace GroupChat

open Lobby Server

variable {nc n : ℕ}

/-- The delivery loop of the message writes it to this member, if it is there. -/
def Message.IsFor (m : Message) (r : Member) : Prop :=
  m.InGroup r.groupId ∧ (r.id : ℤ) ≠ m.id.toInt

instance (m : Message) (r : Member) : Decidable (m.IsFor r) := inferInstanceAs (Decidable (_ ∧ _))

namespace Network

variable {w u v : Network nc} {ms : List (NetworkMove nc)}

/-- The message has been written, once, to all those of the first `count` members that it is
for and whose clients are connected. -/
def Delivered (w : Network nc) (count ticket : ℕ) (m : Message) : Prop :=
  ∀ (k : ℕ) (r : Member), k < count → w.server.lobby.members[k]? = some r → m.IsFor r →
    w.peer r.nsfd = .connected → w.server.copies ticket r.nsfd = [m]

/-- **Departures harm nobody else** in the run `ms` from `w`: no delivery ends the process;
and a message that is pending in some state of the run has been written, once its delivery
has come to an end or the process has, to every member it is for that had joined in the first
state and whose client is connected in the second. -/
structure HarmsNobody (w : Network nc) (ms : List (NetworkMove nc)) : Prop where
  running : ∀ pre u, pre <+: ms → (network nc).run w pre = some u →
    ∀ c, u.ended ≠ some (.delivery c)
  delivered : ∀ pre post u v, pre ++ post <+: ms → (network nc).run w pre = some u →
    (network nc).run u post = some v → ∀ ticket m, u.server.messages[ticket]? = some m →
      u.server.Pending ticket → (v.ended ≠ none ∨ ¬v.server.Pending ticket) →
        v.Delivered u.server.lobby.members.length ticket m

/-- Some message is pending and has not been written to a client it is for, which is
connected. -/
def Owes (w : Network nc) : Prop :=
  ∃ ticket < w.server.sent.length, w.server.Pending ticket ∧
    ∃ m ∈ w.server.messages[ticket]?, ∃ r ∈ w.server.lobby.members, m.IsFor r ∧
      w.peer r.nsfd = .connected ∧ w.server.copies ticket r.nsfd ≠ [m]

instance (w : Network nc) : Decidable w.Owes :=
  inferInstanceAs (Decidable (∃ ticket < w.server.sent.length, _))

/-- No consumer passes to `write` a descriptor whose connection has been reset, and a join
response is written to such a connection only if no message is owed to anybody. -/
def NotReset (w : Network nc) : NetworkMove nc → Prop
  | .write c => ∀ fd ∈ (w.access c).fd?, 0 ≤ fd → w.peer fd ≠ .reset
  | .server (.respond k) =>
    (∀ r ∈ w.server.lobby.members[k]?, w.peer r.nsfd ≠ .reset) ∨ ¬w.Owes
  | _ => True

instance (w : Network nc) : (mv : NetworkMove nc) → Decidable (w.NotReset mv)
  | .write c => inferInstanceAs (Decidable (∀ fd ∈ (w.access c).fd?, 0 ≤ fd → w.peer fd ≠ .reset))
  | .server (.respond k) => inferInstanceAs (Decidable
      ((∀ r ∈ w.server.lobby.members[k]?, w.peer r.nsfd ≠ .reset) ∨ ¬w.Owes))
  | .server (.accept _) | .server (.join _ _) | .server (.enqueue _ _ _) | .server (.depart _)
  | .server (.pop _) | .server (.turn _) | .check _ | .load _ | .close _ | .reset _ =>
    isTrue trivial

/-! ### As long as nothing is written to a reset connection -/

/-- How a run may have ended: not by a delivery, and with nothing left to deliver. -/
structure Harmless (w : Network nc) : Prop where
  running : ∀ c, w.ended ≠ some (.delivery c)
  owes : w.ended ≠ none → ¬w.Owes

theorem harmless_of_ended (h : w.ended = none) : w.Harmless where
  running c := by simp [h]
  owes hne := absurd h hne

/-- A client that leaves is owed nothing. -/
theorem Harmless.leave (h : w.Harmless) {fd : ℤ} {peer : Peer} (hpeer : peer ≠ .connected) :
    Harmless { w with peer := Function.update w.peer fd peer } where
  running := h.running
  owes hended := by
    rintro ⟨ticket, hlt, hpending, m, hm, r, hr, hfor, hconnected, hcopies⟩
    refine h.owes hended ⟨ticket, hlt, hpending, m, hm, r, hr, hfor, ?_, hcopies⟩
    rcases eq_or_ne r.nsfd fd with heq | hne
    · exact absurd (by simpa [heq] using hconnected) hpeer
    · simpa [Function.update_of_ne hne] using hconnected

theorem Harmless.step (h : w.Harmless) {mv : NetworkMove nc} (hG : w.NotReset mv)
    (hstep : NetworkStep w mv v) : v.Harmless := by
  cases hstep with
  | @refused k r hr hphase hended hpeer =>
    refine ⟨by simp, fun _ => ?_⟩
    exact hG.resolve_left fun hnot => hnot r hr hpeer
  | @killed c ticket i m fd hc haccess hended hfd hpeer =>
    have hmem : fd ∈ (w.access c).fd? := by
      rw [haccess]
      rfl
    exact absurd hpeer (hG fd hmem hfd)
  | close | reset => exact h.leave (by simp)
  | server | pass | turn | load | lost | write => exact harmless_of_ended ‹_›

theorem harmless_of_run (hended : w.ended = none) (hG : (network nc).Always NotReset w ms)
    (hrun : (network nc).run w ms = some v) : v.Harmless :=
  StepSystem.run_invariant (fun _ _ _ h hG hexec => h.step hG (networkStep hexec))
    (harmless_of_ended hended) hG hrun

/-- **What is known about the server holds for whoever is connected.** -/
theorem Behind.delivered {ws : List Written} (h : Behind n u ws)
    (hsweeps : (u.server.withWritten ws).Sweeps) (hfresh : (network nc).Always FreshAccept u ms)
    (hrun : (network nc).run u ms = some v) {ticket : ℕ} {m : Message}
    (hm : u.server.messages[ticket]? = some m) (hpending : u.server.Pending ticket)
    (hend : ¬v.server.Pending ticket) : v.Delivered u.server.lobby.members.length ticket m := by
  obtain ⟨ns, ws', hns, hv, hbehind⟩ := h.run hfresh hrun
  intro k r hk hr hfor hconnected
  have hphase : r.phase ≠ .departed := fun hgone => hbehind.gone k r hr hgone hconnected
  have hreached := reached_of_run h.inv h.distinct hsweeps hns hv hm hfor.1 hpending hend
  refine (hbehind.copies ticket r.nsfd ?_).trans (hreached k r hk hr rfl hfor.2 hphase)
  -- the descriptor is that of this member only
  rintro r' hr' hfd
  obtain ⟨k', hk'⟩ := List.mem_iff_getElem?.mp hr'
  obtain rfl := hbehind.distinct.index_eq hk' hr hfd
  obtain rfl := Option.some.inj (hr.symm.trans hk')
  exact hphase

theorem harmsNobody_of_notReset (hw : w.Initial n) (hfresh : (network nc).Always FreshAccept w ms)
    (hG : (network nc).Always NotReset w ms) : w.HarmsNobody ms where
  running := by
    rintro pre u ⟨post, rfl⟩ hu
    exact (harmless_of_run hw.ended (StepSystem.always_append.mp hG).1 hu).running
  delivered := by
    rintro pre post u v ⟨later, rfl⟩ hu hv ticket m hm hpending hend
    obtain ⟨hfresh₀, -⟩ := StepSystem.always_append.mp hfresh
    obtain ⟨hG₀, -⟩ := StepSystem.always_append.mp hG
    obtain ⟨hfreshu, hfreshv⟩ := StepSystem.always_append.mp hfresh₀
    obtain ⟨ns, ws, hns, hns', hbehind⟩ := hw.behind.run hfreshu hu
    have hsweeps := sweeps_of_run hw.server.inv hw.server.distinct hw.server.sweeps hns hns'
    have hfreshv' := hfreshv u hu
    by_cases hstill : v.server.Pending ticket
    · -- the process has ended with the message pending, so the message is owed to nobody
      have hharmless := harmless_of_run hw.ended hG₀
        (StepSystem.run_append_eq_some.mpr ⟨u, hu, hv⟩)
      obtain ⟨ns', ws', -, hrun', -⟩ := hbehind.run hfreshv' hv
      intro k r _ hr hfor hconnected
      by_contra hcopies
      exact hharmless.owes (hend.resolve_right (not_not.mpr hstill)) ⟨ticket, hstill.1, hstill, m,
        messages_of_run hbehind.inv hrun' hm, r, List.mem_of_getElem? hr, hfor, hconnected, hcopies⟩
    · exact hbehind.delivered hsweeps hfreshv' hv hm hpending hstill

/-! ### The first write to a reset connection -/

/-- A delivery to a connection that has been reset ends the process, and so does a join
response, whatever is still to be delivered. -/
theorem HarmsNobody.notReset (h : w.HarmsNobody ms) {pre : List (NetworkMove nc)}
    {mv : NetworkMove nc} (hpre : pre ++ [mv] <+: ms) (hu : (network nc).run w pre = some u)
    (hexec : (network nc).exec u mv = some v) : u.NotReset mv := by
  have hv : (network nc).run w (pre ++ [mv]) = some v :=
    StepSystem.run_concat_eq_some.mpr ⟨u, hu, hexec⟩
  have hone : (network nc).run u [mv] = some v := by rw [StepSystem.run_cons, hexec]; rfl
  by_contra hreset
  cases networkStep hexec with
  | @killed c => exact h.running _ _ hpre hv c rfl
  | @refused k r hr hphase hended hpeer =>
    obtain ⟨-, howes⟩ := not_or.mp hreset
    obtain ⟨ticket, -, hpending, m, hm, r', hr', hfor, hconnected, hcopies⟩ := not_not.mp howes
    obtain ⟨j, hj⟩ := List.mem_iff_getElem?.mp hr'
    exact hcopies (h.delivered pre _ u _ hpre hu hone ticket m hm hpending (Or.inl (by simp)) j r'
      (List.getElem?_eq_some_iff.mp hj).1 hj hfor hconnected)
  | @server mv t hturn hexec' hended hdepart hrespond =>
    cases mv with
    | respond k => exact hreset (Or.inl (hrespond k rfl))
    | _ => exact hreset trivial
  | @lost c ticket i m fd hc haccess hended hfd =>
    refine hreset fun fd' hmem hnonneg => ?_
    rw [haccess] at hmem
    obtain rfl := Option.some.inj hmem
    omega
  | @write c ticket i m fd hc haccess hended hfd hpeer =>
    refine hreset fun fd' hmem _ => ?_
    rw [haccess] at hmem
    obtain rfl := Option.some.inj hmem
    exact hpeer
  | pass | turn | load | close | reset => exact hreset trivial

end Network

/-! ### Connections that are reset late -/

/-- Nothing of this connection is left with the server: whoever had it has joined and left. -/
def Server.Forgets (s : Server nc) (fd : ℤ) : Prop :=
  fd ∉ s.waiting ∧ ∀ r ∈ s.lobby.members, r.nsfd = fd → r.phase = .departed

instance (s : Server nc) (fd : ℤ) : Decidable (s.Forgets fd) :=
  inferInstanceAs (Decidable (_ ∧ ∀ r ∈ s.lobby.members, _))

/-- What is forgotten stays so, unless it is accepted again. -/
theorem ServerStep.forgets {s t : Server nc} {mv : ServerMove nc} (h : ServerStep n s mv t)
    {fd : ℤ} (hs : s.Forgets fd) (haccept : mv ≠ .accept fd) : t.Forgets fd := by
  obtain ⟨hwaiting, hgone⟩ := hs
  cases h with
  | @accept fd' =>
    refine ⟨fun hmem => ?_, hgone⟩
    rcases List.mem_append.mp hmem with hmem | hmem
    · exact hwaiting hmem
    · exact haccept (congrArg _ (List.mem_singleton.mp hmem).symm)
  | @join fd' request l hfd hl =>
    refine ⟨fun hmem => hwaiting (List.mem_of_mem_erase hmem), fun r hr heq => ?_⟩
    cases hl with
    | join =>
      rcases List.mem_append.mp hr with hr | hr
      · exact hgone r hr heq
      · -- who joins now has waited
        obtain rfl := List.mem_singleton.mp hr
        exact absurd (heq ▸ hfd) hwaiting
  | @respond k m hm hphase =>
    refine ⟨hwaiting, fun r hr heq => ?_⟩
    obtain ⟨j, hj⟩ := List.mem_iff_getElem?.mp hr
    obtain ⟨r', hr', rfl⟩ := exists_of_getElem?_setPhase hj
    split_ifs at heq ⊢ with hkj
    · obtain rfl := Option.some.inj (hm.symm.trans (hkj ▸ hr'))
      exact absurd (hgone m (List.mem_of_getElem? hm) heq) (by simp [hphase])
    · exact hgone r' (List.mem_of_getElem? hr') heq
  | @depart k l hl =>
    refine ⟨hwaiting, fun r hr heq => ?_⟩
    cases hl with
    | depart =>
      obtain ⟨j, hj⟩ := List.mem_iff_getElem?.mp hr
      obtain ⟨r', hr', rfl⟩ := exists_of_getElem?_setPhase hj
      split_ifs at heq ⊢ with hkj
      · rfl
      · exact hgone r' (List.mem_of_getElem? hr') heq
  | enqueue | pop | stop | skip | write => exact ⟨hwaiting, hgone⟩

namespace Network

variable {w v : Network nc} {ms : List (NetworkMove nc)}

/-- The condition on a step: a connection is accepted before it is reset, and it is reset
only when it is forgotten and no consumer has loaded its descriptor for a `write`. -/
def ResetsLate (w : Network nc) : NetworkMove nc → Prop
  | .server (.accept fd) => w.peer fd ≠ .reset
  | .reset fd => w.server.Forgets fd ∧ ∀ c, w.access c ≠ .write fd
  | _ => True

instance (w : Network nc) : (mv : NetworkMove nc) → Decidable (w.ResetsLate mv)
  | .server (.accept fd) => inferInstanceAs (Decidable (w.peer fd ≠ .reset))
  | .reset fd => inferInstanceAs (Decidable (w.server.Forgets fd ∧ ∀ c, w.access c ≠ .write fd))
  | .server (.join _ _) | .server (.respond _) | .server (.enqueue _ _ _) | .server (.depart _)
  | .server (.pop _) | .server (.turn _) | .check _ | .load _ | .write _ | .close _ =>
    isTrue trivial

/-- Whatever has been reset is forgotten, and no consumer is about to write to it. -/
structure Forgotten (w : Network nc) : Prop where
  forgets : ∀ fd, w.peer fd = .reset → w.server.Forgets fd
  access : ∀ c fd, w.access c = .write fd → 0 ≤ fd → w.peer fd ≠ .reset

theorem Initial.forgotten (h : w.Initial n) : w.Forgotten where
  forgets fd _ := by simp [Server.Forgets, h.server.waiting, h.server.lobby, Lobby.start]
  access c fd hc := by simp [h.access c] at hc

/-- A consumer goes on within its turn. -/
theorem Forgotten.aim (h : w.Forgotten) {t : Server nc} {c : Fin nc} {a : Access}
    (ht : ∀ fd, w.server.Forgets fd → t.Forgets fd)
    (ha : ∀ fd, a = .write fd → 0 ≤ fd → w.peer fd ≠ .reset) :
    Forgotten { w with server := t, access := Function.update w.access c a } where
  forgets fd hfd := ht fd (h.forgets fd hfd)
  access c' fd hc' := by
    rcases eq_or_ne c' c with rfl | hne
    · exact ha fd (by simpa using hc')
    · exact h.access c' fd (by simpa [Function.update_of_ne hne] using hc')

/-- What a consumer loads is no descriptor that has been reset. -/
theorem Forgotten.load (h : w.Forgotten) {ws : List Written} (hbehind : Behind n w ws) {c : Fin nc}
    {ticket i g : ℕ} {m : Message} {fd : ℤ} (hc : w.server.consumer c = .delivering ticket m i)
    (haccess : w.access c = .load) (hg : m.InGroup g)
    (hfd : w.server.lobby.registry.connection? g i = some fd) (hnonneg : 0 ≤ fd) :
    w.peer fd ≠ .reset := by
  have haimed := hbehind.aimed c ticket m i hc
  rw [haccess] at haimed
  obtain ⟨k, r, hr, hg', rfl, -, -⟩ := haimed.resolve_left (by simp)
  obtain rfl := hg'.eq hg
  have hmem := List.mem_of_getElem? hr
  obtain rfl := Option.some.inj (hfd.symm.trans (hbehind.inv.slots.connection r hmem))
  intro hpeer
  split_ifs at hnonneg hpeer with hgone
  · omega
  · exact hgone ((h.forgets _ hpeer).2 r hmem rfl)

theorem Forgotten.step (h : w.Forgotten) {ws : List Written} (hbehind : Behind n w ws)
    {mv : NetworkMove nc} (hlate : w.ResetsLate mv) (hstep : NetworkStep w mv v) :
    v.Forgotten := by
  cases hstep with
  | @server mv t hturn hexec =>
    obtain ⟨later, -, -, hexec'⟩ := exec_withWritten hturn hexec ws
    refine ⟨fun fd hfd => ?_, h.access⟩
    refine (hbehind.inv.step hexec').forgets (h.forgets fd hfd) ?_
    rintro rfl
    exact hlate hfd
  | refused | killed => exact ⟨h.forgets, h.access⟩
  | pass => exact h.aim (fun _ hs => hs) (by simp)
  | @turn c ticket i m reads turn t hc haccess hended hturn hwrite hdeliver =>
    rw [deliver_eq hc hturn] at hdeliver
    obtain rfl := Option.some.inj hdeliver
    cases turn with
    | write fd => exact absurd rfl (hwrite fd)
    | stop | skip => exact ⟨h.forgets, h.access⟩
  | load hc haccess hended hg hfd =>
    refine h.aim (fun _ hs => hs) ?_
    rintro fd' heq hnonneg
    obtain rfl := Access.write.inj heq
    exact h.load hbehind hc haccess hg hfd hnonneg
  | lost | write => exact h.aim (fun _ hs => hs) (by simp)
  | @close fd hpeer =>
    have hother : ∀ fd', Function.update w.peer fd .closed fd' = .reset → w.peer fd' = .reset := by
      intro fd' hreset
      rcases eq_or_ne fd' fd with rfl | hne
      · simp at hreset
      · rwa [Function.update_of_ne hne] at hreset
    exact ⟨fun fd' hreset => h.forgets fd' (hother fd' hreset),
      fun c fd' hc hnonneg hreset => h.access c fd' hc hnonneg (hother fd' hreset)⟩
  | @reset fd hpeer =>
    refine ⟨fun fd' hreset => ?_, fun c fd' hc hnonneg hreset => ?_⟩
    all_goals rcases eq_or_ne fd' fd with rfl | hne
    · exact hlate.1
    · exact h.forgets fd' (by simpa [Function.update_of_ne hne] using hreset)
    · exact hlate.2 c hc
    · exact h.access c fd' hc hnonneg (by simpa [Function.update_of_ne hne] using hreset)

/-- So no move writes to a connection that has been reset. -/
theorem Forgotten.notReset (h : w.Forgotten) {mv : NetworkMove nc} (hen : w.Enabled mv) :
    w.NotReset mv := by
  cases mv with
  | write c =>
    intro fd hmem hnonneg
    cases haccess : w.access c with
    | check | load => simp [haccess, Access.fd?] at hmem
    | write fd' =>
      rw [haccess] at hmem
      obtain rfl := Option.some.inj hmem
      exact h.access c fd' haccess hnonneg
  | server mv =>
    cases mv with
    | respond k =>
      refine Or.inl fun r hr hpeer => ?_
      obtain ⟨r', hr', hphase⟩ := exists_of_phase? hen.2
      obtain rfl := Option.some.inj (hr'.symm.trans hr)
      have hgone := (h.forgets _ hpeer).2 r' (List.mem_of_getElem? hr') rfl
      simp [hphase] at hgone
    | _ => trivial
  | _ => trivial

theorem forgotten_of_run (hw : w.Initial n) (hfresh : (network nc).Always FreshAccept w ms)
    (hlate : (network nc).Always ResetsLate w ms) (hrun : (network nc).run w ms = some v) :
    v.Forgotten := by
  refine (StepSystem.run_invariant (I := fun u => (∃ ws, Behind n u ws) ∧ u.Forgotten) ?_
    ⟨⟨_, hw.behind⟩, hw.forgotten⟩ (StepSystem.always_and.mpr ⟨hfresh, hlate⟩) hrun).2
  rintro u mv u' ⟨⟨ws, hbehind⟩, hforgotten⟩ ⟨hfresh, hlate⟩ hexec
  have hstep := networkStep hexec
  obtain ⟨-, ws', -, -, hbehind'⟩ := hbehind.step hfresh hstep
  exact ⟨⟨ws', hbehind'⟩, hforgotten.step hbehind hlate hstep⟩

/-- **Late resets are harmless.** If connections are reset only after their handlers have
stored the `-1`, and not while a consumer has the descriptor in hand, then departures harm
nobody else. -/
theorem harmsNobody_of_resetsLate (hw : w.Initial n)
    (hfresh : (network nc).Always FreshAccept w ms) (hlate : (network nc).Always ResetsLate w ms)
    (hrun : (network nc).run w ms = some v) : w.HarmsNobody ms := by
  refine harmsNobody_of_notReset hw hfresh (StepSystem.always_iff_prefixes.mpr ?_)
  rintro pre mv u ⟨post, rfl⟩ hu
  -- the run goes on from here, so the move is enabled
  obtain ⟨v', hv', -⟩ := StepSystem.run_append_eq_some.mp hrun
  obtain ⟨u', hu', hexec⟩ := StepSystem.run_concat_eq_some.mp hv'
  obtain rfl := Option.some.inj (hu.symm.trans hu')
  obtain ⟨hfresh', -⟩ := StepSystem.always_append.mp (StepSystem.always_append.mp hfresh).1
  obtain ⟨hlate', -⟩ := StepSystem.always_append.mp (StepSystem.always_append.mp hlate).1
  exact (forgotten_of_run hw hfresh' hlate' hu).notReset (StepSystem.exec_eq_some.mp hexec).1

end Network

/-- **Departures.** In a run whose accepts return fresh descriptors, departures harm nobody
else if and only if no consumer passes to `write` a descriptor whose connection has been
reset, and a join response is written to such a connection only when no message is owed to
anybody. And in every state of a run whose messages are for groups of the tables, deliveries
come to an end. -/
theorem departures_harm_nobody_iff {w t : Network nc} {ms : List (NetworkMove nc)} (hnc : 0 < nc)
    (hw : w.Initial n) (hfresh : (network nc).Always Network.FreshAccept w ms)
    (hrun : (network nc).run w ms = some t) :
    (w.HarmsNobody ms ↔ (network nc).Always Network.NotReset w ms) ∧
      ∀ pre u, pre <+: ms → (network nc).run w pre = some u →
        (∀ x ∈ u.server.sent, ∃ g < maxGroups, x.2.InGroup g) → u.Settles := by
  refine ⟨⟨?_, Network.harmsNobody_of_notReset hw hfresh⟩, ?_⟩
  · intro hall
    refine StepSystem.always_iff_prefixes.mpr fun pre mv u hpre hu => ?_
    -- the run goes on from here, so the move has an effect
    obtain ⟨post, rfl⟩ := hpre
    obtain ⟨v, hv, -⟩ := StepSystem.run_append_eq_some.mp hrun
    obtain ⟨u', hu', hexec⟩ := StepSystem.run_concat_eq_some.mp hv
    obtain rfl := Option.some.inj (hu.symm.trans hu')
    exact hall.notReset (List.prefix_append _ _) hu hexec
  · rintro pre u ⟨post, rfl⟩ hu hgroups
    obtain ⟨-, ws, -, -, hbehind⟩ :=
      hw.behind.run (StepSystem.always_append.mp hfresh).1 hu
    exact hbehind.settles hnc hgroups

/-- Three clients of a group, a message from the first, and a consumer that has tested the
slot of the second. -/
def untilTested : List (NetworkMove consumerThreadCount) :=
  [.server (.accept 5), .server (.accept 6), .server (.accept 7),
    .server (.join 5 (.letter 97)), .server (.join 6 (.letter 97)),
    .server (.join 7 (.letter 97)), .server (.respond 0), .server (.respond 1),
    .server (.respond 2), .server (.enqueue 0 (.blank 0 0) ⟨0, 0⟩),
    .server (.pop (Fin.last 2)), .check (Fin.last 2), .check (Fin.last 2)]

/-- The second closes its connection, and it is not reset as long as the loop goes on. -/
def closedInTime : List (NetworkMove consumerThreadCount) :=
  untilTested ++ [.close 6, .load (Fin.last 2), .write (Fin.last 2), .check (Fin.last 2),
    .load (Fin.last 2), .write (Fin.last 2), .check (Fin.last 2)]

/-- The third client gets the message. -/
theorem departures_harm_nobody_iff_closedInTime :
    ∃ t, (network consumerThreadCount).run (Network.start consumerThreadCount (newQueue 1))
        closedInTime = some t ∧ t.peer 6 = .closed ∧ t.server.copies 0 7 = [.blank 0 0] := by
  obtain ⟨u, hu, hm, hpending, hlength⟩ : ∃ u, (network consumerThreadCount).run
      (Network.start consumerThreadCount (newQueue 1)) untilTested = some u ∧
        u.server.messages[0]? = some (.blank 0 0) ∧ u.server.Pending 0 ∧
        u.server.lobby.members.length = 3 := StepSystem.exists_run (by decide +kernel)
  obtain ⟨t, hrun, hpeer, hdone, r, hr, hfd, hfor, hconnected⟩ : ∃ t,
      (network consumerThreadCount).run (Network.start consumerThreadCount (newQueue 1))
        closedInTime = some t ∧ t.peer 6 = .closed ∧ ¬t.server.Pending 0 ∧
        ∃ r ∈ t.server.lobby.members[2]?, r.nsfd = 7 ∧ (Message.blank 0 0).IsFor r ∧
          t.peer r.nsfd = .connected := StepSystem.exists_run (by decide +kernel)
  have h := (departures_harm_nobody_iff (by decide)
    (Network.initial_start (exists_initQueue_newQueue (by decide))) (by decide +kernel) hrun).1.mpr
      (by decide +kernel)
  obtain ⟨u', hu', hpost⟩ := StepSystem.run_append_eq_some.mp hrun
  obtain rfl := Option.some.inj (hu.symm.trans hu')
  refine ⟨t, hrun, hpeer, ?_⟩
  rw [← hfd]
  exact h.delivered untilTested _ u t (List.prefix_refl _) hu hpost 0 _ hm hpending (Or.inr hdone) 2
    r (by rw [hlength]; decide) hr hfor hconnected

/-- The connection may be reset when the handler of the second has stored its `-1`. -/
example : (network consumerThreadCount).Always Network.ResetsLate
    (Network.start consumerThreadCount (newQueue 1))
    (closedInTime ++ [.server (.depart 1), .reset 6]) := by decide +kernel

/-- The connection is reset before the write, although not before the handler has stored its
`-1`. -/
def closedTooLate : List (NetworkMove consumerThreadCount) :=
  untilTested ++ [.close 6, .load (Fin.last 2), .server (.depart 1), .reset 6,
    .write (Fin.last 2)]

/-- **A departure that ends the process.** The second client closes its connection when its
slot has been tested, and the write to it takes the server with it. The third client, which
is connected, never gets the message. -/
theorem exists_run_departure_ends_process :
    ∃ w t : Network consumerThreadCount, w.Initial messageQueueSize ∧
      (network consumerThreadCount).Always Network.FreshAccept w closedTooLate ∧
      (network consumerThreadCount).run w closedTooLate = some t ∧
      t.ended = some (.delivery (Fin.last 2)) ∧ t.peer 7 = .connected ∧
      t.server.copies 0 7 = [] ∧ ¬w.HarmsNobody closedTooLate := by
  obtain ⟨t, hrun, hended, hpeer, hcopies⟩ : ∃ t, (network consumerThreadCount).run
      (Network.start consumerThreadCount (newQueue messageQueueSize)) closedTooLate = some t ∧
        t.ended = some (.delivery (Fin.last 2)) ∧ t.peer 7 = .connected ∧
        t.server.copies 0 7 = [] := StepSystem.exists_run (by decide +kernel)
  refine ⟨_, t, Network.initial_start (exists_initQueue_newQueue (by decide)), by decide +kernel,
    hrun, hended, hpeer, hcopies, ?_⟩
  intro h
  exact h.running _ t (List.prefix_refl _) hrun _ hended

end GroupChat
