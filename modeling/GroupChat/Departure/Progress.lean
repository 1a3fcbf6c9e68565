import Mathlib.Algebra.BigOperators.Fin
import GroupChat.Departure.Refinement

/-!
# Deliveries come to an end

No consumer waits for a client. As long as a message is pending, some consumer can make a
move, and each move of a consumer leaves less to do: a turn has three accesses, a row has
`MAX_GROUP_SIZE` slots, and nobody can make it longer than that
(`GroupChat.Network.Behind.settles`). So what has been accepted is delivered, if only the
consumers go on and the process does.

The consumers get stuck only over a message for a group that the tables do not have, whose
turn has no meaning.
-/

namespace GroupChat

open Lobby Server

variable {nc n : ℕ}

/-- A move of a consumer. -/
def NetworkMove.OfConsumer : NetworkMove nc → Prop
  | .server (.pop _) | .check _ | .load _ | .write _ => True
  | _ => False

/-- How many accesses of its turn a consumer has before it. -/
def Access.left : Access → ℕ
  | check => 3
  | load => 2
  | write _ => 1

/-- How many moves a consumer may have before it, within its loop. -/
def Consumer.left (a : Access) : Consumer → ℕ
  | idle => 0
  | delivering _ _ i => 3 * (maxGroupSize - i) + a.left

namespace Network

variable {w v : Network nc} {ws : List Written} {mv : NetworkMove nc}

/-- How many moves the consumers may have before them. -/
def work (w : Network nc) : ℕ :=
  if w.ended = none then
    (w.server.sent.length - w.server.popped.length) * (3 * maxGroupSize + 4) +
      ∑ c, (w.server.consumer c).left (w.access c)
  else 0

/-- **Deliveries come to an end**: the consumers can make so many moves and no more, and as
long as a message is pending and the process goes on, one of them can make a move. -/
def Settles (w : Network nc) : Prop :=
  ∃ bound, ∀ post v, (∀ mv ∈ post, mv.OfConsumer) → (network nc).run w post = some v →
    post.length ≤ bound ∧ (v.ended = none → (∃ ticket, v.server.Pending ticket) →
      ∃ mv, mv.OfConsumer ∧ ((network nc).exec v mv).isSome)

end Network

/-- A queue that is not empty holds a message that has not been removed. -/
theorem Server.Inv.popped_lt {s : Server nc} (h : s.Inv n)
    (hempty : queueIsEmpty s.messageQueue = false) : s.popped.length < s.sent.length := by
  obtain ⟨e, es, hcontents⟩ := h.exists_entry hempty
  have hfifo := congrArg List.length h.fifo
  rw [hcontents, List.length_drop, List.length_map, List.length_cons, messages,
    List.length_map] at hfifo
  omega

namespace Network

variable {w v : Network nc} {ws : List Written} {mv : NetworkMove nc}

/-! ### Less to do -/

/-- One consumer goes on. -/
theorem sum_left (f f' : Fin nc → ℕ) {c : Fin nc} (h : ∀ c', c' ≠ c → f' c' = f c') :
    ∑ c', f' c' + f c = ∑ c', f c' + f' c := by
  have hothers : ∑ c' ∈ Finset.univ.erase c, f' c' = ∑ c' ∈ Finset.univ.erase c, f c' :=
    Finset.sum_congr rfl fun c' hc' => h c' (Finset.ne_of_mem_erase hc')
  have hf := Finset.add_sum_erase Finset.univ f (Finset.mem_univ c)
  have hf' := Finset.add_sum_erase Finset.univ f' (Finset.mem_univ c)
  omega

/-- A move of one consumer within its loop. -/
theorem work_lt_of_left {c : Fin nc} (hended : w.ended = none)
    (hsent : v.server.sent = w.server.sent) (hpopped : v.server.popped = w.server.popped)
    (hothers : ∀ c', c' ≠ c → (v.server.consumer c').left (v.access c') =
      (w.server.consumer c').left (w.access c'))
    (hlt : (v.server.consumer c).left (v.access c) < (w.server.consumer c).left (w.access c)) :
    v.work < w.work := by
  have hsum := sum_left _ _ hothers
  unfold work
  rw [if_pos hended, hsent, hpopped]
  split_ifs <;> omega

/-- One message less in the queue, and a loop that has not begun. -/
theorem work_lt_of_popped {c : Fin nc} (hended : w.ended = none) (hended' : v.ended = none)
    (hsent : v.server.sent = w.server.sent)
    (hpopped : v.server.popped.length = w.server.popped.length + 1)
    (hlt : w.server.popped.length < w.server.sent.length)
    (hothers : ∀ c', c' ≠ c → (v.server.consumer c').left (v.access c') =
      (w.server.consumer c').left (w.access c'))
    (hidle : (w.server.consumer c).left (w.access c) = 0)
    (hloop : (v.server.consumer c).left (v.access c) = 3 * maxGroupSize + 3) :
    v.work < w.work := by
  have hsum := sum_left _ _ hothers
  have hqueue : w.server.sent.length - w.server.popped.length =
      w.server.sent.length - (w.server.popped.length + 1) + 1 := by omega
  unfold work
  rw [if_pos hended, if_pos hended', hsent, hpopped, hqueue, Nat.add_mul]
  omega

theorem Behind.lt_of_aimed (h : Behind n w ws) {m : Message} {i : ℕ} {a : Access}
    (haimed : Aimed w.server.lobby m i a) (ha : a ≠ .check) : i < maxGroupSize := by
  obtain ⟨k, r, hr, -, rfl, -⟩ := haimed.resolve_left ha
  exact (h.inv.slots.lt_of_mem (List.mem_of_getElem? hr)).2

/-- A message that is passed to a consumer leaves less to do: its loop has been counted. -/
theorem Behind.work_lt_of_pop (h : Behind n w ws) {c : Fin nc} {t : Server nc}
    (hended : w.ended = none) (hexec : (GroupChat.server nc).exec w.server (.pop c) = some t) :
    work { w with server := t } < w.work := by
  obtain ⟨⟨hidle, hempty⟩, heff⟩ := StepSystem.exec_eq_some.mp hexec
  obtain ⟨⟨e, q⟩, -, rfl⟩ := Option.map_eq_some_iff.mp heff
  refine work_lt_of_popped (c := c) hended hended rfl (by simp) (h.inv.popped_lt hempty)
    (fun c' hne => ?_) ?_ ?_
  · simp [Function.update_of_ne hne]
  · simp [hidle, Consumer.left]
  · simp [h.idle c hidle, Consumer.left, Access.left]

/-- A turn that writes nothing leaves less to do. -/
theorem Behind.work_lt_of_turn (h : Behind n w ws) {c : Fin nc} {ticket i : ℕ} {m : Message}
    {reads : List TableRead} {turn : Turn} {t : Server nc}
    (hc : w.server.consumer c = .delivering ticket m i) (haccess : w.access c = .check)
    (hended : w.ended = none)
    (hturn : w.server.lobby.registry.deliverTurn m i = some (reads, turn))
    (hwrite : ∀ fd, turn ≠ .write fd) (hdeliver : w.server.deliver c = some t) :
    work { w with server := t } < w.work := by
  rw [deliver_eq hc hturn] at hdeliver
  cases turn with
  | write fd => exact absurd rfl (hwrite fd)
  | stop =>
    obtain rfl := Option.some.inj hdeliver
    refine work_lt_of_left (c := c) hended rfl rfl (fun c' hne => ?_) ?_
    · simp [Function.update_of_ne hne]
    · simp [hc, haccess, Consumer.left, Access.left]
  | skip =>
    obtain rfl := Option.some.inj hdeliver
    have hi : i < maxGroupSize := by
      obtain ⟨g, hg, -, ⟨hstop, -⟩ | ⟨k, r, hr, -, rfl, -⟩⟩ := h.inv.slots.of_deliverTurn hturn
      · exact absurd hstop (by simp)
      · exact (h.inv.slots.lt_of_mem (List.mem_of_getElem? hr)).2
    refine work_lt_of_left (c := c) hended rfl rfl (fun c' hne => ?_) ?_
    · simp [Function.update_of_ne hne]
    · simp only [hc, haccess, Function.update_self, Consumer.left, Access.left]
      omega

/-- **Every move of a consumer leaves less to do.** -/
theorem Behind.work_lt (h : Behind n w ws) (hmv : mv.OfConsumer) (hstep : NetworkStep w mv v) :
    v.work < w.work := by
  cases hstep with
  | @server mv t hturn hexec hended =>
    cases mv with
    | pop c => exact h.work_lt_of_pop hended hexec
    | _ => exact hmv.elim
  | refused => exact hmv.elim
  | @pass c ticket i m reads fd hc haccess hended =>
    refine work_lt_of_left (c := c) hended rfl rfl (fun c' hne => ?_) ?_
    · simp [Function.update_of_ne hne]
    · simp [hc, haccess, Consumer.left, Access.left]
  | @turn c ticket i m reads turn t hc haccess hended hturn hwrite hdeliver =>
    exact h.work_lt_of_turn hc haccess hended hturn hwrite hdeliver
  | @load c ticket i g m fd hc haccess hended =>
    refine work_lt_of_left (c := c) hended rfl rfl (fun c' hne => ?_) ?_
    · simp [Function.update_of_ne hne]
    · simp [hc, haccess, Consumer.left, Access.left]
  | @lost c ticket i m fd hc haccess hended =>
    have hi := h.lt_of_aimed (h.aimed c ticket m i hc) (by simp [haccess])
    refine work_lt_of_left (c := c) hended rfl rfl (fun c' hne => ?_) ?_
    · simp [Function.update_of_ne hne]
    · simp only [hc, haccess, Function.update_self, Consumer.left, Access.left]
      omega
  | @killed c ticket i m fd hc haccess hended =>
    have hle := Finset.single_le_sum (f := fun c => (w.server.consumer c).left (w.access c))
      (fun _ _ => Nat.zero_le _) (Finset.mem_univ c)
    have hpos : 0 < (w.server.consumer c).left (w.access c) := by
      simp [hc, haccess, Consumer.left, Access.left]
    simp only [work, if_pos hended, reduceCtorEq, if_false]
    omega
  | @write c ticket i m fd hc haccess hended =>
    have hi := h.lt_of_aimed (h.aimed c ticket m i hc) (by simp [haccess])
    refine work_lt_of_left (c := c) hended rfl rfl (fun c' hne => ?_) ?_
    · simp [Function.update_of_ne hne]
    · simp only [hc, haccess, Function.update_self, Consumer.left, Access.left]
      omega
  | close => exact hmv.elim
  | reset => exact hmv.elim

/-! ### Somebody can move -/

/-- A consumer in its loop can make its next access. -/
theorem Behind.exists_access (h : Behind n w ws) (hended : w.ended = none) {c : Fin nc}
    {ticket i g : ℕ} {m : Message} (hc : w.server.consumer c = .delivering ticket m i)
    (hg : m.InGroup g) (hlt : g < maxGroups) :
    ∃ mv, mv.OfConsumer ∧ ((network nc).exec w mv).isSome := by
  cases haccess : w.access c with
  | check =>
    refine ⟨.check c, trivial, ?_⟩
    have hen : (network nc).enabled w (.check c) := ⟨hended, by simp [hc], haccess⟩
    obtain ⟨⟨reads, turn⟩, hturn⟩ := h.inv.slots.exists_deliverTurn hg hlt i
    change w.server.lobby.registry.deliverTurn m i = some (reads, turn) at hturn
    rw [StepSystem.exec, if_pos hen]
    simp only [network, checkSlot, hc, hturn, Option.bind_eq_bind, Option.bind_some,
      deliver_eq hc hturn]
    cases turn <;> rfl
  | load =>
    refine ⟨.load c, trivial, ?_⟩
    have hen : (network nc).enabled w (.load c) := ⟨hended, haccess⟩
    have haimed := h.aimed c ticket m i hc
    rw [haccess] at haimed
    obtain ⟨k, r, hr, hg', rfl, -⟩ := haimed.resolve_left (by simp)
    have hslot := h.inv.slots.connection r (List.mem_of_getElem? hr)
    change w.server.lobby.registry.connection? r.groupId r.id = _ at hslot
    rw [StepSystem.exec, if_pos hen]
    simp [network, loadSlot, hc, Int.mem_toNat?.mpr hg', hslot]
  | write fd =>
    refine ⟨.write c, trivial, ?_⟩
    have hen : (network nc).enabled w (.write c) := ⟨hended, by simp [haccess, Access.fd?]⟩
    rw [StepSystem.exec, if_pos hen]
    simp only [network, writeSlot, hc, haccess]
    split_ifs <;> rfl

/-- A consumer that is idle can remove a message. -/
theorem Behind.exists_pop (h : Behind n w ws) (hended : w.ended = none) {c : Fin nc}
    (hc : w.server.consumer c = .idle) (hlt : w.server.popped.length < w.server.sent.length) :
    ((network nc).exec w (.server (.pop c))).isSome := by
  have hne : w.server.messageQueue.contents ≠ [] := by
    intro hnil
    have hfifo := congrArg List.length h.inv.fifo
    change (w.server.messages.drop w.server.popped.length).length =
      (w.server.messageQueue.contents.map MessageQ.message).length at hfifo
    rw [hnil, List.length_drop, messages, List.length_map] at hfifo
    simp only [List.map_nil, List.length_nil] at hfifo
    omega
  obtain ⟨e, es, hcontents⟩ := List.exists_cons_of_ne_nil hne
  have hempty : queueIsEmpty w.server.messageQueue = false := by
    rw [Bool.eq_false_iff]
    exact fun hempty => hne ((Queue.queueIsEmpty_iff h.inv.wf).mp hempty)
  obtain ⟨q, hq, -⟩ := Queue.popQueue_of_ne_nil h.inv.wf hcontents
  change popQueue w.server.messageQueue = _ at hq
  have hen : (network nc).enabled w (.server (.pop c)) := ⟨hended, hc, hempty⟩
  rw [StepSystem.exec, if_pos hen]
  simp [network, GroupChat.server, hq]

/-- **Somebody can move**, as long as a message is pending. -/
theorem Behind.exists_move (h : Behind n w ws) (hnc : 0 < nc) (hended : w.ended = none)
    (hgroups : ∀ x ∈ w.server.sent, ∃ g < maxGroups, x.2.InGroup g) {ticket : ℕ}
    (hpending : w.server.Pending ticket) :
    ∃ mv, mv.OfConsumer ∧ ((network nc).exec w mv).isSome := by
  by_cases hidle : ∀ c, w.server.consumer c = .idle
  · -- nobody is in a loop, so the message is in the queue
    have hlt : w.server.popped.length < w.server.sent.length := by
      refine lt_of_le_of_lt ?_ hpending.1
      by_contra hgt
      obtain ⟨c, hc⟩ := hpending.2 (not_le.mp hgt)
      rw [hidle c] at hc
      exact absurd hc (by simp [Consumer.ticket?])
    exact ⟨.server (.pop ⟨0, hnc⟩), trivial, h.exists_pop hended (hidle _) hlt⟩
  · obtain ⟨c, hc⟩ := not_forall.mp hidle
    cases hloop : w.server.consumer c with
    | idle => exact absurd hloop hc
    | delivering ticket' m i =>
      have hm := (h.inv.delivering c ticket' m i hloop).2
      obtain ⟨x, hx, rfl⟩ := List.mem_map.mp (List.mem_of_getElem? hm)
      obtain ⟨g, hlt, hg⟩ := hgroups x hx
      exact h.exists_access hended hloop hg hlt

theorem freshAccept_of_consumer (hmv : mv.OfConsumer) : w.FreshAccept mv := by
  cases mv with
  | server mv =>
    cases mv with
    | pop => trivial
    | _ => exact hmv.elim
  | _ => trivial

/-- A consumer inserts nothing. -/
theorem sent_of_step (hmv : mv.OfConsumer) (hstep : NetworkStep w mv v) :
    v.server.sent = w.server.sent := by
  cases hstep with
  | @server mv t hturn hexec =>
    cases mv with
    | pop c =>
      obtain ⟨-, heff⟩ := StepSystem.exec_eq_some.mp hexec
      obtain ⟨⟨e, q⟩, -, rfl⟩ := Option.map_eq_some_iff.mp heff
      rfl
    | _ => exact hmv.elim
  | @turn c ticket i m reads turn t hc haccess hended hturn hwrite hdeliver =>
    rw [deliver_eq hc hturn] at hdeliver
    cases turn with
    | write fd => exact absurd rfl (hwrite fd)
    | stop | skip =>
      obtain rfl := Option.some.inj hdeliver
      rfl
  | _ => rfl

/-- **Deliveries come to an end**, whatever the clients have done. -/
theorem Behind.settles (h : Behind n w ws) (hnc : 0 < nc)
    (hgroups : ∀ x ∈ w.server.sent, ∃ g < maxGroups, x.2.InGroup g) : w.Settles := by
  have hstep : ∀ u mv v, ((∃ ws, Behind n u ws) ∧ u.server.sent = w.server.sent) →
      mv.OfConsumer → (network nc).exec u mv = some v →
        ((∃ ws, Behind n v ws) ∧ v.server.sent = w.server.sent) ∧ v.work < u.work := by
    rintro u mv v ⟨⟨ws, hu⟩, hsent⟩ hmv hexec
    have hnet := networkStep hexec
    obtain ⟨-, ws', -, -, hv⟩ := hu.step (freshAccept_of_consumer hmv) hnet
    exact ⟨⟨⟨ws', hv⟩, (sent_of_step hmv hnet).trans hsent⟩, hu.work_lt hmv hnet⟩
  refine ⟨w.work, fun post v hpost hrun => ?_⟩
  have hG : (network nc).Always (fun _ mv => mv.OfConsumer) w post := by
    refine StepSystem.always_iff_prefixes.mpr fun pre mv t hpre _ => hpost mv ?_
    exact hpre.subset (List.mem_append_right _ (List.mem_singleton_self mv))
  obtain ⟨⟨ws', hv⟩, hsent⟩ := StepSystem.run_invariant
    (fun u mv v hu hmv hexec => (hstep u mv v hu hmv hexec).1) ⟨⟨ws, h⟩, rfl⟩ hG hrun
  refine ⟨StepSystem.length_le_of_run hstep ⟨⟨ws, h⟩, rfl⟩ hG hrun, ?_⟩
  rintro hended ⟨ticket, hpending⟩
  exact hv.exists_move hnc hended (hsent ▸ hgroups) hpending

end Network

end GroupChat
