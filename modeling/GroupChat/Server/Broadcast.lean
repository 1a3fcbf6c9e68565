import GroupChat.Registry.Guarantees
import GroupChat.Server.Sweep

/-!
# Who gets a message

The delivery loop of one message, in a run of any length with any number of
clients and consumers. A message goes by what stands in it: to the members of the
group that its `groupId` names, except the one with its `id`, once each, if they are
still there when the loop ends, and to nobody else
(`GroupChat.delivery_follows_record`). Where the record carries what the server
assigned to its sender, this is the broadcast to the sender's group
(`GroupChat.broadcast_exactly_once`).

Which connection a record was read from plays no part in it, so a client can speak
to another group by putting its number into the record
(`GroupChat.exists_run_record_to_other_group`).
-/

namespace GroupChat

open Lobby Server

variable {nc n : ℕ}

/-- In the run `ms` from `s`, consumer `c` removes the message `m` under the ticket
`t` by the move that leads to `s₁`, and ends its delivery loop by the last move,
which leads to `s₂`. -/
def Delivers (s : Server nc) (ms : List (ServerMove nc)) (c : Fin nc) (t : ℕ) (m : Message)
    (s₁ s₂ : Server nc) : Prop :=
  ∃ pre mid s₀ u i, ms = pre ++ .pop c :: (mid ++ [.turn c]) ∧ (server nc).run s pre = some s₀ ∧
    (server nc).exec s₀ (.pop c) = some s₁ ∧ s₁.consumer c = .delivering t m 0 ∧
    (server nc).run s₁ mid = some u ∧ u.consumer c = .delivering t m i ∧
    (server nc).exec u (.turn c) = some s₂ ∧ s₂.consumer c = .idle

namespace Server

variable {s t : Server nc}

/-- A delivery loop in a run, as long as it has not ended. -/
theorem sweep_of_run {ms : List (ServerMove nc)} {old : List Member} {ticket g : ℕ} {m : Message}
    {c : Fin nc} (hinv : s.Inv n) (hs : s.Distinct)
    (hfresh : (server nc).Always FreshAccept s ms) (hrun : (server nc).run s ms = some t)
    (hg : m.InGroup g) (hticket : ticket < s.popped.length)
    (hsweep : ∀ m' i, s.consumer c = .delivering ticket m' i → m' = m ∧ Sweep old ticket m g i s) :
    ∀ m' i, t.consumer c = .delivering ticket m' i → m' = m ∧ Sweep old ticket m g i t := by
  refine (StepSystem.run_invariant (G := FreshAccept)
    (I := fun u => u.Inv n ∧ u.Distinct ∧ ticket < u.popped.length ∧
      ∀ m' i, u.consumer c = .delivering ticket m' i → m' = m ∧ Sweep old ticket m g i u)
    (fun u mv v hu hG hexec => ?_) ⟨hinv, hs, hticket, hsweep⟩ hfresh hrun).2.2.2
  obtain ⟨hui, hud, hut, hus⟩ := hu
  have hstep := hui.step hexec
  refine ⟨hstep.inv hui, hstep.distinct hud hG, hut.trans_le hstep.popped_extends.length_le, ?_⟩
  intro m' i hv
  rcases hstep.sweep_cases hui hud hv with ⟨j, hj, hkeep⟩ | ⟨-, rfl, -⟩
  · obtain ⟨rfl, hold⟩ := hus m' j hj
    exact ⟨rfl, hkeep old g hg hold⟩
  · -- the ticket is taken, so this loop does not begin a second time
    exact absurd hut (Nat.lt_irrefl _)

end Server

/-- **The end of a delivery loop**: the row of the group in the message has been gone
through. -/
theorem Delivers.sweep {s s₁ s₂ : Server nc} {ms : List (ServerMove nc)} {c : Fin nc} {t : ℕ}
    {m : Message} (hs : s.Initial n) (hfresh : (server nc).Always FreshAccept s ms)
    (h : Delivers s ms c t m s₁ s₂) :
    ∃ g i, m.InGroup g ∧ s₂.Inv n ∧ s₂.lobby.groupSize g ≤ i ∧
      Sweep s₁.lobby.members t m g i s₂ := by
  obtain ⟨pre, mid, s₀, u, i, rfl, hpre, hpop, hc₁, hmid, hcu, hend, hc₂⟩ := h
  obtain ⟨hfresh₀, hfresh₁⟩ := StepSystem.always_append.mp hfresh
  have hfresh₂ := (hfresh₁ s₀ hpre).2 s₁ hpop
  obtain ⟨hfreshmid, hfreshend⟩ := StepSystem.always_append.mp hfresh₂
  -- the beginning: no write carries the new ticket
  have hinv₀ := hs.inv.inv_of_run hpre
  have hdist₀ := distinct_of_run hs.inv hs.distinct hfresh₀ hpre
  have hstep₁ := hinv₀.step hpop
  have hinv₁ := hstep₁.inv hinv₀
  have hdist₁ := hstep₁.distinct hdist₀ (hfresh₁ s₀ hpre).1
  have hdistu := distinct_of_run hinv₁ hdist₁ hfreshmid hmid
  have hinvu := hinv₁.inv_of_run hmid
  have hstep₂ := hinvu.step hend
  have hpopped : t = s₀.popped.length ∧ s₁.popped = s₀.popped ++ [c] := by
    cases hstep₁ with
    | pop =>
      obtain ⟨rfl, -⟩ := Consumer.delivering.inj ((Function.update_self ..).symm.trans hc₁)
      exact ⟨rfl, rfl⟩
  obtain ⟨rfl, heq⟩ := hpopped
  have hcopies := hstep₁.copies_of_popped hinv₀ heq
  have hlt : s₀.popped.length < s₁.popped.length := by
    rw [heq, List.length_append]
    exact Nat.lt_succ_self _
  -- the last turn has a meaning, so the message names a group of the tables
  obtain ⟨g, hg⟩ : ∃ g, m.InGroup g := by
    cases hstep₂ with
    | @stop _ t' i' g m' hc' hg =>
      obtain ⟨rfl, rfl, rfl⟩ := Consumer.delivering.inj (hcu.symm.trans hc')
      exact ⟨g, hg⟩
    | @skip _ t' k m' r hc' hg =>
      obtain ⟨rfl, rfl, rfl⟩ := Consumer.delivering.inj (hcu.symm.trans hc')
      exact ⟨r.groupId, hg⟩
    | @write _ t' k m' r hc' hg =>
      obtain ⟨rfl, rfl, rfl⟩ := Consumer.delivering.inj (hcu.symm.trans hc')
      exact ⟨r.groupId, hg⟩
  obtain ⟨-, hsweep⟩ := sweep_of_run hinv₁ hdist₁ hfreshmid hmid hg hlt
    (fun m' i hc => by
      obtain ⟨-, rfl, rfl⟩ := Consumer.delivering.inj (hc₁.symm.trans hc)
      exact ⟨rfl, sweep_of_copies hcopies m g⟩) m i hcu
  rcases hsweep.step hinvu hdistu hcu hg hstep₂ with ⟨j, hj, -⟩ | ⟨-, hle, hsweep₂⟩
  · rw [hc₂] at hj
    exact absurd hj (by simp)
  · exact ⟨g, i, hg, hstep₂.inv hinvu, hle, hsweep₂⟩

/-- The loop of a message reads the count and the row of the group that the message
names. -/
theorem Registry.reads_of_deliverTurn {reg : Registry} {m : Message} {g i : ℕ}
    {reads : List TableRead} {turn : Turn} (hg : m.InGroup g)
    (h : reg.deliverTurn m i = some (reads, turn)) :
    ∀ a ∈ reads, a = .connectionCount g ∨ a = .connection g i := by
  obtain ⟨g', hg', h⟩ := Option.bind_eq_some_iff.mp h
  obtain rfl := hg.eq (Int.mem_toNat?.mp hg')
  obtain ⟨count, -, h⟩ := Option.bind_eq_some_iff.mp h
  by_cases hi : i < count
  · rw [if_pos hi] at h
    obtain ⟨fd, -, h⟩ := Option.bind_eq_some_iff.mp h
    split_ifs at h
    all_goals
      obtain ⟨rfl, -⟩ := Prod.mk.inj (Option.some.inj h)
      simp
  · rw [if_neg hi] at h
    obtain ⟨rfl, -⟩ := Prod.mk.inj (Option.some.inj h)
    simp

/-- What a turn comes to depends on the count and the row of this group alone. -/
theorem Registry.deliverTurn_congr {reg reg' : Registry} {m : Message} {g : ℕ} (hg : m.InGroup g)
    (hcount : reg.connectionCount[g]? = reg'.connectionCount[g]?)
    (hrow : reg.connections[g]? = reg'.connections[g]?) (i : ℕ) :
    reg.deliverTurn m i = reg'.deliverTurn m i := by
  have hindex : m.groupId.toInt.toNat? = some g := Int.mem_toNat?.mpr hg
  simp only [deliverTurn, hindex, Option.bind_eq_bind, Option.bind_some, connection?, hcount, hrow]

/-- **A message goes by what stands in it.** Whatever clients send, and from whatever
connection it was read: the loop of a message reads the count and the row of the
group in its `groupId`, and nothing else makes a difference to it; when it ends, the
message has been written exactly once to each member of this group that does not have its
`id` and has not departed, at most once to any member, and never to the member with its
`id`, to a member of another group, or to one that had departed before the loop began. -/
theorem delivery_follows_record {s s₁ s₂ : Server nc} {ms : List (ServerMove nc)} {c : Fin nc}
    {t : ℕ} {m : Message} (hs : s.Initial n) (hfresh : (server nc).Always FreshAccept s ms)
    (h : Delivers s ms c t m s₁ s₂) :
    ∃ g : ℕ, m.groupId.toInt = g ∧
      (∀ (reg : Registry) i reads turn, reg.deliverTurn m i = some (reads, turn) →
        ∀ a ∈ reads, a = .connectionCount g ∨ a = .connection g i) ∧
      (∀ reg reg' : Registry, reg.connectionCount[g]? = reg'.connectionCount[g]? →
        reg.connections[g]? = reg'.connections[g]? →
          ∀ i, reg.deliverTurn m i = reg'.deliverTurn m i) ∧
      ∀ (k : ℕ) (r : Member), s₂.lobby.members[k]? = some r →
        (r.groupId = g → (r.id : ℤ) ≠ m.id.toInt → r.phase ≠ .departed →
          s₂.copies t r.nsfd = [m]) ∧
        (s₂.copies t r.nsfd = [] ∨ s₂.copies t r.nsfd = [m]) ∧
        (r.groupId ≠ g ∨ (r.id : ℤ) = m.id.toInt ∨
          (∃ r₁, s₁.lobby.members[k]? = some r₁ ∧ r₁.phase = .departed) →
            s₂.copies t r.nsfd = []) := by
  obtain ⟨g, i, hg, hinv, hle, hsweep⟩ := h.sweep hs hfresh
  refine ⟨g, hg, fun reg i reads turn => reg.reads_of_deliverTurn hg,
    fun reg reg' => Registry.deliverTurn_congr hg, fun k r hr => ⟨?_, ?_, ?_⟩⟩
  · intro hgroup hid hphase
    have hlt := hinv.slots.numbered.rank_lt (List.mem_of_getElem? hr)
    rw [hgroup] at hlt
    exact hsweep.done k r hr hgroup (hlt.trans_le hle) hid hphase
  · exact hsweep.atMost k r hr
  · exact hsweep.never k r hr

/-! ### Runs with a delivery -/

/-- Whether a run delivers a message can be found out by making it. -/
theorem exists_delivers {s : Server nc} {pre mid : List (ServerMove nc)} {c : Fin nc} {t i : ℕ}
    {m : Message} {P : Server nc → Server nc → Prop} [∀ s₁ s₂, Decidable (P s₁ s₂)]
    (h : (((server nc).run s pre).bind fun s₀ => (server nc).exec s₀ (.pop c)).any (fun s₁ =>
      s₁.consumer c = .delivering t m 0 ∧ ((server nc).run s₁ mid).any fun u =>
        u.consumer c = .delivering t m i ∧ ((server nc).exec u (.turn c)).any fun s₂ =>
          s₂.consumer c = .idle ∧ P s₁ s₂) = true) :
    ∃ s₁ s₂, Delivers s (pre ++ .pop c :: (mid ++ [.turn c])) c t m s₁ s₂ ∧ P s₁ s₂ := by
  simp only [Option.any_eq_true, Option.bind_eq_some_iff, decide_eq_true_eq] at h
  obtain ⟨s₁, ⟨s₀, hpre, hpop⟩, hc₁, u, hmid, hcu, s₂, hend, hc₂, hP⟩ := h
  exact ⟨s₁, s₂, ⟨pre, mid, s₀, u, i, rfl, hpre, hpop, hc₁, hmid, hcu, hend, hc₂⟩, hP⟩

/-- Two clients of group `0` and one of group `1`, and a message from the first. -/
def threeClients (m : Message) : List (ServerMove consumerThreadCount) :=
  [.accept 5, .accept 6, .accept 7, .join 5 (.letter 97), .join 6 (.letter 97),
    .join 7 (.letter 98), .respond 0, .respond 1, .respond 2, .enqueue 0 m ⟨0, 0⟩]

/-- A message of the first client for group `1` is written to the third. -/
theorem delivery_follows_record_threeClients :
    ∃ s₁ s₂, Delivers (start consumerThreadCount (newQueue 1))
        (threeClients (.blank 7 1) ++ .pop 0 :: ([.turn 0] ++ [.turn 0])) 0 0 (.blank 7 1) s₁ s₂ ∧
      ∃ r ∈ s₂.lobby.members[2]?, r.groupId = 1 ∧
        (s₂.copies 0 r.nsfd = [] ∨ s₂.copies 0 r.nsfd = [.blank 7 1]) := by
  obtain ⟨s₁, s₂, hdel, r, hr, hg⟩ :
      ∃ s₁ s₂, Delivers (start consumerThreadCount (newQueue 1))
          (threeClients (.blank 7 1) ++ .pop 0 :: ([.turn 0] ++ [.turn 0])) 0 0 (.blank 7 1)
          s₁ s₂ ∧ ∃ r ∈ s₂.lobby.members[2]?, r.groupId = 1 :=
    exists_delivers (i := 1) (by decide +kernel)
  obtain ⟨g, -, -, -, h⟩ := delivery_follows_record
    (initial_start (exists_initQueue_newQueue (by decide))) (by decide +kernel) hdel
  exact ⟨s₁, s₂, hdel, r, hr, hg, (h 2 r hr).2.1⟩

/-- **A record for another group.** That a record is written only to members of the
group assigned to the connection it was read from is not so. -/
theorem exists_run_record_to_other_group :
    ¬∀ (s s₁ s₂ : Server consumerThreadCount) ms c t m, s.Initial messageQueueSize →
      (server consumerThreadCount).Always FreshAccept s ms → Delivers s ms c t m s₁ s₂ →
      ∀ k₀ r₀, s₂.sent[t]? = some (k₀, m) → s₂.lobby.members[k₀]? = some r₀ →
        ∀ (k : ℕ) (r : Member), s₂.lobby.members[k]? = some r → r.groupId ≠ r₀.groupId →
          s₂.copies t r.nsfd = [] := by
  obtain ⟨s₁, s₂, hdel, hsent, ⟨r₀, hr₀, hg₀⟩, r, hr, hg, hcopies⟩ :
      ∃ s₁ s₂, Delivers (start consumerThreadCount (newQueue messageQueueSize))
          (threeClients (.blank 7 1) ++ .pop 0 :: ([.turn 0] ++ [.turn 0])) 0 0 (.blank 7 1)
          s₁ s₂ ∧
        s₂.sent[0]? = some (0, .blank 7 1) ∧ (∃ r₀ ∈ s₂.lobby.members[0]?, r₀.groupId = 0) ∧
        ∃ r ∈ s₂.lobby.members[2]?, r.groupId = 1 ∧ s₂.copies 0 r.nsfd = [.blank 7 1] :=
    exists_delivers (i := 1) (by decide +kernel)
  intro hall
  have hempty := hall _ s₁ s₂ _ 0 0 _ (initial_start (exists_initQueue_newQueue (by decide)))
    (by decide +kernel) hdel 0 r₀ hsent hr₀ 2 r hr (by rw [hg, hg₀]; decide)
  rw [hcopies] at hempty
  exact absurd hempty (by simp)

/-! ### Records that carry what the server assigned -/

namespace Server

variable {s t : Server nc}

/-- A message carries the id and the group of the member it is read from. -/
def Honest (s : Server nc) : ServerMove nc → Prop
  | .enqueue k m _ => ∀ r ∈ s.lobby.members[k]?, m.id.toInt = r.id ∧ m.groupId.toInt = r.groupId
  | _ => True

instance (s : Server nc) : (m : ServerMove nc) → Decidable (s.Honest m)
  | .enqueue k m _ => inferInstanceAs (Decidable
      (∀ r ∈ s.lobby.members[k]?, m.id.toInt = r.id ∧ m.groupId.toInt = r.groupId))
  | .accept _ | .join _ _ | .respond _ | .depart _ | .pop _ | .turn _ => isTrue trivial

/-- Every message inserted carries the id and the group of its sender. -/
def AllHonest (s : Server nc) : Prop :=
  ∀ k m, (k, m) ∈ s.sent → ∀ r, s.lobby.members[k]? = some r →
    m.id.toInt = r.id ∧ m.groupId.toInt = r.groupId

theorem allHonest_of_step (hinv : s.Inv n) (hs : s.AllHonest) {mv : ServerMove nc}
    (hG : s.Honest mv) (hstep : ServerStep n s mv t) : t.AllHonest := by
  have hold : ∀ k m, (k, m) ∈ s.sent → ∀ r, t.lobby.members[k]? = some r →
      m.id.toInt = r.id ∧ m.groupId.toInt = r.groupId := by
    intro k m hm r hr
    rcases hstep.member_cases hr with ⟨r', p, hr', rfl, -⟩ | ⟨hge, -⟩
    · exact hs k m hm r' hr'
    · exact absurd (hinv.sender (k, m) hm) (Nat.not_lt.mpr hge)
  intro k m hm r hr
  cases hstep with
  | enqueue =>
    rcases List.mem_append.mp hm with hmem | hmem
    · exact hs k m hmem r hr
    · obtain ⟨rfl, rfl⟩ := Prod.mk.inj (List.mem_singleton.mp hmem)
      exact hG r hr
  | _ => exact hold k m hm r hr

theorem allHonest_of_run {ms : List (ServerMove nc)} (hs : s.Initial n)
    (hG : (server nc).Always Honest s ms) (hrun : (server nc).run s ms = some t) : t.AllHonest := by
  refine (StepSystem.run_invariant (I := fun u => u.Inv n ∧ u.AllHonest)
    (fun u mv v hu hG hexec => ?_) ⟨hs.inv, ?_⟩ hG hrun).2
  · have hstep := hu.1.step hexec
    exact ⟨hstep.inv hu.1, allHonest_of_step hu.1 hu.2 hG hstep⟩
  · simp [AllHonest, hs.sent]

end Server

theorem Delivers.run {s s₁ s₂ : Server nc} {ms : List (ServerMove nc)} {c : Fin nc} {t : ℕ}
    {m : Message} (h : Delivers s ms c t m s₁ s₂) : (server nc).run s ms = some s₂ := by
  obtain ⟨pre, mid, s₀, u, i, rfl, hpre, hpop, -, hmid, -, hend, -⟩ := h
  refine StepSystem.run_append_eq_some.mpr ⟨s₀, hpre, ?_⟩
  rw [StepSystem.run_cons, hpop, Option.bind_some]
  exact StepSystem.run_concat_eq_some.mpr ⟨u, hmid, hend⟩

/-- The message of a loop is the one inserted under its ticket. -/
theorem Delivers.exists_sender {s s₁ s₂ : Server nc} {ms : List (ServerMove nc)} {c : Fin nc}
    {t : ℕ} {m : Message} (hs : s.Initial n) (h : Delivers s ms c t m s₁ s₂) :
    ∃ k r, s₂.sent[t]? = some (k, m) ∧ s₂.lobby.members[k]? = some r := by
  have hinv₂ := hs.inv.inv_of_run h.run
  obtain ⟨pre, mid, s₀, u, i, rfl, hpre, hpop, -, hmid, hcu, hend, -⟩ := h
  have hinv₁ := ((hs.inv.inv_of_run hpre).step hpop).inv (hs.inv.inv_of_run hpre)
  have hinvu := hinv₁.inv_of_run hmid
  have hmsg := (hinvu.delivering c t m i hcu).2
  have hmsg₂ := getElem?_mono ((hinvu.step hend).sent_extends.map Prod.snd) hmsg
  rw [List.getElem?_map] at hmsg₂
  obtain ⟨⟨k, m'⟩, hsent, rfl⟩ := Option.map_eq_some_iff.mp hmsg₂
  exact ⟨k, _, hsent, List.getElem?_eq_getElem (hinv₂.sender _ (List.mem_of_getElem? hsent))⟩

/-- **Broadcast.** Let every message carry the id and the group that the server
assigned to its sender. When the delivery loop of a message ends, it has been
written exactly once to every other member of the sender's group that has not
departed – so in particular to each that had joined before the loop began –, at most
once to any member, and never to the sender, to a member of another group, or to a
member that had departed before the loop began. -/
theorem broadcast_exactly_once {s s₁ s₂ : Server nc} {ms : List (ServerMove nc)} {c : Fin nc}
    {t : ℕ} {m : Message} (hs : s.Initial n) (hfresh : (server nc).Always FreshAccept s ms)
    (hhonest : (server nc).Always Honest s ms) (h : Delivers s ms c t m s₁ s₂) :
    ∃ (k₀ : ℕ) (r₀ : Member), s₂.sent[t]? = some (k₀, m) ∧ s₂.lobby.members[k₀]? = some r₀ ∧
      ∀ (k : ℕ) (r : Member), s₂.lobby.members[k]? = some r →
        (r.groupId = r₀.groupId → k ≠ k₀ → r.phase ≠ .departed → s₂.copies t r.nsfd = [m]) ∧
        (s₂.copies t r.nsfd = [] ∨ s₂.copies t r.nsfd = [m]) ∧
        (k = k₀ ∨ r.groupId ≠ r₀.groupId ∨
          (∃ r₁, s₁.lobby.members[k]? = some r₁ ∧ r₁.phase = .departed) →
            s₂.copies t r.nsfd = []) := by
  obtain ⟨k₀, r₀, hsent, hr₀⟩ := h.exists_sender hs
  obtain ⟨hid₀, hg₀⟩ := allHonest_of_run hs hhonest h.run k₀ m (List.mem_of_getElem? hsent) r₀ hr₀
  obtain ⟨g, i, hg, hinv, hle, hsweep⟩ := h.sweep hs hfresh
  obtain rfl := hg.eq hg₀
  refine ⟨k₀, r₀, hsent, hr₀, fun k r hr => ⟨?_, ?_, ?_⟩⟩
  · intro hgroup hne hphase
    have hlt := hinv.slots.numbered.rank_lt (List.mem_of_getElem? hr)
    rw [hgroup] at hlt
    refine hsweep.done k r hr hgroup (hlt.trans_le hle) (fun hid => hne ?_) hphase
    -- in one group the id tells the members apart
    rw [hid₀] at hid
    exact hinv.slots.numbered.index_eq hr hr₀ hgroup (Int.ofNat.inj hid)
  · exact hsweep.atMost k r hr
  · rintro (rfl | hgroup | hgone)
    · obtain rfl := Option.some.inj (hr.symm.trans hr₀)
      exact hsweep.never k r hr (Or.inr (Or.inl hid₀.symm))
    · exact hsweep.never k r hr (Or.inl hgroup)
    · exact hsweep.never k r hr (Or.inr (Or.inr hgone))

/-- A message of the first client, as it should be, is written to the second. -/
theorem broadcast_exactly_once_threeClients :
    ∃ s₁ s₂, Delivers (start consumerThreadCount (newQueue 1))
        (threeClients (.blank 0 0) ++ .pop 0 :: ([.turn 0, .turn 0] ++ [.turn 0])) 0 0 (.blank 0 0)
        s₁ s₂ ∧
      ∃ r ∈ s₂.lobby.members[1]?, s₂.copies 0 r.nsfd = [.blank 0 0] := by
  obtain ⟨s₁, s₂, hdel, hsent, ⟨r₀, hr₀, hg₀⟩, r, hr, hg, hphase⟩ :
      ∃ s₁ s₂, Delivers (start consumerThreadCount (newQueue 1))
          (threeClients (.blank 0 0) ++ .pop 0 :: ([.turn 0, .turn 0] ++ [.turn 0])) 0 0
          (.blank 0 0) s₁ s₂ ∧
        s₂.sent[0]? = some (0, .blank 0 0) ∧ (∃ r₀ ∈ s₂.lobby.members[0]?, r₀.groupId = 0) ∧
        ∃ r ∈ s₂.lobby.members[1]?, r.groupId = 0 ∧ r.phase ≠ .departed :=
    exists_delivers (i := 2) (by decide +kernel)
  obtain ⟨k₀, r₀', hsent', hr₀', h⟩ := broadcast_exactly_once
    (initial_start (exists_initQueue_newQueue (by decide))) (by decide +kernel) (by decide +kernel)
    hdel
  obtain ⟨rfl, -⟩ := Prod.mk.inj (Option.some.inj (hsent.symm.trans hsent'))
  obtain rfl := Option.some.inj (hr₀'.symm.trans hr₀)
  exact ⟨s₁, s₂, hdel, r, hr, (h 1 r hr).1 (hg.trans hg₀.symm) (by decide) hphase⟩

end GroupChat
