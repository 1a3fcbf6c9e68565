import GroupChat.Server.Broadcast

/-!
# The order of messages

Messages leave the queue in the order of their insertion, which is the order of their
tickets, but they are written to clients after the lock has been released, by several
consumers at once. Two loops that run at the same time can overtake each other
(`GroupChat.exists_run_overtaking`).

A loop writes under its own ticket only, to one slot after the other. So a member gets
two messages in order if the loop of the first was past the slot of the member when
the second was removed, or had ended, which is always so when one consumer takes both
(`GroupChat.messages_in_order`).
-/

namespace GroupChat

open Lobby Server

variable {nc n : ℕ}

namespace Server

variable {s t u v : Server nc} {ms : List (ServerMove nc)}

/-- The loop of this ticket is past slot `j`, or has ended. -/
def Past (s : Server nc) (ticket j : ℕ) : Prop :=
  ∀ c m i, s.consumer c = .delivering ticket m i → j < i

/-- A loop goes forward. -/
theorem Past.step {ticket j : ℕ} (h : s.Past ticket j) (hticket : ticket < s.popped.length)
    {mv : ServerMove nc} (hstep : ServerStep n s mv t) : t.Past ticket j := by
  intro c m i hc
  rcases hstep.delivering_cases hc with hold | ⟨i, rfl, hold⟩ | ⟨-, rfl, -⟩
  · exact h c m i hold
  · exact Nat.lt_succ_of_lt (h c m i hold)
  · -- a new loop has a new ticket
    exact absurd hticket (Nat.lt_irrefl _)

/-- Nothing in this list goes to a member with slot `j` under this ticket. -/
def Spares (s : Server nc) (ticket j : ℕ) (ws : List Written) : Prop :=
  ∀ fd m, Written.message fd ticket m ∈ ws →
    ∃ (k : ℕ) (r : Member), s.lobby.members[k]? = some r ∧ r.nsfd = fd ∧ r.id ≠ j

/-- Once a loop is past a slot, nothing more is written for it to this slot. -/
theorem written_after_past {ticket j : ℕ} (hinv : u.Inv n) (hticket : ticket < u.popped.length)
    (hpast : u.Past ticket j) (hrun : (server nc).run u ms = some v) :
    ∃ later, v.written = u.written ++ later ∧ v.Spares ticket j later := by
  refine (StepSystem.run_invariant'
    (I := fun w => w.Inv n ∧ ticket < w.popped.length ∧ w.Past ticket j ∧ ∃ later,
      w.written = u.written ++ later ∧ w.Spares ticket j later)
    (fun w mv x hw hexec => ?_) ⟨hinv, hticket, hpast, [], by simp, by simp [Spares]⟩ hrun).2.2.2
  obtain ⟨hwi, hwt, hwp, later, hlater, hspares⟩ := hw
  have hstep := hwi.step hexec
  refine ⟨hstep.inv hwi, hwt.trans_le hstep.popped_extends.length_le, hwp.step hwt hstep, ?_⟩
  have hold : x.Spares ticket j later := fun fd m hmem => by
    obtain ⟨k, r, hr, hfd, hid⟩ := hspares fd m hmem
    obtain ⟨p, hp, -⟩ := hstep.grows k r hr
    exact ⟨k, _, hp, hfd, hid⟩
  cases hstep with
  | @respond k m hm =>
    refine ⟨later ++ [.response m.nsfd (response m)], by simp [hlater], ?_⟩
    intro fd m' hmem
    exact hold fd m' (by simpa using hmem)
  | @write c t' k m r hc hg hr =>
    refine ⟨later ++ [.message r.nsfd t' m], by simp [hlater], ?_⟩
    intro fd m' hmem
    rcases List.mem_append.mp hmem with hmem | hmem
    · exact hold fd m' hmem
    · -- a write of the loop itself goes to the slot it has come to, which is a later one
      obtain ⟨rfl, rfl, rfl⟩ := Written.message.inj (List.mem_singleton.mp hmem)
      exact ⟨k, r, hr, rfl, (hwp c _ _ hc).ne'⟩
  | _ => exact ⟨later, hlater, hold⟩

theorem popped_extends_of_run (hinv : u.Inv n) (hrun : (server nc).run u ms = some v) :
    u.popped <+: v.popped :=
  (StepSystem.run_invariant' (I := fun w => w.Inv n ∧ u.popped <+: w.popped)
    (fun _ _ _ hw hexec => ⟨(hw.1.step hexec).inv hw.1,
      hw.2.trans (hw.1.step hexec).popped_extends⟩) ⟨hinv, List.prefix_refl _⟩ hrun).2

/-- Every removal was made by some move. -/
theorem exists_pop_of_run (hs : s.Initial n) (hrun : (server nc).run s ms = some t) {ticket : ℕ}
    (hticket : ticket < t.popped.length) :
    ∃ pre c post u, ms = pre ++ .pop c :: post ∧ (server nc).run s pre = some u ∧
      u.popped.length = ticket ∧ u.consumer c = .idle ∧ t.popped[ticket]? = some c := by
  induction ms using List.reverseRecOn generalizing t with
  | nil =>
    obtain rfl := Option.some.inj hrun
    simp [hs.popped] at hticket
  | append_singleton ms mv ih =>
    obtain ⟨u, hu, hexec⟩ := StepSystem.run_concat_eq_some.mp hrun
    have hstep := (hs.inv.inv_of_run hu).step hexec
    by_cases hlt : ticket < u.popped.length
    · obtain ⟨pre, c, post, w, rfl, hpre, hw, hidle, hc⟩ := ih hu hlt
      exact ⟨pre, c, post ++ [mv], w, by simp, hpre, hw, hidle,
        getElem?_mono hstep.popped_extends hc⟩
    · cases hstep with
      | @pop c e q hidle =>
        have heq : u.popped.length = ticket := by
          rw [List.length_append, List.length_singleton] at hticket
          omega
        exact ⟨ms, c, [], u, rfl, hu, heq, hidle, by simp [← heq]⟩
      | _ => exact absurd hticket hlt

end Server

/-- **Order.** Let two messages have been inserted in the order of their tickets `t₁`
and `t₂`, and let both be written to a member. If the consumer that removed the first
has also removed the second, or if the loop of the first was past the slot of the
member, or had ended, when the second was removed, they are written in this order. -/
theorem messages_in_order {s t : Server nc} {ms : List (ServerMove nc)} (hs : s.Initial n)
    (hfresh : (server nc).Always FreshAccept s ms) (hrun : (server nc).run s ms = some t)
    {t₁ t₂ : ℕ} (hlt : t₁ < t₂) (ht₂ : t₂ < t.popped.length) {k : ℕ} {r : Member}
    (hr : t.lobby.members[k]? = some r)
    (h : t.popped[t₁]? = t.popped[t₂]? ∨
      ∀ pre c post u, ms = pre ++ .pop c :: post → (server nc).run s pre = some u →
        u.popped.length = t₂ → u.Past t₁ r.id) :
    ∀ (i j : ℕ) (m₁ m₂ : Message), t.written[i]? = some (.message r.nsfd t₁ m₁) →
      t.written[j]? = some (.message r.nsfd t₂ m₂) →
      t.messages[t₁]? = some m₁ ∧ t.messages[t₂]? = some m₂ ∧ i < j := by
  have hinv := hs.inv.inv_of_run hrun
  have hdist := distinct_of_run hs.inv hs.distinct hfresh hrun
  obtain ⟨pre, c, post, u, rfl, hpre, hu, hidle, hc⟩ := exists_pop_of_run hs hrun ht₂
  have hinvu := hs.inv.inv_of_run hpre
  have hpost : (server nc).run u (.pop c :: post) = some t := by
    obtain ⟨u', hu', hrest⟩ := StepSystem.run_append_eq_some.mp hrun
    obtain rfl := Option.some.inj (hpre.symm.trans hu')
    exact hrest
  have hpast : u.Past t₁ r.id := by
    rcases h with hsame | hpast
    · intro c' m i hc'
      -- the consumer in the loop is the one that removed the message, and that one is idle
      have hpop := getElem?_mono (popped_extends_of_run hinvu hpost)
        (hinvu.delivering c' t₁ m i hc').1
      rw [hpop, hc] at hsame
      obtain rfl := Option.some.inj hsame
      rw [hidle] at hc'
      exact absurd hc' (by simp)
    · exact hpast pre c post u rfl hpre hu
  obtain ⟨later, hlater, hspares⟩ := written_after_past hinvu (hu ▸ hlt) hpast hpost
  intro i j m₁ m₂ hi hj
  refine ⟨(hinv.written _ _ _ (List.mem_of_getElem? hi)).2,
    (hinv.written _ _ _ (List.mem_of_getElem? hj)).2, ?_⟩
  rw [hlater] at hi hj
  -- the first message was written before the second was removed, the second after that
  have hi' : i < u.written.length := by
    by_contra hge
    rw [List.getElem?_append_right (by omega)] at hi
    obtain ⟨k', r', hr', hfd, hid⟩ := hspares _ _ (List.mem_of_getElem? hi)
    obtain rfl := hdist.index_eq hr hr' hfd.symm
    exact hid (Option.some.inj (hr'.symm.trans hr) ▸ rfl)
  have hj' : u.written.length ≤ j := by
    by_contra hge
    rw [List.getElem?_append_left (by omega)] at hj
    have := (hinvu.written _ _ _ (List.mem_of_getElem? hj)).1
    omega
  omega

/-- Two clients of one group, and two messages of the first. -/
def twoMessages (later : List (ServerMove consumerThreadCount)) :
    List (ServerMove consumerThreadCount) :=
  [.accept 5, .accept 6, .join 5 (.letter 97), .join 6 (.letter 97), .respond 0, .respond 1,
    .enqueue 0 (.blank 0 0) ⟨0, 0⟩, .enqueue 0 { Message.blank 0 0 with time := ⟨1, 0⟩ } ⟨1, 0⟩] ++
    later

/-- One consumer takes both messages, so the second client gets them in order. -/
theorem messages_in_order_twoMessages :
    ∃ (t : Server consumerThreadCount) (r : Member) (i j : ℕ),
      (server consumerThreadCount).run (start consumerThreadCount (newQueue 2))
        (twoMessages [.pop 0, .turn 0, .turn 0, .turn 0, .pop 0, .turn 0, .turn 0]) = some t ∧
      t.lobby.members[1]? = some r ∧
      t.written[i]? = some (.message r.nsfd 0 (.blank 0 0)) ∧
      t.written[j]? = some (.message r.nsfd 1 { Message.blank 0 0 with time := ⟨1, 0⟩ }) ∧
      t.messages[0]? = some (.blank 0 0) ∧ i < j := by
  obtain ⟨t, hrun, ⟨r, hr, hfd⟩, hpopped, hi, hj⟩ :
      ∃ t, (server consumerThreadCount).run (start consumerThreadCount (newQueue 2))
          (twoMessages [.pop 0, .turn 0, .turn 0, .turn 0, .pop 0, .turn 0, .turn 0]) = some t ∧
        (∃ r ∈ t.lobby.members[1]?, r.nsfd = 6) ∧ t.popped = [0, 0] ∧
        t.written[2]? = some (.message 6 0 (.blank 0 0)) ∧
        t.written[3]? = some (.message 6 1 { Message.blank 0 0 with time := ⟨1, 0⟩ }) :=
    StepSystem.exists_run (by decide +kernel)
  rw [← hfd] at hi hj
  obtain ⟨hm, -, hij⟩ := messages_in_order
    (initial_start (exists_initQueue_newQueue (by decide))) (by decide +kernel) hrun
    (show 0 < 1 by decide) (by simp [hpopped]) hr (Or.inl (by simp [hpopped])) 2 3 _ _ hi hj
  exact ⟨t, r, 2, 3, hrun, hr, hi, hj, hm, hij⟩

/-- **Overtaking.** That two messages inserted one after the other are written to a
member in this order is not so: the second client gets the second message first, from
a consumer that is ahead of the one that has the first. -/
theorem exists_run_overtaking :
    ¬∀ (s t : Server consumerThreadCount) ms, s.Initial messageQueueSize →
      (server consumerThreadCount).Always FreshAccept s ms →
      (server consumerThreadCount).Always Honest s ms →
      (server consumerThreadCount).run s ms = some t →
      ∀ (t₁ t₂ k i j : ℕ) (r : Member) (m₁ m₂ : Message), t₁ < t₂ →
        t.messages[t₁]? = some m₁ → t.messages[t₂]? = some m₂ → m₁.groupId = m₂.groupId →
        t.lobby.members[k]? = some r → t.written[i]? = some (.message r.nsfd t₁ m₁) →
        t.written[j]? = some (.message r.nsfd t₂ m₂) → i < j := by
  obtain ⟨t, hrun, ⟨r, hr, hfd⟩, hm₁, hm₂, hi, hj⟩ :
      ∃ t, (server consumerThreadCount).run
          (start consumerThreadCount (newQueue messageQueueSize))
          (twoMessages [.pop 0, .pop 1, .turn 1, .turn 1, .turn 0, .turn 0]) = some t ∧
        (∃ r ∈ t.lobby.members[1]?, r.nsfd = 6) ∧
        t.messages[0]? = some (.blank 0 0) ∧
        t.messages[1]? = some { Message.blank 0 0 with time := ⟨1, 0⟩ } ∧
        t.written[3]? = some (.message 6 0 (.blank 0 0)) ∧
        t.written[2]? = some (.message 6 1 { Message.blank 0 0 with time := ⟨1, 0⟩ }) :=
    StepSystem.exists_run (by decide +kernel)
  rw [← hfd] at hi hj
  intro hall
  have hlt := hall _ t _ (initial_start (exists_initQueue_newQueue (by decide)))
    (by decide +kernel) (by decide +kernel) hrun 0 1 1 3 2 r _ _ (by decide) hm₁ hm₂ rfl hr hi hj
  exact absurd hlt (by decide)

end GroupChat
