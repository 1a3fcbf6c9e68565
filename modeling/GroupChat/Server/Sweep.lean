import GroupChat.Server.Invariant

/-!
# Delivery loops

One delivery loop, followed from the removal of its message to its end while
everything else goes on. A loop walks over the row of one group and the row may
grow and lose members under its feet, so what is kept is told in terms of the slot
`i` it has come to (`GroupChat.Server.Sweep`): nobody from slot `i` on has been
written to, everybody before it has – except the sender, and those who are gone –
and nobody twice.

The row never gets shorter and a slot never gets a second owner, so the walk meets
every member once. A newcomer is behind the walk's end, never in the part that is
done.
-/

namespace GroupChat

open Lobby

theorem Grows.countP_le {ms ms' : List Member} (h : Grows ms ms') (f : Member → Bool)
    (hf : ∀ m p, f (Member.atPhase m p) = f m) : ms.countP f ≤ ms'.countP f := by
  have hprefix : ms.map f <+: ms'.map f := by
    refine List.prefix_iff_getElem?.mpr fun k hk => ?_
    rw [List.length_map] at hk
    obtain ⟨p, hp, -⟩ := h k _ (List.getElem?_eq_getElem hk)
    rw [List.getElem?_map, hp, List.getElem_map, Option.map_some, hf]
  have hle := hprefix.sublist.countP_le (p := id)
  simpa [List.countP_map] using hle

theorem Message.InGroup.eq {m : Message} {g g' : ℕ} (h : m.InGroup g) (h' : m.InGroup g') :
    g = g' := Int.ofNat.inj (h.symm.trans h')

namespace Server

variable {nc n : ℕ} {s t : Server nc}

/-- What has been written to a descriptor under a ticket. -/
def copies (s : Server nc) (ticket : ℕ) (fd : ℤ) : List Message :=
  s.written.filterMap fun
    | .message fd' ticket' m => if fd' = fd ∧ ticket' = ticket then some m else none
    | .response _ _ => none

theorem copies_eq_nil {ticket : ℕ} {fd : ℤ}
    (h : ∀ fd' t' m, Written.message fd' t' m ∈ s.written → t' ≠ ticket) :
    s.copies ticket fd = [] := by
  refine List.filterMap_eq_nil_iff.mpr fun w hw => ?_
  cases w with
  | response => rfl
  | message fd' t' m => exact if_neg fun heq => h fd' t' m hw heq.2

/-- Nothing has been written to a client that has not joined. -/
theorem Inv.copies_of_mem_waiting (h : s.Inv n) (hs : s.Distinct) {fd : ℤ} (hfd : fd ∈ s.waiting)
    (ticket : ℕ) : s.copies ticket fd = [] := by
  refine List.filterMap_eq_nil_iff.mpr fun w hw => ?_
  cases w with
  | response => rfl
  | message fd' t' m =>
    obtain ⟨k, r, hr, rfl⟩ := h.addressed fd' t' m hw
    exact if_neg fun heq => hs.ne_of_mem_waiting hfd hr heq.1

/-- **The state of a delivery loop** of the message `m` at slot `i` of group `g`,
where `old` are the members at its beginning. -/
structure Sweep (old : List Member) (ticket : ℕ) (m : Message) (g i : ℕ) (s : Server nc) :
    Prop where
  grows : Grows old s.lobby.members
  i_le : i ≤ s.lobby.groupSize g
  ahead : ∀ (k : ℕ) (r : Member), s.lobby.members[k]? = some r → r.groupId = g → i ≤ r.id →
    s.copies ticket r.nsfd = []
  done : ∀ (k : ℕ) (r : Member), s.lobby.members[k]? = some r → r.groupId = g → r.id < i →
    (r.id : ℤ) ≠ m.id.toInt → r.phase ≠ .departed → s.copies ticket r.nsfd = [m]
  atMost : ∀ (k : ℕ) (r : Member), s.lobby.members[k]? = some r →
    s.copies ticket r.nsfd = [] ∨ s.copies ticket r.nsfd = [m]
  never : ∀ (k : ℕ) (r : Member), s.lobby.members[k]? = some r →
    (r.groupId ≠ g ∨ (r.id : ℤ) = m.id.toInt ∨
      ∃ r', old[k]? = some r' ∧ r'.phase = .departed) → s.copies ticket r.nsfd = []

/-- A loop that has just begun. -/
theorem sweep_of_copies {ticket : ℕ} (h : ∀ fd, s.copies ticket fd = []) (m : Message) (g : ℕ) :
    Sweep s.lobby.members ticket m g 0 s where
  grows := .refl _
  i_le := Nat.zero_le _
  ahead _ r _ _ _ := h r.nsfd
  done _ _ _ _ hlt := absurd hlt (Nat.not_lt_zero _)
  atMost _ r _ := Or.inl (h r.nsfd)
  never _ r _ _ := h r.nsfd

end Server

open Server

/-- Where the members of the next state come from. -/
theorem ServerStep.member_cases {nc n : ℕ} {s t : Server nc} {m : ServerMove nc}
    (h : ServerStep n s m t) {k : ℕ} {r : Member} (hr : t.lobby.members[k]? = some r) :
    (∃ r' p, s.lobby.members[k]? = some r' ∧ r = r'.atPhase p ∧ r'.phase.rank ≤ p.rank) ∨
      (s.lobby.members.length ≤ k ∧ r.nsfd ∈ s.waiting ∧ r.id = s.lobby.groupSize r.groupId) := by
  rcases Nat.lt_or_ge k s.lobby.members.length with hlt | hge
  · obtain ⟨p, hp, hrank⟩ := h.grows k _ (List.getElem?_eq_getElem hlt)
    exact Or.inl ⟨_, p, List.getElem?_eq_getElem hlt, Option.some.inj (hr.symm.trans hp), hrank⟩
  · refine Or.inr ⟨hge, ?_⟩
    have hk := (List.getElem?_eq_some_iff.mp hr).1
    cases h with
    | join hfd hl =>
      cases hl with
      | join hg hlt hid =>
        rw [List.getElem?_append_right hge, List.getElem?_singleton] at hr
        split_ifs at hr with heq
        obtain rfl := Option.some.inj hr
        exact ⟨hfd, hid⟩
    | respond hm =>
      simp only [setPhase, List.length_modify] at hk
      omega
    | depart hl =>
      cases hl with
      | depart =>
        simp only [setPhase, List.length_modify] at hk
        omega
    | _ => exact absurd hk (Nat.not_lt.mpr hge)

namespace Server

variable {nc n : ℕ} {s t : Server nc} {old : List Member} {ticket g i : ℕ} {m : Message}

/-- A move under which nothing is written for the loop. -/
theorem Sweep.frame (h : Sweep old ticket m g i s) (hinv : s.Inv n) (hs : s.Distinct)
    {mv : ServerMove nc} (hstep : ServerStep n s mv t)
    (hcopies : ∀ fd, t.copies ticket fd = s.copies ticket fd) :
    Sweep old ticket m g i t where
  grows := h.grows.trans hstep.grows
  i_le := h.i_le.trans (hstep.grows.countP_le _ fun _ _ => rfl)
  ahead k r hr hg hle := by
    rw [hcopies]
    rcases hstep.member_cases hr with ⟨r', p, hr', rfl, -⟩ | ⟨-, hfd, -⟩
    · exact h.ahead k r' hr' hg hle
    · exact hinv.copies_of_mem_waiting hs hfd ticket
  done k r hr hg hlt hid hphase := by
    rw [hcopies]
    rcases hstep.member_cases hr with ⟨r', p, hr', rfl, hrank⟩ | ⟨-, -, hnew⟩
    · exact h.done k r' hr' hg hlt hid (Phase.ne_departed hrank hphase)
    · -- a newcomer comes behind the part that is done
      have := h.i_le
      rw [hg] at hnew
      omega
  atMost k r hr := by
    rw [hcopies]
    rcases hstep.member_cases hr with ⟨r', p, hr', rfl, -⟩ | ⟨-, hfd, -⟩
    · exact h.atMost k r' hr'
    · exact Or.inl (hinv.copies_of_mem_waiting hs hfd ticket)
  never k r hr hnever := by
    rw [hcopies]
    rcases hstep.member_cases hr with ⟨r', p, hr', rfl, -⟩ | ⟨-, hfd, -⟩
    · exact h.never k r' hr' hnever
    · exact hinv.copies_of_mem_waiting hs hfd ticket

theorem copies_response (s : Server nc) (fd : ℤ) (j : JoinResponse) (l : Lobby) (ticket : ℕ)
    (fd' : ℤ) :
    { s with lobby := l, written := s.written ++ [Written.response fd j] }.copies ticket fd' =
      s.copies ticket fd' := by
  simp [copies]

theorem copies_message (s : Server nc) (fd : ℤ) (t : ℕ) (m : Message) (f : Fin nc → Consumer)
    (ticket : ℕ) (fd' : ℤ) :
    { s with consumer := f, written := s.written ++ [Written.message fd t m] }.copies ticket fd' =
      s.copies ticket fd' ++ if fd = fd' ∧ t = ticket then [m] else [] := by
  simp only [copies, List.filterMap_append]
  congr 1
  split_ifs with h <;> simp [h]

/-- The turn of the loop that writes to the member with slot `r.id`. -/
theorem Sweep.write {r : Member} (h : Sweep old ticket m r.groupId r.id s) (hinv : s.Inv n)
    (hs : s.Distinct) {k : ℕ} (hr : s.lobby.members[k]? = some r)
    (hphase : r.phase ≠ .departed) (hid : (r.id : ℤ) ≠ m.id.toInt) (f : Fin nc → Consumer) :
    Sweep old ticket m r.groupId (r.id + 1)
      { s with consumer := f, written := s.written ++ [Written.message r.nsfd ticket m] } where
  grows := h.grows
  i_le := hinv.slots.numbered.rank_lt (List.mem_of_getElem? hr)
  ahead j r' hr' hg hle := by
    have hne : r.nsfd ≠ r'.nsfd := fun heq => by
      obtain rfl := hs.index_eq hr hr' heq
      obtain rfl := Option.some.inj (hr.symm.trans hr')
      omega
    rw [copies_message, if_neg fun heq => hne heq.1, List.append_nil]
    exact h.ahead j r' hr' hg (by omega)
  done j r' hr' hg hlt hid' hphase' := by
    rw [copies_message]
    -- a slot before the one of this turn, or the one of this turn
    rcases Nat.lt_succ_iff_lt_or_eq.mp hlt with hlt | heq
    · have hne : r.nsfd ≠ r'.nsfd := fun hfd => by
        obtain rfl := hs.index_eq hr hr' hfd
        obtain rfl := Option.some.inj (hr.symm.trans hr')
        omega
      rw [if_neg fun heq => hne heq.1, List.append_nil]
      exact h.done j r' hr' hg hlt hid' hphase'
    · obtain rfl := hinv.slots.numbered.index_eq hr' hr hg heq
      obtain rfl := Option.some.inj (hr.symm.trans hr')
      rw [if_pos ⟨rfl, rfl⟩, h.ahead j r hr rfl (Nat.le_refl _), List.nil_append]
  atMost j r' hr' := by
    rw [copies_message]
    by_cases hfd : r.nsfd = r'.nsfd
    · obtain rfl := hs.index_eq hr hr' hfd
      obtain rfl := Option.some.inj (hr.symm.trans hr')
      rw [if_pos ⟨rfl, rfl⟩, h.ahead k r hr rfl (Nat.le_refl _), List.nil_append]
      exact Or.inr rfl
    · rw [if_neg fun heq => hfd heq.1, List.append_nil]
      exact h.atMost j r' hr'
  never j r' hr' hnever := by
    have hne : r.nsfd ≠ r'.nsfd := fun hfd => by
      obtain rfl := hs.index_eq hr hr' hfd
      obtain rfl := Option.some.inj (hr.symm.trans hr')
      rcases hnever with hg | hid' | ⟨r'', hold, hgone⟩
      · exact hg rfl
      · exact hid hid'
      · -- who was gone at the beginning is gone now
        obtain ⟨p, hp, hrank⟩ := h.grows k r'' hold
        obtain rfl := Option.some.inj (hr.symm.trans hp)
        exact Phase.ne_departed hrank hphase hgone
    rw [copies_message, if_neg fun heq => hne heq.1, List.append_nil]
    exact h.never j r' hr' hnever

/-- The turn of the loop that passes over the member with slot `r.id`. -/
theorem Sweep.skip {r : Member} (h : Sweep old ticket m r.groupId r.id s) (hinv : s.Inv n)
    (hs : s.Distinct) {k : ℕ} (hr : s.lobby.members[k]? = some r)
    (hskip : r.phase = .departed ∨ r.nsfd = -1 ∨ (r.id : ℤ) = m.id.toInt) (f : Fin nc → Consumer) :
    Sweep old ticket m r.groupId (r.id + 1) { s with consumer := f } where
  grows := h.grows
  i_le := hinv.slots.numbered.rank_lt (List.mem_of_getElem? hr)
  ahead j r' hr' hg hle := h.ahead j r' hr' hg (by omega)
  done j r' hr' hg hlt hid hphase := by
    rcases Nat.lt_succ_iff_lt_or_eq.mp hlt with hlt | heq
    · exact h.done j r' hr' hg hlt hid hphase
    · obtain rfl := hinv.slots.numbered.index_eq hr' hr hg heq
      obtain rfl := Option.some.inj (hr.symm.trans hr')
      -- the `-1` of a slot is never the descriptor of a member that is still there
      have hnonneg := hs.nsfd_nonneg hr
      rcases hskip with hgone | hfd | hsender
      · exact absurd hgone hphase
      · omega
      · exact absurd hsender hid
  atMost := h.atMost
  never := h.never

/-- **One move, seen from a delivery loop**: the loop goes on, or it ends behind the
last slot of the row. -/
theorem Sweep.step (h : Sweep old ticket m g i s) (hinv : s.Inv n) (hs : s.Distinct) {c : Fin nc}
    (hc : s.consumer c = .delivering ticket m i) (hg : m.InGroup g) {mv : ServerMove nc}
    (hstep : ServerStep n s mv t) :
    (∃ j, t.consumer c = .delivering ticket m j ∧ Sweep old ticket m g j t) ∨
      (t.consumer c = .idle ∧ t.lobby.groupSize g ≤ i ∧ Sweep old ticket m g i t) := by
  have hframe := h.frame hinv hs hstep
  -- the moves of others are a frame for this loop; its own turns are `skip`, `write` and `stop`
  cases hstep with
  | accept => exact Or.inl ⟨i, hc, hframe fun _ => rfl⟩
  | join => exact Or.inl ⟨i, hc, hframe fun _ => rfl⟩
  | respond => exact Or.inl ⟨i, hc, hframe fun _ => copies_response ..⟩
  | enqueue => exact Or.inl ⟨i, hc, hframe fun _ => rfl⟩
  | depart => exact Or.inl ⟨i, hc, hframe fun _ => rfl⟩
  | @pop c' e q hidle =>
    have hne : c ≠ c' := fun heq => by
      rw [heq, hidle] at hc
      exact absurd hc (by simp)
    exact Or.inl ⟨i, (Function.update_of_ne hne ..).trans hc, hframe fun _ => rfl⟩
  | @stop c' t' i' g' m' hc' hg' hi =>
    rcases eq_or_ne c c' with rfl | hne
    · obtain ⟨rfl, rfl, rfl⟩ := Consumer.delivering.inj (hc.symm.trans hc')
      obtain rfl := hg.eq hg'
      exact Or.inr ⟨Function.update_self .., hi, hframe fun _ => rfl⟩
    · exact Or.inl ⟨i, (Function.update_of_ne hne ..).trans hc, hframe fun _ => rfl⟩
  | @skip c' t' k m' r hc' hg' hr hskip =>
    rcases eq_or_ne c c' with rfl | hne
    · obtain ⟨rfl, rfl, rfl⟩ := Consumer.delivering.inj (hc.symm.trans hc')
      obtain rfl := hg.eq hg'
      exact Or.inl ⟨_, Function.update_self .., h.skip hinv hs hr hskip _⟩
    · exact Or.inl ⟨i, (Function.update_of_ne hne ..).trans hc, hframe fun _ => rfl⟩
  | @write c' t' k m' r hc' hg' hr hphase hid =>
    rcases eq_or_ne c c' with rfl | hne
    · obtain ⟨rfl, rfl, rfl⟩ := Consumer.delivering.inj (hc.symm.trans hc')
      obtain rfl := hg.eq hg'
      exact Or.inl ⟨_, Function.update_self .., h.write hinv hs hr hphase hid _⟩
    · -- two loops have different tickets
      have hticket : t' ≠ ticket := fun heq => by
        have hpop := (hinv.delivering c ticket m i hc).1
        have hpop' := (hinv.delivering c' t' m' r.id hc').1
        rw [heq, hpop] at hpop'
        exact hne (Option.some.inj hpop')
      refine Or.inl ⟨i, (Function.update_of_ne hne ..).trans hc, hframe fun fd => ?_⟩
      rw [copies_message, if_neg fun heq => hticket heq.2, List.append_nil]

end Server

variable {nc n : ℕ} {s t : Server nc} {mv : ServerMove nc}

/-- **A delivery loop after a move**: it was there before, and what held of it then still
does; or it has just begun. -/
theorem ServerStep.sweep_cases (hstep : ServerStep n s mv t) (hinv : s.Inv n) (hs : s.Distinct)
    {c : Fin nc} {ticket i : ℕ} {m : Message} (hc : t.consumer c = .delivering ticket m i) :
    (∃ j, s.consumer c = .delivering ticket m j ∧ ∀ old g, m.InGroup g →
      Sweep old ticket m g j s → Sweep old ticket m g i t) ∨
    (i = 0 ∧ ticket = s.popped.length ∧ t.popped = s.popped ++ [c]) := by
  have hloop : ∀ j, s.consumer c = .delivering ticket m j → ∀ old g, m.InGroup g →
      Sweep old ticket m g j s → Sweep old ticket m g i t := by
    intro j hj old g hg hsweep
    rcases hsweep.step hinv hs hj hg hstep with ⟨i', hi', hsweep'⟩ | ⟨hidle, -⟩
    · obtain ⟨-, -, rfl⟩ := Consumer.delivering.inj (hc.symm.trans hi')
      exact hsweep'
    · rw [hidle] at hc
      exact absurd hc (by simp)
  rcases hstep.delivering_cases hc with hold | ⟨j, -, hold⟩ | ⟨rfl, rfl, hpop, -⟩
  · exact Or.inl ⟨i, hold, hloop i hold⟩
  · exact Or.inl ⟨j, hold, hloop j hold⟩
  · exact Or.inr ⟨rfl, rfl, hpop⟩

/-- No write carries the ticket of a message that has just been removed. -/
theorem ServerStep.copies_of_popped (hstep : ServerStep n s mv t) (hinv : s.Inv n) {c : Fin nc}
    (hpop : t.popped = s.popped ++ [c]) (fd : ℤ) : t.copies s.popped.length fd = [] := by
  cases hstep with
  | pop => exact copies_eq_nil fun fd' t' m' hw => (hinv.written fd' t' m' hw).1.ne
  | _ => exact absurd hpop (by simp)

end GroupChat
