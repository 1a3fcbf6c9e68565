import GroupChat.Server.Handshake
import GroupChat.Server.Pending

/-!
# What a client is sent

The writes of the server, sorted by the client that they go to. A client gets its
response first and letters from then on: messages, each with the ticket of the removal
that it comes from (`GroupChat.Server.Post`). Whatever clients send, a letter goes to
a member of the group that stands in it, other than the one whose id stands in it, and to
nobody twice (`GroupChat.Server.Addressed`). While no two messages of a group are being
delivered side by side (`GroupChat.Server.Serial`), as with a single consumer, the tickets of
the letters go up (`GroupChat.Server.InTurn`), which is the order of the insertions.
-/

namespace GroupChat

open Lobby Server

variable {nc n : ℕ}

namespace Server

variable {s t : Server nc}

/-- The messages written to a descriptor, with their tickets. -/
def letters (s : Server nc) (fd : ℤ) : List (ℕ × Message) :=
  s.written.filterMap fun
    | .message fd' ticket m => if fd' = fd then some (ticket, m) else none
    | .response _ _ => none

/-- Their tickets. -/
def tickets (s : Server nc) (fd : ℤ) : List ℕ := (s.letters fd).map Prod.fst

theorem mem_letters {fd : ℤ} {x : ℕ × Message} :
    x ∈ s.letters fd ↔ Written.message fd x.1 x.2 ∈ s.written := by
  rw [letters, List.mem_filterMap]
  constructor
  · rintro ⟨w, hw, hx⟩
    cases w with
    | response => exact absurd hx (by simp)
    | message fd' ticket m =>
      simp only [Option.ite_none_right_eq_some, Option.some.injEq] at hx
      obtain ⟨rfl, rfl⟩ := hx
      exact hw
  · exact fun hw => ⟨_, hw, by simp⟩

theorem letters_response (s : Server nc) (l : Lobby) (fd : ℤ) (j : JoinResponse) (fd' : ℤ) :
    { s with lobby := l, written := s.written ++ [Written.response fd j] }.letters fd' =
      s.letters fd' := by
  simp [letters]

theorem letters_message (s : Server nc) (f : Fin nc → Consumer) (fd : ℤ) (ticket : ℕ)
    (m : Message) (fd' : ℤ) :
    { s with consumer := f, written := s.written ++ [Written.message fd ticket m] }.letters fd' =
      s.letters fd' ++ if fd = fd' then [(ticket, m)] else [] := by
  simp only [letters, List.filterMap_append]
  congr 1
  split_ifs with h <;> simp [h]

/-- What has been written under a ticket are the letters with this ticket. -/
theorem copies_eq_filterMap (s : Server nc) (ticket : ℕ) (fd : ℤ) :
    s.copies ticket fd =
      ((s.letters fd).filter fun x => x.1 = ticket).map Prod.snd := by
  rw [copies, letters, List.filter_filterMap, List.map_filterMap]
  refine List.filterMap_congr fun w _ => ?_
  cases w with
  | response => rfl
  | message fd' t m => by_cases hfd : fd' = fd <;> by_cases ht : t = ticket <;> simp [hfd, ht]

theorem mem_tickets_iff {ticket : ℕ} {fd : ℤ} :
    ticket ∈ s.tickets fd ↔ s.copies ticket fd ≠ [] := by
  rw [copies_eq_filterMap, Ne, List.map_eq_nil_iff, List.filter_eq_nil_iff, tickets, List.mem_map]
  simp

end Server

/-- What is written stays written. -/
theorem ServerStep.written_extends {s t : Server nc} {mv : ServerMove nc}
    (h : ServerStep n s mv t) : s.written <+: t.written := by
  cases h with
  | respond => exact List.prefix_append _ _
  | write => exact List.prefix_append _ _
  | _ => exact List.prefix_refl _

theorem ServerStep.letters_extend {s t : Server nc} {mv : ServerMove nc} (h : ServerStep n s mv t)
    (fd : ℤ) : s.letters fd <+: t.letters fd := by
  obtain ⟨more, hmore⟩ := h.written_extends
  exact ⟨_, by rw [letters, letters, ← hmore, List.filterMap_append]⟩

theorem ServerStep.stream_extends {s t : Server nc} {mv : ServerMove nc} (h : ServerStep n s mv t)
    (fd : ℤ) : s.stream fd <+: t.stream fd := by
  obtain ⟨more, hmore⟩ := h.written_extends
  exact ⟨_, by rw [stream, stream, ← hmore, List.flatMap_append]⟩

/-! ### Whom letters are for -/

namespace Server

variable {s t : Server nc} {ms : List (ServerMove nc)}

/-- **Every letter is for its reader**: a member of the group in it, other than the one with
the id in it, gets it, and gets it once. -/
structure Addressed (s : Server nc) : Prop where
  directed : ∀ fd ticket m, Written.message fd ticket m ∈ s.written →
    ∃ (k : ℕ) (r : Member), s.lobby.members[k]? = some r ∧ r.nsfd = fd ∧ m.InGroup r.groupId ∧
      (r.id : ℤ) ≠ m.id.toInt
  once : ∀ fd, (s.tickets fd).Nodup

theorem Initial.addressed (h : s.Initial n) : s.Addressed where
  directed fd ticket m hw := by simp [h.written] at hw
  once fd := by simp [tickets, letters, h.written]

/-- Whom a letter is for does not change. -/
theorem Addressed.frame (h : s.Addressed) (hgrows : Grows s.lobby.members t.lobby.members)
    (hmessages : ∀ fd ticket m, Written.message fd ticket m ∈ t.written →
      Written.message fd ticket m ∈ s.written)
    (hletters : ∀ fd, t.letters fd = s.letters fd) : t.Addressed where
  directed fd ticket m hw := by
    obtain ⟨k, r, hr, hfd, hg, hid⟩ := h.directed fd ticket m (hmessages fd ticket m hw)
    obtain ⟨p, hp, -⟩ := hgrows k r hr
    exact ⟨k, _, hp, hfd, hg, hid⟩
  once fd := by
    rw [tickets, hletters]
    exact h.once fd

/-- A letter to a member that has not got one under its ticket. -/
theorem Addressed.write (h : s.Addressed) {k : ℕ} {r : Member}
    (hr : s.lobby.members[k]? = some r) {m : Message} (hg : m.InGroup r.groupId)
    (hid : (r.id : ℤ) ≠ m.id.toInt) {ticket : ℕ} (hnew : s.copies ticket r.nsfd = [])
    (f : Fin nc → Consumer) :
    Addressed
      { s with consumer := f, written := s.written ++ [Written.message r.nsfd ticket m] } := by
  constructor
  · intro fd ticket' m' hw
    rcases List.mem_append.mp hw with hold | hlast
    · exact h.directed fd ticket' m' hold
    · obtain ⟨rfl, rfl, rfl⟩ := Written.message.inj (List.mem_singleton.mp hlast)
      exact ⟨k, r, hr, rfl, hg, hid⟩
  · intro fd
    rw [tickets, letters_message, List.map_append]
    split_ifs with hfd
    · subst hfd
      refine List.nodup_append.mpr ⟨h.once r.nsfd, List.nodup_singleton ticket, ?_⟩
      rintro earlier hearlier later hlater rfl
      obtain rfl := List.mem_singleton.mp hlater
      exact mem_tickets_iff.mp hearlier hnew
    · rw [List.map_nil, List.append_nil]
      exact h.once fd

end Server

/-- **Every move keeps the letters addressed.** -/
theorem ServerStep.addressed {s t : Server nc} {mv : ServerMove nc} (h : s.Addressed)
    (hsweeps : s.Sweeps) (hstep : ServerStep n s mv t) : t.Addressed := by
  have hgrows := hstep.grows
  cases hstep with
  | respond =>
    refine h.frame hgrows (fun fd ticket m hw => ?_) fun fd => letters_response ..
    simpa using hw
  | @write c ticket k m r hc hg hr hphase hid =>
    obtain ⟨old, hsweep⟩ := hsweeps c ticket m r.id r.groupId hc hg
    exact h.write hr hg hid (hsweep.ahead k r hr rfl (Nat.le_refl _)) _
  | _ => exact h.frame hgrows (fun _ _ _ hw => hw) fun _ => rfl

namespace Server

variable {s t : Server nc} {ms : List (ServerMove nc)}

/-! ### What is on the stream -/

/-- **The post**: whoever has been answered has got its response, and letters behind it. -/
def Post (s : Server nc) : Prop :=
  ∀ (k : ℕ) (r : Member), s.lobby.members[k]? = some r → r.phase ≠ .joined →
    s.stream r.nsfd = joinResponseCodec.encode (response r) ++
      messageCodec.encodeAll ((s.letters r.nsfd).map Prod.snd)

theorem Initial.post (h : s.Initial n) : s.Post := by
  intro k r hr
  simp [h.lobby, Lobby.start] at hr

/-- Where nothing has been written there are no letters. -/
theorem letters_of_stream {fd : ℤ} (h : s.stream fd = []) : s.letters fd = [] := by
  rw [stream, List.flatMap_eq_nil_iff] at h
  refine List.filterMap_eq_nil_iff.mpr fun w hw => ?_
  cases w with
  | response => rfl
  | message fd' ticket m =>
    refine if_neg ?_
    rintro rfl
    have hnil := h _ hw
    rw [Written.bytesTo, if_pos rfl] at hnil
    have hsize := messageCodec.length_encode m
    rw [hnil] at hsize
    exact absurd hsize (by decide)

/-- A response begins the post of its member. -/
theorem Post.respond (h : s.Post) (hstreams : s.Streams) (hs : s.Distinct) {k : ℕ} {m : Member}
    (hm : s.lobby.members[k]? = some m) (hphase : m.phase = .joined) :
    Post
      { s with
        lobby := ⟨s.lobby.registry, s.lobby.setPhase k .serving⟩
        written := s.written ++ [Written.response m.nsfd (response m)] } := by
  intro j r hr hj
  obtain ⟨r', hr', rfl⟩ := exists_of_getElem?_setPhase hr
  have hnsfd : (if k = j then r'.atPhase .serving else r').nsfd = r'.nsfd := by split_ifs <;> rfl
  rw [hnsfd, stream_response, letters_response]
  by_cases hkj : k = j
  · obtain rfl := Option.some.inj (hm.symm.trans (hkj ▸ hr'))
    have hnil := hstreams.joined k m hm hphase
    rw [if_pos rfl, if_pos hkj, hnil, letters_of_stream hnil]
    simp [Member.atPhase, response]
  · rw [if_neg hkj] at hj
    rw [if_neg fun heq => hkj (hs.index_eq hm hr' heq), if_neg hkj, List.append_nil]
    exact h j r' hr' hj

end Server

/-- **Every move that is not too early keeps the post.** -/
theorem ServerStep.post {s t : Server nc} {mv : ServerMove nc} (h : s.Post) (hs : s.Distinct)
    (hstreams : s.Streams) (hstep : ServerStep n s mv t) : t.Post := by
  cases hstep with
  | @join fd request l hfd hl =>
    cases hl with
    | @join _ _ g id reg =>
      intro k r hr hj
      rcases Nat.lt_or_ge k s.lobby.members.length with hlt | hge
      · refine h k r ?_ hj
        rwa [List.getElem?_append_left hlt] at hr
      · -- a newcomer has not been answered
        rw [List.getElem?_append_right hge, List.getElem?_singleton] at hr
        split_ifs at hr
        obtain rfl := Option.some.inj hr
        exact absurd rfl hj
  | respond hm hphase => exact h.respond hstreams hs hm hphase
  | @depart k l hl =>
    cases hl with
    | @depart _ m reg hm hphase =>
      intro j r hr hj
      obtain ⟨r', hr', rfl⟩ := exists_of_getElem?_setPhase hr
      by_cases hkj : k = j
      · obtain rfl := Option.some.inj (hm.symm.trans (hkj ▸ hr'))
        rw [if_pos hkj]
        exact h k m hm (by simp [hphase])
      · rw [if_neg hkj] at hj ⊢
        exact h j r' hr' hj
  | write =>
    intro j r hr hj
    rw [stream_message, letters_message, h j r hr hj]
    split_ifs <;> simp
  | _ => exact h

namespace Server

variable {s t : Server nc} {ms : List (ServerMove nc)}

/-! ### One delivery at a time -/

/-- The condition on a move: a message is removed only when no other message of its group is
being delivered. -/
def Serial (s : Server nc) : ServerMove nc → Prop
  | .pop _ => ∀ c, match s.consumer c with
    | .idle => True
    | .delivering _ m _ => ∀ m' ∈ s.messages[s.popped.length]?, m'.groupId ≠ m.groupId
  | _ => True

instance decidableBeside (s : Server nc) (c : Fin nc) : Decidable (match s.consumer c with
    | .idle => True
    | .delivering _ m _ => ∀ m' ∈ s.messages[s.popped.length]?, m'.groupId ≠ m.groupId) := by
  cases s.consumer c <;> simp only <;> infer_instance

instance (s : Server nc) : (mv : ServerMove nc) → Decidable (s.Serial mv)
  | .pop _ => inferInstanceAs (Decidable (∀ c, match s.consumer c with
    | .idle => True
    | .delivering _ m _ => ∀ m' ∈ s.messages[s.popped.length]?, m'.groupId ≠ m.groupId))
  | .accept _ | .join _ _ | .respond _ | .enqueue _ _ _ | .depart _ | .turn _ => isTrue trivial

/-- **The order of the letters**: behind a message that is being delivered none of its group
has been removed, and nobody has got letters in another order. -/
structure InTurn (s : Server nc) : Prop where
  last : ∀ c ticket m i, s.consumer c = .delivering ticket m i → ∀ ticket' m',
    ticket < ticket' → ticket' < s.popped.length → s.messages[ticket']? = some m' →
      m'.groupId ≠ m.groupId
  sorted : ∀ fd, (s.tickets fd).Pairwise (· ≤ ·)

theorem Initial.inTurn (h : s.Initial n) : s.InTurn where
  last c ticket m i hc := by simp [h.consumer c] at hc
  sorted fd := by simp [tickets, letters, h.written]

theorem InTurn.lt_sorted (h : s.InTurn) (haddressed : s.Addressed) (fd : ℤ) :
    (s.tickets fd).Pairwise (· < ·) :=
  (h.sorted fd).imp₂ (fun _ _ hle hne => Nat.lt_of_le_of_ne hle hne) (haddressed.once fd)

end Server

/-- A loop that goes on has no newer message of its group beside it. -/
theorem ServerStep.last {s t : Server nc} {mv : ServerMove nc} (h : s.InTurn) (hinv : s.Inv n)
    (hserial : s.Serial mv) (hstep : ServerStep n s mv t) {c : Fin nc} {ticket i : ℕ} {m : Message}
    (hc : s.consumer c = .delivering ticket m i) {ticket' : ℕ} {m' : Message}
    (hlt : ticket < ticket') (hpopped : ticket' < t.popped.length)
    (hm' : t.messages[ticket']? = some m') : m'.groupId ≠ m.groupId := by
  have hle := hinv.popped_le
  have hsent : ticket' < s.messages.length → s.messages[ticket']? = some m' := fun hmem => by
    obtain ⟨more, hmore⟩ := hstep.sent_extends
    rw [messages, ← hmore, List.map_append] at hm'
    exact (List.getElem?_append_left hmem).symm.trans hm'
  cases hstep with
  | @pop c' e q hidle hwf hq he =>
    rw [List.length_append, List.length_singleton] at hpopped
    rcases Nat.lt_or_ge ticket' s.popped.length with hold | hnew
    · exact h.last c ticket m i hc ticket' m' hlt hold hm'
    · -- the message that is removed now
      have heq : ticket' = s.popped.length := by omega
      have hall := hserial c
      rw [hc] at hall
      exact hall m' (heq ▸ hm')
  | _ => exact h.last c ticket m i hc ticket' m' hlt hpopped (hsent (hpopped.trans_le hle))

/-- **Every move that delivers one message of a group at a time keeps the order.** -/
theorem ServerStep.inTurn {s t : Server nc} {mv : ServerMove nc} (h : s.InTurn) (hinv : s.Inv n)
    (hdistinct : s.Distinct) (haddressed : s.Addressed) (hserial : s.Serial mv)
    (hstep : ServerStep n s mv t) : t.InTurn := by
  constructor
  · intro c ticket m i hc ticket' m' hlt hpopped hm'
    rcases hstep.delivering_cases hc with hold | ⟨j, -, hold⟩ | ⟨-, rfl, hnew, -⟩
    · exact hstep.last h hinv hserial hold hlt hpopped hm'
    · exact hstep.last h hinv hserial hold hlt hpopped hm'
    · rw [hnew, List.length_append, List.length_singleton] at hpopped
      omega
  · intro fd
    cases hstep with
    | respond =>
      rw [tickets, letters_response]
      exact h.sorted fd
    | @write c ticket k m r hc hg hr =>
      rw [tickets, letters_message, List.map_append]
      refine List.pairwise_append.mpr ⟨h.sorted fd, by split_ifs <;> simp, ?_⟩
      intro earlier hearlier later hlater
      obtain ⟨⟨ticket', m'⟩, hx, rfl⟩ := List.mem_map.mp hearlier
      split_ifs at hlater with hfd
      · rw [List.mem_singleton.mp hlater]
        subst hfd
        -- an earlier letter to this client is of the same group
        have hwritten := mem_letters.mp hx
        obtain ⟨j, r', hr', hnsfd, hg', -⟩ := haddressed.directed _ _ _ hwritten
        obtain rfl := hdistinct.index_eq hr' hr hnsfd
        obtain rfl := Option.some.inj (hr'.symm.trans hr)
        have hsame : m'.groupId = m.groupId := Int32.toInt_inj.mp (hg'.trans hg.symm)
        obtain ⟨hlt, hm'⟩ := hinv.written _ _ _ hwritten
        by_contra hnot
        exact h.last c ticket m r'.id hc ticket' m' (Nat.lt_of_not_le hnot) hlt hm' hsame
      · simp at hlater
    | _ => exact h.sorted fd

end GroupChat
