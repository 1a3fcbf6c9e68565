import GroupChat.Server.Broadcast

/-!
# The stream to a client

What the server writes to one client, as the bytes that client reads. `client.c`
reads a `JoinResponse` first and messages from then on, so the stream has to begin
with the response and go on in whole messages (`GroupChat.Server.Aligned`).

A handler publishes the slot of its client inside the join section, and writes the
response after it. In between, a delivery loop can come to the slot, and then a
message is the first thing the client reads, taking the sender's id and group for its
own (`GroupChat.exists_run_message_before_response`). This is the only way to spoil a
stream: streams are as they should be exactly as long as no delivery loop is that
early (`GroupChat.streams_aligned_iff`).
-/

namespace GroupChat

open Lobby Server

variable {nc n : ℕ}

/-- The bytes that a write adds to the stream of a descriptor. -/
def Written.bytesTo (fd : ℤ) : Written → List UInt8
  | .response fd' j => if fd' = fd then joinResponseCodec.encode j else []
  | .message fd' _ m => if fd' = fd then messageCodec.encode m else []

namespace Server

variable {s t : Server nc}

/-- Everything written to a descriptor. -/
def stream (s : Server nc) (fd : ℤ) : List UInt8 := s.written.flatMap (Written.bytesTo fd)

/-- A stream that begins with a given response and goes on in whole messages, or has
not begun. -/
def Aligned (j : JoinResponse) (bytes : List UInt8) : Prop :=
  bytes = [] ∨ ∃ ms, bytes = joinResponseCodec.encode j ++ messageCodec.encodeAll ms

/-- The stream of every member is aligned, with the id and the group assigned to it. -/
def StreamsAligned (s : Server nc) : Prop :=
  ∀ (k : ℕ) (r : Member), s.lobby.members[k]? = some r → Aligned (response r) (s.stream r.nsfd)

/-- No delivery loop is early: when a turn comes to a member that does not have the
id in the message, this member's response has been written. -/
def Answered (s : Server nc) : ServerMove nc → Prop
  | .turn c =>
    match s.consumer c with
    | .idle => True
    | .delivering _ m i => ∀ r ∈ s.lobby.members, m.groupId.toInt = r.groupId → r.id = i →
        (r.id : ℤ) ≠ m.id.toInt → r.phase ≠ .joined
  | _ => True

instance (s : Server nc) : (mv : ServerMove nc) → Decidable (s.Answered mv)
  | .turn c =>
    match h : s.consumer c with
    | .idle => isTrue (by simp only [Answered, h])
    | .delivering _ m i => decidable_of_iff
        (∀ r ∈ s.lobby.members, m.groupId.toInt = r.groupId → r.id = i →
          (r.id : ℤ) ≠ m.id.toInt → r.phase ≠ .joined) (by simp only [Answered, h])
  | .accept _ | .join _ _ | .respond _ | .enqueue _ _ _ | .depart _ | .pop _ => isTrue trivial

/-- What the client makes of an aligned stream: the first read gives it its own id and
group, and what follows splits into messages. -/
theorem Aligned.read {j : JoinResponse} {bytes : List UInt8} (h : Aligned j bytes)
    (hne : bytes ≠ []) :
    joinResponseCodec.decode (bytes.take joinResponseCodec.size) = j ∧
      ∃ ms, bytes.drop joinResponseCodec.size = messageCodec.encodeAll ms := by
  obtain ⟨ms, rfl⟩ := h.resolve_left hne
  rw [joinResponseCodec.take_encode_append, joinResponseCodec.drop_encode_append]
  exact ⟨joinResponseCodec.decode_encode j, ms, rfl⟩

/-- A stream that begins with a message is not aligned. -/
theorem not_aligned_message (j : JoinResponse) (m : Message) :
    ¬Aligned j (messageCodec.encode m) := by
  have hsize : (messageCodec.encode m).length = 248 := messageCodec.length_encode m
  rintro (hnil | ⟨ms, heq⟩)
  · rw [hnil] at hsize
    exact absurd hsize (by simp)
  · -- a response shifts every boundary by eight bytes
    have hlen := congrArg List.length heq
    rw [hsize, List.length_append, joinResponseCodec.length_encode,
      messageCodec.length_encodeAll] at hlen
    have h8 : joinResponseCodec.size = 8 := rfl
    have h248 : messageCodec.size = 248 := rfl
    rw [h8, h248] at hlen
    omega

theorem stream_response (s : Server nc) (l : Lobby) (fd : ℤ) (j : JoinResponse) (fd' : ℤ) :
    { s with lobby := l, written := s.written ++ [Written.response fd j] }.stream fd' =
      s.stream fd' ++ if fd = fd' then joinResponseCodec.encode j else [] := by
  simp [stream, Written.bytesTo]

theorem stream_message (s : Server nc) (f : Fin nc → Consumer) (fd : ℤ) (ticket : ℕ)
    (m : Message) (fd' : ℤ) :
    { s with consumer := f, written := s.written ++ [Written.message fd ticket m] }.stream fd' =
      s.stream fd' ++ if fd = fd' then messageCodec.encode m else [] := by
  simp [stream, Written.bytesTo]

/-! ### The invariant of the streams -/

/-- **The state of the streams**: not begun before the response, aligned after it. -/
structure Streams (s : Server nc) : Prop where
  /-- Whoever is not a member has got nothing. -/
  stranger : ∀ fd, (∀ (k : ℕ) (r : Member), s.lobby.members[k]? = some r → r.nsfd ≠ fd) →
    s.stream fd = []
  joined : ∀ (k : ℕ) (r : Member), s.lobby.members[k]? = some r → r.phase = .joined →
    s.stream r.nsfd = []
  answered : ∀ (k : ℕ) (r : Member), s.lobby.members[k]? = some r → r.phase ≠ .joined →
    ∃ ms, s.stream r.nsfd = joinResponseCodec.encode (response r) ++ messageCodec.encodeAll ms

theorem Initial.streams (h : s.Initial n) : s.Streams where
  stranger fd _ := by simp [stream, h.written]
  joined k r hr := by simp [h.lobby, Lobby.start] at hr
  answered k r hr := by simp [h.lobby, Lobby.start] at hr

theorem Streams.aligned (h : s.Streams) : s.StreamsAligned := by
  intro k r hr
  by_cases hphase : r.phase = .joined
  · exact Or.inl (h.joined k r hr hphase)
  · exact Or.inr (h.answered k r hr hphase)

/-- A newcomer's stream has not begun. -/
theorem Streams.join (h : s.Streams) (hs : s.Distinct) {fd : ℤ} {request : JoinRequest}
    (hfd : fd ∈ s.waiting) {l : Lobby} (hl : LobbyStep s.lobby (.join fd request) l) :
    Streams { s with lobby := l, waiting := s.waiting.erase fd } := by
  cases hl with
  | @join _ _ g id reg =>
    have hcases : ∀ (k : ℕ) (r : Member),
        (s.lobby.members ++ [⟨request, fd, g, id, .joined⟩])[k]? = some r →
          s.lobby.members[k]? = some r ∨ (r.nsfd = fd ∧ r.phase = .joined) := by
      intro k r hr
      rcases Nat.lt_or_ge k s.lobby.members.length with hlt | hge
      · exact Or.inl (by rwa [List.getElem?_append_left hlt] at hr)
      · rw [List.getElem?_append_right hge, List.getElem?_singleton] at hr
        split_ifs at hr
        obtain rfl := Option.some.inj hr
        exact Or.inr ⟨rfl, rfl⟩
    refine ⟨?_, ?_, ?_⟩
    · intro fd' hfd'
      refine h.stranger fd' fun k r hr => ?_
      refine hfd' k r ?_
      exact getElem?_mono (List.prefix_append _ _) hr
    · intro k r hr hphase
      rcases hcases k r hr with hold | ⟨rfl, -⟩
      · exact h.joined k r hold hphase
      · -- the newcomer was a stranger until now
        exact h.stranger r.nsfd fun k' r' hr' => hs.ne_of_mem_waiting hfd hr'
    · intro k r hr hphase
      rcases hcases k r hr with hold | ⟨-, hjoined⟩
      · exact h.answered k r hold hphase
      · exact absurd hjoined hphase

/-- A response begins the stream of its member. -/
theorem Streams.respond (h : s.Streams) (hs : s.Distinct) {k : ℕ} {m : Member}
    (hm : s.lobby.members[k]? = some m) (hphase : m.phase = .joined) :
    Streams
      { s with
        lobby := ⟨s.lobby.registry, s.lobby.setPhase k .serving⟩
        written := s.written ++ [Written.response m.nsfd (response m)] } := by
  refine ⟨?_, ?_, ?_⟩
  · intro fd hfd
    have hold : ∀ (j : ℕ) (r : Member), s.lobby.members[j]? = some r → r.nsfd ≠ fd :=
      fun j r hr => by
        have hne := hfd j _ (getElem?_setPhase hr)
        split_ifs at hne <;> exact hne
    rw [stream_response, if_neg (hold k m hm), List.append_nil]
    exact h.stranger fd hold
  · intro j r hr hj
    obtain ⟨r', hr', rfl⟩ := exists_of_getElem?_setPhase hr
    by_cases hkj : k = j
    · simp [hkj, Member.atPhase] at hj
    · rw [if_neg hkj] at hj ⊢
      rw [stream_response, if_neg fun heq => hkj (hs.index_eq hm hr' heq), List.append_nil]
      exact h.joined j r' hr' hj
  · intro j r hr hj
    obtain ⟨r', hr', rfl⟩ := exists_of_getElem?_setPhase hr
    by_cases hkj : k = j
    · obtain rfl := Option.some.inj (hm.symm.trans (hkj ▸ hr'))
      refine ⟨[], ?_⟩
      rw [if_pos hkj, stream_response]
      simp [Member.atPhase, h.joined k m hm hphase, response]
    · rw [if_neg hkj] at hj ⊢
      rw [stream_response, if_neg fun heq => hkj (hs.index_eq hm hr' heq), List.append_nil]
      exact h.answered j r' hr' hj

/-- A departure writes nothing. -/
theorem Streams.depart (h : s.Streams) {k : ℕ} {l : Lobby}
    (hl : LobbyStep s.lobby (.depart k) l) : Streams { s with lobby := l } := by
  cases hl with
  | depart hm hphase =>
    refine ⟨?_, ?_, ?_⟩
    · intro fd hfd
      refine h.stranger fd fun j r hr => ?_
      have hne := hfd j _ (getElem?_setPhase hr)
      split_ifs at hne <;> exact hne
    · intro j r hr hj
      obtain ⟨r', hr', rfl⟩ := exists_of_getElem?_setPhase hr
      by_cases hkj : k = j
      · simp [hkj, Member.atPhase] at hj
      · rw [if_neg hkj] at hj ⊢
        exact h.joined j r' hr' hj
    · intro j r hr hj
      obtain ⟨r', hr', rfl⟩ := exists_of_getElem?_setPhase hr
      by_cases hkj : k = j
      · obtain rfl := Option.some.inj (hm.symm.trans (hkj ▸ hr'))
        have hanswered := h.answered k _ hm (by simp [hphase])
        rw [if_pos hkj]
        exact hanswered
      · rw [if_neg hkj] at hj ⊢
        exact h.answered j r' hr' hj

/-- A message goes on with a stream that has begun. -/
theorem Streams.message (h : s.Streams) (hs : s.Distinct) {k : ℕ} {r : Member}
    (hr : s.lobby.members[k]? = some r) (hphase : r.phase ≠ .joined) (f : Fin nc → Consumer)
    (ticket : ℕ) (m : Message) :
    Streams
      { s with consumer := f, written := s.written ++ [Written.message r.nsfd ticket m] } := by
  refine ⟨?_, ?_, ?_⟩
  · intro fd hfd
    rw [stream_message, if_neg (hfd k r hr), List.append_nil]
    exact h.stranger fd hfd
  · intro j r' hr' hj
    have hne : r.nsfd ≠ r'.nsfd := fun heq => by
      obtain rfl := hs.index_eq hr hr' heq
      exact hphase (Option.some.inj (hr.symm.trans hr') ▸ hj)
    rw [stream_message, if_neg hne, List.append_nil]
    exact h.joined j r' hr' hj
  · intro j r' hr' hj
    obtain ⟨ms, hms⟩ := h.answered j r' hr' hj
    rw [stream_message, hms]
    by_cases heq : r.nsfd = r'.nsfd
    · exact ⟨ms ++ [m], by simp [heq]⟩
    · exact ⟨ms, by simp [heq]⟩

/-- **The streams are kept** by every move that is not too early. -/
theorem Streams.step (h : s.Streams) (hs : s.Distinct) {mv : ServerMove nc} (hG : s.Answered mv)
    (hstep : ServerStep n s mv t) : t.Streams := by
  cases hstep with
  | join hfd hl => exact h.join hs hfd hl
  | respond hm hphase => exact h.respond hs hm hphase
  | depart hl => exact h.depart hl
  | write hc hg hr hphase hid =>
    simp only [Answered, hc] at hG
    exact h.message hs hr (hG _ (List.mem_of_getElem? hr) hg rfl hid) _ _ _
  | _ => exact ⟨h.stranger, h.joined, h.answered⟩

/-- The turn that is too early. -/
theorem exists_of_not_answered {mv : ServerMove nc} (h : ¬s.Answered mv) :
    ∃ c ticket m r, mv = .turn c ∧ s.consumer c = .delivering ticket m r.id ∧
      r ∈ s.lobby.members ∧ m.InGroup r.groupId ∧ (r.id : ℤ) ≠ m.id.toInt ∧ r.phase = .joined := by
  cases mv with
  | turn c =>
    simp only [Answered] at h
    split at h
    · exact absurd trivial h
    · simp only [not_forall, not_not] at h
      obtain ⟨r, hmem, hg, rfl, hid, hjoined⟩ := h
      exact ⟨c, _, _, r, rfl, ‹_›, hmem, hg, hid, hjoined⟩
  | _ => exact absurd trivial h

/-- A turn that is too early spoils a stream. -/
theorem Streams.spoil (h : s.Streams) (hinv : s.Inv n) (hs : s.Distinct) {mv : ServerMove nc}
    (hG : ¬s.Answered mv) (hstep : ServerStep n s mv t) : ¬t.StreamsAligned := by
  obtain ⟨c, ticket, m, r, rfl, hc, hmem, hg, hid, hjoined⟩ := exists_of_not_answered hG
  obtain ⟨k, hr⟩ := List.mem_iff_getElem?.mp hmem
  have hlt := hinv.slots.numbered.rank_lt hmem
  -- the member with the slot is there, is not the sender, and has a descriptor
  cases hstep with
  | @stop _ t' i' g m' hc' hg' hi =>
    obtain ⟨rfl, rfl, rfl⟩ := Consumer.delivering.inj (hc.symm.trans hc')
    obtain rfl := hg.eq hg'
    exact absurd hlt (Nat.not_lt.mpr hi)
  | @skip _ t' k' m' r' hc' hg' hr' hskip =>
    obtain ⟨rfl, rfl, hid'⟩ := Consumer.delivering.inj (hc.symm.trans hc')
    obtain rfl := hinv.slots.numbered.index_eq hr hr' (hg.eq hg') hid'
    obtain rfl := Option.some.inj (hr.symm.trans hr')
    have hnonneg := hs.nsfd_nonneg hr
    rcases hskip with hgone | hfd | hsender
    · rw [hjoined] at hgone
      exact absurd hgone (by simp)
    · omega
    · exact absurd hsender hid
  | @write _ t' k' m' r' hc' hg' hr' hphase hid' =>
    obtain ⟨rfl, rfl, heq⟩ := Consumer.delivering.inj (hc.symm.trans hc')
    obtain rfl := hinv.slots.numbered.index_eq hr hr' (hg.eq hg') heq
    obtain rfl := Option.some.inj (hr.symm.trans hr')
    intro hall
    -- the stream was empty before the response, so the message is now its beginning
    have haligned := hall k r hr
    rw [stream_message, if_pos rfl, h.joined k r hr hjoined, List.nil_append] at haligned
    exact not_aligned_message _ m haligned

theorem streams_of_run {ms : List (ServerMove nc)} (hs : s.Initial n)
    (hfresh : (server nc).Always FreshAccept s ms) (hG : (server nc).Always Answered s ms)
    (hrun : (server nc).run s ms = some t) : t.Inv n ∧ t.Distinct ∧ t.Streams := by
  have hboth := (StepSystem.always_and (G := FreshAccept) (H := Answered)).mpr ⟨hfresh, hG⟩
  refine StepSystem.run_invariant (I := fun u => u.Inv n ∧ u.Distinct ∧ u.Streams)
    (fun u mv v hu hG hexec => ?_) ⟨hs.inv, hs.distinct, hs.streams⟩ hboth hrun
  have hstep := hu.1.step hexec
  exact ⟨hstep.inv hu.1, hstep.distinct hu.2.1 hG.1, hu.2.2.step hu.2.1 hG.2 hstep⟩

end Server

/-- **The handshake.** In a run whose accepts return fresh descriptors, all streams
are aligned in all states – each begins with the response that holds the id and the
group assigned to its own client, and goes on in whole messages – if and only if no
turn of a delivery loop comes to a member, other than the one with the message's id,
before this member's response has been written. Then the first read of a client gives
it its own id and group, and what it reads after that are whole messages. -/
theorem streams_aligned_iff {s t : Server nc} {ms : List (ServerMove nc)} (hs : s.Initial n)
    (hfresh : (server nc).Always FreshAccept s ms) (hrun : (server nc).run s ms = some t) :
    ((∀ pre u, pre <+: ms → (server nc).run s pre = some u → u.StreamsAligned) ↔
        (server nc).Always Answered s ms) ∧
      ((server nc).Always Answered s ms → ∀ (k : ℕ) (r : Member),
        t.lobby.members[k]? = some r → t.stream r.nsfd ≠ [] →
          joinResponseCodec.decode ((t.stream r.nsfd).take joinResponseCodec.size) = response r ∧
            ∃ records, (t.stream r.nsfd).drop joinResponseCodec.size =
              messageCodec.encodeAll records) := by
  refine ⟨⟨?_, ?_⟩, ?_⟩
  · intro hall
    induction ms using List.reverseRecOn generalizing t with
    | nil => exact StepSystem.always_nil s
    | append_singleton ms mv ih =>
      obtain ⟨u, hu, hexec⟩ := StepSystem.run_concat_eq_some.mp hrun
      obtain ⟨hfresh', hfreshmv⟩ := StepSystem.always_concat.mp hfresh
      have hG := ih hfresh' hu fun pre v hpre hv =>
        hall pre v (hpre.trans (List.prefix_append ms [mv])) hv
      obtain ⟨hinv, hdist, hstreams⟩ := streams_of_run hs hfresh' hG hu
      refine StepSystem.always_concat.mpr ⟨hG, fun u' hu' => ?_⟩
      obtain rfl := Option.some.inj (hu.symm.trans hu')
      -- the first turn that is too early spoils a stream that was aligned up to it
      by_contra hearly
      exact hstreams.spoil hinv hdist hearly (hinv.step hexec)
        (hall _ t (List.prefix_refl _) hrun)
  · rintro hG pre u ⟨post, rfl⟩ hu
    exact (streams_of_run hs (StepSystem.always_append.mp hfresh).1
      (StepSystem.always_append.mp hG).1 hu).2.2.aligned
  · intro hG k r hr hne
    exact Aligned.read ((streams_of_run hs hfresh hG hrun).2.2.aligned k r hr) hne

/-- A client joins the group of another, and its handler writes the response before
the message of the other comes to its slot – or, for `late`, only after that. -/
def secondClient (late : Bool) : List (ServerMove consumerThreadCount) :=
  [.accept 5, .accept 6, .join 5 (.letter 97), .respond 0, .join 6 (.letter 97)] ++
    ((if late then [] else [.respond 1]) ++
      [.enqueue 0 (.blank 0 0) ⟨0, 0⟩, .pop 0, .turn 0, .turn 0])

/-- The second client learns its own id. -/
theorem streams_aligned_iff_secondClient :
    ∃ t r, (server consumerThreadCount).run (start consumerThreadCount (newQueue 1))
        (secondClient false) = some t ∧ t.lobby.members[1]? = some r ∧
      joinResponseCodec.decode ((t.stream r.nsfd).take joinResponseCodec.size) = response r := by
  obtain ⟨t, hrun, r, hr, hfd, hwritten⟩ : ∃ t, (server consumerThreadCount).run
      (start consumerThreadCount (newQueue 1)) (secondClient false) = some t ∧
        ∃ r ∈ t.lobby.members[1]?, r.nsfd = 6 ∧
          t.written = [.response 5 ⟨0, 0⟩, .response 6 ⟨1, 0⟩, .message 6 0 (.blank 0 0)] :=
    StepSystem.exists_run (by decide +kernel)
  have h := streams_aligned_iff (initial_start (exists_initQueue_newQueue (by decide)))
    (by decide +kernel) hrun
  refine ⟨t, r, hrun, hr, (h.2 (by decide +kernel) 1 r hr ?_).1⟩
  have hstream : t.stream r.nsfd =
      joinResponseCodec.encode ⟨1, 0⟩ ++ messageCodec.encode (.blank 0 0) := by
    simp [stream, hwritten, hfd, Written.bytesTo]
  intro hnil
  have hlen := congrArg List.length (hstream.symm.trans hnil)
  rw [List.length_append, joinResponseCodec.length_encode, messageCodec.length_encode] at hlen
  exact absurd hlen (by decide)

/-- **A message before the response.** That streams are always aligned is not so: the
second client has joined, the message of the first one comes to its slot, and it is
the message that begins the stream. -/
theorem exists_run_message_before_response :
    ¬∀ (s t : Server consumerThreadCount) ms, s.Initial messageQueueSize →
      (server consumerThreadCount).Always FreshAccept s ms →
      (server consumerThreadCount).run s ms = some t → t.StreamsAligned := by
  obtain ⟨t, hrun, r, hr, hfd, hwritten⟩ : ∃ t, (server consumerThreadCount).run
      (start consumerThreadCount (newQueue messageQueueSize)) (secondClient true) = some t ∧
        ∃ r ∈ t.lobby.members[1]?, r.nsfd = 6 ∧
          t.written = [.response 5 ⟨0, 0⟩, .message 6 0 (.blank 0 0)] :=
    StepSystem.exists_run (by decide +kernel)
  intro hall
  have haligned := hall _ t _ (initial_start (exists_initQueue_newQueue (by decide)))
    (by decide +kernel) hrun 1 r hr
  have hstream : t.stream r.nsfd = messageCodec.encode (.blank 0 0) := by
    simp [stream, hwritten, hfd, Written.bytesTo]
  rw [hstream] at haligned
  exact not_aligned_message _ _ haligned

end GroupChat
