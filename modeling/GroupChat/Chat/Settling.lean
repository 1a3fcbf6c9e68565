import Mathlib.Algebra.BigOperators.Fin
import GroupChat.Chat.Delivery
import GroupChat.Server.Capacity

/-!
# The chat comes to rest

What has been sent does not stay on the way. Consider the moves by which the chat passes
on what there is, other than those by which clients say something or come and go
(`GroupChat.Chat.Settles`): handlers answer, read and insert, consumers remove and deliver,
receivers read. Each of them leaves less to do (`GroupChat.Chat.work`), and as long as the
chat is not settled one of them can be made. So however they are scheduled, they end, and
they end in a settled state (`GroupChat.Chat.chat_settles`), where
`GroupChat.Chat.chat_complete` says what has been heard.

This is said of states in which no client has ended. The server may be ended by its next
write to a client that has, as `GroupChat.exists_run_departure_ends_process` shows; settling moves
end no client (`GroupChat.ChatStep.running`), so here all writes are to clients that run.

What a byte costs is counted from the end: one that a receiver has not read costs `1`, a
turn of a delivery loop may write a message, a message in the queue has a whole loop before
it, and a byte that a handler has not read may be the last one of a message.
-/

namespace GroupChat

open Server Lobby Framing ByteLayout

variable {nc n : ℕ}

/-- What a consumer may have to do for one slot. -/
def slotWork : ℕ := messageCodec.size + 1

/-- What may have to be done for a message in the queue. -/
def deliveryWork : ℕ := slotWork * maxGroupSize + 2

/-- What a consumer may have to do in its loop. -/
def Consumer.work : Consumer → ℕ
  | idle => 0
  | delivering _ _ i => slotWork * (maxGroupSize - i) + 1

/-- What may have to be done before a handler reads again. -/
def Handler.work : Handler → ℕ
  | respond _ => joinResponseCodec.size + 1
  | insert _ => deliveryWork + 1
  | _ => 0

/-- What may have to be done for what a client has sent and is not in the queue. -/
def Session.work (x : Session) : ℕ := x.outgoing.length * (deliveryWork + 2) + x.handler.work

namespace Chat

variable {ι : Type*} {args : ι → Arguments} {s t u : Chat ι nc} {m : ChatMove ι nc}

/-- How many bytes the clients have not read. -/
def unread [Fintype ι] (s : Chat ι nc) : ℕ := ∑ p, ((s.session p).incoming s.server).length

/-- What may have to be done. -/
def work [Fintype ι] (s : Chat ι nc) : ℕ :=
  ∑ p, (s.session p).work + s.unread +
    (s.server.sent.length - s.server.popped.length) * deliveryWork +
      ∑ c, (s.server.consumer c).work

/-- The moves that pass on what there is, in order. -/
def Settles (s : Chat ι nc) (m : ChatMove ι nc) : Prop :=
  s.Orderly m ∧
    match m with
    | .respond _ _ | .insert _ _ _ | .pop _ | .turn _ | .receive _ _ _ => True
    | .read _ _ result => result.count ≠ 0
    | _ => False

instance (s : Chat ι nc) : (m : ChatMove ι nc) → Decidable (s.Settles m)
  | .respond _ _ | .insert _ _ _ | .pop _ | .turn _ | .receive _ _ _ =>
      inferInstanceAs (Decidable (_ ∧ True))
  | .read _ _ _ => inferInstanceAs (Decidable (_ ∧ _ ≠ _))
  | .main _ _ | .readResponse _ _ | .sigusr1 _ _ | .exit _ | .accept _ _ | .readRequest _ _
    | .join _ _ | .depart _ _ => inferInstanceAs (Decidable (_ ∧ False))

/-! ### Sums -/

/-- One summand changes. -/
theorem sum_of_ne {κ : Type*} [Fintype κ] [DecidableEq κ] {f g : κ → ℕ} {p : κ}
    (h : ∀ q, q ≠ p → g q = f q) : ∑ q, g q + f p = ∑ q, f q + g p := by
  have hrest : ∑ q ∈ Finset.univ.erase p, g q = ∑ q ∈ Finset.univ.erase p, f q :=
    Finset.sum_congr rfl fun q hq => h q (Finset.ne_of_mem_erase hq)
  rw [← Finset.add_sum_erase _ g (Finset.mem_univ p),
    ← Finset.add_sum_erase _ f (Finset.mem_univ p), hrest]
  omega

section Work

variable [Fintype ι]

/-- What is written to one descriptor is read by one client. -/
theorem Inv.unread_le (hinv : s.Inv args n) (fd : ℤ) (bytes : List UInt8)
    (hnsfd : ∀ q, (t.session q).nsfd = (s.session q).nsfd)
    (hreceived : ∀ q, (t.session q).received = (s.session q).received)
    (hstream : ∀ fd', t.server.stream fd' =
      s.server.stream fd' ++ if fd = fd' then bytes else []) :
    t.unread ≤ s.unread + bytes.length := by
  classical
  have hsame : ∀ q, (s.session q).nsfd ≠ some fd →
      (t.session q).incoming t.server = (s.session q).incoming s.server := by
    intro q hq
    rw [Session.incoming, Session.incoming, Session.stream, Session.stream, hnsfd, hreceived]
    cases hfd : (s.session q).nsfd with
    | none => rfl
    | some fd' =>
      have hne : fd ≠ fd' := fun heq => hq (heq ▸ hfd)
      simp only [hstream, if_neg hne, List.append_nil]
  by_cases hex : ∃ p, (s.session p).nsfd = some fd
  · obtain ⟨p, hp⟩ := hex
    have hown : ((t.session p).incoming t.server).length ≤
        ((s.session p).incoming s.server).length + bytes.length := by
      simp only [Session.incoming, Session.stream, hnsfd, hreceived, hp, hstream, if_true,
        List.length_drop, List.length_append]
      omega
    have hsum := sum_of_ne (f := fun q => ((s.session q).incoming s.server).length)
      (g := fun q => ((t.session q).incoming t.server).length) (p := p) fun q hq => by
        simp only [hsame q fun hcon => hq (hinv.apart q p fd hcon hp)]
    simp only [unread]
    omega
  · push Not at hex
    have hsum : t.unread = s.unread :=
      Finset.sum_congr rfl fun q _ => by rw [hsame q (hex q)]
    omega

/-- **A consumer goes on.** -/
theorem Inv.work_lt_consume (hinv : s.Inv args n) {w : Server nc} {c : Fin nc}
    (fd : ℤ) (bytes : List UInt8)
    (hstream : ∀ fd', w.stream fd' =
      s.server.stream fd' ++ if fd = fd' then bytes else [])
    (hothers : ∀ c', c' ≠ c → w.consumer c' = s.server.consumer c')
    (hlt : (w.consumer c).work + bytes.length + (w.sent.length - w.popped.length) * deliveryWork <
      (s.server.consumer c).work +
        (s.server.sent.length - s.server.popped.length) * deliveryWork) :
    work { s with server := w } < s.work := by
  have hsum := sum_of_ne (f := fun c => (s.server.consumer c).work)
    (g := fun c => (w.consumer c).work) (p := c) fun c' hc => by rw [hothers c' hc]
  have hunread := hinv.unread_le (t := { s with server := w }) fd bytes (fun _ => rfl)
    (fun _ => rfl) hstream
  simp only [work]
  omega

variable [DecidableEq ι]

/-- A session goes on. -/
theorem sum_put (s : Chat ι nc) (p : ι) (x : Session) :
    ∑ q, ((s.put p x).session q).work + (s.session p).work =
      ∑ q, (s.session q).work + x.work := by
  have hsum := sum_of_ne (f := fun q => (s.session q).work)
    (g := fun q => ((s.put p x).session q).work) (p := p) fun q hq => by
      simp only [session_put, if_neg hq]
  simpa [session_put] using hsum

/-- **A handler goes on with the server**: what the session had to do covers what is written
and what is inserted. -/
theorem Inv.work_lt_serve (hinv : s.Inv args n) {p : ι} {x : Session} {w : Server nc}
    (fd : ℤ) (bytes : List UInt8) (hnsfd : x.nsfd = (s.session p).nsfd)
    (hreceived : x.received = (s.session p).received)
    (hstream : ∀ fd', w.stream fd' =
      s.server.stream fd' ++ if fd = fd' then bytes else [])
    (hconsumer : w.consumer = s.server.consumer)
    (hlt : x.work + bytes.length + (w.sent.length - w.popped.length) * deliveryWork <
      (s.session p).work + (s.server.sent.length - s.server.popped.length) * deliveryWork) :
    ({ s with server := w }.put p x).work < s.work := by
  have hsum := sum_put { s with server := w } p x
  have hunread := hinv.unread_le (t := { s with server := w }.put p x) fd bytes
    (fun _ => put_congr Session.nsfd fun _ => hnsfd)
    (fun _ => put_congr Session.received fun _ => hreceived) hstream
  simp only [work, server_put, hconsumer]
  simp only at hsum
  omega

/-- **A client handles a letter.** -/
theorem work_lt_receive {p : ι} {bytes : List UInt8} {now : Timeval}
    (hlen : bytes.length = messageCodec.size)
    (hbytes : bytes <+: (s.session p).incoming s.server) :
    (s.put p ((s.session p).receive (.data bytes) now)).work < s.work := by
  have hle := hbytes.length_le
  have hpos : 0 < messageCodec.size := by decide
  have hone : ((s.session p).incoming s.server).length =
      (((s.session p).receive (.data bytes) now).incoming s.server).length +
        messageCodec.size := by
    simp only [Session.incoming, Session.receive, Session.stream, ReadResult.bytes,
      List.length_drop] at hle ⊢
    omega
  have hsum := sum_put s p ((s.session p).receive (.data bytes) now)
  have hread := sum_of_ne (f := fun q => ((s.session q).incoming s.server).length)
    (g := fun q => (((s.put p ((s.session p).receive (.data bytes) now)).session q).incoming
      s.server).length) (p := p) fun q hq => by simp only [session_put, if_neg hq]
  have hwork : ((s.session p).receive (.data bytes) now).work = (s.session p).work := rfl
  rw [session_put, if_pos rfl] at hread
  simp only [Chat.work, Chat.unread, server_put]
  omega

/-- **A handler reads a message**: it has less to read, and a message to insert. -/
theorem work_read_lt {x : Session} {k : ℕ} {bytes : List UInt8} (hhandler : x.handler = .read k)
    (hlen : bytes.length = messageCodec.size) (hbytes : bytes <+: x.outgoing) :
    (x.read k (.data bytes)).work < x.work := by
  have hle := hbytes.length_le
  have hpos : 0 < messageCodec.size := by decide
  have hcount : (ReadResult.data bytes).count ≠ 0 := by
    rw [ReadResult.count]
    omega
  have hone : x.outgoing.length =
      (x.read k (.data bytes)).outgoing.length + messageCodec.size := by
    simp only [Session.outgoing, Session.read, ReadResult.bytes, List.length_drop] at hle ⊢
    omega
  have hcost := Nat.le_mul_of_pos_left (deliveryWork + 2) hpos
  simp only [Session.work, hone, Nat.add_mul, hhandler]
  simp only [Session.read, if_neg hcount, Handler.work]
  omega

end Work

/-- What a slot of the table costs. -/
theorem slotWork_mul_sub {i : ℕ} (hi : i < maxGroupSize) :
    slotWork * (maxGroupSize - i) = slotWork * (maxGroupSize - (i + 1)) + slotWork := by
  rw [← Nat.mul_succ]
  congr 1
  omega

end Chat

open Chat

variable {ι : Type*} [DecidableEq ι] {args : ι → Arguments} {s t u : Chat ι nc}
  {m : ChatMove ι nc}

/-- Streams grow by what is written. -/
theorem Server.stream_of_written {v w : Server nc} (h : w.written = v.written) (fd : ℤ) :
    w.stream fd = v.stream fd ++ if (0 : ℤ) = fd then [] else [] := by
  simp [Server.stream, h]

omit [DecidableEq ι] in
/-- **A turn of a delivery loop**: a slot less is left, or the message that is written is less
than a slot. -/
theorem Chat.Inv.work_lt_turn [Fintype ι] (hinv : s.Inv args n) {c : Fin nc} {w : Server nc}
    (hstep : ServerStep n s.server (.turn c) w) :
    ({ s with server := w } : Chat ι nc).work < s.work := by
  have hslot : slotWork = messageCodec.size + 1 := rfl
  cases hstep with
  | @stop _ ticket i g message hc hg hi =>
    refine hinv.work_lt_consume (c := c) 0 [] (Server.stream_of_written rfl)
      (fun c' hne => Function.update_of_ne hne _ _) ?_
    simp only [Function.update_self, hc, Consumer.work, List.length_nil]
    omega
  | @skip _ ticket k message r hc hg hr hskip =>
    have hlt := (hinv.server.inv.slots.lt_of_mem (List.mem_of_getElem? hr)).2
    refine hinv.work_lt_consume (c := c) 0 [] (Server.stream_of_written rfl)
      (fun c' hne => Function.update_of_ne hne _ _) ?_
    simp only [Function.update_self, hc, Consumer.work, List.length_nil, slotWork_mul_sub hlt]
    omega
  | @write _ ticket k message r hc hg hr hphase hid =>
    have hlt := (hinv.server.inv.slots.lt_of_mem (List.mem_of_getElem? hr)).2
    refine hinv.work_lt_consume (c := c) r.nsfd (messageCodec.encode message)
      (fun fd' => stream_message ..) (fun c' hne => Function.update_of_ne hne _ _) ?_
    simp only [Function.update_self, hc, Consumer.work, slotWork_mul_sub hlt,
      messageCodec.length_encode]
    omega

/-- **Every settling move leaves less to do.** -/
theorem ChatStep.work_lt [Fintype ι] (hstep : ChatStep args s m t) (hinv : s.Inv args n)
    (hsettles : s.Settles m) : t.work < s.work := by
  have hserver : ∀ {mv w}, (GroupChat.server nc).exec s.server mv = some w →
      ServerStep n s.server mv w := hinv.server.inv.step
  have hpopped := hinv.server.inv.popped_le
  rw [messages, List.length_map] at hpopped
  have hdelivery : deliveryWork = slotWork * maxGroupSize + 2 := rfl
  cases hstep with
  | main | readResponse | sigusr1 | exit | accept | readRequest | join | depart =>
    exact absurd hsettles.2 id
  | @receive p result now hrun hans hpossible =>
    obtain ⟨bytes, rfl, hlen⟩ := ReadResult.exists_of_count (by decide) hsettles.1
    exact work_lt_receive hlen hpossible.2
  | @read p k result hhandler hpossible =>
    have hcount := hsettles.1.resolve_right hsettles.2
    obtain ⟨bytes, rfl, hlen⟩ := ReadResult.exists_of_count (by decide) hcount
    have hlt := work_read_lt hhandler hlen hpossible.2
    refine hinv.work_lt_serve (w := s.server) 0 [] rfl rfl (Server.stream_of_written rfl) rfl ?_
    simp only [List.length_nil]
    omega
  | @respond p k v hhandler hv =>
    cases hserver hv with
    | @respond _ r hr hphase =>
      refine hinv.work_lt_serve r.nsfd (joinResponseCodec.encode (response r)) rfl rfl
        (fun fd' => stream_response ..) rfl ?_
      rw [joinResponseCodec.length_encode]
      simp only [Session.work, Session.outgoing, Handler.work, hhandler]
      omega
  | @insert p k now v hhandler hv =>
    cases hserver hv with
    | enqueue =>
      refine hinv.work_lt_serve 0 [] rfl rfl (Server.stream_of_written rfl) rfl ?_
      simp only [Session.work, Session.outgoing, Handler.work, hhandler, List.length_append,
        List.length_singleton, List.length_nil, Nat.sub_add_comm hpopped, Nat.succ_mul]
      omega
  | @pop c v hv =>
    cases hserver hv with
    | @pop _ e q hc hwf hq he =>
      have hlt := lt_of_messages he
      refine hinv.work_lt_consume (c := c) 0 [] (Server.stream_of_written rfl)
        (fun c' hne => Function.update_of_ne hne _ _) ?_
      have hone : s.server.sent.length - s.server.popped.length =
          s.server.sent.length - (s.server.popped.length + 1) + 1 := by omega
      simp only [Function.update_self, hc, Consumer.work, List.length_append,
        List.length_singleton, List.length_nil, hone, Nat.succ_mul, Nat.sub_zero]
      omega
  | @turn c v hv => exact hinv.work_lt_turn (hserver hv)

/-- Who runs still runs: no settling move ends a client. -/
theorem ChatStep.running (hstep : ChatStep args s m t) (hsettles : s.Settles m)
    (h : ∀ p, (s.session p).Running) (p : ι) : (t.session p).Running := by
  have hput : ∀ {v : Server nc} {q : ι} {x : Session}, x.Running →
      ((({ s with server := v } : Chat ι nc).put q x).session p).Running := by
    intro v q x hx
    rw [session_put]
    split_ifs
    · exact hx
    · exact h p
  cases hstep with
  | main | readResponse | sigusr1 | exit | accept | readRequest | join | depart =>
    exact absurd hsettles.2 id
  | @receive q | @read q => exact hput (v := s.server) (h q)
  | @respond q | @insert q => exact hput (h q)
  | pop | turn => exact h p

/-! ### Every member has a session -/

/-- Members come from joins only. -/
theorem ServerStep.length_members {v w : Server nc} {mv : ServerMove nc}
    (hstep : ServerStep n v mv w) :
    w.lobby.members.length = v.lobby.members.length + if mv.nsfd?.isSome then 1 else 0 := by
  cases hstep with
  | join _ hl =>
    cases hl
    simp [ServerMove.nsfd?]
  | depart hl =>
    cases hl
    simp [ServerMove.nsfd?, setPhase]
  | respond => simp [ServerMove.nsfd?, setPhase]
  | _ => simp [ServerMove.nsfd?]

namespace Chat

omit [DecidableEq ι] in
/-- Every member is the client of some session. -/
def Covered (s : Chat ι nc) : Prop :=
  ∀ k < s.server.lobby.members.length, ∃ p, (s.session p).handler.member? = some k

omit [DecidableEq ι] in
theorem Initial.covered {input : ι → List UInt8} (h : s.Initial n input) : s.Covered := by
  intro k hk
  simp [h.server.lobby, Lobby.start] at hk

end Chat

theorem ChatStep.covered (hstep : ChatStep args s m t) (hinv : s.Inv args n) (h : s.Covered) :
    t.Covered := by
  have hserver : ∀ {mv w}, (GroupChat.server nc).exec s.server mv = some w →
      ServerStep n s.server mv w := hinv.server.inv.step
  have hold : ∀ k < s.server.lobby.members.length,
      ∃ p, (t.session p).handler.member? = some k := by
    intro k hk
    obtain ⟨p, hp⟩ := h k hk
    exact ⟨p, hstep.member_mono hinv hp⟩
  have hsame : t.server.lobby.members.length = s.server.lobby.members.length → t.Covered :=
    fun heq k hk => hold k (heq ▸ hk)
  cases hstep with
  | main | readResponse | sigusr1 | receive | exit | readRequest | read => exact hsame rfl
  | accept _ _ hv | respond _ hv | insert _ hv | depart _ hv | pop hv | turn hv =>
    exact hsame (hserver hv).length_members
  | @join p fd v hhandler hnsfd hv =>
    intro k hk
    have hlen := (hserver hv).length_members
    rw [Chat.server_put, hlen] at hk
    rcases Nat.lt_succ_iff_lt_or_eq.mp hk with hlt | rfl
    · exact hold k hlt
    · exact ⟨p, by rw [session_put, if_pos rfl]; rfl⟩

/-! ### What is there to read -/

namespace Linked

variable {a : Arguments} {v : Server nc} {x : Session}

/-- What a handler in its loop has not read are whole messages. -/
theorem exists_outgoing (h : Linked a v x) {k : ℕ} (hhandler : x.handler = .read k) :
    ∃ ms, x.outgoing = messageCodec.encodeAll ms := by
  have houtward := h.outward
  have htaken := h.taken
  simp only [Session.consumed, hhandler] at houtward htaken
  obtain ⟨hrank, hrequest, hmessages⟩ := h.split houtward
  rw [← List.append_nil (messageCodec.encodeAll (v.messagesOf k))] at hmessages
  obtain ⟨ms, hms, -⟩ := RecordCodec.exists_of_encodeAll_prefix (by decide) hmessages
  refine ⟨ms, ?_⟩
  rw [Session.outgoing, h.wire.stream, if_neg (by omega), hms, RecordCodec.encodeAll_append, htaken,
    hrequest, ← List.append_assoc, List.drop_left]

/-- What a receiver has not read are whole messages. -/
theorem exists_incoming (h : Linked a v x) (hv : v.Sound n) (hans : x.Answered) :
    ∃ ms, x.incoming v = messageCodec.encodeAll ms := by
  obtain ⟨k, r, -, hr, hnsfd, hphase, hresponse, hhandled⟩ := h.exists_member hv hans
  obtain ⟨ms, hms⟩ := hhandled
  refine ⟨ms, ?_⟩
  rw [Session.incoming, h.received, Session.obtained_of_answered hans, Session.stream, hnsfd]
  simp only [hv.post k r hr hphase]
  rw [hresponse, ← hms, RecordCodec.encodeAll_append, ← List.append_assoc, List.drop_left]

end Linked

/-! ### Somebody can move -/

namespace Chat

omit [DecidableEq ι] in
/-- A move of the server other than an accept or a join can be made when it is enabled. -/
theorem Inv.exists_server_exec (hinv : s.Inv args n) (hshort : ∀ p, (args p).Short)
    (hcovered : s.Covered) {mv : ServerMove nc} (hen : (GroupChat.server nc).enabled s.server mv)
    (haccept : mv.isAccept = false) (hjoin : requests mv.lobbyMoves = []) :
    ∃ w, (GroupChat.server nc).exec s.server mv = some w := by
  -- requests are terminated, as clients have made them
  have hterm : ∀ r ∈ s.server.lobby.members, r.request.Terminated := by
    intro r hr
    obtain ⟨k, hlt, hk⟩ := List.getElem_of_mem hr
    obtain ⟨p, hp⟩ := hcovered k hlt
    obtain ⟨-, r', hr', -, -, hrequest⟩ := (hinv.linked p).exists_serves hp
    have hmember := (List.getElem?_eq_getElem hlt).trans (congrArg some hk)
    obtain rfl := Option.some.inj (hmember.symm.trans hr')
    have hjoined : ∀ handler, handler.member? = none → (s.session p).handler ≠ handler := by
      rintro handler hnone rfl
      simp [hnone] at hp
    rw [hrequest]
    exact ((hinv.linked p).joinRequest_carries (hshort p) (hjoined _ rfl) (hjoined _ rfl)).1
  have hlim := hinv.server.names.withinLimits hterm
  refine hinv.server.inv.exists_exec hinv.server.names hen (by simp [haccept]) ?_ ?_
  · rwa [hjoin, List.append_nil]
  · cases mv with
    | turn c =>
      cases hc : s.server.consumer c with
      | idle => simp only [AddressesGroup, hc]
      | delivering ticket message i =>
        -- the message of a loop is that of a member
        obtain ⟨-, hmessage⟩ := hinv.server.inv.delivering c ticket message i hc
        rw [Server.messages, List.getElem?_map, Option.map_eq_some_iff] at hmessage
        obtain ⟨⟨k, m⟩, hsent, rfl⟩ := hmessage
        have hmem := List.mem_of_getElem? hsent
        have hk := hinv.server.inv.sender _ hmem
        have hr := List.getElem?_eq_getElem hk
        have hgroup := (hinv.server.honest k m hmem _ hr).2
        have hlt := (hinv.server.inv.slots.lt_of_mem (List.mem_of_getElem? hr)).1
        have hbounds : 0 ≤ m.groupId.toInt ∧ m.groupId.toInt < maxGroups := by
          rw [hgroup]
          omega
        simpa only [AddressesGroup, hc] using hbounds
    | _ => trivial

omit [DecidableEq ι] in
/-- A member whose response has not been written has a handler that is about to do so. -/
theorem Inv.exists_respond (hinv : s.Inv args n) (hcovered : s.Covered) {k : ℕ} {r : Member}
    (hr : s.server.lobby.members[k]? = some r) (hphase : r.phase = .joined) :
    ∃ p, (s.session p).handler = .respond k := by
  obtain ⟨p, hp⟩ := hcovered k (List.getElem?_eq_some_iff.mp hr).1
  have hserves : ∀ phase, (s.session p).Serves s.server k phase → phase = .joined := by
    rintro phase ⟨r', hr', -, rfl, -⟩
    rw [Option.some.inj (hr'.symm.trans hr), hphase]
  have hplaced := (hinv.linked p).placed
  refine ⟨p, ?_⟩
  cases hx : (s.session p).handler
  all_goals simp only [hx, Handler.member?, reduceCtorEq, Option.some.injEq] at hp
  all_goals subst hp
  all_goals simp only [Session.Placed, hx] at hplaced
  case respond => rfl
  all_goals exact absurd (hserves _ hplaced) (by simp)

/-- A handler can write its response. -/
theorem Inv.settles_respond (hinv : s.Inv args n) (hshort : ∀ p, (args p).Short)
    (hcovered : s.Covered) {p : ι} {k : ℕ} (hhandler : (s.session p).handler = .respond k) :
    ∃ m, s.Settles m ∧ ((chat nc args).exec s m).isSome := by
  have hplaced := (hinv.linked p).placed
  simp only [Session.Placed, hhandler] at hplaced
  obtain ⟨⟨r, hr, -, hphase, -⟩, -⟩ := hplaced
  have hen : (GroupChat.server nc).enabled s.server (.respond k) :=
    Option.map_eq_some_iff.mpr ⟨r, hr, hphase⟩
  obtain ⟨w, hw⟩ := hinv.exists_server_exec hshort hcovered hen rfl rfl
  have heff := (StepSystem.exec_eq_some.mp hw).2
  refine ⟨.respond p k, ⟨trivial, trivial⟩, StepSystem.isSome_exec ⟨hhandler, hen⟩ ?_⟩
  simp only [chat, Option.isSome_map, heff, Option.isSome_some]

/-- Where a consumer is in its loop, it or a handler can go on. -/
theorem Inv.settles_turn (hinv : s.Inv args n) (hshort : ∀ p, (args p).Short)
    (hcovered : s.Covered) {c : Fin nc} (hc : s.server.consumer c ≠ .idle) :
    ∃ m, s.Settles m ∧ ((chat nc args).exec s m).isSome := by
  by_cases hanswered : s.server.Answered (.turn c)
  · have hen : (GroupChat.server nc).enabled s.server (.turn c) := hc
    obtain ⟨w, hw⟩ := hinv.exists_server_exec hshort hcovered hen rfl rfl
    have heff := (StepSystem.exec_eq_some.mp hw).2
    refine ⟨.turn c, ⟨hanswered, trivial⟩, StepSystem.isSome_exec hc ?_⟩
    simp only [chat, Option.isSome_map, heff, Option.isSome_some]
  · -- the member of the slot waits for its response
    cases hloop : s.server.consumer c with
    | idle => exact absurd hloop hc
    | delivering ticket message i =>
      simp only [Server.Answered, hloop] at hanswered
      push Not at hanswered
      obtain ⟨r, hmem, -, -, -, hphase⟩ := hanswered
      obtain ⟨k, hlt, hk⟩ := List.getElem_of_mem hmem
      obtain ⟨p, hp⟩ := hinv.exists_respond hcovered
        ((List.getElem?_eq_getElem hlt).trans (congrArg some hk)) hphase
      exact hinv.settles_respond hshort hcovered hp

/-- A message in the queue can be removed when a consumer is idle. -/
theorem Inv.settles_pop (hinv : s.Inv args n) {c : Fin nc} (hc : s.server.consumer c = .idle)
    (hlt : s.server.popped.length < s.server.sent.length) :
    ∃ m, s.Settles m ∧ ((chat nc args).exec s m).isSome := by
  have hinv' := hinv.server.inv
  have hne : s.server.messageQueue.contents ≠ [] := by
    intro hnil
    have hfifo := congrArg List.length hinv'.fifo
    rw [hnil, List.length_drop, messages, List.length_map, List.map_nil, List.length_nil] at hfifo
    omega
  obtain ⟨e, es, hcontents⟩ := List.exists_cons_of_ne_nil hne
  obtain ⟨q, hq, -⟩ := Queue.popQueue_of_ne_nil hinv'.wf hcontents
  have hempty : queueIsEmpty s.server.messageQueue = false := by
    rw [Bool.eq_false_iff]
    exact fun hempty => hne ((Queue.queueIsEmpty_iff hinv'.wf).mp hempty)
  refine ⟨.pop c, ⟨trivial, trivial⟩, StepSystem.isSome_exec ⟨hc, hempty⟩ ?_⟩
  simp only [chat, GroupChat.server, Option.isSome_map, hq, Option.isSome_some]

/-- A handler with a message can insert it into an empty queue. -/
theorem Inv.settles_insert (hinv : s.Inv args n) (hn : 0 < n) {p : ι} {k : ℕ}
    (hhandler : (s.session p).handler = .insert k)
    (hremoved : s.server.sent.length ≤ s.server.popped.length) :
    ∃ m, s.Settles m ∧ ((chat nc args).exec s m).isSome := by
  have hinv' := hinv.server.inv
  have hplaced := (hinv.linked p).placed
  simp only [Session.Placed, hhandler] at hplaced
  obtain ⟨r, hr, -, hphase, -⟩ := hplaced
  have hnil : s.server.messageQueue.contents = [] := by
    have hfifo := congrArg List.length hinv'.fifo
    rw [List.length_drop, messages, List.length_map, List.length_map] at hfifo
    exact List.length_eq_zero_iff.mp (by omega)
  have hfull : queueIsFull s.server.messageQueue = some false := by
    rw [Queue.queueIsFull_eq hinv'.wf, hnil, List.length_nil, decide_eq_false (by omega)]
  obtain ⟨q, hq, -⟩ := Queue.insertQueue_of_lt hinv'.wf (by rw [hnil]; exact hn)
    (s.session p).inserted ⟨0, 0⟩
  have hen : (GroupChat.server nc).enabled s.server
      (.enqueue k (s.session p).inserted ⟨0, 0⟩) :=
    ⟨Option.map_eq_some_iff.mpr ⟨r, hr, hphase⟩, hfull⟩
  refine ⟨.insert p k ⟨0, 0⟩, ⟨trivial, trivial⟩, StepSystem.isSome_exec ⟨hhandler, hen⟩ ?_⟩
  simp only [chat, GroupChat.server, Option.isSome_map, hq, Option.isSome_some]

/-- A whole message is what comes first, if anything does. -/
theorem exists_whole {waiting : List UInt8} {ms : List Message}
    (hwaiting : waiting = messageCodec.encodeAll ms) (hne : waiting ≠ []) (closed : Bool) :
    ∃ result : ReadResult, result.Possible messageCodec.size waiting closed ∧
      result.count = messageCodec.size := by
  cases ms with
  | nil => exact absurd hwaiting hne
  | cons m ms =>
    refine ⟨.data (messageCodec.encode m), ⟨⟨?_, ?_⟩, ?_⟩, ?_⟩
    · rw [messageCodec.length_encode]
      decide
    · rw [messageCodec.length_encode]
    · rw [hwaiting, RecordCodec.encodeAll_cons]
      exact List.prefix_append _ _
    · rw [ReadResult.count, messageCodec.length_encode]

/-- A handler can read when there is something to read. -/
theorem Inv.settles_read (hinv : s.Inv args n) {p : ι}
    (hmember : (s.session p).handler.member?.isSome) (hbusy : ¬(s.session p).handler.Busy)
    (hne : (s.session p).outgoing ≠ []) :
    ∃ m, s.Settles m ∧ ((chat nc args).exec s m).isSome := by
  have hlinked := hinv.linked p
  -- behind the loop there is nothing more
  have hclosed : ∀ k, (s.session p).handler ≠ .depart k ∧ (s.session p).handler ≠ .ended k := by
    intro k
    have hall : (s.session p).consumed s.server ≠ (s.session p).client.stream := by
      intro hconsumed
      refine hne ?_
      rw [Session.outgoing, hlinked.taken, hconsumed, List.drop_length]
    exact ⟨fun h => hall (hlinked.closed k (Or.inl h)).2,
      fun h => hall (hlinked.closed k (Or.inr h)).2⟩
  obtain ⟨k, hhandler⟩ : ∃ k, (s.session p).handler = .read k := by
    cases hx : (s.session p).handler with
    | absent | readRequest | join => simp [hx, Handler.member?] at hmember
    | respond k | insert k => simp [hx, Handler.Busy] at hbusy
    | read k => exact ⟨k, rfl⟩
    | depart k => exact absurd hx (hclosed k).1
    | ended k => exact absurd hx (hclosed k).2
  obtain ⟨rest, hrest⟩ := hlinked.exists_outgoing hhandler
  obtain ⟨result, hpossible, hcount⟩ := exists_whole hrest hne (s.session p).exited
  have hpos : result.count ≠ 0 := by
    rw [hcount]
    decide
  exact ⟨.read p k result, ⟨Or.inl hcount, hpos⟩,
    StepSystem.isSome_exec ⟨hhandler, hpossible⟩ rfl⟩

/-- A receiver can read when there is something to read. -/
theorem Inv.settles_receive (hinv : s.Inv args n) {p : ι} (hrun : (s.session p).Running)
    (hans : (s.session p).Answered) (hne : (s.session p).incoming s.server ≠ []) :
    ∃ m, s.Settles m ∧ ((chat nc args).exec s m).isSome := by
  obtain ⟨rest, hrest⟩ := (hinv.linked p).exists_incoming hinv.server hans
  obtain ⟨result, hpossible, hcount⟩ := exists_whole hrest hne false
  exact ⟨.receive p result ⟨0, 0⟩, ⟨hcount, trivial⟩,
    StepSystem.isSome_exec ⟨hrun, hans, hpossible⟩ rfl⟩

/-- **Somebody can move**, as long as the chat is not settled. -/
theorem Inv.exists_settling (hinv : s.Inv args n) (hshort : ∀ p, (args p).Short)
    (hcovered : s.Covered) (hnc : 0 < nc) (hn : 0 < n) (hnot : ¬s.Settled) :
    ∃ m, s.Settles m ∧ ((chat nc args).exec s m).isSome := by
  by_cases hidle : ∀ c, s.server.consumer c = .idle
  · by_cases hremoved : s.server.sent.length ≤ s.server.popped.length
    · by_cases hinserted : ∀ p, ¬(s.session p).handler.Busy
      · by_cases houtgoing : ∀ p, (s.session p).handler.member?.isSome → (s.session p).outgoing = []
        · have hincoming : ¬∀ p, (s.session p).Running → (s.session p).Answered →
              (s.session p).incoming s.server = [] := fun hincoming =>
            hnot ⟨hremoved, hidle, hinserted, houtgoing, hincoming⟩
          push Not at hincoming
          obtain ⟨p, hrun, hans, hne⟩ := hincoming
          exact hinv.settles_receive hrun hans hne
        · push Not at houtgoing
          obtain ⟨p, hmember, hne⟩ := houtgoing
          exact hinv.settles_read hmember (hinserted p) hne
      · push Not at hinserted
        obtain ⟨p, hbusy⟩ := hinserted
        cases hx : (s.session p).handler with
        | respond k => exact hinv.settles_respond hshort hcovered hx
        | insert k => exact hinv.settles_insert hn hx hremoved
        | _ => simp [hx, Handler.Busy] at hbusy
    · exact hinv.settles_pop (hidle ⟨0, hnc⟩) (Nat.not_le.mp hremoved)
  · push Not at hidle
    obtain ⟨c, hc⟩ := hidle
    exact hinv.settles_turn hshort hcovered hc

/-! ### Coming to rest -/

variable {input : ι → List UInt8} {ms : List (ChatMove ι nc)}

theorem covered_of_run (hs : s.Initial n input) (hshort : ∀ p, (args p).Short)
    (hG : (chat nc args).Always Orderly s ms) (hrun : (chat nc args).run s ms = some t) :
    t.Covered := by
  refine (StepSystem.run_invariant (I := fun v => v.Inv args n ∧ v.Covered)
    (fun v m w hv hG hexec => ?_) ⟨hs.inv, hs.covered⟩ hG hrun).2
  have hstep := step_of_exec hexec
  exact ⟨hstep.inv hv.1 hshort hG, hstep.covered hv.1 hv.2⟩

/-- **The chat comes to rest.** As long as no client has ended, the moves that pass on what
there is come to an end, however they are scheduled, and as long as the chat is not settled
there is one more of them; so there is a schedule that settles it. None of them ends a
client. -/
theorem chat_settles [Fintype ι] (hs : s.Initial n input) (hshort : ∀ p, (args p).Short)
    (hnc : 0 < nc) (hn : 0 < n) (hG : (chat nc args).Always Orderly s ms)
    (hrun : (chat nc args).run s ms = some u) (hrunning : ∀ p, (u.session p).Running) :
    (∀ post t, (chat nc args).Always Settles u post → (chat nc args).run u post = some t →
      post.length ≤ u.work ∧ (∀ p, (t.session p).Running) ∧
        (t.Settled ∨ ∃ m, t.Settles m ∧ ((chat nc args).exec t m).isSome)) ∧
    ∃ post t, (chat nc args).Always Settles u post ∧ (chat nc args).run u post = some t ∧
      (∀ p, (t.session p).Running) ∧ t.Settled := by
  have hstep : ∀ v m w, (v.Inv args n ∧ v.Covered ∧ ∀ p, (v.session p).Running) → v.Settles m →
      (chat nc args).exec v m = some w →
        (w.Inv args n ∧ w.Covered ∧ ∀ p, (w.session p).Running) ∧ w.work < v.work := by
    rintro v m w ⟨hv, hcovered, hrunning⟩ hsettles hexec
    have hstep := step_of_exec hexec
    exact ⟨⟨hstep.inv hv hshort hsettles.1, hstep.covered hv hcovered,
      hstep.running hsettles hrunning⟩, hstep.work_lt hv hsettles⟩
  have hprogress : ∀ v, (v.Inv args n ∧ v.Covered ∧ ∀ p, (v.session p).Running) → ¬v.Settled →
      ∃ m, v.Settles m ∧ ((chat nc args).exec v m).isSome :=
    fun v hv hnot => hv.1.exists_settling hshort hv.2.1 hnc hn hnot
  have hu : u.Inv args n ∧ u.Covered ∧ ∀ p, (u.session p).Running :=
    ⟨inv_of_run hs.inv hshort hG hrun, covered_of_run hs hshort hG hrun, hrunning⟩
  have hinv : ∀ post t, (chat nc args).Always Settles u post → (chat nc args).run u post = some t →
      t.Inv args n ∧ t.Covered ∧ ∀ p, (t.session p).Running := fun post t hpost ht =>
    StepSystem.run_invariant (fun v m w hv hG hexec => (hstep v m w hv hG hexec).1) hu hpost ht
  constructor
  · intro post t hpost ht
    refine ⟨StepSystem.length_le_of_run hstep hu hpost ht, (hinv post t hpost ht).2.2, ?_⟩
    by_cases hsettled : t.Settled
    · exact Or.inl hsettled
    · exact Or.inr (hprogress t (hinv post t hpost ht) hsettled)
  · obtain ⟨post, t, hpost, ht, hsettled⟩ := StepSystem.exists_run_until hstep hprogress hu
    exact ⟨post, t, hpost, ht, (hinv post t hpost ht).2.2, hsettled⟩

/-- The hello of one of two clients has been sent, and nobody has read it. -/
theorem chat_settles_hello :
    ∃ u, (chat consumerThreadCount twoNames).run
        (start consumerThreadCount (newQueue 1) fun _ => []) helloSent = some u ∧ ¬u.Settled ∧
      ∃ post t, (chat consumerThreadCount twoNames).run u post = some t ∧
        (∀ p, (t.session p).Running) ∧ t.Settled := by
  obtain ⟨u, hrun, hnot, hrunning⟩ : ∃ u, (chat consumerThreadCount twoNames).run
      (start consumerThreadCount (newQueue 1) fun _ => []) helloSent = some u ∧ ¬u.Settled ∧
        ∀ p, (u.session p).Running :=
    StepSystem.exists_run (by decide +kernel)
  obtain ⟨-, post, t, -, hpost, hsettled⟩ := chat_settles
    (initial_start (exists_initQueue_newQueue (by decide)) fun _ => []) short_twoNames (by decide)
    (by decide) (by decide +kernel) hrun hrunning
  exact ⟨u, hrun, hnot, post, t, hpost, hsettled⟩

end Chat

end GroupChat
